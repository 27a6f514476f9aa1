import Replica.Proofs.Run.Ending
import Replica.Proofs.Spelling.Limit

/-!
What spelling a type does to a context, and what a context does to the spelling of a type. Main
statement: spelling only adds to the context; once a type is spelled, spelling it again adds
nothing; and a context has no say in the answer, except that a name may be taken in it.
-/

namespace Replica

theorem insertPath_insertPath (path : String) (paths : List String) :
    insertPath path (insertPath path paths) = insertPath path paths := by
  induction paths with
  | nil => simp [insertPath]
  | cons first rest ih =>
      rw [insertPath]
      split
      · simp [insertPath]
      · split
        · rename_i above same
          rw [insertPath, if_neg above, if_pos same]
        · rename_i above other
          rw [insertPath, if_neg above, if_neg other, ih]

theorem insertPath_of_placed {path : String} {paths : List String}
    (placed : insertPath path paths = paths) (other : String) :
    insertPath path (insertPath other paths) = insertPath other paths := by
  induction paths with
  | nil => simp [insertPath] at placed
  | cons first rest ih =>
      have above : ¬ path < first := by
        intro below
        rw [insertPath, if_pos below] at placed
        simpa using congrArg List.length placed
      rw [insertPath.eq_2 other]
      split
      · rename_i before
        have notBefore : ¬ path < other := fun less => above (String.lt_trans less before)
        have distinct : path ≠ other := by
          rintro rfl
          exact above before
        rw [insertPath, if_neg notBefore, if_neg distinct, placed]
      · split
        · exact placed
        · rw [insertPath, if_neg above] at placed ⊢
          split
          · rfl
          · rename_i distinct
            rw [if_neg distinct] at placed
            rw [ih (List.cons.inj placed).2]

namespace Worklist

variable {w w' w'' : Worklist} {q r : QualName}

theorem push_eq_self_iff : w.push q = .ok w ↔ w.known.find? (·.flat == q.flat) = some q := by
  unfold push
  cases found : w.known.find? (·.flat == q.flat) with
  | none =>
      refine iff_of_false (fun same => ?_) nofun
      simpa using congrArg (·.known.length) (Except.ok.inj same)
  | some first => simp

theorem push_push (pushed : w.push q = .ok w') : w'.push q = .ok w' := by
  rcases push_eq_ok pushed with ⟨_, rfl⟩ | ⟨fresh, rfl⟩
  · exact pushed
  · have none : w.known.find? (·.flat == q.flat) = none := by
      simpa [List.find?_eq_none] using fresh
    simp [push_eq_self_iff, List.find?_append, none]

theorem known_prefix_of_push (pushed : w.push q = .ok w') : w.known <+: w'.known := by
  rcases push_eq_ok pushed with ⟨_, rfl⟩ | ⟨_, rfl⟩
  · exact List.prefix_refl _
  · exact List.prefix_append _ _

theorem push_of_prefix (known : w.push q = .ok w) (longer : w.known <+: w'.known) :
    w'.push q = .ok w' := by
  obtain ⟨later, same⟩ := longer
  rw [push_eq_self_iff, ← same, List.find?_append, push_eq_self_iff.mp known, Option.some_or]

end Worklist

namespace Context

variable {c c' c'' : Context} {needs rest : List Need} {n : Need}

/-- `c'` has what `c` has, in the same order, and is done with the same declarations. -/
structure Extends (c c' : Context) : Prop where
  imports : c.imports ⊆ c'.imports
  queue : c.worklist.queue <+: c'.worklist.queue
  known : c.worklist.known <+: c'.worklist.known
  visited : c'.worklist.visited = c.worklist.visited
  obligations : c.obligations <+: c'.obligations

theorem Extends.refl (c : Context) : c.Extends c :=
  ⟨List.Subset.refl _, List.prefix_refl _, List.prefix_refl _, rfl, List.prefix_refl _⟩

theorem Extends.trans (first : c.Extends c') (second : c'.Extends c'') : c.Extends c'' where
  imports := List.Subset.trans first.imports second.imports
  queue := first.queue.trans second.queue
  known := first.known.trans second.known
  visited := second.visited.trans first.visited
  obligations := first.obligations.trans second.obligations

theorem owe_extends (c : Context) (owed : Obligation) : c.Extends (c.owe owed) := by
  unfold owe
  split
  · exact .refl c
  · exact { Extends.refl c with obligations := List.prefix_append _ _ }

theorem Adds.extends (adds : c.Adds n c') : c.Extends c' := by
  cases adds with
  | package path => exact { Extends.refl c with imports := fun _ => mem_insertPath.mpr ∘ .inr }
  | obligation owed => exact owe_extends c owed
  | @replica q worklist pushed =>
      have known := Worklist.known_prefix_of_push pushed
      refine { Extends.refl c with known, queue := ?_, visited := ?_ }
      all_goals rcases Worklist.push_eq_ok pushed with ⟨_, rfl⟩ | ⟨_, rfl⟩
      all_goals simp

/-- The need is met: adding it would change nothing. -/
def Has (c : Context) : Need → Prop
  | .package path => insertPath path c.imports = c.imports
  | .obligation owed => owed ∈ c.obligations
  | .replica q => c.worklist.push q = .ok c.worklist

theorem Has.adds (has : c.Has n) : c.Adds n c := by
  cases n with
  | package path =>
      have placed : insertPath path c.imports = c.imports := has
      have same : c.importPackage path = c := by rw [importPackage, placed]
      simpa only [same] using Adds.package (c := c) path
  | obligation owed =>
      have same : c.owe owed = c := if_pos has
      simpa only [same] using Adds.obligation (c := c) owed
  | replica q => exact .replica has

theorem Adds.has (adds : c.Adds n c') : c'.Has n := by
  cases adds with
  | package path => exact insertPath_insertPath path c.imports
  | obligation owed => exact mem_owe.mpr (.inr rfl)
  | replica pushed => exact Worklist.push_push pushed

theorem Adds.keeps {m : Need} (adds : c.Adds n c') (has : c.Has m) : c'.Has m := by
  cases adds with
  | package path =>
      cases m with
      | package other => exact insertPath_of_placed has path
      | obligation | replica => exact has
  | obligation owed =>
      cases m with
      | package other =>
          rw [Has, imports_owe]
          exact has
      | obligation other => exact mem_owe.mpr (.inl has)
      | replica q =>
          rw [Has, worklist_owe]
          exact has
  | replica pushed =>
      cases m with
      | package | obligation => exact has
      | replica q => exact Worklist.push_of_prefix has (Worklist.known_prefix_of_push pushed)

theorem absorb_extends (c : Context) (needs : List Need) : c.Extends (c.absorb needs).1 := by
  induction needs generalizing c with
  | nil => exact .refl c
  | cons n rest ih =>
      cases n with
      | package path => exact (Adds.package path).extends.trans (ih _)
      | obligation owed => exact (Adds.obligation owed).extends.trans (ih _)
      | replica q =>
          rw [absorb]
          split
          · exact .refl c
          · exact (Adds.replica ‹_›).extends.trans (ih _)

theorem absorb_of_has (has : ∀ n ∈ needs, c.Has n) : c.absorb needs = (c, .ok ()) := by
  induction needs with
  | nil => rfl
  | cons n rest ih =>
      have later := ih fun m member => has m (List.mem_cons_of_mem _ member)
      exact absorb_cons_eq_ok.mpr ⟨c, (has n List.mem_cons_self).adds, later⟩

theorem absorb_has (absorbed : c.absorb needs = (c', .ok ())) :
    (∀ n, c.Has n → c'.Has n) ∧ ∀ n ∈ needs, c'.Has n := by
  induction needs generalizing c with
  | nil =>
      cases absorbed
      exact ⟨fun _ => id, nofun⟩
  | cons n rest ih =>
      obtain ⟨next, adds, later⟩ := absorb_cons_eq_ok.mp absorbed
      obtain ⟨kept, had⟩ := ih later
      refine ⟨fun m has => kept m (adds.keeps has), fun m member => ?_⟩
      rcases List.mem_cons.mp member with rfl | inRest
      · exact kept m adds.has
      · exact had m inRest

theorem absorb_again (absorbed : c.absorb needs = (c', .ok ())) :
    c'.absorb needs = (c', .ok ()) :=
  absorb_of_has (absorb_has absorbed).2

theorem absorb_append (c : Context) (before after : List Need) :
    c.absorb (before ++ after) = match c.absorb before with
      | (c', .ok ()) => c'.absorb after
      | (c', .error e) => (c', .error e) := by
  induction before generalizing c with
  | nil => rfl
  | cons n rest ih =>
      cases n with
      | package path => exact ih _
      | obligation owed => exact ih _
      | replica q =>
          rw [List.cons_append, absorb, absorb]
          cases c.worklist.push q with
          | error e => rfl
          | ok worklist => exact ih _

/-- To add what a sequence of spellings needs is to add what each of them needs in turn: the answer
is the same as if the context had been at hand all along. -/
theorem settle_bind {α β : Type} (c : Context) (owner : String) (s : Spelling α)
    (next : α → Spelling β) :
    c.settle owner (s >>= next) = match c.settle owner s with
      | (c', .ok a) => c'.settle owner (next a)
      | (c', .error e) => (c', .error e) := by
  obtain ⟨needs, outcome⟩ := s
  cases outcome with
  | error e =>
      simp only [settle, bind, Spelling.andThen]
      rcases c.absorb needs with ⟨c', _ | _⟩ <;> rfl
  | ok a =>
      simp only [settle, bind, Spelling.andThen, absorb_append]
      rcases c.absorb needs with ⟨c', _ | _⟩ <;> rfl

theorem settle_extends {α : Type} (c : Context) (owner : String) (s : Spelling α) :
    c.Extends (c.settle owner s).1 := by
  have extended := c.absorb_extends s.needs
  unfold settle
  split <;> (rename_i absorbed; rw [absorbed] at extended; exact extended)

section

variable {ns : Namespace} {owner : String} {scope : List String} {t : Ty} {limit more : Nat}
  {result : Except SynthesisError Expr} {e : Expr}

/-- Spelling `t` for `owner` comes to an end, in the context `c'` and with `result`. -/
structure Writes (c : Context) (ns : Namespace) (owner : String) (scope : List String) (t : Ty)
    (c' : Context) (result : Except SynthesisError Expr) : Prop where
  ends : ∃ limit, c.settle owner (spell limit ns scope t) = (c', result)
  unlimited : ∀ e, result = .error e → ¬ e.Limited

theorem settle_of_cutFrom {s s' : Spelling Expr} (cut : s.CutFrom s')
    (settled : c.settle owner s = (c', result)) (unlimited : ∀ e, result = .error e → ¬ e.Limited) :
    c.settle owner s' = (c', result) := by
  rcases cut with rfl | ⟨reached, later, same⟩
  · exact settled
  · unfold settle at settled ⊢
    rw [← same, absorb_append]
    split at settled
    · rename_i collided
      simpa only [collided] using settled
    · -- Nothing collided, so that a limit was reached is the result.
      rw [reached] at settled
      cases settled
      exact absurd (.inr ⟨owner, rfl⟩) (unlimited _ rfl)

theorem Writes.eventually (writes : c.Writes ns owner scope t c' result) :
    ∃ bound, ∀ limit ≥ bound, c.settle owner (spell limit ns scope t) = (c', result) := by
  obtain ⟨⟨bound, settled⟩, unlimited⟩ := writes
  exact ⟨bound, fun limit le => settle_of_cutFrom (spell_cutFrom le) settled unlimited⟩

theorem Writes.elsewhere (writes : c.Writes ns owner scope t c' (.ok e)) (other : Context)
    (owner' : String) : ∃ other' result, other.Writes ns owner' scope t other' result ∧
      (result = .ok e ∨ ∃ collision, result = .error (.collision collision)) := by
  obtain ⟨limit, settled⟩ := writes.ends
  have spelled := (settle_eq_ok settled).2
  rcases absorbed : other.absorb (spell limit ns scope t).needs with ⟨other', collision | _⟩
  · refine ⟨other', .error (.collision collision), ⟨⟨limit, ?_⟩, ?_⟩, .inr ⟨collision, rfl⟩⟩
    · rw [settle, absorbed]
    · rintro _ ⟨⟩ limited
      simp [SynthesisError.Limited] at limited
  · refine ⟨other', .ok e, ⟨⟨limit, ?_⟩, by simp⟩, .inl rfl⟩
    rw [settle, absorbed, spelled]
    rfl

theorem Writes.unique {c₁ c₂ : Context} {result₁ result₂ : Except SynthesisError Expr}
    (first : c.Writes ns owner scope t c₁ result₁) (second : c.Writes ns owner scope t c₂ result₂) :
    c₁ = c₂ ∧ result₁ = result₂ := by
  obtain ⟨bound, settled⟩ := first.eventually
  obtain ⟨bound', settled'⟩ := second.eventually
  have left := settled (max bound bound') (le_max_left _ _)
  have right := settled' (max bound bound') (le_max_right _ _)
  exact Prod.ext_iff.mp (left.symm.trans right)

theorem Writes.again (writes : c.Writes ns owner scope t c' (.ok e)) (owner' : String) :
    c'.Writes ns owner' scope t c' (.ok e) := by
  obtain ⟨limit, settled⟩ := writes.ends
  obtain ⟨absorbed, spelled⟩ := settle_eq_ok settled
  refine ⟨⟨limit, ?_⟩, by simp⟩
  rw [settle, absorb_again absorbed, spelled]
  rfl

/-- Whatever comes of spelling a type, the context keeps what it had. If the type is spelled, then
doing so again, for any owner, gives the same expression and leaves the context as it is; and in any
other context it gives the same expression or finds a name taken. -/
theorem Writes.only_adds (writes : c.Writes ns owner scope t c' result) :
    c.Extends c' ∧ ∀ e, result = .ok e →
      (∀ owner', c'.Writes ns owner' scope t c' (.ok e) ∧
        ∀ c'' result', c'.Writes ns owner' scope t c'' result' → c'' = c' ∧ result' = .ok e) ∧
      ∀ (other : Context) owner',
        (∃ other' result', other.Writes ns owner' scope t other' result') ∧
        ∀ other' result', other.Writes ns owner' scope t other' result' →
          result' = .ok e ∨ ∃ collision, result' = .error (.collision collision) := by
  constructor
  · obtain ⟨limit, settled⟩ := writes.ends
    have extended := c.settle_extends owner (spell limit ns scope t)
    rwa [settled] at extended
  · rintro e rfl
    refine ⟨fun owner' => ⟨writes.again owner', fun c'' result' second => ?_⟩,
      fun other owner' => ?_⟩
    · exact second.unique (writes.again owner')
    · obtain ⟨found, result, ends, given⟩ := writes.elsewhere other owner'
      refine ⟨⟨found, result, ends⟩, fun other' result' second => ?_⟩
      rwa [(second.unique ends).2]

end

theorem geometry_only_adds :
    ∃ c' e, ({} : Context).Writes geometry "geo.Shape" []
        (.map (.named ⟨"set", "Set"⟩ [.basic "string"])
          (.named ⟨"geo", "cell"⟩ [.named ⟨"geo", "point"⟩ []])) c' (.ok e) ∧
      c'.imports = ["set"] ∧ c'.worklist.known = [⟨"geo", "point"⟩, ⟨"geo", "cell"⟩] ∧
      c'.obligations = [⟨stringer, .named ⟨"geo", "point"⟩ []⟩] ∧
      c'.Writes geometry "geo.Scene" []
        (.map (.named ⟨"set", "Set"⟩ [.basic "string"])
          (.named ⟨"geo", "cell"⟩ [.named ⟨"geo", "point"⟩ []])) c' (.ok e) := by
  have ends : ({} : Context).Writes geometry "geo.Shape" []
      (.map (.named ⟨"set", "Set"⟩ [.basic "string"])
        (.named ⟨"geo", "cell"⟩ [.named ⟨"geo", "point"⟩ []])) _ (.ok _) := ⟨⟨10, rfl⟩, nofun⟩
  exact ⟨_, _, ends, rfl, rfl, rfl, ((ends.only_adds.2 _ rfl).1 "geo.Scene").1⟩

end Context

end Replica
