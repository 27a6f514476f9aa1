import Replica.Context
import Replica.Proofs.Imports
import Replica.Proofs.Worklist

/-!
What a context holds after needs were added to it. Each kind of need goes to a place of its own.
-/

namespace Replica

def Need.replica? : Need → Option QualName
  | .replica q => some q
  | _ => none

def replicasOf (needs : List Need) : List QualName :=
  needs.filterMap Need.replica?

theorem mem_replicasOf {needs : List Need} {q : QualName} :
    q ∈ replicasOf needs ↔ Need.replica q ∈ needs := by
  rw [replicasOf, List.mem_filterMap]
  constructor
  · intro given
    rcases given with ⟨need, member, found⟩
    cases need with
    | replica r =>
        cases found
        exact member
    | package path => cases found
    | obligation owed => cases found
  · exact fun member => ⟨_, member, rfl⟩

theorem replicasOf_append (before after : List Need) :
    replicasOf (before ++ after) = replicasOf before ++ replicasOf after :=
  List.filterMap_append

def Need.obligation? : Need → Option Obligation
  | .obligation owed => some owed
  | _ => none

def obligationsOf (needs : List Need) : List Obligation :=
  needs.filterMap Need.obligation?

theorem mem_obligationsOf {needs : List Need} {owed : Obligation} :
    owed ∈ obligationsOf needs ↔ Need.obligation owed ∈ needs := by
  rw [obligationsOf, List.mem_filterMap]
  constructor
  · intro given
    rcases given with ⟨need, member, found⟩
    cases need with
    | obligation other =>
        cases found
        exact member
    | package path => cases found
    | replica q => cases found
  · exact fun member => ⟨_, member, rfl⟩

theorem obligationsOf_append (before after : List Need) :
    obligationsOf (before ++ after) = obligationsOf before ++ obligationsOf after :=
  List.filterMap_append

namespace Context

/-- `c'` is `c` with `needs` added. -/
structure Grown (c : Context) (needs : List Need) (c' : Context) : Prop where
  pushed : c.worklist.pushAll (replicasOf needs) = .ok c'.worklist
  imports : ∀ path, path ∈ c'.imports ↔ path ∈ c.imports ∨ Need.package path ∈ needs
  increasing : c.imports.Pairwise (· < ·) → c'.imports.Pairwise (· < ·)
  obligations : ∀ owed, owed ∈ c'.obligations ↔ owed ∈ c.obligations ∨ Need.obligation owed ∈ needs

theorem mem_owe {c : Context} {owed other : Obligation} :
    other ∈ (c.owe owed).obligations ↔ other ∈ c.obligations ∨ other = owed := by
  unfold owe
  split
  · rename_i known
    constructor
    · exact .inl
    · intro given
      rcases given with member | rfl
      · exact member
      · exact known
  · rw [List.mem_append, List.mem_singleton]

theorem worklist_owe (c : Context) (owed : Obligation) : (c.owe owed).worklist = c.worklist := by
  unfold owe
  split <;> rfl

theorem imports_owe (c : Context) (owed : Obligation) : (c.owe owed).imports = c.imports := by
  unfold owe
  split <;> rfl

inductive Adds (c : Context) : Need → Context → Prop where
  | package (path : String) : Adds c (.package path) (c.importPackage path)
  | obligation (owed : Obligation) : Adds c (.obligation owed) (c.owe owed)
  | replica {q : QualName} {worklist : Worklist} (pushed : c.worklist.push q = .ok worklist) :
      Adds c (.replica q) { c with worklist }

theorem absorb_cons_eq_ok {c c'' : Context} {n : Need} {rest : List Need} :
    c.absorb (n :: rest) = (c'', .ok ()) ↔ ∃ c', c.Adds n c' ∧ c'.absorb rest = (c'', .ok ()) := by
  constructor
  · intro absorbed
    cases n with
    | package path => exact ⟨_, .package path, absorbed⟩
    | obligation owed => exact ⟨_, .obligation owed, absorbed⟩
    | replica q =>
        rw [absorb] at absorbed
        split at absorbed
        · cases absorbed
        · rename_i worklist pushed
          exact ⟨_, .replica pushed, absorbed⟩
  · rintro ⟨c', adds, absorbed⟩
    cases adds with
    | package path => exact absorbed
    | obligation owed => exact absorbed
    | replica pushed => rw [absorb, pushed]; exact absorbed

theorem absorb_eq_ok {c c' : Context} {needs : List Need}
    (absorbed : c.absorb needs = (c', .ok ())) : Grown c needs c' := by
  induction needs generalizing c with
  | nil =>
      cases absorbed
      exact ⟨rfl, fun _ => by simp, id, fun _ => by simp⟩
  | cons need rest ih =>
      obtain ⟨next, adds, later⟩ := absorb_cons_eq_ok.mp absorbed
      have grown := ih later
      cases adds with
      | package path =>
          refine ⟨grown.pushed, ?_,
            fun increasing => grown.increasing (pairwise_insertPath increasing), ?_⟩
          · intro other
            rw [grown.imports, importPackage, mem_insertPath, List.mem_cons, Need.package.injEq]
            rw [or_assoc, or_left_comm]
          · intro owed
            rw [grown.obligations, List.mem_cons]
            simp [importPackage]
      | @replica q worklist pushed =>
          refine ⟨?_, ?_, grown.increasing, ?_⟩
          · change c.worklist.pushAll (q :: replicasOf rest) = _
            rw [Worklist.pushAll, pushed]
            exact grown.pushed
          · intro path
            rw [grown.imports, List.mem_cons]
            simp
          · intro owed
            rw [grown.obligations, List.mem_cons]
            simp
      | obligation owed =>
          refine ⟨?_, ?_, ?_, ?_⟩
          · rw [← worklist_owe c owed]
            exact grown.pushed
          · intro path
            rw [grown.imports, imports_owe, List.mem_cons]
            simp
          · rw [← imports_owe c owed]
            exact grown.increasing
          · intro other
            rw [grown.obligations, mem_owe, List.mem_cons, Need.obligation.injEq, or_assoc]

def Holds (c : Context) : Need → Prop
  | .package path => path ∈ c.imports
  | .replica q => q ∈ c.worklist.known
  | .obligation owed => owed ∈ c.obligations

theorem Grown.holds_iff {c c' : Context} {needs : List Need} (grown : Grown c needs c')
    (need : Need) : c'.Holds need ↔ c.Holds need ∨ need ∈ needs := by
  cases need with
  | package path => exact grown.imports path
  | replica q =>
      rw [← mem_replicasOf]
      exact Worklist.mem_known_pushAll grown.pushed
  | obligation owed => exact grown.obligations owed

theorem holds_of_known {c : Context} {worklist : Worklist}
    (same : worklist.known = c.worklist.known) (need : Need) :
    Holds { c with worklist } need ↔ c.Holds need := by
  cases need with
  | replica q => rw [Holds, Holds, same]
  | package path => rfl
  | obligation owed => rfl

theorem absorb_ok {inside : QualName → Prop}
    (injective : ∀ p q, inside p → inside q → p.flat = q.flat → p = q) {c : Context}
    {needs : List Need} (known : ∀ q ∈ c.worklist.known, inside q)
    (fits : ∀ q, Need.replica q ∈ needs → inside q) : ∃ c', c.absorb needs = (c', .ok ()) := by
  induction needs generalizing c with
  | nil => exact ⟨c, rfl⟩
  | cons need rest ih =>
      have later : ∀ q, Need.replica q ∈ rest → inside q :=
        fun q member => fits q (List.mem_cons_of_mem _ member)
      cases need with
      | package path => exact ih (c := c.importPackage path) known later
      | obligation owed =>
          have known' : ∀ q ∈ (c.owe owed).worklist.known, inside q := by
            rw [worklist_owe]
            exact known
          exact ih known' later
      | replica q =>
          obtain ⟨worklist, pushed, known'⟩ :=
            Worklist.push_ok injective known (fits q List.mem_cons_self)
          obtain ⟨c', absorbed⟩ := ih (c := { c with worklist }) known' later
          refine ⟨c', ?_⟩
          rw [absorb, pushed]
          exact absorbed

theorem eraseDups_owe (c : Context) (owed : Obligation) :
    (c.owe owed).obligations.eraseDups = (c.obligations ++ [owed]).eraseDups := by
  unfold owe
  split
  · rename_i known
    exact (eraseDups_concat_of_mem known).symm
  · rfl

theorem obligations_absorb {c c' : Context} {needs : List Need}
    (absorbed : c.absorb needs = (c', .ok ())) :
    c'.obligations.eraseDups = (c.obligations ++ obligationsOf needs).eraseDups := by
  induction needs generalizing c with
  | nil =>
      cases absorbed
      rw [obligationsOf, List.filterMap_nil, List.append_nil]
  | cons need rest ih =>
      obtain ⟨next, adds, later⟩ := absorb_cons_eq_ok.mp absorbed
      have kept := ih later
      cases adds with
      | package path => exact kept
      | replica pushed => exact kept
      | obligation owed =>
          rw [kept, eraseDups_append_left (eraseDups_owe c owed), List.append_assoc]
          rfl

theorem settle_eq_ok {α : Type} {c c' : Context} {owner : String} {s : Spelling α} {a : α}
    (settled : c.settle owner s = (c', .ok a)) :
    c.absorb s.needs = (c', .ok ()) ∧ s = ⟨s.needs, .ok a⟩ := by
  unfold settle at settled
  split at settled
  · cases settled
  · rename_i absorbed
    cases s with
    | mk needs outcome =>
        cases outcome with
        | error e => cases settled
        | ok b =>
            cases settled
            exact ⟨absorbed, rfl⟩

end Context

end Replica
