import Replica.Proofs.Repetition
import Replica.Proofs.Run.Invariant

/-!
What a run does about its obligations. It deals with them in the order in which they were recorded;
a method that is demanded for a receiver is attached once, on account of the first obligation that
demands it.
-/

namespace Replica

/-- `owed` demands that the replica of `receiver` has the method `m`. -/
structure Obligation.Demands (ns : Namespace) (owed : Obligation) (receiver : Receiver)
    (m : Method Ty) : Prop where
  receives : owed.receiver? = some receiver
  able : TakesMethods ns receiver.origin
  closed : Ty.mentionsParamSignature m.signature = false
  asked : ∃ methods, HasMethodSet ns owed.constraint methods ∧ m ∈ methods

abbrev StubName := String × String

def Stub.key (stub : Stub) : StubName := (stub.receiver, stub.method)

def Obligation.DemandsStub (ns : Namespace) (owed : Obligation) (name : StubName) : Prop :=
  ∃ receiver m, owed.Demands ns receiver m ∧ (receiver.origin.flat, m.name) = name

/-- No obligation before `owed` demands the stub `name`. -/
def FirstDemand (ns : Namespace) (obligations : List Obligation) (name : StubName)
    (owed : Obligation) : Prop :=
  owed.DemandsStub ns name ∧ ∃ before after, obligations = before ++ owed :: after ∧
    ∀ earlier ∈ before, ¬ earlier.DemandsStub ns name

/-- `stub` is a method that the first obligation to demand one of its name demands, spelled and
with its parameters and results unnamed. What its spelling needed is in `history`. -/
def FirstCome (ns : Namespace) (history : List Need) (obligations : List Obligation)
    (stub : Stub) : Prop :=
  ∃ owed receiver m limit needs signature,
    FirstDemand ns obligations stub.key owed ∧ owed.Demands ns receiver m ∧
    spellSignature limit ns [] m.signature = ⟨needs, .ok signature⟩ ∧
    (∀ need ∈ needs, need ∈ history) ∧
    stub = ⟨receiver.origin.flat, receiver.pointer, m.name, signature.blanked⟩

variable {ns : Namespace} {roots : List QualName} {history before after : List Need} {s t : Stage}
  {obligations others : List Obligation} {owed : Obligation} {receiver : Receiver} {m : Method Ty}
  {name : StubName} {stub : Stub}

theorem Obligation.Demands.demandsStub (demands : owed.Demands ns receiver m) :
    owed.DemandsStub ns (receiver.origin.flat, m.name) := ⟨receiver, m, demands, rfl⟩

open Classical in
theorem firstDemand_iff_find? :
    FirstDemand ns obligations name owed ↔
      obligations.find? (fun owed => decide (owed.DemandsStub ns name)) = some owed := by
  simp [FirstDemand, List.find?_eq_some_iff_append]

theorem FirstDemand.mem (first : FirstDemand ns obligations name owed) : owed ∈ obligations := by
  obtain ⟨_, before, after, rfl, _⟩ := first
  simp

theorem FirstDemand.append (first : FirstDemand ns obligations name owed)
    (more : List Obligation) : FirstDemand ns (obligations ++ more) name owed := by
  rw [firstDemand_iff_find?] at first ⊢
  rw [List.find?_append, first, Option.some_or]

theorem FirstDemand.congr (first : FirstDemand ns obligations name owed)
    (same : obligations.eraseDups = others.eraseDups) : FirstDemand ns others name owed := by
  rw [firstDemand_iff_find?, ← find?_eraseDups] at first ⊢
  rw [← same, first]

theorem FirstDemand.unique {owed' : Obligation} (first : FirstDemand ns obligations name owed)
    (second : FirstDemand ns obligations name owed') : owed = owed' := by
  rw [firstDemand_iff_find?] at first second
  exact Option.some.inj (first.symm.trans second)

theorem FirstCome.imp {more : List Need} (first : FirstCome ns history obligations stub)
    (longer : ∀ need ∈ history, need ∈ more) (demands : ∀ name owed,
      FirstDemand ns obligations name owed → FirstDemand ns others name owed) :
    FirstCome ns more others stub := by
  obtain ⟨owed, receiver, m, limit, needs, signature, demand, asked, spelled, within, same⟩ := first
  exact ⟨owed, receiver, m, limit, needs, signature, demands _ _ demand, asked, spelled,
    fun need member => longer need (within need member), same⟩

theorem Step.grounded (grounded : AllGrounded ns before) (step : Step ns s after t) :
    AllGrounded ns (before ++ after) := by
  cases step with
  | declare _ _ _ spelled _ => exact grounded.append (spellDecl_spelled spelled).grounded
  | @stub receiver _ _ _ _ _ _ _ closed _ spelled _ =>
      exact grounded.append (spellSignature_spelled receiver closed spelled).grounded
  | gather | dismiss | accept | skip => exact grounded.append allGrounded_nil

theorem Steps.grounded (steps : Steps ns s history t) : AllGrounded ns history := by
  induction steps with
  | refl => exact allGrounded_nil
  | tail _ last ih => exact last.grounded ih

/-- Whether something is owed to a receiver does not depend on when it is dealt with: the replica
of its argument was asked for before the obligation was. -/
theorem Queueing.owes_iff (queueing : Queueing roots history s)
    (exported : ∀ root ∈ roots, root.isPublic = true) (grounded : AllGrounded ns history)
    (recorded : Need.obligation owed ∈ history) :
    s.Owes ns owed receiver ↔ owed.receiver? = some receiver ∧ TakesMethods ns receiver.origin := by
  have known : owed.receiver? = some receiver →
      (receiver.origin ∈ s.context.worklist.known ↔ Need.replica receiver.origin ∈ history) := by
    intro found
    have hidden := (receiver_eq_some_iff.mp found).2
    have noRoot : receiver.origin ∉ roots := by
      intro root
      rw [exported _ root] at hidden
      cases hidden
    rw [queueing.logged, List.mem_eraseDups, List.mem_append, mem_replicasOf]
    simp [noRoot]
  refine and_congr_right fun found => ?_
  rw [known found, grounded.takesMethods_iff recorded found]

/-- The obligations in `dealt` have been dealt with, the last of them up to the methods that are
still due. -/
structure Dealing (ns : Namespace) (history : List Need) (s : Stage) (dealt : List Obligation) :
    Prop where
  order : (obligationsOf history).eraseDups =
    (dealt ++ s.batch ++ s.context.obligations).eraseDups
  met : ∀ owed ∈ dealt, ∀ receiver m, owed.Demands ns receiver m →
    (receiver, m) ∈ s.due ∨ (receiver.origin.flat, m.name) ∈ s.attached
  due : ∀ receiver m, (receiver, m) ∈ s.due → ∃ earlier owed, dealt = earlier ++ [owed] ∧
    (∀ other ∈ earlier, ∀ name, other.DemandsStub ns name → name ∈ s.attached) ∧
    (Ty.mentionsParamSignature m.signature = false → owed.Demands ns receiver m)
  first : ∀ stub ∈ s.stubs, FirstCome ns history dealt stub
  keys : s.attached = s.stubs.map Stub.key
  distinct : s.attached.Nodup

theorem Dealing.start (ns : Namespace) (worklist : Worklist) : Dealing ns [] (.start worklist) [] :=
  ⟨rfl, fun _ member => absurd member List.not_mem_nil, fun _ _ member =>
    absurd member List.not_mem_nil, fun _ member => absurd member List.not_mem_nil, rfl,
    List.nodup_nil⟩

section

variable {dealt : List Obligation} (dealing : Dealing ns before s dealt)

include dealing

theorem Dealing.order_absorb {c c' : Context} (absorbed : c.absorb after = (c', .ok ()))
    (same : c.obligations = s.context.obligations) :
    (obligationsOf (before ++ after)).eraseDups = (dealt ++ s.batch ++ c'.obligations).eraseDups :=
  calc
    (obligationsOf (before ++ after)).eraseDups
      = (obligationsOf before ++ obligationsOf after).eraseDups := by rw [obligationsOf_append]
    _ = (dealt ++ s.batch ++ s.context.obligations ++ obligationsOf after).eraseDups :=
        eraseDups_append_left dealing.order _
    _ = (dealt ++ s.batch ++ (c.obligations ++ obligationsOf after)).eraseDups := by
        rw [List.append_assoc, same]
    _ = (dealt ++ s.batch ++ c'.obligations).eraseDups :=
        eraseDups_append_right (Context.obligations_absorb absorbed).symm _

theorem Dealing.met_of_free (free : s.due = []) :
    ∀ owed ∈ dealt, ∀ name, owed.DemandsStub ns name → name ∈ s.attached := by
  intro owed member name demands
  obtain ⟨receiver, m, demands, rfl⟩ := demands
  simpa [free] using dealing.met owed member receiver m demands

theorem Dealing.dismiss {rest : List Obligation} (free : s.due = []) (next : s.batch = owed :: rest)
    (unable : ∀ receiver m, ¬ owed.Demands ns receiver m) :
    Dealing ns before { s with batch := rest } (dealt ++ [owed]) where
  order := by simpa [next] using dealing.order
  met := by
    intro other member receiver m demands
    rcases List.mem_append.mp member with earlier | last
    · exact dealing.met other earlier receiver m demands
    · rw [List.mem_singleton.mp last] at demands
      exact absurd demands (unable receiver m)
  due := by simp [free]
  first := fun stub member =>
    (dealing.first stub member).imp (fun _ => id) fun _ _ demand => demand.append _
  keys := dealing.keys
  distinct := dealing.distinct

theorem Dealing.accept {rest : List Obligation} {methods : List (Method Ty)} (free : s.due = [])
    (next : s.batch = owed :: rest) (receives : owed.receiver? = some receiver)
    (able : TakesMethods ns receiver.origin) (has : HasMethodSet ns owed.constraint methods) :
    Dealing ns before { s with batch := rest, due := methods.map (receiver, ·) }
      (dealt ++ [owed]) where
  order := by simpa [next] using dealing.order
  met := by
    intro other member receiver' m demands
    rcases List.mem_append.mp member with earlier | last
    · exact .inr (dealing.met_of_free free other earlier _ demands.demandsStub)
    · cases List.mem_singleton.mp last
      obtain ⟨methods', has', asked⟩ := demands.asked
      cases has.unique has'
      cases receives.symm.trans demands.receives
      exact .inl (List.mem_map.mpr ⟨m, asked, rfl⟩)
  due := by
    intro receiver' m member
    obtain ⟨m', asked, same⟩ := List.mem_map.mp member
    cases same
    exact ⟨dealt, owed, rfl, dealing.met_of_free free,
      fun closed => ⟨receives, able, closed, methods, has, asked⟩⟩
  first := fun stub member =>
    (dealing.first stub member).imp (fun _ => id) fun _ _ demand => demand.append _
  keys := dealing.keys
  distinct := dealing.distinct

theorem Dealing.skip {rest : List (Receiver × Method Ty)} (next : s.due = (receiver, m) :: rest)
    (skipped : Ty.mentionsParamSignature m.signature = true ∨
      (receiver.origin.flat, m.name) ∈ s.attached) :
    Dealing ns before { s with due := rest } dealt where
  order := dealing.order
  met := by
    intro owed member receiver' m' demands
    rcases dealing.met owed member receiver' m' demands with isDue | attached
    · rw [next] at isDue
      rcases List.mem_cons.mp isDue with same | later
      · cases same
        exact .inr (skipped.resolve_left (by simp [demands.closed]))
      · exact .inl later
    · exact .inr attached
  due := fun receiver' m' member => dealing.due receiver' m' (by simp [next, member])
  first := dealing.first
  keys := dealing.keys
  distinct := dealing.distinct

theorem Dealing.attach {rest : List (Receiver × Method Ty)} {limit : Nat}
    {signature : Signature Expr} {context : Context} (next : s.due = (receiver, m) :: rest)
    (closed : Ty.mentionsParamSignature m.signature = false)
    (fresh : (receiver.origin.flat, m.name) ∉ s.attached)
    (spelled : spellSignature limit ns [] m.signature = ⟨after, .ok signature⟩)
    (absorbed : s.context.absorb after = (context, .ok ())) :
    Dealing ns (before ++ after) { s with
      context
      attached := s.attached ++ [(receiver.origin.flat, m.name)]
      stubs := s.stubs ++ [⟨receiver.origin.flat, receiver.pointer, m.name, signature.blanked⟩]
      due := rest } dealt where
  order := dealing.order_absorb absorbed rfl
  met := by
    intro other member receiver' m' demands
    rcases dealing.met other member receiver' m' demands with isDue | attached
    · rw [next] at isDue
      rcases List.mem_cons.mp isDue with same | later
      · cases same
        exact .inr (List.mem_append_right _ (List.mem_singleton_self _))
      · exact .inl later
    · exact .inr (List.mem_append_left _ attached)
  due := by
    intro receiver' m' member
    obtain ⟨earlier, owed, same, attached, demands⟩ :=
      dealing.due receiver' m' (by simp [next, member])
    refine ⟨earlier, owed, same, fun other inside name demands => ?_, demands⟩
    exact List.mem_append_left _ (attached other inside name demands)
  first := by
    intro stub member
    rcases List.mem_append.mp member with old | new
    · exact (dealing.first stub old).imp (fun _ => List.mem_append_left _) fun _ _ => id
    · cases List.mem_singleton.mp new
      obtain ⟨earlier, owed, rfl, attached, demanded⟩ := dealing.due receiver m (by simp [next])
      have demands := demanded closed
      refine ⟨owed, receiver, m, limit, after, signature, ?_, demands, spelled,
        fun _ => List.mem_append_right _, rfl⟩
      refine ⟨demands.demandsStub, earlier, [], rfl, fun other inside demands => ?_⟩
      -- What an earlier obligation demands has been attached.
      exact fresh (attached other inside _ demands)
  keys := by
    rw [List.map_append, ← dealing.keys]
    rfl
  distinct := by
    simp only [List.nodup_append, dealing.distinct, List.nodup_singleton, List.mem_singleton,
      true_and]
    intro name member other single same
    rw [single] at same
    exact fresh (same ▸ member)

theorem Dealing.step (owes_iff : ∀ owed ∈ s.batch, ∀ receiver, s.Owes ns owed receiver ↔
      owed.receiver? = some receiver ∧ TakesMethods ns receiver.origin)
    (step : Step ns s after t) : ∃ dealt, Dealing ns (before ++ after) t dealt := by
  cases step with
  | declare idle popped declared spelled absorbed =>
      have order := dealing.order_absorb absorbed rfl
      refine ⟨dealt, order, dealing.met, dealing.due, fun stub member => ?_, dealing.keys,
        dealing.distinct⟩
      exact (dealing.first stub member).imp (fun _ => List.mem_append_left _) fun _ _ => id
  | stub next closed fresh spelled absorbed =>
      exact ⟨dealt, dealing.attach next closed fresh spelled absorbed⟩
  | gather idle drained owing =>
      rw [List.append_nil]
      obtain ⟨none, free⟩ := idle
      refine ⟨dealt, ?_, dealing.met, dealing.due, dealing.first, dealing.keys, dealing.distinct⟩
      simpa [none] using dealing.order
  | @dismiss owed rest free next unowed =>
      rw [List.append_nil]
      refine ⟨_, dealing.dismiss free next fun receiver m demands => ?_⟩
      exact unowed receiver ((owes_iff owed (by simp [next]) receiver).mpr
        ⟨demands.receives, demands.able⟩)
  | @accept owed rest receiver methods free next owes has =>
      rw [List.append_nil]
      obtain ⟨receives, able⟩ := (owes_iff owed (by simp [next]) receiver).mp owes
      exact ⟨_, dealing.accept free next receives able has⟩
  | skip next skipped =>
      rw [List.append_nil]
      exact ⟨dealt, dealing.skip next skipped⟩

end

theorem Steps.dealing {worklist : Worklist} (exported : ∀ root ∈ roots, root.isPublic = true)
    (pushed : Worklist.pushAll {} roots = .ok worklist)
    (steps : Steps ns (.start worklist) history t) : ∃ dealt, Dealing ns history t dealt := by
  induction steps with
  | refl => exact ⟨[], .start ns worklist⟩
  | tail earlier last ih =>
      obtain ⟨dealt, dealing⟩ := ih
      have sound := earlier.sound (inherited_anything ns) pushed
      refine dealing.step (fun owed member receiver => ?_) last
      exact sound.queueing.owes_iff exported earlier.grounded (sound.recorded.batch owed member)

end Replica
