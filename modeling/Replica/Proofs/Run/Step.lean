import Replica.Proofs.Context
import Replica.Proofs.Except
import Replica.Proofs.MethodSet
import Replica.Synthesis

/-!
A run as steps that know no limits. A step declares one replica, begins a round with all open
obligations, deals with the next obligation of the round or with the next method due for one. Each
says what was needed, and these needs together are the history of a run.
-/

namespace Replica

/-- A run, the obligations its round still has to look at, and the methods that the last one of
them asks for. -/
structure Stage extends Run where
  batch : List Obligation := []
  due : List (Receiver × Method Ty) := []

/-- An obligation is about a replica of the file that can have methods. -/
def Stubbing.Owes (s : Stubbing) (ns : Namespace) (owed : Obligation) (receiver : Receiver) : Prop :=
  owed.receiver? = some receiver ∧ receiver.origin ∈ s.context.worklist.known ∧
    ns.declaresInterface receiver.origin = false

def Stage.Idle (s : Stage) : Prop := s.batch = [] ∧ s.due = []

def Stage.Drained (s : Stage) : Prop := s.context.worklist.pop.1 = none

inductive Step (ns : Namespace) : Stage → List Need → Stage → Prop where
  | declare {s : Stage} {q : QualName} {worklist : Worklist} {source : TypeDecl} {limit : Nat}
      {needs : List Need} {decl : Decl} {context : Context} (idle : s.Idle)
      (popped : s.context.worklist.pop = (some q, worklist))
      (declared : ns.declaration? q = some source)
      (spelled : spellDecl limit ns q source = ⟨needs, .ok decl⟩)
      (absorbed : Context.absorb { s.context with worklist } needs = (context, .ok ())) :
      Step ns s needs { s with
        context := { context with worklist := context.worklist.markVisited decl.name }
        decls := s.decls ++ [decl] }
  | gather {s : Stage} (idle : s.Idle) (drained : s.Drained) (owing : s.context.obligations ≠ []) :
      Step ns s [] { s with
        context := { s.context with obligations := [] }
        batch := s.context.obligations }
  | dismiss {s : Stage} {owed : Obligation} {rest : List Obligation} (free : s.due = [])
      (next : s.batch = owed :: rest) (unowed : ∀ receiver, ¬ s.Owes ns owed receiver) :
      Step ns s [] { s with batch := rest }
  | accept {s : Stage} {owed : Obligation} {rest : List Obligation} {receiver : Receiver}
      {methods : List (Method Ty)} (free : s.due = []) (next : s.batch = owed :: rest)
      (owes : s.Owes ns owed receiver) (demands : HasMethodSet ns owed.constraint methods) :
      Step ns s [] { s with batch := rest, due := methods.map (receiver, ·) }
  | skip {s : Stage} {receiver : Receiver} {m : Method Ty} {rest : List (Receiver × Method Ty)}
      (next : s.due = (receiver, m) :: rest)
      (skipped : Ty.mentionsParamSignature m.signature = true ∨
        (receiver.origin.flat, m.name) ∈ s.attached) :
      Step ns s [] { s with due := rest }
  | stub {s : Stage} {receiver : Receiver} {m : Method Ty} {rest : List (Receiver × Method Ty)}
      {limit : Nat} {needs : List Need} {signature : Signature Expr} {context : Context}
      (next : s.due = (receiver, m) :: rest)
      (closed : Ty.mentionsParamSignature m.signature = false)
      (fresh : (receiver.origin.flat, m.name) ∉ s.attached)
      (spelled : spellSignature limit ns [] m.signature = ⟨needs, .ok signature⟩)
      (absorbed : s.context.absorb needs = (context, .ok ())) :
      Step ns s needs { s with
        context
        attached := s.attached ++ [(receiver.origin.flat, m.name)]
        stubs := s.stubs ++ [⟨receiver.origin.flat, receiver.pointer, m.name, signature.blanked⟩]
        due := rest }

/-- Some steps in a row and all that was needed for them. -/
inductive Steps (ns : Namespace) : Stage → List Need → Stage → Prop where
  | refl (s : Stage) : Steps ns s [] s
  | tail {s t u : Stage} {before after : List Need} (first : Steps ns s before t)
      (last : Step ns t after u) : Steps ns s (before ++ after) u

namespace Steps

variable {ns : Namespace} {s t u : Stage} {before after history : List Need}

theorem single (step : Step ns s history t) : Steps ns s history t := .tail (.refl s) step

theorem trans (first : Steps ns s before t) (second : Steps ns t after u) :
    Steps ns s (before ++ after) u := by
  induction second with
  | refl =>
      rw [List.append_nil]
      exact first
  | tail _ last ih =>
      rw [← List.append_assoc]
      exact .tail ih last

/-- What holds at the start and passes from each stage to the next holds at the end. -/
theorem invariant {inv : List Need → Stage → Prop} (steps : Steps ns s history t)
    (base : inv [] s)
    (step : ∀ {before after t u}, inv before t → Step ns t after u → inv (before ++ after) u) :
    inv history t := by
  induction steps with
  | refl => exact base
  | tail _ last ih => exact step ih last

end Steps

variable {ns : Namespace} {limit : Nat}

/-- Draining that comes to an end: nothing is queued, or the next replica is declared and the rest
drained. -/
inductive Run.Drains (ns : Namespace) (limit : Nat) : (steps : Nat) → (run final : Run) → Prop where
  | done {steps : Nat} {run : Run} (empty : run.context.worklist.pop.1 = none) :
      Drains ns limit steps run run
  | declare {steps : Nat} {run final : Run} {q : QualName} {worklist : Worklist} {source : TypeDecl}
      {context : Context} {decl : Decl} (popped : run.context.worklist.pop = (some q, worklist))
      (declared : ns.declaration? q = some source)
      (settled : Context.settle { run.context with worklist } q.qualified
        (spellDecl limit ns q source) = (context, .ok decl))
      (later : Drains ns limit steps { run with
        context := { context with worklist := context.worklist.markVisited decl.name }
        decls := run.decls ++ [decl] } final) :
      Drains ns limit (steps + 1) run final

theorem Run.drain_drains {steps : Nat} {run final : Run}
    (ended : Run.drain ns limit steps run = .ok final) : Run.Drains ns limit steps run final := by
  induction steps generalizing run with
  | zero =>
      unfold Run.drain at ended
      split at ended
      · rename_i empty
        cases ended
        exact .done (congrArg Prod.fst empty)
      · cases ended
  | succ steps ih =>
      unfold Run.drain at ended
      split at ended
      · rename_i empty
        cases ended
        exact .done (congrArg Prod.fst empty)
      · rename_i q worklist popped
        simp only at ended
        split at ended
        · cases ended
        · rename_i source declared
          split at ended
          · cases ended
          · rename_i context decl settled
            exact .declare popped declared settled (ih ended)

theorem drain_steps {steps : Nat} {run final : Run}
    (ended : Run.drain ns limit steps run = .ok final) :
    ∃ history, Steps ns { toRun := run } history { toRun := final } ∧
      final.context.worklist.pop.1 = none := by
  have drains := Run.drain_drains ended
  clear ended
  induction drains with
  | done empty => exact ⟨[], .refl _, empty⟩
  | @declare steps run final q worklist source context decl popped declared settled later ih =>
      obtain ⟨absorbed, spelled⟩ := Context.settle_eq_ok settled
      obtain ⟨history, more, drained⟩ := ih
      have first := Step.declare (s := { toRun := run }) ⟨rfl, rfl⟩ popped declared spelled absorbed
      exact ⟨_, (Steps.single first).trans more, drained⟩

theorem attachMethod_step {s : Stage} {stubbing : Stubbing} {receiver : Receiver} {m : Method Ty}
    {rest : List (Receiver × Method Ty)} (due : s.due = (receiver, m) :: rest)
    (ended : s.attachMethod limit ns receiver m = (stubbing, .ok ())) :
    ∃ needs, Step ns s needs { s with toStubbing := stubbing, due := rest } := by
  rw [Stubbing.attachMethod] at ended
  split at ended
  · rename_i skipped
    rw [Bool.or_eq_true, decide_eq_true_eq] at skipped
    cases ended
    exact ⟨[], .skip due skipped⟩
  · rename_i kept
    rw [Bool.or_eq_true, decide_eq_true_eq, not_or] at kept
    simp only at ended
    split at ended
    · cases ended
    · rename_i context signature settled
      obtain ⟨absorbed, spelled⟩ := Context.settle_eq_ok settled
      cases ended
      exact ⟨_, .stub due (by simpa using kept.1) kept.2 spelled absorbed⟩

theorem attachMethods_steps {s : Stage} {stubbing : Stubbing} {receiver : Receiver}
    {methods : List (Method Ty)} (due : s.due = methods.map (receiver, ·))
    (ended : s.attachMethods limit ns receiver methods = (stubbing, .ok ())) :
    ∃ history, Steps ns s history { s with toStubbing := stubbing, due := [] } := by
  induction methods generalizing s with
  | nil =>
      cases ended
      refine ⟨[], ?_⟩
      have same : s = { s with due := [] } := by
        rw [← show s.due = [] from due]
      rw [← same]
      exact .refl s
  | cons m rest ih =>
      rw [Stubbing.attachMethods] at ended
      split at ended
      · rename_i next attached
        obtain ⟨needs, first⟩ := attachMethod_step due attached
        obtain ⟨history, later⟩ :=
          ih (s := { s with toStubbing := next, due := rest.map (receiver, ·) }) rfl ended
        exact ⟨_, (Steps.single first).trans later⟩
      · cases ended

theorem attach_steps {run : Run} {stubbing : Stubbing} {owed : Obligation} {rest : List Obligation}
    (ended : run.attach limit ns owed = (stubbing, .ok ())) :
    ∃ history, Steps ns { toRun := run, batch := owed :: rest } history
      { toRun := { run with toStubbing := stubbing }, batch := rest } := by
  have dismissed : stubbing = run.toStubbing → (∀ receiver, ¬ run.Owes ns owed receiver) →
      ∃ history, Steps ns { toRun := run, batch := owed :: rest } history
        { toRun := { run with toStubbing := stubbing }, batch := rest } := by
    intro same unowed
    subst same
    exact ⟨_, Steps.single (.dismiss rfl rfl unowed)⟩
  rw [Stubbing.attach] at ended
  split at ended
  · rename_i missing
    cases ended
    apply dismissed rfl
    intro receiver owes
    rw [owes.1] at missing
    cases missing
  · rename_i receiver found
    split at ended
    · rename_i unable
      cases ended
      apply dismissed rfl
      intro receiver' owes
      obtain ⟨found', known, kind⟩ := owes
      rw [found] at found'
      cases found'
      simp [known, kind] at unable
    · rename_i able
      split at ended
      · cases ended
      · rename_i methods demands
        simp only [Bool.or_eq_true, decide_eq_true_eq, not_or, not_not, Bool.not_eq_true] at able
        have owes : run.Owes ns owed receiver := ⟨found, able.1, able.2⟩
        have first := Step.accept (s := { toRun := run, batch := owed :: rest }) rfl rfl owes
          ⟨limit, demands⟩
        obtain ⟨history, stubs⟩ :=
          attachMethods_steps (s := { toRun := run, batch := rest, due := _ }) rfl ended
        exact ⟨_, (Steps.single first).trans stubs⟩

theorem attachAll_steps {run final : Run} {batch : List Obligation}
    (ended : Run.attachAll limit ns batch run = .ok final) :
    ∃ history, Steps ns { toRun := run, batch } history { toRun := final } := by
  induction batch generalizing run with
  | nil =>
      cases ended
      exact ⟨[], .refl _⟩
  | cons owed rest ih =>
      rw [Run.attachAll] at ended
      split at ended
      · cases ended
      · rename_i stubbing attached
        obtain ⟨_, first⟩ := attach_steps attached
        obtain ⟨_, later⟩ := ih ended
        exact ⟨_, first.trans later⟩

theorem fulfil_steps {rounds : Nat} {run final : Run}
    (drained : run.context.worklist.pop.1 = none)
    (ended : Run.fulfil limit ns rounds run = .ok final) :
    ∃ history, Steps ns { toRun := run } history { toRun := final } ∧
      final.context.worklist.pop.1 = none ∧ final.context.obligations = [] := by
  induction rounds generalizing run with
  | zero =>
      unfold Run.fulfil at ended
      split at ended
      · rename_i met
        cases ended
        exact ⟨[], .refl _, drained, met⟩
      · cases ended
  | succ rounds ih =>
      unfold Run.fulfil at ended
      split at ended
      · rename_i met
        cases ended
        exact ⟨[], .refl _, drained, met⟩
      · rename_i owed others owing
        rcases bind_eq_ok ended with ⟨attached, first, rest⟩
        rcases bind_eq_ok rest with ⟨declared, second, third⟩
        rcases attachAll_steps first with ⟨_, attaching⟩
        rcases drain_steps second with ⟨_, draining, drained'⟩
        rcases ih drained' third with ⟨_, later, ends⟩
        have gathered := @Step.gather ns { toRun := run } ⟨rfl, rfl⟩ drained (by simp [owing])
        simp only [owing] at gathered
        exact ⟨_, (((Steps.single gathered).trans attaching).trans draining).trans later, ends⟩

end Replica
