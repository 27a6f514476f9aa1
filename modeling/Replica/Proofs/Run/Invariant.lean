import Replica.Proofs.Run.Step
import Replica.Proofs.Spelling.Grounded

/-!
What holds at every stage of a run, given its history: replicas are declared in the order in which
they were first needed, everything that was asked for is made of what is declared, and what is
written accounts for everything that was needed.
-/

namespace Replica

def Stage.start (worklist : Worklist) : Stage :=
  { toRun := { toStubbing := { context := { worklist } } } }

variable {ns : Namespace} {roots : List QualName} {before after : List Need} {s t : Stage}

structure Queueing (roots : List QualName) (history : List Need) (s : Stage) : Prop where
  consistent : s.context.worklist.Consistent (s.decls.map (·.origin))
  logged : s.context.worklist.known = (roots ++ replicasOf history).eraseDups
  named : ∀ decl ∈ s.decls, decl.name = decl.origin.flat

theorem Queueing.start {worklist : Worklist} (pushed : Worklist.pushAll {} roots = .ok worklist) :
    Queueing roots [] (.start worklist) := by
  refine ⟨Worklist.consistent_empty.pushAll pushed, ?_, fun _ member => absurd member List.not_mem_nil⟩
  have logged : worklist.known = ([] ++ roots).eraseDups := Worklist.known_pushAll pushed rfl
  rw [replicasOf, List.filterMap_nil, List.append_nil]
  exact logged

theorem Queueing.step (queueing : Queueing roots before s) (step : Step ns s after t) :
    Queueing roots (before ++ after) t := by
  have logged := queueing.logged
  cases step with
  | @declare q worklist source limit needs decl context _ popped declared spelled absorbed =>
      have grown := Context.absorb_eq_ok absorbed
      have written := spellDecl_spelled spelled
      rcases queueing.consistent.pop_some popped with ⟨known, _, consistent⟩
      have pushed := consistent.pushAll grown.pushed
      refine ⟨?_, ?_, ?_⟩
      · rw [List.map_append, List.map_singleton, written.named, written.origin_eq]
        exact pushed.markVisited (List.mem_append_right _ (List.mem_singleton_self q))
      · change (context.worklist.markVisited decl.name).known = _
        rw [Worklist.known_markVisited, replicasOf_append, ← List.append_assoc]
        exact Worklist.known_pushAll grown.pushed (known.trans logged)
      · intro other member
        rcases List.mem_append.mp member with earlier | last
        · exact queueing.named other earlier
        · rw [List.mem_singleton.mp last, written.named, written.origin_eq]
  | @stub receiver m rest limit needs signature context _ _ _ _ absorbed =>
      have grown := Context.absorb_eq_ok absorbed
      refine ⟨queueing.consistent.pushAll grown.pushed, ?_, queueing.named⟩
      rw [replicasOf_append, ← List.append_assoc]
      exact Worklist.known_pushAll grown.pushed logged
  | gather | dismiss | accept | skip =>
      rw [List.append_nil]
      exact ⟨queueing.consistent, logged, queueing.named⟩

theorem Step.known_subset (queueing : Queueing roots before s) (step : Step ns s after t) :
    ∀ q ∈ s.context.worklist.known, q ∈ t.context.worklist.known := by
  have later := (queueing.step step).logged
  intro q member
  rw [queueing.logged, List.mem_eraseDups] at member
  rw [later, List.mem_eraseDups, replicasOf_append, ← List.append_assoc]
  exact List.mem_append_left _ member

def Asked (ns : Namespace) (history : List Need) (known : List QualName) (receiver : Receiver)
    (m : Method Ty) : Prop :=
  receiver.origin ∈ known ∧ ns.declaresInterface receiver.origin = false ∧
    ∃ owed methods, Need.obligation owed ∈ history ∧ owed.receiver? = some receiver ∧
      HasMethodSet ns owed.constraint methods ∧ m ∈ methods

theorem Asked.mono {history history' : List Need} {known known' : List QualName}
    {receiver : Receiver} {m : Method Ty} (asked : Asked ns history known receiver m)
    (longer : ∀ need ∈ history, need ∈ history') (more : ∀ q ∈ known, q ∈ known') :
    Asked ns history' known' receiver m := by
  rcases asked with ⟨inside, kind, owed, methods, recorded, found, demands, member⟩
  exact ⟨more _ inside, kind, owed, methods, longer _ recorded, found, demands, member⟩

/-- Whatever obligations are open or under way was recorded, and all that was recorded is
justified. -/
structure Recorded (ns : Namespace) (p : List String → Ty → Prop) (history : List Need)
    (s : Stage) : Prop where
  justified : ∀ need ∈ history, Justified ns anyReplica p need
  opened : ∀ owed ∈ s.context.obligations, Need.obligation owed ∈ history
  batch : ∀ owed ∈ s.batch, Need.obligation owed ∈ history
  due : ∀ receiver m, (receiver, m) ∈ s.due →
    Asked ns history s.context.worklist.known receiver m

theorem Recorded.start (ns : Namespace) (p : List String → Ty → Prop) (worklist : Worklist) :
    Recorded ns p [] (.start worklist) :=
  ⟨fun _ member => absurd member List.not_mem_nil, fun _ member => absurd member List.not_mem_nil,
    fun _ member => absurd member List.not_mem_nil, fun _ _ member => absurd member List.not_mem_nil⟩

section

variable {p : List String → Ty → Prop} (inherited : Inherited ns p)

include inherited

theorem Asked.own {known : List QualName} {receiver : Receiver} {m : Method Ty}
    {history : List Need} (asked : Asked ns history known receiver m)
    (justified : ∀ need ∈ history, Justified ns anyReplica p need) :
    ∃ scope, m.IsOwnIn (p scope) := by
  obtain ⟨_, _, owed, methods, recorded, _, demands, member⟩ := asked
  cases justified _ recorded with
  | @obligation _ scope needs expr every _ =>
      exact ⟨scope, demands.own (fun _ _ => inherited.interfaceOf) every m member⟩

theorem Method.IsOwnIn.every {scope : List String} {m : Method Ty} (own : m.IsOwnIn (p scope))
    (closed : Ty.mentionsParamSignature m.signature = false) :
    ∀ t ∈ m.signature.types, Ty.Every (p []) t := by
  obtain ⟨shape, inside, every⟩ := own
  rw [Ty.mentionsParamSignature_eq, Bool.eq_false_iff, ne_eq, List.any_eq_true] at closed
  intro t type
  apply inherited.closedEvery (every.child (Interface.mem_types_of_method inside type))
  rw [Bool.eq_false_iff]
  exact fun mentions => closed ⟨t, type, mentions⟩

theorem Recorded.step (recorded : Recorded ns p before s) (queueing : Queueing roots before s)
    (step : Step ns s after t) : Recorded ns p (before ++ after) t := by
  have kept := step.known_subset queueing
  have longer : ∀ need ∈ before, need ∈ before ++ after := fun _ => List.mem_append_left after
  have due : ∀ receiver m, (receiver, m) ∈ s.due →
      Asked ns (before ++ after) t.context.worklist.known receiver m :=
    fun receiver m member => (recorded.due receiver m member).mono longer kept
  cases step with
  | @declare q worklist source limit needs decl context idle popped declared spelled absorbed =>
      have grown := Context.absorb_eq_ok absorbed
      have written := spellDecl_spelled spelled
      refine ⟨?_, ?_, fun owed member => longer _ (recorded.batch owed member), due⟩
      · intro need member
        rcases List.mem_append.mp member with earlier | now
        · exact recorded.justified need earlier
        · exact written.justified inherited declared need now
      · intro owed member
        rcases (grown.obligations owed).mp member with earlier | now
        · exact longer _ (recorded.opened owed earlier)
        · exact List.mem_append_right _ now
  | @stub receiver m rest limit needs signature context next closed fresh spelled absorbed =>
      have grown := Context.absorb_eq_ok absorbed
      have written := spellSignature_spelled receiver closed spelled
      have asked := recorded.due receiver m (by rw [next]; exact List.mem_cons_self)
      refine ⟨?_, ?_, fun owed member => longer _ (recorded.batch owed member), ?_⟩
      · intro need member
        rcases List.mem_append.mp member with earlier | now
        · exact recorded.justified need earlier
        · obtain ⟨scope, own⟩ := asked.own inherited recorded.justified
          exact written.justified inherited (own.every inherited closed) need now
      · intro owed member
        rcases (grown.obligations owed).mp member with earlier | now
        · exact longer _ (recorded.opened owed earlier)
        · exact List.mem_append_right _ now
      · intro receiver' m' member
        exact due receiver' m' (by rw [next]; exact List.mem_cons_of_mem _ member)
  | gather _ _ _ =>
      rw [List.append_nil] at due ⊢
      exact ⟨recorded.justified, fun _ member => absurd member List.not_mem_nil, recorded.opened, due⟩
  | @dismiss owed rest _ next _ =>
      rw [List.append_nil] at due ⊢
      refine ⟨recorded.justified, recorded.opened, fun owed member => recorded.batch owed ?_, due⟩
      rw [next]
      exact List.mem_cons_of_mem _ member
  | @accept owed rest receiver methods free next owes demands =>
      rw [List.append_nil] at due ⊢
      -- What the receiver owes from now on it owes on account of an obligation of this round.
      have inRound : Need.obligation owed ∈ before := by
        refine recorded.batch owed ?_
        rw [next]
        exact List.mem_cons_self
      refine ⟨recorded.justified, recorded.opened, fun owed member => recorded.batch owed ?_, ?_⟩
      · rw [next]
        exact List.mem_cons_of_mem _ member
      · intro receiver' m' member
        rcases List.mem_map.mp member with ⟨m, asked, same⟩
        cases same
        exact ⟨owes.2.1, owes.2.2, owed, methods, inRound, owes.1, demands, asked⟩
  | @skip receiver m rest next _ =>
      rw [List.append_nil] at due ⊢
      refine ⟨recorded.justified, recorded.opened, recorded.batch, fun receiver' m' member =>
        due receiver' m' ?_⟩
      rw [next]
      exact List.mem_cons_of_mem _ member

end

structure Written (ns : Namespace) (history : List Need) (s : Stage) : Prop where
  decls : ∀ decl ∈ s.decls, ∃ source needs, ns.declaration? decl.origin = some source ∧
    SpelledDecl ns anyReplica decl.origin source needs decl ∧ ∀ need ∈ needs, need ∈ history
  stubs : ∀ stub ∈ s.stubs, ∃ receiver m needs,
    Asked ns history s.context.worklist.known receiver m ∧
    SpelledStub ns anyReplica receiver m needs stub ∧ ∀ need ∈ needs, need ∈ history
  accounts : Accounts history
    (MentionedIn (s.decls.flatMap Decl.exprs ++ s.stubs.flatMap Stub.exprs))
  imports : ∀ path, path ∈ s.context.imports ↔ Need.package path ∈ history
  increasing : s.context.imports.Pairwise (· < ·)

theorem Written.start (ns : Namespace) (worklist : Worklist) :
    Written ns [] (.start worklist) := by
  have nothing : ∀ q, False ↔ MentionedIn [] q :=
    fun q => ⟨False.elim, fun ⟨_, member, _⟩ => absurd member List.not_mem_nil⟩
  refine ⟨fun _ member => absurd member List.not_mem_nil, fun _ member =>
    absurd member List.not_mem_nil, ?_, fun _ => ?_, List.Pairwise.nil⟩
  · exact (accounts_nothing fun _ => List.not_mem_nil).congr nothing
  · exact ⟨fun member => absurd member List.not_mem_nil, fun member => absurd member List.not_mem_nil⟩

theorem Written.step {p : List String → Ty → Prop} (written : Written ns before s)
    (queueing : Queueing roots before s) (recorded : Recorded ns p before s)
    (step : Step ns s after t) : Written ns (before ++ after) t := by
  have kept := step.known_subset queueing
  have longer : ∀ need ∈ before, need ∈ before ++ after := fun _ => List.mem_append_left after
  have decls : ∀ decl ∈ s.decls, ∃ source needs, ns.declaration? decl.origin = some source ∧
      SpelledDecl ns anyReplica decl.origin source needs decl ∧
      ∀ need ∈ needs, need ∈ before ++ after := by
    intro decl member
    rcases written.decls decl member with ⟨source, needs, declared, spelled, within⟩
    exact ⟨source, needs, declared, spelled, fun need inside => longer need (within need inside)⟩
  have stubs : ∀ stub ∈ s.stubs, ∃ receiver m needs,
      Asked ns (before ++ after) t.context.worklist.known receiver m ∧
      SpelledStub ns anyReplica receiver m needs stub ∧
      ∀ need ∈ needs, need ∈ before ++ after := by
    intro stub member
    rcases written.stubs stub member with ⟨receiver, m, needs, asked, spelled, within⟩
    exact ⟨receiver, m, needs, asked.mono longer kept, spelled,
      fun need inside => longer need (within need inside)⟩
  cases step with
  | @declare q worklist source limit needs decl context idle popped declared spelled absorbed =>
      have grown := Context.absorb_eq_ok absorbed
      have spelledDecl := spellDecl_spelled spelled
      refine ⟨?_, stubs, ?_, ?_, grown.increasing written.increasing⟩
      · intro other member
        rcases List.mem_append.mp member with earlier | last
        · exact decls other earlier
        · cases List.mem_singleton.mp last
          rw [spelledDecl.origin_eq]
          exact ⟨source, _, declared, spelledDecl, fun _ => List.mem_append_right _⟩
      · refine (written.accounts.append spelledDecl.accounts).congr fun r => ?_
        simp only [List.flatMap_append, List.flatMap_singleton, mentionedIn_append]
        exact or_right_comm
      · intro path
        rw [List.mem_append, ← written.imports path]
        exact grown.imports path
  | @stub receiver m rest limit needs signature context next closed fresh spelled absorbed =>
      have grown := Context.absorb_eq_ok absorbed
      have spelledStub := spellSignature_spelled receiver closed spelled
      refine ⟨decls, ?_, ?_, ?_, grown.increasing written.increasing⟩
      · intro other member
        rcases List.mem_append.mp member with earlier | last
        · exact stubs other earlier
        · cases List.mem_singleton.mp last
          -- A stub is written for a method that was due, so that it was asked for.
          have asked := recorded.due receiver m (by rw [next]; exact List.mem_cons_self)
          exact ⟨receiver, m, _, asked.mono longer kept, spelledStub,
            fun _ => List.mem_append_right _⟩
      · refine (written.accounts.append spelledStub.accounts).congr fun r => ?_
        simp only [List.flatMap_append, List.flatMap_singleton, mentionedIn_append]
        exact or_assoc
      · intro path
        rw [List.mem_append, ← written.imports path]
        exact grown.imports path
  | gather | dismiss | accept | skip =>
      rw [List.append_nil] at decls stubs ⊢
      exact ⟨decls, stubs, written.accounts, written.imports, written.increasing⟩

/-- What holds at a stage of a run over `roots` with a history. -/
structure Sound (ns : Namespace) (p : List String → Ty → Prop) (roots : List QualName)
    (history : List Need) (s : Stage) : Prop where
  queueing : Queueing roots history s
  recorded : Recorded ns p history s
  written : Written ns history s

theorem Steps.sound {p : List String → Ty → Prop} {worklist : Worklist} {history : List Need}
    (inherited : Inherited ns p) (pushed : Worklist.pushAll {} roots = .ok worklist)
    (steps : Steps ns (.start worklist) history t) : Sound ns p roots history t := by
  refine steps.invariant ⟨.start pushed, .start ns p worklist, .start ns worklist⟩ ?_
  intro before after t u sound step
  exact ⟨sound.queueing.step step, sound.recorded.step inherited sound.queueing step,
    sound.written.step sound.queueing sound.recorded step⟩

def anything : List String → Ty → Prop := fun _ _ => True

theorem every_anything (scope : List String) (t : Ty) : Ty.Every (anything scope) t := by
  induction t using Ty.induct with
  | step t ih => exact ⟨trivial, ih⟩

theorem inherited_anything (ns : Namespace) : Inherited ns anything :=
  ⟨fun _ _ _ => every_anything _ _, fun _ _ _ _ _ => every_anything _ _,
    fun _ _ _ _ _ _ _ _ => every_anything _ _, fun _ _ _ _ => trivial⟩

end Replica
