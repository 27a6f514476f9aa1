import Replica.Proofs.Run.Bounds
import Replica.Proofs.Run.Outcome
import Replica.Proofs.Spelling.Converges

/-!
Every run comes to an end. If each single spelling comes to a result, so do the loops around them:
the one over the queue because there are finitely many declarations, the one over obligations
because each round but the last attaches a method to a type for the first time.
-/

namespace Replica

open Filter

/-- Each single spelling that a run over `roots` makes comes to a result, with no error but those
that are allowed; and the methods that can be asked for have finitely many names. -/
structure Prompt (ns : Namespace) (roots : List QualName) (p : List String → Ty → Prop)
    (allowed : SynthesisError → Prop) : Prop where
  inherited : Inherited ns p
  finite : ns.FiniteEmbedding
  names : ∃ names : List String, ∀ scope (m : Method Ty), m.IsOwnIn (p scope) → m.name ∈ names
  decl : ∀ s, Reached ns roots s → s.context.Declared ns → ∀ q worklist source,
    s.context.worklist.pop = (some q, worklist) → ns.declaration? q = some source →
    Settles atTop (fun r => Allows allowed r.2) fun limit =>
      Context.settle { s.context with worklist } q.qualified (spellDecl limit ns q source)
  method : ∀ s, Reached ns roots s → s.context.Declared ns → ∀ receiver m,
    (receiver, m) ∈ s.due → Ty.mentionsParamSignature m.signature = false →
    Settles atTop (fun r => Allows allowed r.2) fun limit =>
      s.context.settle receiver.origin.flat (spellSignature limit ns [] m.signature)

variable {ns : Namespace} {roots : List QualName} {p : List String → Ty → Prop}
  {allowed : SynthesisError → Prop} (prompt : Prompt ns roots p allowed)
  (rooted : ∀ root ∈ roots, ∃ decl, ns.declaration? root = some decl)

include prompt rooted

theorem drain_settles {run : Run} (reached : Reached ns roots { toRun := run }) :
    Settles atTop (Allows allowed) fun i : Nat × Nat => Run.drain ns i.1 i.2 run := by
  cases popped : run.context.worklist.pop with
  | mk next worklist =>
      cases next with
      | none =>
          refine ⟨.ok run, allows_ok run, .of_forall fun i => ?_⟩
          unfold Run.drain
          rw [popped]
      | some q =>
          obtain ⟨history, sound⟩ := reached.sound prompt.inherited
          obtain ⟨_, inside, _⟩ := sound.queueing.consistent.pop_some popped
          have declared := reached.declared rooted
          obtain ⟨source, found⟩ := declared q inside
          -- From some limit on the next replica is always the same, so the rest
          -- of the run starts from one stage.
          obtain ⟨⟨context, result⟩, fine, settled⟩ :=
            prompt.decl _ reached declared q _ source popped found
          cases result with
          | error e =>
              refine ⟨.error e, fun e' same => fine e' (by cases same; rfl), ?_⟩
              filter_upwards [tendsto_first.eventually settled, eventually_succ] with i settled more
              obtain ⟨steps, eq⟩ := more
              unfold Run.drain
              rw [eq, popped]
              simp only [found, settled]
          | ok decl =>
              obtain ⟨limit, ended⟩ := settled.exists
              obtain ⟨absorbed, spelled⟩ := Context.settle_eq_ok ended
              have step :=
                Step.declare (s := { toRun := run }) ⟨rfl, rfl⟩ popped found spelled absorbed
              have reached' := reached.steps (.single step)
              have later := drain_settles reached'
              apply (later.comp tendsto_shorter).congr
              filter_upwards [tendsto_first.eventually settled, eventually_succ] with i settled more
              obtain ⟨steps, eq⟩ := more
              rw [eq, Nat.add_sub_cancel]
              conv_lhs => unfold Run.drain
              rw [popped]
              simp only [found, settled]
termination_by ns.declaredTypes.length - run.decls.length
decreasing_by
  have bound := reached'.decls_length_le rooted
  simp only [List.length_append, List.length_singleton] at bound ⊢
  omega

theorem attachMethod_settles {s : Stage} (reached : Reached ns roots s) {receiver : Receiver}
    {m : Method Ty} {rest : List (Receiver × Method Ty)} (due : s.due = (receiver, m) :: rest) :
    Settles atTop (fun r => Allows allowed r.2) fun limit =>
      s.attachMethod limit ns receiver m := by
  unfold Stubbing.attachMethod
  by_cases skipped : (Ty.mentionsParamSignature m.signature ||
      decide ((receiver.origin.flat, m.name) ∈ s.attached)) = true
  · simp only [skipped, if_true]
    exact .const (allows_ok ())
  · simp only [skipped]
    have closed : Ty.mentionsParamSignature m.signature = false := by
      rw [Bool.or_eq_true, not_or] at skipped
      simpa using skipped.1
    obtain ⟨⟨context, result⟩, fine, settled⟩ :=
      prompt.method s reached (reached.declared rooted) receiver m (by simp [due]) closed
    let attached := s.attached ++ [(receiver.origin.flat, m.name)]
    cases result with
    | error e =>
        refine ⟨({ s.toStubbing with context, attached }, .error e), ?_, ?_⟩
        · exact fun e' same => fine e' (by cases same; rfl)
        · filter_upwards [settled] with limit settled
          simp only [settled]
          rfl
    | ok signature =>
        let stub : Stub := ⟨receiver.origin.flat, receiver.pointer, m.name, signature.blanked⟩
        refine ⟨({ context, attached, stubs := s.stubs ++ [stub] }, .ok ()), allows_ok (), ?_⟩
        filter_upwards [settled] with limit settled
        simp only [settled]
        rfl

theorem attachMethods_settles {s : Stage} (reached : Reached ns roots s) {receiver : Receiver}
    {methods : List (Method Ty)} (due : s.due = methods.map (receiver, ·)) :
    Settles atTop (fun r => Allows allowed r.2) fun limit =>
      s.attachMethods limit ns receiver methods := by
  induction methods generalizing s with
  | nil => exact .const (allows_ok ())
  | cons m rest ih =>
      obtain ⟨⟨stubbing, result⟩, fine, settled⟩ :=
        attachMethod_settles prompt rooted reached due
      cases result with
      | error e =>
          refine ⟨(stubbing, .error e), fine, ?_⟩
          filter_upwards [settled] with limit settled
          simp only [Stubbing.attachMethods, settled]
      | ok _ =>
          obtain ⟨limit, ended⟩ := settled.exists
          obtain ⟨needs, step⟩ := attachMethod_step due ended
          apply (ih (reached.steps (.single step)) rfl).congr
          filter_upwards [settled] with limit settled
          simp only [Stubbing.attachMethods, settled]

theorem attach_settles {run : Run} {owed : Obligation} {rest : List Obligation}
    (reached : Reached ns roots { toRun := run, batch := owed :: rest }) :
    Settles atTop (fun r => Allows allowed r.2) fun limit => run.attach limit ns owed := by
  unfold Stubbing.attach
  cases found : owed.receiver? with
  | none => exact .const (allows_ok ())
  | some receiver =>
      by_cases unable : (decide (receiver.origin ∉ run.context.worklist.known) ||
          ns.declaresInterface receiver.origin) = true
      · simp only [unable, if_true]
        exact .const (allows_ok ())
      · simp only [unable]
        obtain ⟨methods, has⟩ := exists_hasMethodSet prompt.finite owed.constraint
        have owes : run.Owes ns owed receiver := by
          simp only [Bool.or_eq_true, decide_eq_true_eq, not_or, not_not,
            Bool.not_eq_true] at unable
          exact ⟨found, unable.1, unable.2⟩
        have step := Step.accept (s := { toRun := run, batch := owed :: rest }) rfl rfl owes has
        have later := attachMethods_settles prompt rooted (reached.steps (.single step)) rfl
        apply later.congr
        filter_upwards [has.eventually] with limit demands
        simp only [demands]
        rfl

theorem attachAll_settles {run : Run} {batch : List Obligation}
    (reached : Reached ns roots { toRun := run, batch }) :
    Settles atTop (Allows allowed) fun limit => Run.attachAll limit ns batch run := by
  induction batch generalizing run with
  | nil => exact .const (allows_ok run)
  | cons owed rest ih =>
      obtain ⟨⟨stubbing, result⟩, fine, settled⟩ := attach_settles prompt rooted reached
      cases result with
      | error e =>
          refine ⟨.error e, fun e' same => fine e' (by cases same; rfl), ?_⟩
          filter_upwards [settled] with limit settled
          simp only [Run.attachAll, settled]
      | ok _ =>
          obtain ⟨limit, ended⟩ := settled.exists
          obtain ⟨history, steps⟩ := attach_steps ended
          apply (ih (reached.steps steps)).congr
          filter_upwards [settled] with limit settled
          simp only [Run.attachAll, settled]

theorem fulfil_settles {names : List String}
    (named : ∀ scope (m : Method Ty), m.IsOwnIn (p scope) → m.name ∈ names) {run : Run}
    (reached : Reached ns roots { toRun := run }) (drained : run.context.worklist.pop.1 = none) :
    Settles atTop (Allows allowed) fun i : Nat × Nat => Run.fulfil i.1 ns i.2 run := by
  cases owing : run.context.obligations with
  | nil =>
      refine ⟨.ok run, allows_ok run, .of_forall fun i => ?_⟩
      unfold Run.fulfil
      rw [owing]
  | cons owed others =>
      let gathered : Run := { run with context := { run.context with obligations := [] } }
      have gather := @Step.gather ns { toRun := run } ⟨rfl, rfl⟩ drained (by simp [owing])
      simp only [owing] at gather
      have began : Reached ns roots { toRun := gathered, batch := owed :: others } :=
        reached.steps (.single gather)
      have round : Settles atTop (Allows allowed) fun i : Nat × Nat =>
          Run.attachAll i.1 ns (owed :: others) gathered >>= fun attached =>
            Run.drain ns i.1 i.1 attached >>= Run.fulfil i.1 ns (i.2 - 1) := by
        apply ((attachAll_settles prompt rooted began).comp tendsto_first).bind
        intro attached ended
        obtain ⟨i, ended⟩ := ended.exists
        obtain ⟨_, attaching⟩ := attachAll_steps ended
        have middle := began.steps attaching
        have diagonal : Tendsto (fun i : Nat × Nat => (i.1, i.1)) atTop atTop :=
          tendsto_atTop_diagonal.comp tendsto_first
        apply ((drain_settles prompt rooted middle).comp diagonal).bind
        intro declared ended
        obtain ⟨j, ended⟩ := ended.exists
        obtain ⟨_, draining, drained'⟩ := drain_steps ended
        have reached' := middle.steps draining
        -- Either a method was attached in this round or nothing is left to do after it.
        by_cases same : declared.attached = run.attached
        · obtain ⟨met, _⟩ := (attaching.trans draining).quiet rfl drained same
          apply (Settles.const (allows_ok declared)).congr
          refine .of_forall fun i => ?_
          unfold Run.fulfil
          rw [met]
        · have longer := (attaching.trans draining).attached_extends
          have more : run.attached.length < declared.attached.length := by
            apply lt_of_le_of_ne longer.length_le
            exact fun lengths => same (longer.eq_of_length lengths).symm
          obtain ⟨distinct, within⟩ := reached'.attached rooted prompt.inherited named
          have bound := (List.subperm_of_subset distinct within).length_le
          exact (fulfil_settles named reached' drained').comp tendsto_shorter
      apply round.congr
      filter_upwards [eventually_succ] with i more
      obtain ⟨rounds, eq⟩ := more
      rw [eq, Nat.add_sub_cancel]
      conv_lhs => unfold Run.fulfil
      rw [owing]
termination_by (ns.declaredTypes.map QualName.flat ×ˢ names).length - run.attached.length
decreasing_by
  have _ : run.attached.length < declared.attached.length := more
  have within : declared.attached.length ≤ (ns.declaredTypes.map QualName.flat ×ˢ names).length :=
    bound
  omega

theorem synthesize_settles {names : List String} {worklist : Worklist} (some : names ≠ [])
    (resolved : resolveRoots ns names = .ok roots)
    (pushed : Worklist.pushAll {} roots = .ok worklist) :
    Settles atTop (Allows allowed) fun limit => synthesize limit ns names := by
  obtain ⟨methodNames, named⟩ := prompt.names
  have reached : Reached ns roots (.start worklist) := ⟨worklist, [], pushed, .refl _⟩
  simp only [synthesize_of_pushed some resolved pushed]
  have drains := (drain_settles prompt rooted reached).comp tendsto_atTop_diagonal
  apply drains.bind
  intro run ended
  obtain ⟨limit, ended⟩ := ended.exists
  obtain ⟨_, draining, drained⟩ := drain_steps ended
  have later := fulfil_settles prompt rooted named (reached.steps draining) drained
  apply (later.comp tendsto_atTop_diagonal).bind
  intro final _
  exact .const (allows_ok _)

end Replica
