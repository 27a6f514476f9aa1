import Replica.Proofs.Spelling.Declaration

/-!
What the needs of a spelling rest on. A replica is needed of a generic type or of one that cannot do
without a name, and whoever owes something has been spelled before: all that its spelling needs is
among the needs as well. So whether a receiver of methods has a replica is known from its
declaration alone.
-/

namespace Replica

def Receiver.type (r : Receiver) : Ty :=
  if r.pointer then .pointer (.named r.origin []) else .named r.origin []

def Receiver.expr (r : Receiver) : Expr :=
  if r.pointer then .pointer (.ident r.origin.flat) else .ident r.origin.flat

theorem receiver_eq_some_iff {owed : Obligation} {receiver : Receiver} :
    owed.receiver? = some receiver ↔
      owed.argument = receiver.type ∧ receiver.origin.isPublic = false := by
  constructor
  · intro found
    unfold Obligation.receiver? at found
    split at found
    · rename_i origin same
      split at found
      · cases found
      · rename_i hidden
        cases found
        exact ⟨same, by simpa using hidden⟩
    · rename_i origin same
      split at found
      · cases found
      · rename_i hidden
        cases found
        exact ⟨same, by simpa using hidden⟩
    · cases found
  · intro given
    rcases given with ⟨same, hidden⟩
    cases receiver with
    | mk origin pointer => cases pointer <;> simp_all [Obligation.receiver?, Receiver.type]

/-- A private type that is not generic and is always spelled by the name of its replica, which can
have methods. -/
def TakesMethods (ns : Namespace) (q : QualName) : Prop :=
  ∃ decl, PrivateSimple ns q decl ∧ NeedsName ns q decl.underlying ∧
    ∀ shape, decl.underlying ≠ .interface shape

theorem declaresInterface_eq_false {ns : Namespace} {q : QualName} {decl : TypeDecl}
    (declared : ns.declaration? q = some decl) :
    ns.declaresInterface q = false ↔ ∀ shape, decl.underlying ≠ .interface shape := by
  rw [Namespace.declaresInterface, declared]
  cases kind : decl.underlying <;> simp [kind]

variable {ns : Namespace} {replica : QualName → Nat → Prop} {scope : List String} {type : Ty}
  {needs : List Need} {expr : Expr}

theorem Spelled.of_private {q : QualName} (hidden : q.isPublic = false)
    (spelled : Spelled ns replica scope (.named q []) needs expr) :
    ∃ decl, PrivateSimple ns q decl ∧
      ((NeedsName ns q decl.underlying ∧ needs = [.replica q] ∧ expr = .ident q.flat) ∨
        (¬ NeedsName ns q decl.underlying ∧ Spelled ns replica [] decl.underlying needs expr)) := by
  generalize same : Ty.named q [] = t at spelled
  cases spelled with
  | outlined simple needsName _ =>
      cases same
      exact ⟨_, simple, .inl ⟨needsName, rfl, rfl⟩⟩
  | inlined simple unnamed inner =>
      cases same
      exact ⟨_, simple, .inr ⟨unnamed, inner⟩⟩
  | qualified exported _ =>
      cases same
      rw [exported] at hidden
      cases hidden
  | undeclared some _ _ _ | publicInstance some _ _ _ _ _ | replicaInstance some _ _ _ _ _ _ =>
      injection same with _ none
      exact absurd (List.map_eq_nil_iff.mp none.symm) some
  | _ => cases same

theorem PrivateSimple.unique {q : QualName} {decl decl' : TypeDecl}
    (first : PrivateSimple ns q decl) (second : PrivateSimple ns q decl') : decl = decl' :=
  Option.some.inj (first.2.1.symm.trans second.2.1)

section

variable {q : QualName} {decl : TypeDecl} (simple : PrivateSimple ns q decl)
  (spelled : Spelled ns replica scope (.named q []) needs expr)

include simple spelled

theorem Spelled.of_needsName (needsName : NeedsName ns q decl.underlying) :
    needs = [.replica q] ∧ expr = .ident q.flat := by
  obtain ⟨other, simple', ⟨_, outlined⟩ | ⟨unnamed, _⟩⟩ := spelled.of_private simple.1
  · exact outlined
  · rw [simple'.unique simple] at unnamed
    exact absurd needsName unnamed

theorem Spelled.of_not_needsName (unnamed : ¬ NeedsName ns q decl.underlying) :
    Spelled ns replica [] decl.underlying needs expr := by
  obtain ⟨other, simple', ⟨needsName, _⟩ | ⟨_, inlined⟩⟩ := spelled.of_private simple.1
  · rw [simple'.unique simple] at needsName
    exact absurd needsName unnamed
  · rwa [simple'.unique simple] at inlined

end

theorem Spelled.receiver {owed : Obligation} {receiver : Receiver}
    (argument : Spelled ns replica scope owed.argument needs expr)
    (found : owed.receiver? = some receiver) : ∃ decl, PrivateSimple ns receiver.origin decl := by
  rcases receiver_eq_some_iff.mp found with ⟨same, hidden⟩
  rw [same, Receiver.type] at argument
  split at argument
  · cases argument with
    | pointer inner =>
        rcases inner.of_private hidden with ⟨decl, simple, _⟩
        exact ⟨decl, simple⟩
  · rcases argument.of_private hidden with ⟨decl, simple, _⟩
    exact ⟨decl, simple⟩

theorem Spelled.of_takesMethods {receiver : Receiver} (able : TakesMethods ns receiver.origin)
    (spelled : Spelled ns replica scope receiver.type needs expr) :
    needs = [.replica receiver.origin] ∧ expr = receiver.expr := by
  have direct : ∀ {needs : List Need} {expr : Expr},
      Spelled ns replica scope (.named receiver.origin []) needs expr →
      needs = [.replica receiver.origin] ∧ expr = .ident receiver.origin.flat := by
    intro needs expr inner
    rcases able with ⟨decl, simple, needsName, _⟩
    exact inner.of_needsName simple needsName
  unfold Receiver.type at spelled
  unfold Receiver.expr
  split
  · rename_i pointer
    rw [if_pos pointer] at spelled
    cases spelled with
    | pointer inner =>
        rcases direct inner with ⟨rfl, rfl⟩
        exact ⟨rfl, rfl⟩
  · rename_i value
    rw [if_neg value] at spelled
    exact direct spelled

/-- What a need rests on among `needs`. -/
inductive Grounded (ns : Namespace) (needs : List Need) : Need → Prop where
  | package (path : String) : Grounded ns needs (.package path)
  | replica {q : QualName} {decl : TypeDecl} (hidden : q.isPublic = false)
      (declared : ns.declaration? q = some decl)
      (named : decl.params ≠ [] ∨ NeedsName ns q decl.underlying) : Grounded ns needs (.replica q)
  | obligation {owed : Obligation} {scope : List String} {before : List Need} {expr : Expr}
      (argument : Spelled ns anyReplica scope owed.argument before expr)
      (within : ∀ need ∈ before, need ∈ needs) : Grounded ns needs (.obligation owed)

def AllGrounded (ns : Namespace) (needs : List Need) : Prop :=
  ∀ need ∈ needs, Grounded ns needs need

theorem Grounded.mono {more : List Need} {need : Need} (grounded : Grounded ns needs need)
    (longer : ∀ other ∈ needs, other ∈ more) : Grounded ns more need := by
  cases grounded with
  | package path => exact .package path
  | replica hidden declared named => exact .replica hidden declared named
  | obligation argument within =>
      exact .obligation argument fun need inside => longer _ (within _ inside)

theorem allGrounded_nil : AllGrounded ns [] := fun _ member => absurd member List.not_mem_nil

theorem AllGrounded.append {before after : List Need} (first : AllGrounded ns before)
    (second : AllGrounded ns after) : AllGrounded ns (before ++ after) := by
  intro need member
  rcases List.mem_append.mp member with earlier | later
  · exact (first need earlier).mono fun _ => List.mem_append_left _
  · exact (second need later).mono fun _ => List.mem_append_right _

theorem allGrounded_flatMap {α : Type} {as : List α} {f : α → List Need}
    (each : ∀ a ∈ as, AllGrounded ns (f a)) : AllGrounded ns (as.flatMap f) := by
  intro need member
  rcases List.mem_flatMap.mp member with ⟨a, inside, needed⟩
  exact (each a inside need needed).mono fun _ other => List.mem_flatMap.mpr ⟨a, inside, other⟩

theorem Owed.grounded {decl : TypeDecl} {args : List Gloss} {owed : List Need} {head : Need}
    (owes : Owed ns (decl.constraints (args.map Gloss.type)) owed)
    (inner : ∀ g ∈ args, Spelled ns anyReplica scope g.type g.needs g.expr)
    (given : AllGrounded ns (args.flatMap Gloss.needs)) (first : Grounded ns [] head) :
    AllGrounded ns (args.flatMap Gloss.needs ++ head :: owed) := by
  intro need member
  rcases List.mem_append.mp member with inArgs | after
  · exact (given need inArgs).mono fun _ => List.mem_append_left _
  rcases List.mem_cons.mp after with rfl | inOwed
  · exact first.mono fun _ absent => absurd absent List.not_mem_nil
  · rcases owes.obligations need inOwed with ⟨constraint, arg, shape, rfl, pair, _⟩
    rcases List.mem_map.mp (mem_constraints pair).1 with ⟨g, inside, rfl⟩
    refine .obligation (inner g inside) fun other needed => List.mem_append_left _ ?_
    exact List.mem_flatMap.mpr ⟨g, inside, needed⟩

theorem Spelled.grounded (spelled : Spelled ns anyReplica scope type needs expr) :
    AllGrounded ns needs := by
  have package : ∀ path, AllGrounded ns [.package path] := by
    intro path need member
    rw [List.mem_singleton.mp member]
    exact .package path
  induction spelled with
  | basic _ | param _ | any _ => exact allGrounded_nil
  | pointer _ ih | slice _ ih | array _ ih | inlined _ _ _ ih => exact ih
  | map _ _ first second => exact first.append second
  | struct _ ih | func _ _ ih | interface _ _ _ ih => exact allGrounded_flatMap ih
  | qualified _ _ => exact package _
  | undeclared _ _ _ _ ih => exact (allGrounded_flatMap ih).append (package _)
  | publicInstance _ _ _ _ inner owes ih =>
      exact owes.grounded inner (allGrounded_flatMap ih) (.package _)
  | replicaInstance some hidden declared arity _ inner owes ih =>
      refine owes.grounded inner (allGrounded_flatMap ih) (.replica hidden declared (.inl ?_))
      intro none
      rw [none] at arity
      exact some (List.eq_nil_of_length_eq_zero arity.symm)
  | outlined simple needsName _ =>
      intro need member
      rw [List.mem_singleton.mp member]
      exact .replica simple.1 simple.2.1 (.inr needsName)

theorem SpelledDecl.grounded {origin : QualName} {source : TypeDecl} {decl : Decl}
    (spelled : SpelledDecl ns anyReplica origin source needs decl) : AllGrounded ns needs := by
  rcases spelled.glosses with ⟨gs, inner, _, rfl, _⟩
  exact allGrounded_flatMap fun g member => (inner g member).grounded

theorem SpelledStub.grounded {receiver : Receiver} {m : Method Ty} {stub : Stub}
    (spelled : SpelledStub ns anyReplica receiver m needs stub) : AllGrounded ns needs := by
  rcases spelled.spelled with ⟨_, gs, _, inner, rfl, _⟩
  exact allGrounded_flatMap fun g member => (inner g member).grounded

theorem AllGrounded.takesMethods_iff {owed : Obligation} {receiver : Receiver}
    (grounded : AllGrounded ns needs) (recorded : Need.obligation owed ∈ needs)
    (found : owed.receiver? = some receiver) :
    TakesMethods ns receiver.origin ↔
      Need.replica receiver.origin ∈ needs ∧ ns.declaresInterface receiver.origin = false := by
  cases grounded _ recorded with
  | obligation argument within =>
      have same := (receiver_eq_some_iff.mp found).1
      constructor
      · intro able
        rw [same] at argument
        rcases argument.of_takesMethods able with ⟨rfl, _⟩
        rcases able with ⟨decl, simple, _, composite⟩
        exact ⟨within _ (List.mem_singleton_self _),
          (declaresInterface_eq_false simple.2.1).mpr composite⟩
      · intro given
        rcases given with ⟨needed, able⟩
        rcases argument.receiver found with ⟨decl, simple⟩
        refine ⟨decl, simple, ?_, (declaresInterface_eq_false simple.2.1).mp able⟩
        cases grounded _ needed with
        | replica _ declared named =>
            rw [simple.2.1] at declared
            cases declared
            exact named.resolve_left (not_not.mpr simple.2.2)

end Replica
