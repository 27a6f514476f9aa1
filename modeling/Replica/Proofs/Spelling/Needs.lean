import Replica.Proofs.Expr.Mention
import Replica.Proofs.Spelling.Spelled
import Replica.Stubs

/-!
What a spelling needs, read off the type and the expression it relates: the packages it needs are
those it mentions, the replicas it needs are declared, and obligations inherit what holds
throughout the type.
-/

namespace Replica

/-- The packages needed are those of what is mentioned, and only exported types are mentioned. -/
structure Accounts (needs : List Need) (mentioned : QualName → Prop) : Prop where
  exported : ∀ q, mentioned q → q.isPublic = true
  needed : ∀ q, mentioned q → Need.package q.package ∈ needs
  mentioned : ∀ path, Need.package path ∈ needs → ∃ q, mentioned q ∧ q.package = path

theorem accounts_glosses {gs : List Gloss} (each : ∀ g ∈ gs, Accounts g.needs g.expr.Mentions) :
    Accounts (gs.flatMap Gloss.needs) (MentionedIn (gs.map Gloss.expr)) := by
  constructor
  · intro q given
    rcases given with ⟨e, member, mentions⟩
    rcases List.mem_map.mp member with ⟨g, inside, rfl⟩
    exact (each g inside).exported q mentions
  · intro q given
    rcases given with ⟨e, member, mentions⟩
    rcases List.mem_map.mp member with ⟨g, inside, rfl⟩
    exact List.mem_flatMap.mpr ⟨g, inside, (each g inside).needed q mentions⟩
  · intro path member
    rcases List.mem_flatMap.mp member with ⟨g, inside, need⟩
    rcases (each g inside).mentioned path need with ⟨q, mentions, same⟩
    exact ⟨q, ⟨g.expr, List.mem_map.mpr ⟨g, inside, rfl⟩, mentions⟩, same⟩

theorem Accounts.append {before after : List Need} {first second : QualName → Prop}
    (left : Accounts before first) (right : Accounts after second) :
    Accounts (before ++ after) (fun q => first q ∨ second q) := by
  constructor
  · intro q given
    rcases given with inFirst | inSecond
    · exact left.exported q inFirst
    · exact right.exported q inSecond
  · intro q given
    rcases given with inFirst | inSecond
    · exact List.mem_append_left _ (left.needed q inFirst)
    · exact List.mem_append_right _ (right.needed q inSecond)
  · intro path member
    rcases List.mem_append.mp member with inBefore | inAfter
    · rcases left.mentioned path inBefore with ⟨q, mentions, same⟩
      exact ⟨q, .inl mentions, same⟩
    · rcases right.mentioned path inAfter with ⟨q, mentions, same⟩
      exact ⟨q, .inr mentions, same⟩

theorem Accounts.congr {needs : List Need} {first second : QualName → Prop}
    (accounts : Accounts needs first) (same : ∀ q, first q ↔ second q) : Accounts needs second := by
  have eq : first = second := funext fun q => propext (same q)
  rw [← eq]
  exact accounts

theorem accounts_nothing {needs : List Need} (none : ∀ path, Need.package path ∉ needs) :
    Accounts needs (fun _ => False) :=
  ⟨fun _ absent => absent.elim, fun _ absent => absent.elim,
    fun path member => absurd member (none path)⟩

theorem Owed.obligations {ns : Namespace} {pairs : List (Ty × Ty)} {needs : List Need}
    (owed : Owed ns pairs needs) : ∀ need ∈ needs, ∃ constraint arg shape,
      need = .obligation ⟨shape, arg⟩ ∧ (constraint, arg) ∈ pairs ∧
      interfaceOf? ns constraint = some shape := by
  induction owed with
  | nil => exact fun need member => absurd member List.not_mem_nil
  | free _ _ ih =>
      intro need member
      rcases ih need member with ⟨constraint, arg, shape, same, inside, stands⟩
      exact ⟨constraint, arg, shape, same, List.mem_cons_of_mem _ inside, stands⟩
  | @owe constraint arg shape m methods rest needs stands _ _ ih =>
      intro need member
      rcases List.mem_cons.mp member with rfl | later
      · exact ⟨constraint, arg, shape, rfl, List.mem_cons_self, stands⟩
      · rcases ih need later with ⟨constraint', arg', shape', same, inside, stands'⟩
        exact ⟨constraint', arg', shape', same, List.mem_cons_of_mem _ inside, stands'⟩

theorem Owed.no_package {ns : Namespace} {pairs : List (Ty × Ty)} {needs : List Need}
    (owed : Owed ns pairs needs) (path : String) : Need.package path ∉ needs := by
  intro member
  rcases owed.obligations _ member with ⟨_, _, _, same, _⟩
  cases same

theorem glossedMembers_types (fields : List (Field Gloss)) :
    (glossedMembers fields).map (·.type) = (fields.map (·.type)).map Gloss.expr := by
  have dropped : (glossedMembers fields).map (·.type) =
      (fields.zipIdx.map Prod.fst).map fun f => f.type.expr := by
    simp only [glossedMembers, List.map_map]
    rfl
  rw [dropped, List.zipIdx_map_fst, List.map_map]
  rfl

theorem Interface.elements_types (shape : Interface Expr) :
    shape.elements.flatMap Element.types = shape.types := by
  simp only [elements, types, List.flatMap_append, List.flatMap_map]
  congr 1
  exact List.flatMap_singleton' shape.embedded

variable {ns : Namespace} {replica : QualName → Nat → Prop} {scope : List String} {type : Ty}
  {needs : List Need} {expr : Expr}

theorem accounts_composite {gs : List Gloss} {e : Expr}
    (each : ∀ g ∈ gs, Accounts g.needs g.expr.Mentions) (children : e.children = gs.map Gloss.expr)
    (other : ∀ r, e ≠ .qualified r) : Accounts (gs.flatMap Gloss.needs) e.Mentions := by
  refine (accounts_glosses each).congr ?_
  intro q
  rw [Expr.mentions_iff other, children]
  rfl

theorem accounts_package (base : QualName) (exported : base.isPublic = true) :
    Accounts [.package base.package] (Expr.qualified base).Mentions := by
  constructor
  · intro q mentions
    rw [Expr.mentions_qualified.mp mentions]
    exact exported
  · intro q mentions
    rw [Expr.mentions_qualified.mp mentions]
    exact List.mem_singleton_self _
  · intro path member
    cases List.mem_singleton.mp member
    exact ⟨base, .here, rfl⟩

theorem accounts_ident {name : String} (none : ∀ path, Need.package path ∉ needs) :
    Accounts needs (Expr.ident name).Mentions := by
  refine (accounts_nothing none).congr fun q => ⟨False.elim, ?_⟩
  intro mentions
  cases mentions with
  | inside child _ => exact absurd child List.not_mem_nil

theorem accounts_applied {args : List Gloss} {head : Expr} {headNeeds : List Need}
    (each : ∀ g ∈ args, Accounts g.needs g.expr.Mentions)
    (accounts : Accounts headNeeds head.Mentions) :
    Accounts (args.flatMap Gloss.needs ++ headNeeds)
      (Expr.applied head (args.map Gloss.expr)).Mentions := by
  have other : ∀ r, Expr.applied head (args.map Gloss.expr) ≠ .qualified r :=
    fun r same => by cases same
  refine ((accounts_glosses each).append accounts).congr ?_
  intro q
  rw [Expr.mentions_iff other]
  constructor
  · intro given
    rcases given with ⟨e, member, mentions⟩ | mentions
    · exact ⟨e, List.mem_cons_of_mem _ member, mentions⟩
    · exact ⟨head, List.mem_cons_self, mentions⟩
  · intro given
    rcases given with ⟨e, member, mentions⟩
    rcases List.mem_cons.mp member with rfl | inArgs
    · exact .inr mentions
    · exact .inl ⟨e, inArgs, mentions⟩

theorem Spelled.accounts (spelled : Spelled ns replica scope type needs expr) :
    Accounts needs expr.Mentions := by
  have unary : ∀ {inner e : Expr} {needs : List Need}, Accounts needs inner.Mentions →
      e.children = [inner] → (∀ r, e ≠ .qualified r) → Accounts needs e.Mentions := by
    intro inner e needs accounts children other
    refine accounts.congr fun q => ?_
    rw [Expr.mentions_iff other, children]
    simp
  induction spelled with
  | basic name => exact accounts_ident fun _ => List.not_mem_nil
  | param bound => exact accounts_ident fun _ => List.not_mem_nil
  | pointer _ ih => exact unary ih rfl fun r same => by cases same
  | slice _ ih => exact unary ih rfl fun r same => by cases same
  | array _ ih => exact unary ih rfl fun r same => by cases same
  | @map scope key value before after keyExpr valueExpr _ _ first second =>
      have other : ∀ r, Expr.map keyExpr valueExpr ≠ .qualified r := fun r same => by cases same
      refine (first.append second).congr fun q => ?_
      rw [Expr.mentions_iff other, Expr.children]
      simp
  | @struct scope fields _ ih =>
      have each : ∀ g ∈ fields.map (·.type), Accounts g.needs g.expr.Mentions := by
        intro g member
        rcases List.mem_map.mp member with ⟨f, inside, rfl⟩
        exact ih f inside
      have accounts : Accounts ((fields.map (·.type)).flatMap Gloss.needs)
          (Expr.struct (glossedMembers fields)).Mentions :=
        accounts_composite each (glossedMembers_types fields) fun r same => by cases same
      rw [List.flatMap_map] at accounts
      exact accounts
  | @func scope s _ _ ih =>
      exact accounts_composite ih (Signature.types_map _ s) fun r same => by cases same
  | any _ => exact accounts_ident fun _ => List.not_mem_nil
  | @interface scope shape _ _ _ ih =>
      refine accounts_composite ih ?_ fun r same => by cases same
      rw [Expr.children, Interface.elements_types, Interface.types_map]
  | @qualified scope base exported _ => exact accounts_package base exported
  | @undeclared scope base args _ exported _ _ ih =>
      exact accounts_applied ih (accounts_package base exported)
  | @publicInstance scope base decl args owed _ exported _ _ _ owes ih =>
      have head : Accounts (.package base.package :: owed) (Expr.qualified base).Mentions :=
        ((accounts_package base exported).append (accounts_nothing owes.no_package)).congr
          fun q => iff_of_eq (or_false _)
      exact accounts_applied ih head
  | @replicaInstance scope base decl args owed _ _ _ _ _ _ owes ih =>
      refine accounts_applied ih (accounts_ident fun path member => ?_)
      rcases List.mem_cons.mp member with same | later
      · cases same
      · exact owes.no_package path later
  | outlined _ _ _ =>
      refine accounts_ident fun path member => ?_
      cases List.mem_singleton.mp member
  | inlined _ _ _ ih => exact ih

theorem Spelled.referring {replica' : QualName → Nat → Prop}
    (spelled : Spelled ns replica scope type needs expr)
    (refers : ∀ q decl, Need.replica q ∈ needs → ns.declaration? q = some decl →
      replica' q decl.params.length) : Spelled ns replica' scope type needs expr := by
  have parts : ∀ {gs : List Gloss} {needs : List Need} {g : Gloss},
      (∀ need ∈ gs.flatMap Gloss.needs, need ∈ needs) → g ∈ gs → ∀ need ∈ g.needs, need ∈ needs :=
    fun within member need inside => within need (List.mem_flatMap.mpr ⟨_, member, inside⟩)
  induction spelled with
  | basic name => exact .basic name
  | param bound => exact .param bound
  | pointer _ ih => exact .pointer (ih refers)
  | slice _ ih => exact .slice (ih refers)
  | array _ ih => exact .array (ih refers)
  | map _ _ first second =>
      exact .map (first fun q decl need => refers q decl (List.mem_append_left _ need))
        (second fun q decl need => refers q decl (List.mem_append_right _ need))
  | struct _ ih =>
      refine .struct fun f member => ih f member fun q decl need => refers q decl ?_
      exact List.mem_flatMap.mpr ⟨f, member, need⟩
  | func closed _ ih =>
      refine .func closed fun g member => ih g member fun q decl need => refers q decl ?_
      exact List.mem_flatMap.mpr ⟨g, member, need⟩
  | any undemanding => exact .any undemanding
  | interface demanding closed _ ih =>
      refine .interface demanding closed fun g member => ih g member fun q decl need =>
        refers q decl ?_
      exact List.mem_flatMap.mpr ⟨g, member, need⟩
  | qualified exported simple => exact .qualified exported simple
  | undeclared some exported missing _ ih =>
      refine .undeclared some exported missing fun g member => ih g member fun q decl need =>
        refers q decl ?_
      exact parts (fun _ => List.mem_append_left _) member _ need
  | publicInstance some exported declared arity _ owes ih =>
      refine .publicInstance some exported declared arity (fun g member => ih g member
        fun q decl need => refers q decl ?_) owes
      exact parts (fun _ => List.mem_append_left _) member _ need
  | @replicaInstance scope base decl args owed some hidden declared arity _ _ owes ih =>
      have named : replica' base args.length := by
        rw [← arity]
        exact refers base decl (List.mem_append_right _ List.mem_cons_self) declared
      refine .replicaInstance some hidden declared arity named (fun g member => ih g member
        fun q decl need => refers q decl ?_) owes
      exact parts (fun _ => List.mem_append_left _) member _ need
  | @outlined scope base decl simple needsName _ =>
      have named : replica' base 0 := by
        have := refers base decl (List.mem_singleton_self _) simple.2.1
        rwa [simple.2.2] at this
      exact .outlined simple needsName named
  | inlined simple unnamed _ ih => exact .inlined simple unnamed (ih refers)

/-- What `p` says of types, given the parameters in scope, holds of declarations and passes on to
their instances and to scopes without parameters. -/
structure Inherited (ns : Namespace) (p : List String → Ty → Prop) : Prop where
  underlying : ∀ q decl, ns.declaration? q = some decl →
    Ty.Every (p decl.paramNames) decl.underlying
  constraint : ∀ q decl, ns.declaration? q = some decl → ∀ param ∈ decl.params,
    Ty.Every (p decl.paramNames) param.type
  instantiate : ∀ scope base args decl t, Ty.Every (p scope) (.named base args) →
    ns.declaration? base = some decl → Ty.Every (p decl.paramNames) t →
    Ty.Every (p scope) (t.substitute decl.paramNames args)
  closed : ∀ scope t, p scope t → t.mentionsParam = false → p [] t

theorem Inherited.closedEvery {p : List String → Ty → Prop} (inherited : Inherited ns p) {t : Ty}
    (every : Ty.Every (p scope) t) (closed : t.mentionsParam = false) : Ty.Every (p []) t := by
  induction every with
  | @intro t here _ ih =>
      refine ⟨inherited.closed scope t here closed, fun u child => ih u child ?_⟩
      rw [Bool.eq_false_iff] at closed ⊢
      exact fun mentions => closed (Ty.mentionsParam_of_child child mentions)

theorem Inherited.interfaceOf {p : List String → Ty → Prop} (inherited : Inherited ns p) {t : Ty}
    {shape : Interface Ty} (every : Ty.Every (p scope) t) (stands : interfaceOf? ns t = some shape) :
    Ty.Every (p scope) (.interface shape) := by
  unfold interfaceOf? at stands
  split at stands
  · cases stands
    exact every
  · rename_i base args
    split at stands
    · cases stands
    · rename_i decl declared
      have instantiated : Ty.Every (p scope) (decl.instantiate args) :=
        inherited.instantiate scope base args decl decl.underlying every declared
          (inherited.underlying base decl declared)
      split at stands
      · rename_i shape' same
        cases stands
        rwa [same] at instantiated
      · cases stands
  · cases stands

theorem mem_constraints {decl : TypeDecl} {args : List Ty} {constraint arg : Ty}
    (member : (constraint, arg) ∈ decl.constraints args) :
    arg ∈ args ∧ ∃ param ∈ decl.params,
      constraint = param.type.substitute decl.paramNames args := by
  rcases List.mem_map.mp member with ⟨⟨param, arg'⟩, inside, same⟩
  cases same
  have parts := List.of_mem_zip inside
  exact ⟨parts.2, param, parts.1, rfl⟩

/-- Replicas are made of declared private types; what an obligation asks for is made of what is
declared, and its argument is spelled. -/
inductive Justified (ns : Namespace) (replica : QualName → Nat → Prop)
    (p : List String → Ty → Prop) : Need → Prop where
  | package (path : String) : Justified ns replica p (.package path)
  | replica {q : QualName} {decl : TypeDecl} (hidden : q.isPublic = false)
      (declared : ns.declaration? q = some decl) : Justified ns replica p (.replica q)
  | obligation {owed : Obligation} {scope : List String} {needs : List Need} {expr : Expr}
      (every : Ty.Every (p scope) (.interface owed.constraint))
      (argument : Spelled ns replica scope owed.argument needs expr) :
      Justified ns replica p (.obligation owed)

section

variable {p : List String → Ty → Prop} (inherited : Inherited ns p)

include inherited

theorem Owed.justified {base : QualName} {decl : TypeDecl} {args : List Gloss} {owed : List Need}
    (owes : Owed ns (decl.constraints (args.map Gloss.type)) owed)
    (declared : ns.declaration? base = some decl)
    (every : Ty.Every (p scope) (.named base (args.map Gloss.type)))
    (inner : ∀ g ∈ args, Spelled ns replica scope g.type g.needs g.expr) :
    ∀ need ∈ owed, Justified ns replica p need := by
  intro need member
  rcases owes.obligations need member with ⟨constraint, arg, shape, rfl, pair, stands⟩
  rcases mem_constraints pair with ⟨given, param, listed, rfl⟩
  rcases List.mem_map.mp given with ⟨g, inside, rfl⟩
  have substituted := inherited.instantiate scope base _ decl param.type every declared
    (inherited.constraint base decl declared param listed)
  exact .obligation (inherited.interfaceOf substituted stands) (inner g inside)

theorem Spelled.justified (spelled : Spelled ns replica scope type needs expr)
    (every : Ty.Every (p scope) type) : ∀ need ∈ needs, Justified ns replica p need := by
  have parts : ∀ {gs : List Gloss}, (∀ g ∈ gs, ∀ need ∈ g.needs, Justified ns replica p need) →
      ∀ need ∈ gs.flatMap Gloss.needs, Justified ns replica p need := by
    intro gs each need member
    rcases List.mem_flatMap.mp member with ⟨g, inside, needed⟩
    exact each g inside need needed
  have glossed : ∀ {gs : List Gloss} {g : Gloss}, g ∈ gs → g.type ∈ gs.map Gloss.type :=
    fun member => List.mem_map.mpr ⟨_, member, rfl⟩
  induction spelled with
  | basic name => exact fun _ member => absurd member List.not_mem_nil
  | param bound => exact fun _ member => absurd member List.not_mem_nil
  | pointer _ ih => exact ih (every.child (List.mem_singleton_self _))
  | slice _ ih => exact ih (every.child (List.mem_singleton_self _))
  | array _ ih => exact ih (every.child (List.mem_singleton_self _))
  | map _ _ first second =>
      intro need member
      rcases List.mem_append.mp member with inKey | inValue
      · exact first (every.child List.mem_cons_self) need inKey
      · exact second (every.child (List.mem_cons_of_mem _ (List.mem_singleton_self _))) need inValue
  | @struct scope fields _ ih =>
      intro need member
      rcases List.mem_flatMap.mp member with ⟨f, inside, needed⟩
      have child : f.type.type ∈ (fields.map (Field.map Gloss.type)).map (·.type) := by
        rw [fields_map_type]
        exact List.mem_map.mpr ⟨_, List.mem_map.mpr ⟨f, inside, rfl⟩, rfl⟩
      exact ih f inside (every.child child) need needed
  | @func scope s _ _ ih =>
      refine parts fun g member => ih g member (every.child ?_)
      rw [Ty.children, Signature.types_map]
      exact glossed member
  | any _ => exact fun _ member => absurd member List.not_mem_nil
  | @interface scope shape _ _ _ ih =>
      refine parts fun g member => ih g member (every.child ?_)
      rw [Ty.children, Interface.types_map]
      exact glossed member
  | @qualified scope base _ _ =>
      intro need member
      cases List.mem_singleton.mp member
      exact .package base.package
  | @undeclared scope base args _ _ _ _ ih =>
      intro need member
      rcases List.mem_append.mp member with inArgs | atHead
      · exact parts (fun g inside => ih g inside (every.child (glossed inside))) need inArgs
      · cases List.mem_singleton.mp atHead
        exact .package base.package
  | @publicInstance scope base decl args owed _ _ declared _ inner owes ih =>
      intro need member
      rcases List.mem_append.mp member with inArgs | after
      · exact parts (fun g inside => ih g inside (every.child (glossed inside))) need inArgs
      · rcases List.mem_cons.mp after with rfl | inOwed
        · exact .package base.package
        · exact owes.justified inherited declared every inner need inOwed
  | @replicaInstance scope base decl args owed _ hidden declared _ _ inner owes ih =>
      intro need member
      rcases List.mem_append.mp member with inArgs | after
      · exact parts (fun g inside => ih g inside (every.child (glossed inside))) need inArgs
      · rcases List.mem_cons.mp after with rfl | inOwed
        · exact .replica hidden declared
        · exact owes.justified inherited declared every inner need inOwed
  | @outlined scope base decl simple _ _ =>
      intro need member
      cases List.mem_singleton.mp member
      exact .replica simple.1 simple.2.1
  | @inlined scope base decl needs expr simple _ _ ih =>
      -- No type parameter is in scope in the place of a private name.
      have underlying := inherited.underlying base decl simple.2.1
      rw [TypeDecl.paramNames, simple.2.2] at underlying
      exact ih underlying

end

end Replica
