import Replica.Proofs.MethodSet
import Replica.Proofs.Spelling.Basic

/-!
Which expressions spell which types, as a relation that knows no limits.

`Spelled` gives an expression the shape of its type, constructor by constructor; only references to
types of a package, which are named, named after a replica or replaced by what they are declared to
be, change shape. Main statement: whatever the speller answers is related to the type it was given.
-/

namespace Replica

/-- A type with what its spelling needs from the file and the spelling itself. -/
structure Gloss where
  type : Ty
  needs : List Need
  expr : Expr

def glossedMembers (fields : List (Field Gloss)) : List (Member Expr) :=
  fields.zipIdx.map fun (field, position) =>
    ⟨memberName field.name field.type.type, field.type.expr, position⟩

def Interface.elements (shape : Interface Expr) : List (Element Expr) :=
  shape.embedded.map .embedded ++ shape.methods.map fun m => .method m.name m.signature

/-- Whether a private type that is not generic is given a replica of its own. -/
def NeedsName (ns : Namespace) (base : QualName) : Ty → Prop
  | .struct _ => True
  | .interface shape =>
    ¬ HasMethodSet ns shape [] ∧
      (exposesPrivateMember shape = true ∨ isRecursive ns (.named base []) = true)
  | _ => isRecursive ns (.named base []) = true

/-- What arguments owe to the constraints at their places: something where the constraint stands
for an interface with methods. -/
inductive Owed (ns : Namespace) : List (Ty × Ty) → List Need → Prop where
  | nil : Owed ns [] []
  | free {constraint arg : Ty} {rest : List (Ty × Ty)} {needs : List Need}
      (unconstrained : ∀ shape, interfaceOf? ns constraint = some shape → HasMethodSet ns shape [])
      (others : Owed ns rest needs) : Owed ns ((constraint, arg) :: rest) needs
  | owe {constraint arg : Ty} {shape : Interface Ty} {m : Method Ty} {methods : List (Method Ty)}
      {rest : List (Ty × Ty)} {needs : List Need}
      (stands : interfaceOf? ns constraint = some shape)
      (demands : HasMethodSet ns shape (m :: methods)) (others : Owed ns rest needs) :
      Owed ns ((constraint, arg) :: rest) (.obligation ⟨shape, arg⟩ :: needs)

def PrivateSimple (ns : Namespace) (base : QualName) (decl : TypeDecl) : Prop :=
  base.isPublic = false ∧ ns.declaration? base = some decl ∧ decl.params = []

/-- `Spelled ns replica scope type needs expr`: where the type parameters of `scope` may be named,
`expr` spells `type` and needs `needs`. `replica q n` says that a replica of `q` may be given `n`
type arguments. -/
inductive Spelled (ns : Namespace) (replica : QualName → Nat → Prop) :
    List String → Ty → List Need → Expr → Prop where
  | basic {scope : List String} (name : String) :
      Spelled ns replica scope (.basic name) [] (.ident name)
  | param {scope : List String} {name : String} (bound : name ∈ scope) :
      Spelled ns replica scope (.param name) [] (.ident name)
  | pointer {scope : List String} {elem : Ty} {needs : List Need} {expr : Expr}
      (inner : Spelled ns replica scope elem needs expr) :
      Spelled ns replica scope (.pointer elem) needs (.pointer expr)
  | slice {scope : List String} {elem : Ty} {needs : List Need} {expr : Expr}
      (inner : Spelled ns replica scope elem needs expr) :
      Spelled ns replica scope (.slice elem) needs (.slice expr)
  | map {scope : List String} {key value : Ty} {before after : List Need} {keyExpr valueExpr : Expr}
      (first : Spelled ns replica scope key before keyExpr)
      (second : Spelled ns replica scope value after valueExpr) :
      Spelled ns replica scope (.map key value) (before ++ after) (.map keyExpr valueExpr)
  | array {scope : List String} {len : UInt64} {elem : Ty} {needs : List Need} {expr : Expr}
      (inner : Spelled ns replica scope elem needs expr) :
      Spelled ns replica scope (.array len elem) needs (.array len expr)
  | struct {scope : List String} {fields : List (Field Gloss)}
      (inner : ∀ f ∈ fields, Spelled ns replica scope f.type.type f.type.needs f.type.expr) :
      Spelled ns replica scope (.struct (fields.map (Field.map Gloss.type)))
        (fields.flatMap (·.type.needs)) (.struct (glossedMembers fields))
  | func {scope : List String} {s : Signature Gloss}
      (closed : isOpenVariadic (s.map Gloss.type) = false)
      (inner : ∀ g ∈ s.types, Spelled ns replica scope g.type g.needs g.expr) :
      Spelled ns replica scope (.func (s.map Gloss.type)) (s.types.flatMap Gloss.needs)
        (.func (s.map Gloss.expr))
  | any {scope : List String} {shape : Interface Ty} (undemanding : HasMethodSet ns shape []) :
      Spelled ns replica scope (.interface shape) [] (.ident "any")
  | interface {scope : List String} {shape : Interface Gloss}
      (demanding : ¬ HasMethodSet ns (shape.map Gloss.type) [])
      (closed : ∀ m ∈ shape.methods, isOpenVariadic (m.signature.map Gloss.type) = false)
      (inner : ∀ g ∈ shape.types, Spelled ns replica scope g.type g.needs g.expr) :
      Spelled ns replica scope (.interface (shape.map Gloss.type)) (shape.types.flatMap Gloss.needs)
        (.interface (shape.map Gloss.expr).elements)
  | qualified {scope : List String} {base : QualName} (exported : base.isPublic = true)
      (simple : ∀ decl, ns.declaration? base = some decl → decl.params = []) :
      Spelled ns replica scope (.named base []) [.package base.package] (.qualified base)
  | undeclared {scope : List String} {base : QualName} {args : List Gloss} (some : args ≠ [])
      (exported : base.isPublic = true) (missing : ns.declaration? base = none)
      (inner : ∀ g ∈ args, Spelled ns replica scope g.type g.needs g.expr) :
      Spelled ns replica scope (.named base (args.map Gloss.type))
        (args.flatMap Gloss.needs ++ [.package base.package])
        (.applied (.qualified base) (args.map Gloss.expr))
  | publicInstance {scope : List String} {base : QualName} {decl : TypeDecl} {args : List Gloss}
      {owed : List Need} (some : args ≠ []) (exported : base.isPublic = true)
      (declared : ns.declaration? base = Option.some decl)
      (arity : decl.params.length = args.length)
      (inner : ∀ g ∈ args, Spelled ns replica scope g.type g.needs g.expr)
      (owes : Owed ns (decl.constraints (args.map Gloss.type)) owed) :
      Spelled ns replica scope (.named base (args.map Gloss.type))
        (args.flatMap Gloss.needs ++ .package base.package :: owed)
        (.applied (.qualified base) (args.map Gloss.expr))
  | replicaInstance {scope : List String} {base : QualName} {decl : TypeDecl} {args : List Gloss}
      {owed : List Need} (some : args ≠ []) (hidden : base.isPublic = false)
      (declared : ns.declaration? base = Option.some decl)
      (arity : decl.params.length = args.length) (named : replica base args.length)
      (inner : ∀ g ∈ args, Spelled ns replica scope g.type g.needs g.expr)
      (owes : Owed ns (decl.constraints (args.map Gloss.type)) owed) :
      Spelled ns replica scope (.named base (args.map Gloss.type))
        (args.flatMap Gloss.needs ++ .replica base :: owed)
        (.applied (.ident base.flat) (args.map Gloss.expr))
  | outlined {scope : List String} {base : QualName} {decl : TypeDecl}
      (simple : PrivateSimple ns base decl) (needsName : NeedsName ns base decl.underlying)
      (named : replica base 0) :
      Spelled ns replica scope (.named base []) [.replica base] (.ident base.flat)
  | inlined {scope : List String} {base : QualName} {decl : TypeDecl} {needs : List Need}
      {expr : Expr} (simple : PrivateSimple ns base decl)
      (unnamed : ¬ NeedsName ns base decl.underlying)
      (inner : Spelled ns replica [] decl.underlying needs expr) :
      Spelled ns replica scope (.named base []) needs expr

def anyReplica : QualName → Nat → Prop := fun _ _ => True

variable {limit : Nat} {ns : Namespace} {inline : Ty → Spelling Expr} {scope : List String}
  {needs : List Need} {expr : Expr}

theorem spellObligations_owed {pairs : List (Ty × Ty)}
    (spelled : spellObligations limit ns pairs = ⟨needs, .ok ()⟩) : Owed ns pairs needs := by
  induction pairs generalizing needs with
  | nil =>
      rcases Spelling.pure_eq_ok.mp spelled with ⟨rfl, _⟩
      exact .nil
  | cons pair rest ih =>
      cases pair with
      | mk constraint arg =>
          rw [spellObligations] at spelled
          rcases Spelling.bind_eq_ok.mp spelled with ⟨_, before, after, first, others, rfl⟩
          have tail := ih others
          rw [spellObligation] at first
          split at first
          · rename_i nothing
            rcases Spelling.pure_eq_ok.mp first with ⟨rfl, _⟩
            refine .free ?_ tail
            intro shape stands
            rw [nothing] at stands
            cases stands
          · rename_i shape stands
            split at first
            · exact absurd first Spelling.fail_ne_ok
            · rename_i demands
              rcases Spelling.pure_eq_ok.mp first with ⟨rfl, _⟩
              refine .free ?_ tail
              intro shape' stands'
              rw [stands] at stands'
              cases stands'
              exact ⟨limit, demands⟩
            · rename_i m methods demands
              cases first
              exact .owe stands ⟨limit, demands⟩ tail

theorem not_hasMethodSet_nil {shape : Interface Ty} {m : Method Ty} {methods : List (Method Ty)}
    (found : methodSet limit ns shape = some (m :: methods)) : ¬ HasMethodSet ns shape [] := by
  intro undemanding
  have same := HasMethodSet.unique undemanding ⟨limit, found⟩
  cases same

def GlossedAll (ns : Namespace) (scope : List String) (types : List Ty) (needs : List Need)
    (exprs : List Expr) : Prop :=
  ∃ gs : List Gloss, (∀ g ∈ gs, Spelled ns anyReplica scope g.type g.needs g.expr) ∧
    gs.map Gloss.type = types ∧ gs.flatMap Gloss.needs = needs ∧ gs.map Gloss.expr = exprs

theorem Expr.apply_of_ne_nil {base : Expr} {args : List Expr} (some : args ≠ []) :
    base.apply args = .applied base args := by
  cases args with
  | nil => exact absurd rfl some
  | cons arg rest => rfl

theorem spellInstance_spelled {base : QualName} {args : List Ty}
    {spelledArgs : Spelling (List Expr)}
    (glossed : ∀ needs exprs, spelledArgs = ⟨needs, .ok exprs⟩ →
      GlossedAll ns scope args needs exprs)
    (generic : args ≠ [] ∨ ∃ decl, ns.declaration? base = some decl ∧ decl.params ≠ [])
    (spelled : spellInstance limit ns base args spelledArgs = ⟨needs, .ok expr⟩) :
    Spelled ns anyReplica scope (.named base args) needs expr := by
  rw [spellInstance_eq] at spelled
  rcases Spelling.bind_eq_ok.mp spelled with ⟨exprs, before, after, argsOk, rest, rfl⟩
  rcases glossed before exprs argsOk with ⟨gs, inner, rfl, rfl, rfl⟩
  rw [spellApplied] at rest
  split at rest
  · rename_i missing
    have given : gs.map Gloss.type ≠ [] := by
      rcases generic with given | ⟨decl, declared, _⟩
      · exact given
      · rw [missing] at declared
        cases declared
    have some : gs ≠ [] := fun none => given (by rw [none]; rfl)
    split at rest
    · rename_i exported
      rcases Spelling.map_eq_ok.mp rest with ⟨head, headOk, rfl⟩
      cases headOk
      rw [Expr.apply_of_ne_nil (by simpa using some)]
      exact .undeclared some exported missing inner
    · exact absurd rest Spelling.fail_ne_ok
  · rename_i decl declared
    rcases Spelling.bind_eq_ok.mp rest with ⟨head, first, second, headOk, rest', rfl⟩
    split at rest'
    · rename_i arity
      rcases Spelling.bind_eq_ok.mp rest' with ⟨_, third, fourth, owedOk, last, rfl⟩
      rcases Spelling.pure_eq_ok.mp last with ⟨rfl, rfl⟩
      have owes := spellObligations_owed owedOk
      have given : gs.map Gloss.type ≠ [] := by
        rcases generic with given | ⟨decl', declared', some⟩
        · exact given
        · rw [declared] at declared'
          cases declared'
          intro none
          rw [none] at arity
          exact some (List.eq_nil_of_length_eq_zero arity)
      have some : gs ≠ [] := fun none => given (by rw [none]; rfl)
      rw [Expr.apply_of_ne_nil (by simpa using some), List.append_nil]
      rw [List.length_map] at arity
      rw [spellHead] at headOk
      split at headOk
      · rename_i exported
        cases headOk
        exact .publicInstance some exported declared arity inner owes
      · rename_i hidden
        cases headOk
        exact .replicaInstance some (by simpa using hidden) declared arity trivial inner owes
    · exact absurd rest' Spelling.fail_ne_ok

theorem spellPrivate_spelled {base : QualName} {decl : TypeDecl}
    (inlineOk : ∀ type needs expr, inline type = ⟨needs, .ok expr⟩ →
      Spelled ns anyReplica [] type needs expr)
    (simple : PrivateSimple ns base decl)
    (spelled : spellPrivate limit ns inline base decl.underlying = ⟨needs, .ok expr⟩) :
    Spelled ns anyReplica scope (.named base []) needs expr := by
  have outline : NeedsName ns base decl.underlying → spellReplica base = ⟨needs, .ok expr⟩ →
      Spelled ns anyReplica scope (.named base []) needs expr := by
    intro needsName replicaOk
    cases replicaOk
    exact .outlined simple needsName trivial
  have inPlace : ¬ NeedsName ns base decl.underlying →
      inline decl.underlying = ⟨needs, .ok expr⟩ →
      Spelled ns anyReplica scope (.named base []) needs expr :=
    fun unnamed inlined => .inlined simple unnamed (inlineOk _ _ _ inlined)
  unfold spellPrivate at spelled
  split at spelled
  · rename_i fields same
    exact outline (by rw [same]; trivial) spelled
  · rename_i shape same
    split at spelled
    · exact absurd spelled Spelling.fail_ne_ok
    · rename_i demands
      rcases Spelling.pure_eq_ok.mp spelled with ⟨rfl, rfl⟩
      have undemanding : HasMethodSet ns shape [] := ⟨limit, demands⟩
      refine .inlined simple ?_ (by rw [same]; exact .any undemanding)
      rw [same]
      exact fun needsName => needsName.1 undemanding
    · rename_i m methods demands
      have demanding := not_hasMethodSet_nil demands
      split at spelled
      · rename_i named
        rw [Bool.or_eq_true] at named
        exact outline (by rw [same]; exact ⟨demanding, named⟩) spelled
      · rename_i unnamed
        rw [Bool.or_eq_true] at unnamed
        exact inPlace (by rw [same]; exact fun needsName => unnamed needsName.2) spelled
  · rename_i noStruct noInterface
    have plain : NeedsName ns base decl.underlying ↔ isRecursive ns (.named base []) = true := by
      cases same : decl.underlying with
      | struct fields => exact absurd same (noStruct fields)
      | interface shape => exact absurd same (noInterface shape)
      | _ => exact Iff.rfl
    split at spelled
    · rename_i recursive
      exact outline (plain.mpr recursive) spelled
    · rename_i acyclic
      exact inPlace (fun needsName => acyclic (plain.mp needsName)) spelled

theorem spellNamed_spelled {base : QualName} {args : List Ty} {spelledArgs : Spelling (List Expr)}
    (inlineOk : ∀ type needs expr, inline type = ⟨needs, .ok expr⟩ →
      Spelled ns anyReplica [] type needs expr)
    (glossed : ∀ needs exprs, spelledArgs = ⟨needs, .ok exprs⟩ →
      GlossedAll ns scope args needs exprs)
    (spelled : spellNamed limit ns inline base args spelledArgs = ⟨needs, .ok expr⟩) :
    Spelled ns anyReplica scope (.named base args) needs expr := by
  rw [spellNamed] at spelled
  split at spelled
  · rename_i generic
    refine spellInstance_spelled glossed ?_ spelled
    simp only [Bool.or_eq_true, Bool.not_eq_true', List.isEmpty_eq_false_iff, Option.any_eq_true,
      TypeDecl.isGeneric] at generic
    exact generic
  · rename_i simple
    simp only [Bool.or_eq_true, Bool.not_eq_true', List.isEmpty_eq_false_iff, Option.any_eq_true,
      TypeDecl.isGeneric, not_or, not_not, not_exists, not_and] at simple
    rcases simple with ⟨rfl, nongeneric⟩
    split at spelled
    · rename_i exported
      cases spelled
      exact .qualified exported nongeneric
    · rename_i hidden
      split at spelled
      · exact absurd spelled Spelling.fail_ne_ok
      · rename_i decl declared
        have simple : PrivateSimple ns base decl :=
          ⟨by simpa using hidden, declared, nongeneric decl declared⟩
        exact spellPrivate_spelled inlineOk simple spelled

theorem gloss_fields {fields : List (Field Ty)} {written : List (Field Expr)}
    (sound : ∀ t ∈ fields.map (·.type), ∀ needs expr,
      spellWith limit ns inline scope t = ⟨needs, .ok expr⟩ →
        Spelled ns anyReplica scope t needs expr)
    (spelled : Spelling.each (spellFieldWith limit ns inline scope) fields =
      ⟨needs, .ok written⟩) :
    ∃ gs : List (Field Gloss),
      (∀ f ∈ gs, Spelled ns anyReplica scope f.type.type f.type.needs f.type.expr) ∧
      gs.map (Field.map Gloss.type) = fields ∧ gs.flatMap (·.type.needs) = needs ∧
      gs.map (Field.map Gloss.expr) = written := by
  refine Spelling.each_eq_ok ?_ spelled
  intro field member needs out fieldOk
  rcases Spelling.map_eq_ok.mp fieldOk with ⟨expr, typeOk, rfl⟩
  have inner := sound field.type (List.mem_map.mpr ⟨field, member, rfl⟩) needs expr typeOk
  exact ⟨⟨field.name, ⟨field.type, needs, expr⟩⟩, inner, rfl, rfl, rfl⟩

theorem gloss_signature {s : Signature Ty} {written : Signature Expr}
    (sound : ∀ t ∈ s.types, ∀ needs expr, spellWith limit ns inline scope t = ⟨needs, .ok expr⟩ →
      Spelled ns anyReplica scope t needs expr)
    (spelled : spellSignatureWith limit ns inline scope s = ⟨needs, .ok written⟩) :
    isOpenVariadic s = false ∧ ∃ gs : Signature Gloss,
      (∀ g ∈ gs.types, Spelled ns anyReplica scope g.type g.needs g.expr) ∧
      gs.map Gloss.type = s ∧ gs.types.flatMap Gloss.needs = needs ∧
      gs.map Gloss.expr = written := by
  rw [spellSignatureWith_eq] at spelled
  split at spelled
  · exact absurd spelled Spelling.fail_ne_ok
  · rename_i closed
    refine ⟨by simpa using closed, ?_⟩
    rcases Spelling.bind_eq_ok.mp spelled with ⟨params, before, after, first, rest, rfl⟩
    rcases Spelling.map_eq_ok.mp rest with ⟨results, second, rfl⟩
    rcases gloss_fields (fun t member => sound t (List.mem_append_left _ member)) first with
      ⟨ps, psSpelled, psTypes, rfl, rfl⟩
    rcases gloss_fields (fun t member => sound t (List.mem_append_right _ member)) second with
      ⟨rs, rsSpelled, rsTypes, rfl, rfl⟩
    refine ⟨⟨ps, rs, s.variadic⟩, ?_, ?_, ?_, rfl⟩
    · intro g member
      rcases List.mem_append.mp member with inParams | inResults
      · rcases List.mem_map.mp inParams with ⟨f, inside, rfl⟩
        exact psSpelled f inside
      · rcases List.mem_map.mp inResults with ⟨f, inside, rfl⟩
        exact rsSpelled f inside
    · rw [Signature.map, psTypes, rsTypes]
    · simp only [Signature.types, List.flatMap_append, List.flatMap_map]

theorem gloss_methods {methods : List (Method Ty)} {written : List (Element Expr)}
    (sound : ∀ m ∈ methods, ∀ t ∈ m.signature.types, ∀ needs expr,
      spellWith limit ns inline scope t = ⟨needs, .ok expr⟩ →
        Spelled ns anyReplica scope t needs expr)
    (spelled : Spelling.each (spellMethodWith limit ns inline scope) methods =
      ⟨needs, .ok written⟩) :
    ∃ gs : List (Method Gloss),
      (∀ m ∈ gs, isOpenVariadic (m.signature.map Gloss.type) = false ∧
        ∀ g ∈ m.signature.types, Spelled ns anyReplica scope g.type g.needs g.expr) ∧
      gs.map (Method.map Gloss.type) = methods ∧
      gs.flatMap (fun m => m.signature.types.flatMap Gloss.needs) = needs ∧
      gs.map (fun m => Element.method m.name (m.signature.map Gloss.expr)) = written := by
  refine Spelling.each_eq_ok ?_ spelled
  intro m member needs out methodOk
  rcases Spelling.map_eq_ok.mp methodOk with ⟨signature, signatureOk, rfl⟩
  rcases gloss_signature (sound m member) signatureOk with ⟨closed, gs, inner, same, rfl, rfl⟩
  refine ⟨⟨m.name, gs⟩, ⟨?_, inner⟩, ?_, rfl, rfl⟩
  · rw [same]
    exact closed
  · rw [Method.map, same]

theorem gloss_elements {shape : Interface Ty} {written : List (Element Expr)}
    (sound : ∀ t ∈ shape.types, ∀ needs expr,
      spellWith limit ns inline scope t = ⟨needs, .ok expr⟩ →
        Spelled ns anyReplica scope t needs expr)
    (spelled : spellElementsWith limit ns inline scope shape = ⟨needs, .ok written⟩) :
    ∃ gs : Interface Gloss,
      (∀ m ∈ gs.methods, isOpenVariadic (m.signature.map Gloss.type) = false) ∧
      (∀ g ∈ gs.types, Spelled ns anyReplica scope g.type g.needs g.expr) ∧
      gs.map Gloss.type = shape ∧ gs.types.flatMap Gloss.needs = needs ∧
      (gs.map Gloss.expr).elements = written := by
  rw [spellElementsWith_eq] at spelled
  rcases Spelling.bind_eq_ok.mp spelled with ⟨exprs, before, after, first, rest, rfl⟩
  rcases Spelling.map_eq_ok.mp rest with ⟨methods, second, rfl⟩
  have embeddedOk : GlossedAll ns scope shape.embedded before exprs := by
    refine Spelling.each_eq_ok ?_ first
    intro t member needs expr typeOk
    exact ⟨⟨t, needs, expr⟩, sound t (List.mem_append_left _ member) needs expr typeOk, rfl, rfl,
      rfl⟩
  rcases embeddedOk with ⟨es, esSpelled, esTypes, rfl, rfl⟩
  rcases gloss_methods
    (fun m member t inside => sound t (Interface.mem_types_of_method member inside))
    second with ⟨ms, msSpelled, msTypes, rfl, rfl⟩
  refine ⟨⟨es, ms⟩, fun m member => (msSpelled m member).1, ?_, ?_, ?_, ?_⟩
  · intro g member
    rcases List.mem_append.mp member with inEmbedded | inMethods
    · exact esSpelled g inEmbedded
    · rcases List.mem_flatMap.mp inMethods with ⟨m, method, inside⟩
      exact (msSpelled m method).2 g inside
  · rw [Interface.map, esTypes, msTypes]
  · simp only [Interface.types, List.flatMap_append, List.flatMap_assoc]
  · simp only [Interface.elements, Interface.map, List.map_map]
    rfl

theorem gloss_members {fields : List (Field Ty)} {written : List (Member Expr)}
    (sound : ∀ t ∈ fields.map (·.type), ∀ needs expr,
      spellWith limit ns inline scope t = ⟨needs, .ok expr⟩ →
        Spelled ns anyReplica scope t needs expr)
    (spelled : spellMembersWith limit ns inline scope 0 fields = ⟨needs, .ok written⟩) :
    ∃ gs : List (Field Gloss),
      (∀ f ∈ gs, Spelled ns anyReplica scope f.type.type f.type.needs f.type.expr) ∧
      gs.map (Field.map Gloss.type) = fields ∧ gs.flatMap (·.type.needs) = needs ∧
      glossedMembers gs = written := by
  rw [spellMembersWith_eq] at spelled
  have placed : ∃ gs : List (Field Gloss × Nat),
      (∀ f ∈ gs, Spelled ns anyReplica scope f.1.type.type f.1.type.needs f.1.type.expr) ∧
      gs.map (fun f => (Field.map Gloss.type f.1, f.2)) = fields.zipIdx ∧
      gs.flatMap (·.1.type.needs) = needs ∧
      gs.map (fun f => (⟨memberName f.1.name f.1.type.type, f.1.type.expr, f.2⟩ : Member Expr)) =
        written := by
    refine Spelling.each_eq_ok ?_ spelled
    intro place member needs out memberOk
    rcases Spelling.map_eq_ok.mp memberOk with ⟨expr, typeOk, rfl⟩
    have inside : place.1 ∈ fields := List.fst_mem_of_mem_zipIdx member
    have inner := sound place.1.type (List.mem_map.mpr ⟨place.1, inside, rfl⟩) needs expr typeOk
    exact ⟨(⟨place.1.name, ⟨place.1.type, needs, expr⟩⟩, place.2), inner, rfl, rfl, rfl⟩
  rcases placed with ⟨gs, inner, types, rfl, rfl⟩
  -- The places are those of the fields, so they can be left out and put back.
  have places : gs = (gs.map (·.1)).zipIdx := by
    have positions := congrArg (List.map Prod.snd) types
    have count := congrArg List.length types
    simp only [List.map_map, Function.comp_def, List.length_map,
      List.length_zipIdx] at positions count
    rw [List.zipIdx_eq_zip_range', List.length_map, count, ← List.zipIdx_map_snd, ← positions]
    exact List.zip_of_prod rfl rfl
  refine ⟨gs.map (·.1), ?_, ?_, ?_, ?_⟩
  · intro f member
    rcases List.mem_map.mp member with ⟨place, inside, rfl⟩
    exact inner place inside
  · have names := congrArg (List.map Prod.fst) types
    simpa only [List.map_map, Function.comp_def, List.zipIdx_map_fst] using names
  · rw [List.flatMap_map]
  · rw [glossedMembers, ← places]

theorem spellWith_spelled
    (inlineOk : ∀ type needs expr, inline type = ⟨needs, .ok expr⟩ →
      Spelled ns anyReplica [] type needs expr)
    (type : Ty) (needs : List Need) (expr : Expr)
    (spelled : spellWith limit ns inline scope type = ⟨needs, .ok expr⟩) :
    Spelled ns anyReplica scope type needs expr := by
  induction type using Ty.induct generalizing needs expr with
  | step type ih =>
      cases type with
      | basic name =>
          rcases Spelling.pure_eq_ok.mp spelled with ⟨rfl, rfl⟩
          exact .basic name
      | param name =>
          rw [spellWith] at spelled
          split at spelled
          · rename_i bound
            rcases Spelling.pure_eq_ok.mp spelled with ⟨rfl, rfl⟩
            exact .param bound
          · exact absurd spelled Spelling.fail_ne_ok
      | named base args =>
          rw [spellWith, spellAllWith_eq] at spelled
          refine spellNamed_spelled inlineOk ?_ spelled
          intro needs exprs argsOk
          refine Spelling.each_eq_ok ?_ argsOk
          intro t member needs expr typeOk
          exact ⟨⟨t, needs, expr⟩, ih t member needs expr typeOk, rfl, rfl, rfl⟩
      | pointer elem =>
          rcases Spelling.map_eq_ok.mp spelled with ⟨inner, elemOk, rfl⟩
          exact .pointer (ih elem (List.mem_singleton_self _) _ _ elemOk)
      | slice elem =>
          rcases Spelling.map_eq_ok.mp spelled with ⟨inner, elemOk, rfl⟩
          exact .slice (ih elem (List.mem_singleton_self _) _ _ elemOk)
      | map key value =>
          rw [spellWith] at spelled
          rcases Spelling.bind_eq_ok.mp spelled with ⟨keyExpr, before, after, keyOk, rest, rfl⟩
          rcases Spelling.map_eq_ok.mp rest with ⟨valueExpr, valueOk, rfl⟩
          exact .map (ih key List.mem_cons_self _ _ keyOk)
            (ih value (List.mem_cons_of_mem _ (List.mem_singleton_self _)) _ _ valueOk)
      | array len elem =>
          rcases Spelling.map_eq_ok.mp spelled with ⟨inner, elemOk, rfl⟩
          exact .array (ih elem (List.mem_singleton_self _) _ _ elemOk)
      | chan direction elem => exact absurd spelled Spelling.fail_ne_ok
      | struct fields =>
          rw [spellWith] at spelled
          rcases Spelling.map_eq_ok.mp spelled with ⟨members, membersOk, rfl⟩
          rcases gloss_members ih membersOk with ⟨gs, inner, rfl, rfl, rfl⟩
          exact .struct inner
      | interface shape =>
          rw [spellWith] at spelled
          split at spelled
          · exact absurd spelled Spelling.fail_ne_ok
          · rename_i undemanding
            rcases Spelling.pure_eq_ok.mp spelled with ⟨rfl, rfl⟩
            exact .any ⟨limit, undemanding⟩
          · rename_i m methods demanding
            rcases Spelling.map_eq_ok.mp spelled with ⟨elements, elementsOk, rfl⟩
            rcases gloss_elements ih elementsOk with ⟨gs, closed, inner, rfl, rfl, rfl⟩
            exact .interface (not_hasMethodSet_nil demanding) closed inner
      | func signature =>
          rw [spellWith] at spelled
          rcases Spelling.map_eq_ok.mp spelled with ⟨written, signatureOk, rfl⟩
          rcases gloss_signature ih signatureOk with ⟨closed, gs, inner, rfl, rfl, rfl⟩
          exact .func closed inner

theorem spellInline_spelled (depth : Nat) (type : Ty) (needs : List Need) (expr : Expr)
    (spelled : spellInline limit ns depth type = ⟨needs, .ok expr⟩) :
    Spelled ns anyReplica [] type needs expr := by
  induction depth generalizing type needs expr with
  | zero => exact absurd spelled Spelling.fail_ne_ok
  | succ depth ih => exact spellWith_spelled ih type needs expr spelled

theorem spell_spelled (type : Ty) (needs : List Need) (expr : Expr)
    (spelled : spell limit ns scope type = ⟨needs, .ok expr⟩) :
    Spelled ns anyReplica scope type needs expr :=
  spellWith_spelled (spellInline_spelled limit) type needs expr spelled

/-- `body` is laid out like `type`, which a declaration with the type parameters of `scope` gives
its name to. -/
inductive SpelledBody (ns : Namespace) (replica : QualName → Nat → Prop) (scope : List String) :
    Ty → List Need → Body → Prop where
  | struct {fields : List (Field Gloss)}
      (inner : ∀ f ∈ fields, Spelled ns replica scope f.type.type f.type.needs f.type.expr) :
      SpelledBody ns replica scope (.struct (fields.map (Field.map Gloss.type)))
        (fields.flatMap (·.type.needs)) (.struct (glossedMembers fields))
  | interface {shape : Interface Gloss}
      (closed : ∀ m ∈ shape.methods, isOpenVariadic (m.signature.map Gloss.type) = false)
      (inner : ∀ g ∈ shape.types, Spelled ns replica scope g.type g.needs g.expr) :
      SpelledBody ns replica scope (.interface (shape.map Gloss.type))
        (shape.types.flatMap Gloss.needs) (.interface (shape.map Gloss.expr).elements)
  | defined {type : Ty} {needs : List Need} {expr : Expr}
      (noStruct : ∀ fields, type ≠ .struct fields) (noInterface : ∀ shape, type ≠ .interface shape)
      (inner : Spelled ns replica scope type needs expr) :
      SpelledBody ns replica scope type needs (.defined expr)

/-- `decl` is the replica of `source`, declared as `origin`. -/
structure SpelledDecl (ns : Namespace) (replica : QualName → Nat → Prop) (origin : QualName)
    (source : TypeDecl) (needs : List Need) (decl : Decl) : Prop where
  named : decl.name = origin.flat
  origin_eq : decl.origin = origin
  spelled : ∃ (params : List (Field Gloss)) (bodyNeeds : List Need),
    params.map (Field.map Gloss.type) = source.params ∧
    params.map (Field.map Gloss.expr) = decl.params ∧
    (∀ p ∈ params,
      Spelled ns replica source.paramNames p.type.type p.type.needs p.type.expr) ∧
    SpelledBody ns replica source.paramNames source.underlying bodyNeeds decl.body ∧
    needs = params.flatMap (·.type.needs) ++ bodyNeeds

theorem spellBody_spelled {type : Ty} {body : Body}
    (spelled : spellBody limit ns scope type = ⟨needs, .ok body⟩) :
    SpelledBody ns anyReplica scope type needs body := by
  cases type with
  | struct fields =>
      rcases Spelling.map_eq_ok.mp spelled with ⟨members, membersOk, rfl⟩
      rcases gloss_members (fun t _ => spell_spelled t) membersOk with ⟨gs, inner, rfl, rfl, rfl⟩
      exact .struct inner
  | interface shape =>
      rcases Spelling.map_eq_ok.mp spelled with ⟨elements, elementsOk, rfl⟩
      rcases gloss_elements (fun t _ => spell_spelled t) elementsOk with
        ⟨gs, closed, inner, rfl, rfl, rfl⟩
      exact .interface closed inner
  | _ =>
      rcases Spelling.map_eq_ok.mp spelled with ⟨expr, typeOk, rfl⟩
      exact .defined (fun _ same => by cases same) (fun _ same => by cases same)
        (spell_spelled _ _ _ typeOk)

theorem spellDecl_spelled {origin : QualName} {source : TypeDecl} {decl : Decl}
    (spelled : spellDecl limit ns origin source = ⟨needs, .ok decl⟩) :
    SpelledDecl ns anyReplica origin source needs decl := by
  rw [spellDecl, spellConstraints, spellParamsWith_eq] at spelled
  rcases Spelling.bind_eq_ok.mp spelled with ⟨params, before, after, paramsOk, rest, rfl⟩
  rcases Spelling.map_eq_ok.mp rest with ⟨body, bodyOk, rfl⟩
  rcases gloss_fields (fun t _ => spell_spelled t) paramsOk with ⟨gs, inner, types, rfl, rfl⟩
  exact ⟨rfl, rfl, gs, after, types, rfl, inner, spellBody_spelled bodyOk, rfl⟩

end Replica
