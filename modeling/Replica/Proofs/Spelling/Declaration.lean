import Replica.Proofs.Spelling.Needs

/-!
Declarations and stubs as lists of spelled types: what they mention, need and owe is what these
types mention, need and owe.
-/

namespace Replica

variable {ns : Namespace} {replica : QualName → Nat → Prop} {scope : List String} {type : Ty}
  {needs : List Need}

theorem justified_glosses {p : List String → Ty → Prop} (inherited : Inherited ns p)
    {gs : List Gloss} (spelled : ∀ g ∈ gs, Spelled ns replica scope g.type g.needs g.expr)
    (every : ∀ g ∈ gs, Ty.Every (p scope) g.type) :
    ∀ need ∈ gs.flatMap Gloss.needs, Justified ns replica p need := by
  intro need member
  rcases List.mem_flatMap.mp member with ⟨g, inside, needed⟩
  exact (spelled g inside).justified inherited (every g inside) need needed

theorem accounts_spelled {gs : List Gloss}
    (spelled : ∀ g ∈ gs, Spelled ns replica scope g.type g.needs g.expr) :
    Accounts (gs.flatMap Gloss.needs) (MentionedIn (gs.map Gloss.expr)) :=
  accounts_glosses fun g member => (spelled g member).accounts

section

variable {replica' : QualName → Nat → Prop}
  (refers : ∀ q decl, Need.replica q ∈ needs → ns.declaration? q = some decl →
    replica' q decl.params.length)

include refers

theorem referring_glosses {gs : List Gloss}
    (spelled : ∀ g ∈ gs, Spelled ns replica scope g.type g.needs g.expr)
    (within : ∀ need ∈ gs.flatMap Gloss.needs, need ∈ needs) :
    ∀ g ∈ gs, Spelled ns replica' scope g.type g.needs g.expr := by
  intro g member
  refine (spelled g member).referring fun q decl need => refers q decl (within _ ?_)
  exact List.mem_flatMap.mpr ⟨g, member, need⟩

theorem referring_fields {fields : List (Field Gloss)}
    (spelled : ∀ f ∈ fields, Spelled ns replica scope f.type.type f.type.needs f.type.expr)
    (within : ∀ need ∈ fields.flatMap (·.type.needs), need ∈ needs) :
    ∀ f ∈ fields, Spelled ns replica' scope f.type.type f.type.needs f.type.expr := by
  intro f member
  refine (spelled f member).referring fun q decl need => refers q decl (within _ ?_)
  exact List.mem_flatMap.mpr ⟨f, member, need⟩

end

def TypeDecl.types (source : TypeDecl) : List Ty :=
  source.params.map (·.type) ++ source.underlying.members

theorem SpelledBody.glosses {body : Body} (spelled : SpelledBody ns replica scope type needs body) :
    ∃ gs : List Gloss, (∀ g ∈ gs, Spelled ns replica scope g.type g.needs g.expr) ∧
      gs.map Gloss.type = type.members ∧ gs.flatMap Gloss.needs = needs ∧
      gs.map Gloss.expr = body.exprs := by
  cases spelled with
  | @struct fields inner =>
      refine ⟨fields.map (·.type), ?_, ?_, ?_, (glossedMembers_types fields).symm⟩
      · intro g member
        rcases List.mem_map.mp member with ⟨f, inside, rfl⟩
        exact inner f inside
      · rw [Ty.members, fields_map_type]
      · rw [List.flatMap_map]
  | @interface shape closed inner =>
      refine ⟨shape.types, inner, ?_, rfl, ?_⟩
      · rw [Ty.members, Interface.types_map]
      · rw [Body.exprs, Interface.elements_types, Interface.types_map]
  | @defined type needs expr noStruct noInterface inner =>
      refine ⟨[⟨type, needs, expr⟩], ?_, ?_, List.append_nil needs, rfl⟩
      · intro g member
        cases List.mem_singleton.mp member
        exact inner
      · cases type with
        | struct fields => exact absurd rfl (noStruct fields)
        | interface shape => exact absurd rfl (noInterface shape)
        | _ => rfl

theorem SpelledBody.referring {replica' : QualName → Nat → Prop} {body : Body}
    (spelled : SpelledBody ns replica scope type needs body)
    (refers : ∀ q decl, Need.replica q ∈ needs → ns.declaration? q = some decl →
      replica' q decl.params.length) : SpelledBody ns replica' scope type needs body := by
  cases spelled with
  | struct inner => exact .struct (referring_fields refers inner fun _ => id)
  | interface closed inner => exact .interface closed (referring_glosses refers inner fun _ => id)
  | defined noStruct noInterface inner =>
      exact .defined noStruct noInterface (inner.referring refers)

section

variable {origin : QualName} {source : TypeDecl} {decl : Decl}

theorem SpelledDecl.glosses (spelled : SpelledDecl ns replica origin source needs decl) :
    ∃ gs : List Gloss, (∀ g ∈ gs, Spelled ns replica source.paramNames g.type g.needs g.expr) ∧
      gs.map Gloss.type = source.types ∧ gs.flatMap Gloss.needs = needs ∧
      gs.map Gloss.expr = decl.exprs := by
  rcases spelled.spelled with ⟨params, bodyNeeds, types, exprs, inner, body, rfl⟩
  rcases body.glosses with ⟨gs, bodyInner, bodyTypes, rfl, bodyExprs⟩
  refine ⟨params.map (·.type) ++ gs, ?_, ?_, ?_, ?_⟩
  · intro g member
    rcases List.mem_append.mp member with inParams | inBody
    · rcases List.mem_map.mp inParams with ⟨param, inside, rfl⟩
      exact inner param inside
    · exact bodyInner g inBody
  · rw [TypeDecl.types, ← types, fields_map_type, List.map_append, bodyTypes]
  · rw [List.flatMap_append, List.flatMap_map]
  · rw [Decl.exprs, ← exprs, fields_map_type, ← bodyExprs, List.map_append]

theorem SpelledDecl.accounts (spelled : SpelledDecl ns replica origin source needs decl) :
    Accounts needs (MentionedIn decl.exprs) := by
  rcases spelled.glosses with ⟨gs, inner, _, rfl, exprs⟩
  rw [← exprs]
  exact accounts_spelled inner

theorem SpelledDecl.justified {p : List String → Ty → Prop} (inherited : Inherited ns p)
    (declared : ns.declaration? origin = some source)
    (spelled : SpelledDecl ns replica origin source needs decl) :
    ∀ need ∈ needs, Justified ns replica p need := by
  rcases spelled.glosses with ⟨gs, inner, types, rfl, _⟩
  refine justified_glosses inherited inner fun g member => ?_
  have listed : g.type ∈ source.types := types ▸ List.mem_map.mpr ⟨g, member, rfl⟩
  rcases List.mem_append.mp listed with inParams | inBody
  · rcases List.mem_map.mp inParams with ⟨param, inside, same⟩
    rw [← same]
    exact inherited.constraint origin source declared param inside
  · exact (inherited.underlying origin source declared).of_mem_members inBody

theorem SpelledDecl.referring {replica' : QualName → Nat → Prop}
    (spelled : SpelledDecl ns replica origin source needs decl)
    (refers : ∀ q decl, Need.replica q ∈ needs → ns.declaration? q = some decl →
      replica' q decl.params.length) : SpelledDecl ns replica' origin source needs decl := by
  rcases spelled.spelled with ⟨params, bodyNeeds, types, exprs, inner, body, rfl⟩
  refine ⟨spelled.named, spelled.origin_eq, params, bodyNeeds, types, exprs, ?_, ?_, rfl⟩
  · exact referring_fields refers inner fun _ => List.mem_append_left _
  · exact body.referring fun q decl need => refers q decl (List.mem_append_right _ need)

theorem SpelledDecl.paramNames (spelled : SpelledDecl ns replica origin source needs decl) :
    decl.params.map (·.name) = source.paramNames := by
  rcases spelled.spelled with ⟨params, _, types, exprs, _⟩
  rw [TypeDecl.paramNames, ← types, ← exprs, List.map_map, List.map_map]
  rfl

theorem SpelledDecl.arity (spelled : SpelledDecl ns replica origin source needs decl) :
    decl.params.length = source.params.length := by
  rcases spelled.spelled with ⟨params, _, types, exprs, _⟩
  rw [← types, ← exprs, List.length_map, List.length_map]

end

/-- `stub` is the method `m` with an empty body, attached to the replica of a receiver. No type
parameter is in scope there. -/
structure SpelledStub (ns : Namespace) (replica : QualName → Nat → Prop) (receiver : Receiver)
    (m : Method Ty) (needs : List Need) (stub : Stub) : Prop where
  receiver_eq : stub.receiver = receiver.origin.flat
  pointer_eq : stub.pointerReceiver = receiver.pointer
  method_eq : stub.method = m.name
  closed : Ty.mentionsParamSignature m.signature = false
  spelled : isOpenVariadic m.signature = false ∧ ∃ gs : Signature Gloss,
    gs.map Gloss.type = m.signature ∧
    (∀ g ∈ gs.types, Spelled ns replica [] g.type g.needs g.expr) ∧
    needs = gs.types.flatMap Gloss.needs ∧ stub.signature = (gs.map Gloss.expr).blanked

theorem Signature.types_blanked {α : Type} (s : Signature α) : s.blanked.types = s.types := by
  simp only [blanked, types, List.map_map]
  rfl

section

variable {receiver : Receiver} {m : Method Ty} {stub : Stub}

theorem spellSignature_spelled (receiver : Receiver) {limit : Nat} {signature : Signature Expr}
    (closed : Ty.mentionsParamSignature m.signature = false)
    (spelled : spellSignature limit ns [] m.signature = ⟨needs, .ok signature⟩) :
    SpelledStub ns anyReplica receiver m needs
      ⟨receiver.origin.flat, receiver.pointer, m.name, signature.blanked⟩ := by
  rcases gloss_signature (fun t _ => spell_spelled t) spelled with
    ⟨ended, gs, inner, types, rfl, rfl⟩
  exact ⟨rfl, rfl, rfl, closed, ended, gs, types, inner, rfl, rfl⟩

theorem SpelledStub.accounts (spelled : SpelledStub ns replica receiver m needs stub) :
    Accounts needs (MentionedIn stub.exprs) := by
  rcases spelled.spelled with ⟨_, gs, _, inner, rfl, signature⟩
  rw [Stub.exprs, signature, Signature.types_blanked, Signature.types_map]
  exact accounts_spelled inner

theorem SpelledStub.justified {p : List String → Ty → Prop} (inherited : Inherited ns p)
    (every : ∀ t ∈ m.signature.types, Ty.Every (p []) t)
    (spelled : SpelledStub ns replica receiver m needs stub) :
    ∀ need ∈ needs, Justified ns replica p need := by
  rcases spelled.spelled with ⟨_, gs, types, inner, rfl, _⟩
  refine justified_glosses inherited inner fun g member => every _ ?_
  rw [← types, Signature.types_map]
  exact List.mem_map.mpr ⟨g, member, rfl⟩

theorem SpelledStub.referring {replica' : QualName → Nat → Prop}
    (spelled : SpelledStub ns replica receiver m needs stub)
    (refers : ∀ q decl, Need.replica q ∈ needs → ns.declaration? q = some decl →
      replica' q decl.params.length) : SpelledStub ns replica' receiver m needs stub := by
  rcases spelled.spelled with ⟨ended, gs, types, inner, rfl, signature⟩
  have inner' := referring_glosses refers inner fun _ => id
  exact ⟨spelled.receiver_eq, spelled.pointer_eq, spelled.method_eq, spelled.closed, ended, gs,
    types, inner', rfl, signature⟩

end

end Replica
