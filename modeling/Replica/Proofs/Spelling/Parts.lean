import Replica.Proofs.Spelling.Grounded

/-!
The parts of a spelling. Whatever stands in the place of a part of a type spells that part, and what
the part needs is among what the whole needs.
-/

namespace Replica

def Expr.parts : Expr → List Expr
  | .applied _ args => args
  | other => other.children

variable {ns : Namespace} {replica : QualName → Nat → Prop} {scope : List String} {t u : Ty}
  {needs : List Need} {e f : Expr}

/-- `e` spells `t`, and what it needs by itself is among `needs`. -/
def SpelledWithin (ns : Namespace) (replica : QualName → Nat → Prop) (scope : List String)
    (needs : List Need) (t : Ty) (e : Expr) : Prop :=
  ∃ own, Spelled ns replica scope t own e ∧ ∀ need ∈ own, need ∈ needs

theorem SpelledWithin.mono {more : List Need} (spelled : SpelledWithin ns replica scope needs t e)
    (longer : ∀ need ∈ needs, need ∈ more) : SpelledWithin ns replica scope more t e := by
  obtain ⟨own, spelled, within⟩ := spelled
  exact ⟨own, spelled, fun need member => longer need (within need member)⟩

theorem spelledWithin_glosses {gs : List Gloss}
    (each : ∀ g ∈ gs, Spelled ns replica scope g.type g.needs g.expr)
    (part : (u, f) ∈ (gs.map Gloss.type).zip (gs.map Gloss.expr)) :
    SpelledWithin ns replica scope (gs.flatMap Gloss.needs) u f := by
  rw [List.zip_map'] at part
  obtain ⟨g, inside, same⟩ := List.mem_map.mp part
  cases same
  exact ⟨g.needs, each g inside, fun need member => List.mem_flatMap.mpr ⟨g, inside, member⟩⟩

theorem Spelled.part (spelled : Spelled ns replica scope t needs e)
    (part : (u, f) ∈ t.children.zip e.parts) : SpelledWithin ns replica scope needs u f := by
  have only : ∀ {inner : Ty} {expr : Expr}, Spelled ns replica scope inner needs expr →
      (u, f) ∈ [inner].zip [expr] → SpelledWithin ns replica scope needs u f := by
    intro inner expr spelled part
    cases List.mem_singleton.mp part
    exact ⟨needs, spelled, fun _ => id⟩
  cases spelled with
  | pointer inner | slice inner | array inner => exact only inner part
  | map first second =>
      rcases List.mem_cons.mp part with same | rest
      · cases same
        exact ⟨_, first, fun _ => List.mem_append_left _⟩
      · cases List.mem_singleton.mp rest
        exact ⟨_, second, fun _ => List.mem_append_right _⟩
  | @struct _ fields inner =>
      have each : ∀ g ∈ fields.map (·.type), Spelled ns replica scope g.type g.needs g.expr := by
        intro g member
        obtain ⟨f, inside, rfl⟩ := List.mem_map.mp member
        exact inner f inside
      change (u, f) ∈ List.zip (List.map _ _) ((glossedMembers fields).map (·.type)) at part
      rw [fields_map_type, glossedMembers_types] at part
      rw [← List.flatMap_map]
      exact spelledWithin_glosses each part
  | @func _ s closed inner =>
      change (u, f) ∈ List.zip (Signature.map _ s).types (Signature.map _ s).types at part
      rw [Signature.types_map, Signature.types_map] at part
      exact spelledWithin_glosses inner part
  | @interface _ shape demanding closed inner =>
      change (u, f) ∈ List.zip (Interface.map _ shape).types (List.flatMap _ _) at part
      rw [Interface.types_map, Interface.elements_types, Interface.types_map] at part
      exact spelledWithin_glosses inner part
  | undeclared some exported missing inner | publicInstance some exported declared arity inner owes
  | replicaInstance some hidden declared arity named inner owes =>
      exact (spelledWithin_glosses inner part).mono fun _ => List.mem_append_left _
  | _ => exact absurd part (by simp [Ty.children, Expr.parts, Expr.children])

theorem Owed.mem {pairs : List (Ty × Ty)} {owed : List Need} {constraint arg : Ty}
    {shape : Interface Ty} {methods : List (Method Ty)} (owes : Owed ns pairs owed)
    (pair : (constraint, arg) ∈ pairs) (stands : interfaceOf? ns constraint = some shape)
    (has : HasMethodSet ns shape methods) (demanding : methods ≠ []) :
    Need.obligation ⟨shape, arg⟩ ∈ owed := by
  induction owes with
  | nil => exact absurd pair List.not_mem_nil
  | @free other arg' rest needs unconstrained _ ih =>
      rcases List.mem_cons.mp pair with same | later
      · cases same
        exact absurd (has.unique (unconstrained shape stands)) demanding
      · exact ih later
  | @owe other arg' shape' m methods' rest needs stands' _ _ ih =>
      rcases List.mem_cons.mp pair with same | later
      · cases same
        cases stands.symm.trans stands'
        exact List.mem_cons_self
      · exact List.mem_cons_of_mem _ (ih later)

theorem Spelled.applied {base : QualName} {args : List Ty} (some : args ≠ [])
    (spelled : Spelled ns replica scope (.named base args) needs e) :
    ∃ head exprs, e = .applied head exprs ∧ exprs.length = args.length ∧
      ∀ decl, ns.declaration? base = Option.some decl →
        ∃ owed, Owed ns (decl.constraints args) owed ∧ ∀ need ∈ owed, need ∈ needs := by
  generalize same : Ty.named base args = t at spelled
  cases spelled with
  | qualified | outlined | inlined =>
      cases same
      exact absurd rfl some
  | undeclared _ _ missing _ =>
      cases same
      refine ⟨_, _, rfl, by simp, fun decl declared => ?_⟩
      rw [missing] at declared
      cases declared
  | publicInstance _ _ declared _ _ owes | replicaInstance _ _ declared _ _ _ owes =>
      cases same
      refine ⟨_, _, rfl, by simp, fun decl declared' => ?_⟩
      rw [declared] at declared'
      cases declared'
      exact ⟨_, owes, fun need member => List.mem_append_right _ (List.mem_cons_of_mem _ member)⟩
  | _ => cases same

theorem SpelledDecl.part {origin : QualName} {source : TypeDecl} {decl : Decl}
    (spelled : SpelledDecl ns replica origin source needs decl)
    (part : (t, e) ∈ source.types.zip decl.exprs) :
    SpelledWithin ns replica source.paramNames needs t e := by
  obtain ⟨gs, inner, types, rfl, exprs⟩ := spelled.glosses
  rw [← types, ← exprs] at part
  exact spelledWithin_glosses inner part

theorem SpelledStub.part {receiver : Receiver} {m : Method Ty} {stub : Stub}
    (spelled : SpelledStub ns replica receiver m needs stub)
    (part : (t, e) ∈ m.signature.types.zip stub.exprs) : SpelledWithin ns replica [] needs t e := by
  obtain ⟨_, gs, types, inner, rfl, signature⟩ := spelled.spelled
  rw [Stub.exprs, signature, Signature.types_blanked, ← types, Signature.types_map,
    Signature.types_map] at part
  exact spelledWithin_glosses inner part

end Replica
