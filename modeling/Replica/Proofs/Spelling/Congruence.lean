import Replica.Proofs.Spelling.Basic

/-!
Relations between spellings that sequencing keeps. Such a relation holds of what is spelled for a
list, for the fields of a struct, for a signature or for the elements of an interface if it holds of
what is spelled for each type in it.
-/

namespace Replica

/-- A relation between spellings that sequencing keeps. -/
structure Spelling.Congruence (R : (α : Type) → Spelling α → Spelling α → Prop) : Prop where
  refl : ∀ {α : Type} (s : Spelling α), R α s s
  bind : ∀ {α β : Type} {s s' : Spelling α} {next next' : α → Spelling β},
    R α s s' → (∀ a, R β (next a) (next' a)) → R β (s >>= next) (s' >>= next')

namespace Spelling.Congruence

theorem eq : Congruence fun _ => Eq where
  refl _ := rfl
  bind same next := by rw [same, funext next]

variable {R : (α : Type) → Spelling α → Spelling α → Prop} {α β : Type}
  (congruence : Congruence R)

include congruence

theorem map {s s' : Spelling α} (related : R α s s') (wrap : α → β) :
    R β (do return wrap (← s)) (do return wrap (← s')) :=
  congruence.bind related fun a => congruence.refl (pure (wrap a))

theorem each {f f' : α → Spelling β} {as : List α} (every : ∀ a ∈ as, R β (f a) (f' a)) :
    R (List β) (Spelling.each f as) (Spelling.each f' as) := by
  induction as with
  | nil => exact congruence.refl _
  | cons a rest ih =>
      have tail := ih fun b member => every b (List.mem_cons_of_mem _ member)
      exact congruence.bind (every a List.mem_cons_self) fun b => congruence.map tail (b :: ·)

variable {limit limit' : Nat} {ns ns' : Namespace} {inline inline' : Ty → Spelling Expr}
  {scope : List String}

theorem spellFields {fields : List (Field Ty)} (related : ∀ t ∈ fields.map (·.type),
    R Expr (spellWith limit ns inline scope t) (spellWith limit' ns' inline' scope t)) :
    R (List (Field Expr)) (Spelling.each (spellFieldWith limit ns inline scope) fields)
      (Spelling.each (spellFieldWith limit' ns' inline' scope) fields) := by
  apply congruence.each
  intro field member
  exact congruence.map (related field.type (List.mem_map.mpr ⟨field, member, rfl⟩)) _

theorem spellMembers {fields : List (Field Ty)} (related : ∀ t ∈ fields.map (·.type),
    R Expr (spellWith limit ns inline scope t) (spellWith limit' ns' inline' scope t)) :
    R (List (Member Expr)) (spellMembersWith limit ns inline scope 0 fields)
      (spellMembersWith limit' ns' inline' scope 0 fields) := by
  rw [spellMembersWith_eq, spellMembersWith_eq]
  apply congruence.each
  intro place member
  have inside : place.1 ∈ fields := List.fst_mem_of_mem_zipIdx member
  exact congruence.map (related place.1.type (List.mem_map.mpr ⟨place.1, inside, rfl⟩)) _

theorem spellSignature {s : Signature Ty} (related : ∀ t ∈ s.types,
    R Expr (spellWith limit ns inline scope t) (spellWith limit' ns' inline' scope t)) :
    R (Signature Expr) (spellSignatureWith limit ns inline scope s)
      (spellSignatureWith limit' ns' inline' scope s) := by
  rw [spellSignatureWith_eq, spellSignatureWith_eq]
  split
  · exact congruence.refl _
  · have params := congruence.spellFields fun t member =>
      related t (List.mem_append_left _ member)
    have results := congruence.spellFields fun t member =>
      related t (List.mem_append_right _ member)
    exact congruence.bind params fun paramExprs => congruence.map results _

theorem spellElements {shape : Interface Ty} (related : ∀ t ∈ shape.types,
    R Expr (spellWith limit ns inline scope t) (spellWith limit' ns' inline' scope t)) :
    R (List (Element Expr)) (spellElementsWith limit ns inline scope shape)
      (spellElementsWith limit' ns' inline' scope shape) := by
  rw [spellElementsWith_eq, spellElementsWith_eq]
  have embedded : R (List Expr) (Spelling.each (spellWith limit ns inline scope) shape.embedded)
      (Spelling.each (spellWith limit' ns' inline' scope) shape.embedded) :=
    congruence.each fun t member => related t (List.mem_append_left _ member)
  have methods : R (List (Element Expr))
      (Spelling.each (spellMethodWith limit ns inline scope) shape.methods)
      (Spelling.each (spellMethodWith limit' ns' inline' scope) shape.methods) := by
    apply congruence.each
    intro m member
    have inner := congruence.spellSignature fun t inside =>
      related t (Interface.mem_types_of_method member inside)
    exact congruence.map inner _
  exact congruence.bind embedded fun exprs => congruence.map methods _

end Spelling.Congruence

end Replica
