import Replica.Proofs.Spelling.Comparison

/-!
What the limits do to a spelling: where one of them is reached the spelling stops, with some of the
needs that it would have gone on to. Main statement: with higher limits a spelling is the same, or
goes on from where it stopped.
-/

namespace Replica

variable {ns : Namespace} {limit more depth deeper : Nat} {scope : List String} {t : Ty}

/-- `s` is `s'`, or `s'` up to where a limit was reached. -/
def Spelling.CutFrom {α : Type} (s s' : Spelling α) : Prop :=
  s = s' ∨ (s.outcome = .error .limitReached ∧ s.needs <+: s'.needs)

namespace Spelling.CutFrom

variable {α β : Type} {s s' : Spelling α} {next next' : α → Spelling β}

theorem refl (s : Spelling α) : s.CutFrom s := .inl rfl

theorem fail (s : Spelling α) : Spelling.CutFrom (.fail .limitReached) s :=
  .inr ⟨rfl, List.nil_prefix⟩

theorem bind (first : s.CutFrom s') (later : ∀ a, (next a).CutFrom (next' a)) :
    (s >>= next).CutFrom (s' >>= next') := by
  obtain ⟨needs, outcome⟩ := s
  rcases first with rfl | ⟨reached, before⟩
  · cases outcome with
    | error e => exact .refl _
    | ok a =>
        rcases later a with same | ⟨reached, before⟩
        · exact .inl (by simp only [Bind.bind, andThen, same])
        · exact .inr ⟨reached, (List.prefix_append_right_inj needs).mpr before⟩
  · cases reached
    refine .inr ⟨rfl, before.trans ?_⟩
    obtain ⟨needs', outcome'⟩ := s'
    cases outcome' with
    | error e => exact List.prefix_refl _
    | ok a => exact List.prefix_append _ _

end Spelling.CutFrom

theorem Spelling.compares_cutFrom (le : limit ≤ more) :
    Spelling.Compares ns limit more fun _ => Spelling.CutFrom where
  refl := .refl
  bind := .bind
  search shape := by
    cases found : methodSet limit ns shape with
    | none => exact .inr ⟨rfl, .fail⟩
    | some methods => exact .inl (methodSet_mono le found).symm

theorem spellInline_cutFrom (le : limit ≤ more) (le' : depth ≤ deeper) :
    (spellInline limit ns depth t).CutFrom (spellInline more ns deeper t) := by
  induction depth generalizing t deeper with
  | zero => exact .fail _
  | succ depth ih =>
      obtain ⟨deeper, rfl⟩ := Nat.exists_eq_add_of_lt le'
      exact spellWith_related (Spelling.compares_cutFrom le) fun q decl _ _ => ih (by omega)

theorem spell_cutFrom (le : limit ≤ more) :
    (spell limit ns scope t).CutFrom (spell more ns scope t) :=
  spellWith_related (Spelling.compares_cutFrom le) fun _ _ _ _ => spellInline_cutFrom le le

end Replica
