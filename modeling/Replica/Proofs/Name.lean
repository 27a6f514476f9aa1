import Replica.Name

/-!
Flattened names. Underscores are doubled, so that a single one stands for a separator; what a
flattened name begins with is what the name itself begins with, up to its first separator.
-/

namespace Replica

def isSeparator (c : Char) : Bool :=
  c == '.' || c == '/'

theorem isSeparator_eq_false {c : Char} (dotless : c ≠ '.') (slashless : c ≠ '/') :
    isSeparator c = false := by
  rw [isSeparator, beq_false_of_ne dotless, beq_false_of_ne slashless, Bool.or_false]

theorem flatten_append (first second : String) :
    flatten (first ++ second) = flatten first ++ flatten second := by
  simp [flatten, List.flatMap_append, String.ofList_append]

theorem flattenChar_cases (c : Char) :
    flattenChar c = [c] ∨ (c ∈ ['_', '.', '/'] ∧ ∃ rest, flattenChar c = '_' :: rest) := by
  unfold flattenChar
  split
  · exact .inr ⟨by decide, _, rfl⟩
  · exact .inr ⟨by decide, _, rfl⟩
  · exact .inr ⟨by decide, _, rfl⟩
  · exact .inl rfl

theorem head_of_flatMap {text tail : List Char} {c : Char}
    (same : text.flatMap flattenChar = c :: tail) (plain : c ≠ '_') :
    ∃ rest, text = c :: rest ∧ rest.flatMap flattenChar = tail := by
  cases text with
  | nil => cases same
  | cons first rest =>
      rw [List.flatMap_cons] at same
      rcases flattenChar_cases first with kept | ⟨_, others, marked⟩
      · rw [kept] at same
        cases same
        exact ⟨rest, rfl, rfl⟩
      · rw [marked] at same
        cases same
        exact absurd rfl plain

theorem separator_of_flatMap {text tail : List Char}
    (same : text.flatMap flattenChar = '_' :: tail) :
    ∃ c ∈ ['_', '.', '/'], ∃ rest, text = c :: rest := by
  cases text with
  | nil => cases same
  | cons first rest =>
      rw [List.flatMap_cons] at same
      rcases flattenChar_cases first with kept | ⟨special, _⟩
      · rw [kept] at same
        cases same
        exact ⟨'_', by decide, rest, rfl⟩
      · exact ⟨first, special, rest, rfl⟩

/-- `text` begins with the word `make` and an underscore or a separator. -/
def BeginsWithMake (text : String) : Prop :=
  ∃ c ∈ ['_', '.', '/'], "make".toList ++ [c] <+: text.toList

theorem beginsWithMake_of_flatten {text rest : String} (same : flatten text = "make_" ++ rest) :
    BeginsWithMake text := by
  have chars : text.toList.flatMap flattenChar =
      'm' :: 'a' :: 'k' :: 'e' :: '_' :: rest.toList := by
    have lists := congrArg String.toList same
    simpa [flatten] using lists
  obtain ⟨after₁, first, same₁⟩ := head_of_flatMap chars (by decide)
  obtain ⟨after₂, second, same₂⟩ := head_of_flatMap same₁ (by decide)
  obtain ⟨after₃, third, same₃⟩ := head_of_flatMap same₂ (by decide)
  obtain ⟨after₄, fourth, same₄⟩ := head_of_flatMap same₃ (by decide)
  obtain ⟨c, special, others, last⟩ := separator_of_flatMap same₄
  refine ⟨c, special, others, ?_⟩
  rw [first, second, third, fourth, last]
  rfl

namespace QualName

theorem underscore_mem_flat (q : QualName) : '_' ∈ q.flat.toList := by
  have dot : '.' ∈ q.qualified.toList := by
    simp [qualified]
  simp only [flat, flatten, String.toList_ofList]
  exact List.mem_flatMap.mpr ⟨'.', dot, List.mem_singleton_self '_'⟩

theorem make_flat (q : QualName) : "make_" ++ q.flat = flatten ("make/" ++ q.qualified) := by
  rw [flatten_append, flat]
  rfl

end QualName

end Replica
