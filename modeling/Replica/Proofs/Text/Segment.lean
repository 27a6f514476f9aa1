import Mathlib.Tactic.SplitIfs
import Replica.Text.Segment

/-!
Text that is split at a mark. The segments are the only pieces without the mark that it joins to the
text, a segment is what stands between two marks or between one of them and an end of the text, and
the first segments are those of a text that a mark follows.
-/

namespace Replica.Text

theorem segments_eq_splitOnP (isBreak : Char → Bool) (text : List Char) :
    segments isBreak text = text.splitOnP isBreak := by
  induction text with
  | nil => rfl
  | cons c rest ih =>
      rw [List.splitOnP_cons_eq_if_modifyHead, segments, ih]
      cases split : rest.splitOnP isBreak with
      | nil => exact absurd split (List.splitOnP_ne_nil _ _)
      | cons first others => rfl

section

variable {mark : Char} {segment text : List Char}

theorem segments_append (front rest : List Char) :
    segments (· == mark) (front ++ mark :: rest) =
      segments (· == mark) front ++ segments (· == mark) rest := by
  simp only [segments_eq_splitOnP]
  exact List.splitOnP_append_cons _ _ (by simp)

theorem segments_of_clear (clear : mark ∉ text) : segments (· == mark) text = [text] := by
  rw [segments_eq_splitOnP]
  refine List.splitOnP_eq_singleton fun c listed => ?_
  simpa using ne_of_mem_of_not_mem listed clear

theorem segments_intercalate {pieces : List (List Char)} (some : pieces ≠ [])
    (clear : ∀ piece ∈ pieces, mark ∉ piece) :
    segments (· == mark) ([mark].intercalate pieces) = pieces := by
  rw [segments_eq_splitOnP]
  exact List.splitOn_intercalate mark clear some

theorem intercalate_segments (mark : Char) (text : List Char) :
    [mark].intercalate (segments (· == mark) text) = text := by
  rw [segments_eq_splitOnP]
  exact List.intercalate_splitOn mark

theorem segments_injective : Function.Injective (segments (· == mark)) :=
  Function.LeftInverse.injective (intercalate_segments mark)

theorem map_segments_intercalate {names : List String} (some : names ≠ [])
    (clear : ∀ name ∈ names, mark ∉ name.toList) :
    (segments (· == mark) ((String.singleton mark).intercalate names).toList).map String.ofList =
      names := by
  have split : segments (· == mark) ([mark].intercalate (names.map String.toList)) =
      names.map String.toList :=
    segments_intercalate (by simpa using some) (by simpa using clear)
  rw [String.toList_intercalate, String.toList_singleton, split, List.map_map]
  simp

theorem segments_cases (mark : Char) (text : List Char) :
    mark ∉ text ∨ ∃ first rest, text = first ++ mark :: rest ∧ mark ∉ first := by
  by_cases listed : mark ∈ text
  · obtain ⟨first, rest, split, clear⟩ := List.eq_append_cons_of_mem listed
    exact .inr ⟨first, rest, split, clear⟩
  · exact .inl listed

theorem mem_segments_iff : segment ∈ segments (· == mark) text ↔
    mark ∉ segment ∧ (text = segment ∨ segment ++ [mark] <+: text ∨ mark :: segment <:+ text ∨
      mark :: segment ++ [mark] <:+: text) := by
  constructor
  · intro listed
    -- Induction on the length: what follows the first segment is a shorter text.
    induction length : text.length using Nat.strongRecOn generalizing text with
    | ind n ih =>
        rcases segments_cases mark text with clear | ⟨first, rest, rfl, clear⟩
        · rw [segments_of_clear clear, List.mem_singleton] at listed
          subst listed
          exact ⟨clear, .inl rfl⟩
        · rw [segments_append, segments_of_clear clear, List.singleton_append,
            List.mem_cons] at listed
          rcases listed with rfl | later
          · exact ⟨clear, .inr (.inl ⟨rest, by simp⟩)⟩
          · have shorter : rest.length < n := by
              simp only [List.length_append, List.length_cons] at length
              omega
            obtain ⟨clear', whole | ⟨tail, begins⟩ | ⟨front, ends⟩ | ⟨front, tail, inside⟩⟩ :=
              ih rest.length shorter later rfl
            · exact ⟨clear', .inr (.inr (.inl ⟨first, by rw [whole]⟩))⟩
            · exact ⟨clear', .inr (.inr (.inr ⟨first, tail, by simp [← begins]⟩))⟩
            · exact ⟨clear', .inr (.inr (.inl ⟨first ++ mark :: front, by simp [← ends]⟩))⟩
            · exact ⟨clear', .inr (.inr (.inr ⟨first ++ mark :: front, tail, by simp [← inside]⟩))⟩
  · rintro ⟨clear, rfl | ⟨tail, rfl⟩ | ⟨front, rfl⟩ | ⟨front, tail, rfl⟩⟩
    · simp [segments_of_clear clear]
    · simp [segments_append, segments_of_clear clear]
    · simp [segments_append, segments_of_clear clear]
    · simp [segments_append, segments_of_clear clear]

theorem infix_of_mem_segments (listed : segment ∈ segments (· == mark) text) :
    segment <:+: text := by
  obtain ⟨_, rfl | first | last | inside⟩ := mem_segments_iff.mp listed
  · exact List.infix_refl text
  · exact ((List.prefix_append segment [mark]).trans first).isInfix
  · exact ((List.suffix_cons mark segment).trans last).isInfix
  · exact (List.suffix_cons mark segment).isInfix.trans
      ((List.prefix_append _ [mark]).isInfix.trans inside)

/-- The segments are the only pieces without the mark that it joins to the text. -/
theorem segments_eq_iff {pieces : List (List Char)} : segments (· == mark) text = pieces ↔
    pieces ≠ [] ∧ (∀ piece ∈ pieces, mark ∉ piece) ∧ [mark].intercalate pieces = text := by
  constructor
  · rintro rfl
    have some : segments (· == mark) text ≠ [] := by
      rw [segments_eq_splitOnP]
      exact List.splitOnP_ne_nil _ _
    exact ⟨some, fun piece listed => (mem_segments_iff.mp listed).1, intercalate_segments mark text⟩
  · rintro ⟨some, clear, rfl⟩
    exact segments_intercalate some clear

theorem segments_prefix_iff {front : List Char} :
    segments (· == mark) front <+: segments (· == mark) text ↔
      text = front ∨ front ++ [mark] <+: text := by
  constructor
  · rintro ⟨others, split⟩
    by_cases none : others = []
    · rw [none, List.append_nil] at split
      exact .inl (segments_injective split.symm)
    · -- The other segments are those of what follows the mark.
      have clear : ∀ piece ∈ others, mark ∉ piece := fun piece listed =>
        (segments_eq_iff.mp split.symm).2.1 piece (List.mem_append_right _ listed)
      have same : segments (· == mark) (front ++ mark :: [mark].intercalate others) =
          segments (· == mark) text := by
        rw [segments_append, segments_intercalate none clear, split]
      exact .inr ⟨[mark].intercalate others, by simpa using segments_injective same⟩
  · rintro (rfl | ⟨rest, rfl⟩)
    · exact List.prefix_rfl
    · rw [List.append_assoc, List.singleton_append, segments_append]
      exact List.prefix_append _ _

end

theorem occursIn_iff {needle text : List Char} :
    occursIn needle text = true ↔ needle <:+: text := by
  induction text with
  | nil => simp [occursIn]
  | cons c rest ih =>
      rw [occursIn, Bool.or_eq_true, ih, List.isPrefixOf_iff_prefix, List.infix_cons_iff]

section

variable {mark : Char} {text before after : List Char}

theorem splitAtLast?_of_clear (clear : mark ∉ text) : splitAtLast? mark text = none := by
  induction text with
  | nil => rfl
  | cons c rest ih =>
      rw [List.mem_cons, not_or] at clear
      rw [splitAtLast?, ih clear.2]
      exact if_neg (Ne.symm clear.1)

theorem splitAtLast?_append (before : List Char) (clear : mark ∉ after) :
    splitAtLast? mark (before ++ mark :: after) = some (before, after) := by
  induction before with
  | nil => simp [splitAtLast?, splitAtLast?_of_clear clear]
  | cons c before ih => simp [splitAtLast?, ih]

theorem splitAtLast?_eq_some_iff : splitAtLast? mark text = some (before, after) ↔
    text = before ++ mark :: after ∧ mark ∉ after := by
  constructor
  · intro split
    by_cases listed : mark ∈ text.reverse
    · -- The last mark is the first one from behind.
      obtain ⟨back, front, whole, clear⟩ := List.eq_append_cons_of_mem listed
      have forwards : text = front.reverse ++ mark :: back.reverse := by
        rw [← List.reverse_reverse text, whole]
        simp
      rw [forwards, splitAtLast?_append _ (by simpa using clear)] at split
      cases split
      exact ⟨forwards, by simpa using clear⟩
    · rw [List.mem_reverse] at listed
      simp [splitAtLast?_of_clear listed] at split
  · rintro ⟨rfl, clear⟩
    exact splitAtLast?_append before clear

end

end Replica.Text
