import Replica.Files.Path
import Replica.Proofs.Text.Segment

/-!
Segments of paths. A path is its segments, joined by slashes; it lies below another path if its
segments begin with those of that one, and a name beside it takes the place of its last segment.
-/

namespace Replica.Path

theorem segments_append (front rest : List Char) :
    segments (String.ofList (front ++ '/' :: rest)) =
      segments (String.ofList front) ++ segments (String.ofList rest) := by
  simp only [segments, String.toList_ofList]
  rw [Text.segments_append, List.map_append]

theorem segments_of_clear {name : String} (clear : '/' ∉ name.toList) : segments name = [name] := by
  simp [segments, Text.segments_of_clear clear]

theorem isAbsolute_of_clear {name : String} (clear : '/' ∉ name.toList) :
    isAbsolute name = false := by
  rw [isAbsolute, beq_eq_false_iff_ne]
  exact fun slash => clear (List.mem_of_head? slash)

theorem segments_intercalate {names : List String} (some : names ≠ [])
    (whole : ∀ name ∈ names, '/' ∉ name.toList) :
    segments ("/".intercalate names) = names :=
  Text.map_segments_intercalate some whole

theorem segments_eq_iff {path : String} {names : List String} : segments path = names ↔
    names ≠ [] ∧ (∀ name ∈ names, '/' ∉ name.toList) ∧ "/".intercalate names = path := by
  constructor
  · intro split
    have cut : Text.segments (· == '/') path.toList = names.map String.toList := by
      simp [← split, segments]
    obtain ⟨some, whole, joined⟩ := Text.segments_eq_iff.mp cut
    refine ⟨by simpa using some, by simpa using whole, ?_⟩
    rw [← String.toList_inj, String.toList_intercalate, ← joined]
    rfl
  · rintro ⟨some, whole, rfl⟩
    exact segments_intercalate some whole

theorem mem_segments_iff {path name : String} : name ∈ segments path ↔
    '/' ∉ name.toList ∧ (path = name ∨ name.toList ++ ['/'] <+: path.toList ∨
      '/' :: name.toList <:+ path.toList ∨ '/' :: name.toList ++ ['/'] <:+: path.toList) := by
  have cut : name ∈ segments path ↔ name.toList ∈ Text.segments (· == '/') path.toList := by
    simp [segments, ← String.toList_inj]
  rw [cut, Text.mem_segments_iff, String.toList_inj]

theorem mem_segments {path name : String} (listed : name ∈ segments path) :
    '/' ∉ name.toList ∧ name.toList <:+: path.toList := by
  obtain ⟨segment, cut, rfl⟩ := List.mem_map.mp listed
  rw [String.toList_ofList]
  exact ⟨(Text.mem_segments_iff.mp cut).1, Text.infix_of_mem_segments cut⟩

theorem segments_prefix_iff {base path : String} : segments base <+: segments path ↔
    path = base ∨ base.toList ++ ['/'] <+: path.toList := by
  have injective : Function.Injective String.ofList := fun _ _ => String.ofList_injective
  rw [segments, segments, List.prefix_map_iff_of_injective injective, Text.segments_prefix_iff,
    String.toList_inj]

/-- A path is one whole segment, or what precedes its last segment and that segment. A name beside
it takes the place of that segment. -/
theorem beside_cases (path : String) :
    '/' ∉ path.toList ∧ (∀ name, isAbsolute name = false → beside path name = name) ∨
      ∃ front last, path = String.ofList (front ++ '/' :: last) ∧ '/' ∉ last ∧
        ∀ name, isAbsolute name = false →
          beside path name = String.ofList (front ++ '/' :: name.toList) := by
  -- The last segment comes first in the reversed path.
  have whole := path.toList.reverse.takeWhile_append_dropWhile (p := (· != '/'))
  have clear : '/' ∉ path.toList.reverse.takeWhile (· != '/') := by
    intro listed
    have passes := List.all_eq_true.mp (List.all_takeWhile (l := path.toList.reverse)) _ listed
    simp at passes
  generalize path.toList.reverse.takeWhile (· != '/') = last at whole clear
  cases dropped : path.toList.reverse.dropWhile (· != '/') with
  | nil =>
      rw [dropped, List.append_nil] at whole
      refine .inl ⟨by simpa [whole] using clear, fun name relative => ?_⟩
      simp [beside, relative, dropped]
  | cons c rest =>
      have slash : c = '/' := by
        have stops := List.head_dropWhile_not (· != '/') (l := path.toList.reverse)
          (by simp [dropped])
        simpa [dropped] using stops
      subst slash
      rw [dropped] at whole
      have forwards := congrArg List.reverse whole
      rw [List.reverse_append, List.reverse_reverse, List.reverse_cons] at forwards
      refine .inr ⟨rest.reverse, last.reverse, ?_, mt List.mem_reverse.mp clear,
        fun name relative => ?_⟩
      · rw [← String.toList_inj, String.toList_ofList, ← forwards, List.append_assoc,
          List.singleton_append]
      · rw [beside, relative, dropped, ← String.toList_inj]
        simp

theorem isAbsolute_append (front rest other : List Char) :
    isAbsolute (String.ofList (front ++ '/' :: rest)) =
      isAbsolute (String.ofList (front ++ '/' :: other)) := by
  cases front <;> simp [isAbsolute]

end Replica.Path
