import Replica.Namespace.Basic
import Replica.Proofs.Files.Path

/-!
What the path of a package says about it: whether other code may import the package, and whether it
belongs to a dependency. Both are read off whole segments, however the slashes stand; a segment or a
dependency that merely occurs in the text of a path says nothing.
-/

namespace Replica

theorem isInternal_iff {path : String} :
    isInternal path = true ↔ "internal" ∈ Path.segments path := by
  rw [Path.mem_segments_iff, isInternal, ← String.toList_inj]
  simp only [Bool.or_eq_true, beq_iff_eq, List.isPrefixOf_iff_prefix, List.isSuffixOf_iff_suffix,
    Text.occursIn_iff, or_assoc]
  exact ⟨fun found => ⟨by decide, found⟩, fun found => found.2⟩

theorem isInternal_eq_false_iff {path : String} :
    isInternal path = false ↔ "internal" ∉ Path.segments path := by
  rw [← isInternal_iff, Bool.not_eq_true]

theorem Namespace.isDependency_iff {ns : Namespace} {path : String} : ns.isDependency path = true ↔
    ∃ dependency ∈ ns.dependencies, Path.segments dependency <+: Path.segments path := by
  simp only [isDependency, List.any_eq_true, Bool.or_eq_true, beq_iff_eq,
    List.isPrefixOf_iff_prefix, Path.segments_prefix_iff]

/-- A path is internal if `internal` is one of its segments, and that of a dependency if its segments
begin with those of a listed one. Segments are what slashes separate: no other names without a slash
are joined to the path by slashes, so that a slash at an end of the path or beside another one has an
empty segment next to it. -/
theorem classified_by_segments (ns : Namespace) (path : String) :
    (isInternal path = true ↔ "internal" ∈ Path.segments path) ∧
    (ns.isDependency path = true ↔
      ∃ dependency ∈ ns.dependencies, Path.segments dependency <+: Path.segments path) ∧
    ∀ names, Path.segments path = names ↔
      names ≠ [] ∧ (∀ name ∈ names, '/' ∉ name.toList) ∧ "/".intercalate names = path :=
  ⟨isInternal_iff, Namespace.isDependency_iff, fun _ => Path.segments_eq_iff⟩

/-- A dependency that ends with a slash has what follows two slashes below it, and the empty one has
what begins with a slash. -/
example :
    ["hash/", "hash//set", "hash/set", "/set", "set"].map
      { module := "app", dependencies := ["hash/", ""] : Namespace }.isDependency =
      [true, true, false, true, false] := by
  decide

end Replica
