import Replica.Files.Basic
import Replica.Proofs.Except
import Replica.Proofs.Files.Path

/-!
Paths in a tree of files and directories. Each location has one path of its own, and a name that is
written beside a file is looked for in the directory of that file, however the file was found.
-/

namespace Replica

namespace Path

theorem check_append {front last : List Char} {name : String}
    (checked : check (String.ofList (front ++ '/' :: last)) = .ok ()) (some : name ≠ "") :
    check (String.ofList (front ++ '/' :: name.toList)) = check name := by
  have clear : Char.ofNat 0 ∉ front := by
    intro listed
    simp [check, listed] at checked
  have apart : Char.ofNat 0 ≠ '/' := by decide
  simp [check, clear, apart, some, ← String.toList_inj]

end Path

theorem Location.segments_path {location : Location}
    (named : ∀ name ∈ location, name ≠ "" ∧ '/' ∉ name.toList) :
    (Path.segments location.path).filter (· != "") = location := by
  have rooted : location.path =
      String.ofList ([] ++ '/' :: ("/".intercalate location).toList) := by
    rw [← String.toList_inj, String.toList_ofList, path, String.toList_append]
    rfl
  rw [rooted, Path.segments_append, String.ofList_toList]
  cases location with
  | nil => decide
  | cons name names =>
      have whole : ∀ other ∈ name :: names, '/' ∉ other.toList :=
        fun other listed => (named other listed).2
      rw [Path.segments_intercalate (List.cons_ne_nil _ _) whole, List.filter_append]
      have kept : (name :: names).filter (· != "") = name :: names := by
        rw [List.filter_eq_self]
        intro other listed
        simpa using (named other listed).1
      rw [kept]
      rfl

namespace FileTree

/-- What there is apart from the root lies in a directory, under a name that is a segment, and no
file is a directory. -/
structure WellFormed (tree : FileTree) : Prop where
  named : ∀ location ∈ tree.locations, ∀ name ∈ location, name ≠ "" ∧ '/' ∉ name.toList
  parents : ∀ location ∈ tree.directories, tree.isDirectory location.dropLast
  apart : ∀ file ∈ tree.files, tree.isDirectory file.1 = false

variable {tree : FileTree}

theorem WellFormed.isDirectory_dropLast (wellFormed : tree.WellFormed) {location : Location}
    (directory : tree.isDirectory location) : tree.isDirectory location.dropLast := by
  rw [isDirectory, Bool.or_eq_true, List.isEmpty_iff, List.contains_iff_mem] at directory
  rcases directory with rfl | listed
  · rfl
  · exact wellFormed.parents location listed

theorem walk_append (here : Location) (front rest : List String) :
    tree.walk here (front ++ rest) =
      (tree.walk here front).bind fun there => tree.walk there rest := by
  induction front generalizing here with
  | nil => rfl
  | cons name names ih =>
      rw [List.cons_append, walk, walk]
      split_ifs <;> first | rfl | exact ih _

theorem walk_before_last (wellFormed : tree.WellFormed) {here location : Location}
    {front : List String} {last : String} (walked : tree.walk here (front ++ [last]) = .ok location)
    (file : tree.isDirectory location = false) : tree.walk here front = .ok location.dropLast := by
  rw [walk_append] at walked
  cases before : tree.walk here front with
  | error e => simp [before, Except.bind] at walked
  | ok there =>
      simp only [before, Except.bind, walk] at walked
      split_ifs at walked with directory stays up tooLong present
      · cases walked
        exact absurd file (by simpa using directory)
      · cases walked
        have upwards := wellFormed.isDirectory_dropLast (by simpa using directory)
        rw [upwards] at file
        cases file
      · cases walked
        rw [List.dropLast_concat]

theorem resolve_eq_ok {current location : Location} {path : String}
    (resolved : tree.resolve current path = .ok location) :
    Path.check path = .ok () ∧
      tree.walk (start current path) (Path.segments path) = .ok location := by
  unfold resolve at resolved
  obtain ⟨_, checked, resolved⟩ := bind_eq_ok resolved
  obtain ⟨found, walked, resolved⟩ := bind_eq_ok resolved
  split_ifs at resolved
  obtain rfl := Except.ok.inj resolved
  exact ⟨checked, walked⟩

/-- A name beside a file is what the directory of the file holds under it. -/
theorem resolve_beside (wellFormed : tree.WellFormed) {current location : Location}
    {path name : String} (resolved : tree.resolve current path = .ok location)
    (file : tree.isDirectory location = false) (relative : Path.isAbsolute name = false)
    (some : name ≠ "") :
    tree.resolve current (Path.beside path name) = tree.resolve location.dropLast name := by
  obtain ⟨checked, walked⟩ := resolve_eq_ok resolved
  have inside : start location.dropLast name = location.dropLast := by
    rw [start, relative]
    rfl
  rcases Path.beside_cases path with ⟨whole, beside⟩ | ⟨front, last, rfl, whole, beside⟩
  · have here : start current path = current := by
      rw [start, Path.isAbsolute_of_clear whole]
      rfl
    rw [Path.segments_of_clear whole, here] at walked
    have directory : tree.walk current [] = .ok location.dropLast :=
      walk_before_last wellFormed walked file
    obtain rfl := Except.ok.inj directory
    rw [beside name relative]
  · have single : Path.segments (String.ofList last) = [String.ofList last] :=
      Path.segments_of_clear (by simpa using whole)
    rw [Path.segments_append, single] at walked
    have directory := walk_before_last wellFormed walked file
    have same : start current (String.ofList (front ++ '/' :: name.toList)) =
        start current (String.ofList (front ++ '/' :: last)) := by
      rw [start, start, Path.isAbsolute_append]
    rw [beside name relative, resolve, resolve, Path.check_append checked some,
      Path.segments_append, walk_append, same, directory, inside, String.ofList_toList]
    rfl

theorem WellFormed.not_directory (wellFormed : tree.WellFormed) {location : Location}
    {text : String} (held : tree.file? location = some text) :
    tree.isDirectory location = false := by
  obtain ⟨before, after, split, _⟩ := List.lookup_eq_some_iff.mp held
  exact wellFormed.apart (location, text) (split ▸ List.mem_append_cons_self)

theorem read_eq_ok_iff {current location : Location} {path text : String}
    (resolved : tree.resolve current path = .ok location) :
    tree.read current path = .ok text ↔
      Path.isTooLong path = false ∧ tree.file? location = some text := by
  obtain ⟨checked, _⟩ := resolve_eq_ok resolved
  simp only [read, Path.checkLength, checked, resolved, bind, Except.bind]
  cases Path.isTooLong path
  · cases tree.file? location <;> simp
  · simp

theorem system_locate_eq_ok {current : Location} {path place : String}
    (located : (tree.system current).locate path = .ok place) :
    ∃ location ∈ tree.locations, tree.resolve current path = .ok location ∧
      location.path = place := by
  cases resolved : tree.resolve current path with
  | error e => simp [system, resolved, Except.map] at located
  | ok location =>
      simp only [system, resolved, Except.map, Except.ok.injEq] at located
      exact ⟨location, resolve_mem resolved, rfl, located⟩

theorem WellFormed.resolve_eq (wellFormed : tree.WellFormed) {current : Location}
    {path other place : String} (located : (tree.system current).locate path = .ok place)
    (located' : (tree.system current).locate other = .ok place) :
    ∃ location, tree.resolve current path = .ok location ∧
      tree.resolve current other = .ok location := by
  obtain ⟨location, listed, resolved, rfl⟩ := system_locate_eq_ok located
  obtain ⟨location', listed', resolved', same⟩ := system_locate_eq_ok located'
  have segments := Location.segments_path (wellFormed.named _ listed')
  rw [same, Location.segments_path (wellFormed.named _ listed)] at segments
  exact ⟨location, resolved, segments ▸ resolved'⟩

end FileTree

end Replica
