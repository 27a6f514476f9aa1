import Mathlib.Data.List.DropRight
import Replica.Proofs.Files

/-!
Where a path leads. Its segments are followed one by one, upwards or into what they name, whatever
the file system holds. Over a whole path some directories are left and others are entered, so that
two directories see one location under a path exactly if they agree above what it leaves.
-/

namespace Replica

namespace Location

def enter (here : Location) (name : String) : Location :=
  if name = "" ∨ name = "." then here
  else if name = ".." then here.dropLast
  else here ++ [name]

def follow (here : Location) (path : String) : Location :=
  (Path.segments path).foldl enter (FileTree.start here path)

variable {here : Location} {name : String}

theorem enter_of_named (some : name ≠ "") (stays : name ≠ ".") (upwards : name ≠ "..") :
    here.enter name = here ++ [name] := by
  simp [enter, some, stays, upwards]

theorem foldl_enter_filter (here : Location) (names : List String) :
    (names.filter fun name => name != "" && name != ".").foldl enter here =
      names.foldl enter here := by
  rw [List.foldl_filter]
  congr 1
  funext here name
  by_cases stays : name = "" ∨ name = "."
  · rcases stays with rfl | rfl <;> simp [enter]
  · simp [not_or.mp stays]

end Location

namespace Path

theorem checkLength_eq_ok_iff {path : String} : checkLength path = .ok () ↔
    Char.ofNat 0 ∉ path.toList ∧ path ≠ "" ∧ path.utf8ByteSize < 4096 := by
  rw [checkLength, check]
  split_ifs <;> simp_all [bind, Except.bind, isTooLong]

theorem checkLength_of_infix {path part : String} (checked : checkLength path = .ok ())
    (inside : part.toList <:+: path.toList) (nonempty : part ≠ "") :
    checkLength part = .ok () := by
  obtain ⟨clear, _, short⟩ := checkLength_eq_ok_iff.mp checked
  refine checkLength_eq_ok_iff.mpr ⟨fun listed => clear (inside.subset listed), nonempty, ?_⟩
  obtain ⟨front, back, whole⟩ := inside
  have split : path = String.ofList front ++ part ++ String.ofList back := by
    simp [← String.toList_inj, ← whole]
  have size : path.utf8ByteSize = (String.ofList front).utf8ByteSize + part.utf8ByteSize +
      (String.ofList back).utf8ByteSize := by
    rw [split, String.utf8ByteSize_append, String.utf8ByteSize_append]
  omega

theorem follow_of_fileName {path name : String} (here : Location)
    (named : fileName? path = some name) :
    here.follow path = (here.follow path).dropLast ++ [name] ∧ '/' ∉ name.toList ∧
      name.toList <:+: path.toList ∧ name ≠ "" ∧ name ≠ "." ∧ name ≠ ".." := by
  have last : ((segments path).filter fun name => name != "" && name != ".").getLast? = some name ∧
      name ≠ ".." := by
    rw [fileName?] at named
    split at named
    · cases named
    · next last up => exact ⟨named, fun same => up (by rw [named, same])⟩
  obtain ⟨last, upwards⟩ := last
  obtain ⟨front, split⟩ := List.getLast?_eq_some_iff.mp last
  have listed : name ∈ (segments path).filter fun name => name != "" && name != "." := by
    simp [split]
  simp only [List.mem_filter, Bool.and_eq_true, bne_iff_ne] at listed
  obtain ⟨segment, some, stays⟩ := listed
  obtain ⟨clear, inside⟩ := mem_segments segment
  refine ⟨?_, clear, inside, some, stays, upwards⟩
  rw [Location.follow, ← Location.foldl_enter_filter, split, List.foldl_concat,
    Location.enter_of_named some stays upwards, List.dropLast_concat]

theorem follow_fileName {name : String} (here : Location) (clear : '/' ∉ name.toList)
    (some : name ≠ "") (stays : name ≠ ".") (upwards : name ≠ "..") :
    here.follow name = here ++ [name] := by
  rw [Location.follow, segments_of_clear clear, FileTree.start, isAbsolute_of_clear clear]
  exact Location.enter_of_named some stays upwards

end Path

namespace FileTree

variable {tree after : FileTree} {here there : Location} {path text : String}

theorem walk_eq_ok {names : List String} (walked : tree.walk here names = .ok there) :
    there = names.foldl Location.enter here := by
  induction names generalizing here with
  | nil => exact (Except.ok.inj walked).symm
  | cons name names ih =>
      rw [walk] at walked
      rw [List.foldl_cons]
      split_ifs at walked with _ stays up
      · rw [Location.enter, if_pos (by simpa using stays)]
        exact ih walked
      · rw [Location.enter, if_neg (by simpa using stays), if_pos up]
        exact ih walked
      · rw [Location.enter, if_neg (by simpa using stays), if_neg up]
        exact ih walked

theorem resolve_eq_follow (resolved : tree.resolve here path = .ok there) :
    there = here.follow path :=
  walk_eq_ok (resolve_eq_ok resolved).2

theorem eq_of_dropWhile {names parents : List String} {name : String}
    (dropped : names.dropWhile (· == "") = name :: parents) (slash : names.head? ≠ some "") :
    names = name :: parents ∧ name ≠ "" := by
  cases names with
  | nil => simp at dropped
  | cons first others =>
      have nonempty : first ≠ "" := by simpa using slash
      rw [List.dropWhile_cons_of_neg (by simpa using nonempty)] at dropped
      cases dropped
      exact ⟨rfl, nonempty⟩

/-- What it takes to write a file: the path ends in a name, and what precedes the name leads to a
directory that holds no directory of that name. -/
theorem write_eq_ok (written : tree.write here path text = .ok after) :
    Path.checkLength path = .ok () ∧ ∃ parents name directory,
      Path.segments path = parents ++ [name] ∧ (name ≠ "" ∧ name ≠ "." ∧ name ≠ "..") ∧
      here.follow path = directory ++ [name] ∧ tree.isDirectory directory = true ∧
      Path.isNameTooLong name = false ∧ tree.isDirectory (directory ++ [name]) = false ∧
      after = tree.setFile (here.follow path) text := by
  unfold write at written
  obtain ⟨_, checked, written⟩ := bind_eq_ok written
  simp only at written
  split at written
  · cases written
  · rename_i name parents dropped
    obtain ⟨directory, walked, written⟩ := bind_eq_ok written
    split_ifs at written with outside noFile tooLong inside
    simp only [Bool.or_eq_true, beq_iff_eq, decide_eq_true_eq, not_or] at noFile
    obtain ⟨⟨slash, stays⟩, upwards⟩ := noFile
    obtain ⟨names, nonempty⟩ := eq_of_dropWhile dropped slash
    have split : Path.segments path = parents.reverse ++ [name] := by
      simpa using congrArg List.reverse names
    have leads : here.follow path = directory ++ [name] := by
      rw [Location.follow, split, List.foldl_concat, ← walk_eq_ok walked,
        Location.enter_of_named nonempty stays upwards]
    exact ⟨checked, parents.reverse, name, directory, split, ⟨nonempty, stays, upwards⟩, leads,
      by simpa using outside, by simpa using tooLong, by simpa using inside,
      leads ▸ (Except.ok.inj written).symm⟩

theorem write_fileName (written : tree.write here path text = .ok after) :
    ∃ name, Path.fileName? path = some name ∧
      tree.write (here.follow path).dropLast name text = .ok after := by
  obtain ⟨checked, parents, name, directory, split, ⟨nonempty, stays, upwards⟩, leads, outside,
    short, inside, rfl⟩ := write_eq_ok written
  have listed : name ∈ Path.segments path := by simp [split]
  obtain ⟨clear, part⟩ := Path.mem_segments listed
  have named : Path.fileName? path = some name := by
    simp [Path.fileName?, split, nonempty, stays, upwards]
  refine ⟨name, named, ?_⟩
  rw [leads, List.dropLast_concat, write, Path.checkLength_of_infix checked part nonempty,
    Path.segments_of_clear clear]
  simp [start, Path.isAbsolute_of_clear clear, walk, bind, Except.bind, nonempty, stays, upwards,
    outside, short, inside]

end FileTree

/-- What a way leaves upwards of the directory it starts in, and what it enters from there. -/
structure Trail where
  ups : Nat := 0
  names : List String := []
  deriving DecidableEq, Repr

namespace Trail

def step (trail : Trail) (name : String) : Trail :=
  if name = "" ∨ name = "." then trail
  else if name = ".." then
    if trail.names = [] then { trail with ups := trail.ups + 1 }
    else { trail with names := trail.names.dropLast }
  else { trail with names := trail.names ++ [name] }

def lead (trail : Trail) (here : Location) : Location :=
  here.rdrop trail.ups ++ trail.names

theorem enter_lead (trail : Trail) (here : Location) (name : String) :
    (trail.lead here).enter name = (trail.step name).lead here := by
  rw [Location.enter, step]
  split_ifs with stays up none
  · rfl
  · have further : (here.rdrop trail.ups).dropLast = here.rdrop (trail.ups + 1) := by
      rw [← List.rdrop_add]
      simp [List.rdrop, List.dropLast_eq_take]
    simp [lead, none, further]
  · rw [lead, List.dropLast_append_of_ne_nil none]
    rfl
  · simp [lead]

end Trail

namespace Path

def trail (path : String) : Trail :=
  (segments path).foldl Trail.step {}

theorem follow_eq_lead (here : Location) (path : String) :
    here.follow path = (trail path).lead (FileTree.start here path) := by
  have start : (FileTree.start here path) = Trail.lead {} (FileTree.start here path) := by
    simp [Trail.lead]
  rw [Location.follow, trail]
  nth_rewrite 1 [start]
  exact List.foldl_hom (Trail.lead · (FileTree.start here path))
    fun trail name => Trail.enter_lead trail _ name

example : trail "../a/./../../b" = { ups := 2, names := ["b"] } := by decide

/-- The two directories agree about all that a path does not leave. -/
def SharedBy (path : String) (here there : Location) : Prop :=
  isAbsolute path = true ∨ here.rdrop (trail path).ups = there.rdrop (trail path).ups

instance (path : String) (here there : Location) : Decidable (SharedBy path here there) :=
  inferInstanceAs (Decidable (_ ∨ _))

theorem follow_eq_follow_iff {here there : Location} {path : String} :
    here.follow path = there.follow path ↔ SharedBy path here there := by
  rw [follow_eq_lead, follow_eq_lead, SharedBy, FileTree.start, FileTree.start]
  cases isAbsolute path
  · simp [Trail.lead]
  · simp

end Path

end Replica
