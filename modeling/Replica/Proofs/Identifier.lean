import Replica.Files.Path
import Replica.Proofs.Name

/-!
Identifiers: a letter or an underscore, then letters, digits and underscores. Which characters
beyond ASCII are letters or digits is left open. A flattened name is an identifier if all its
characters are those of identifiers or separators, and it begins with no digit; a hyphen or a tilde
goes through flattening unchanged.
-/

namespace Replica

/-- The letters and digits of identifiers, which within ASCII are the usual ones. -/
structure Alphabet where
  isLetter : Char → Bool
  isDigit : Char → Bool
  letter_ascii : ∀ c : Char, c.toNat < 128 → isLetter c = c.isAlpha
  digit_ascii : ∀ c : Char, c.toNat < 128 → isDigit c = c.isDigit

theorem ascii_of_all {chars : List Char} {p : Char → Bool}
    (holds : (chars.all fun c => decide (c.toNat < 128) && p c) = true) {c : Char}
    (member : c ∈ chars) : c.toNat < 128 ∧ p c = true := by
  simpa using List.all_eq_true.mp holds c member

namespace Alphabet

def ascii : Alphabet where
  isLetter := Char.isAlpha
  isDigit := Char.isDigit
  letter_ascii _ _ := rfl
  digit_ascii _ _ := rfl

variable (alphabet : Alphabet)

def begins (c : Char) : Bool :=
  alphabet.isLetter c || c == '_'

def continues (c : Char) : Bool :=
  alphabet.begins c || alphabet.isDigit c

def isIdentifier (text : String) : Bool :=
  text.toList.head?.any alphabet.begins && text.toList.all alphabet.continues

theorem begins_ascii {c : Char} (ascii : c.toNat < 128) :
    alphabet.begins c = (c.isAlpha || c == '_') := by
  rw [begins, alphabet.letter_ascii c ascii]

theorem continues_ascii {c : Char} (ascii : c.toNat < 128) :
    alphabet.continues c = (c.isAlphanum || c == '_') := by
  rw [continues, alphabet.begins_ascii ascii, alphabet.digit_ascii c ascii, Char.isAlphanum,
    Bool.or_right_comm]

theorem isIdentifier_ascii {text : String} (ascii : text.toList.all (·.toNat < 128) = true) :
    alphabet.isIdentifier text = Alphabet.ascii.isIdentifier text := by
  have few : ∀ c ∈ text.toList, c.toNat < 128 := by simpa using ascii
  have continues :
      text.toList.all alphabet.continues = text.toList.all Alphabet.ascii.continues := by
    rw [Bool.eq_iff_iff, List.all_eq_true, List.all_eq_true]
    refine forall₂_congr fun c member => ?_
    rw [alphabet.continues_ascii (few c member), Alphabet.ascii.continues_ascii (few c member)]
  rw [isIdentifier, isIdentifier, continues]
  cases same : text.toList with
  | nil => rfl
  | cons c rest =>
      have first := few c (by rw [same]; exact List.mem_cons_self)
      rw [List.head?_cons, Option.any_some, Option.any_some, alphabet.begins_ascii first,
        Alphabet.ascii.begins_ascii first]

theorem all_flattenChar (c : Char) :
    (flattenChar c).all alphabet.continues = (alphabet.continues c || isSeparator c) := by
  have underscore : alphabet.continues '_' = true := alphabet.continues_ascii (by decide)
  unfold flattenChar
  split
  · simp [underscore]
  · simp [underscore, isSeparator]
  · simp [underscore, isSeparator]
  · rename_i dotless slashless
    simp [isSeparator_eq_false dotless slashless]

theorem head_flattenChar (c : Char) (rest : List Char) :
    (flattenChar c ++ rest).head?.any alphabet.begins =
      (alphabet.begins c || isSeparator c) := by
  have underscore : alphabet.begins '_' = true := alphabet.begins_ascii (by decide)
  unfold flattenChar
  split
  · simp [underscore]
  · simp [underscore, isSeparator]
  · simp [underscore, isSeparator]
  · rename_i dotless slashless
    simp [isSeparator_eq_false dotless slashless]

theorem isIdentifier_flatten (text : String) : alphabet.isIdentifier (flatten text) =
    (text.toList.head?.any (fun c => alphabet.begins c || isSeparator c) &&
      text.toList.all fun c => alphabet.continues c || isSeparator c) := by
  unfold isIdentifier flatten
  simp only [String.toList_ofList, List.all_flatMap, all_flattenChar]
  cases text.toList with
  | nil => rfl
  | cons c rest => rw [List.flatMap_cons, head_flattenChar, List.head?_cons, Option.any_some]

end Alphabet

/-- Segments of letters, digits, and some marks, the first of which begins with a letter. -/
structure IsImportPath (path : String) : Prop where
  letter : ∃ c, path.toList.head? = some c ∧ c.isAlpha = true
  characters : ∀ c ∈ path.toList, c.isAlphanum = true ∨ c ∈ ['-', '.', '_', '~', '/']
  segments : ∀ segment ∈ Path.segments path, segment ≠ ""

/-- A path without the two marks that flattening leaves as they are. -/
def IsPlainPath (path : String) : Prop :=
  '-' ∉ path.toList ∧ '~' ∉ path.toList

theorem toNat_lt_of_isAlphanum {c : Char} (given : c.isAlphanum = true) : c.toNat < 128 := by
  delta Char.isAlphanum Char.isAlpha Char.isUpper Char.isLower Char.isDigit at given
  simp only [Bool.or_eq_true, Bool.and_eq_true, decide_eq_true_eq, UInt32.le_iff_toNat_le,
    ge_iff_le] at given
  have value : c.toNat = c.val.toNat := rfl
  have upper : 'Z'.val.toNat = 90 := rfl
  have lower : 'z'.val.toNat = 122 := rfl
  have digit : '9'.val.toNat = 57 := rfl
  omega

namespace Alphabet

variable {alphabet : Alphabet} {q : QualName}

theorem accepted_iff {c : Char}
    (given : c.isAlphanum = true ∨ c ∈ ['-', '.', '_', '~', '/']) :
    (alphabet.continues c || isSeparator c) = true ↔ c ≠ '-' ∧ c ≠ '~' := by
  rcases given with letter | mark
  · rw [alphabet.continues_ascii (toNat_lt_of_isAlphanum letter), letter, Bool.true_or,
      Bool.true_or]
    refine iff_of_true rfl ⟨?_, ?_⟩
    · rintro rfl
      exact absurd letter (by decide)
    · rintro rfl
      exact absurd letter (by decide)
  · simp only [List.mem_cons, List.not_mem_nil, or_false] at mark
    rcases mark with rfl | rfl | rfl | rfl | rfl <;>
      rw [alphabet.continues_ascii (by decide)] <;> decide

theorem all_importPath {path : String} (importable : IsImportPath path) :
    (path.toList.all fun c => alphabet.continues c || isSeparator c) = true ↔
      IsPlainPath path := by
  rw [List.all_eq_true]
  constructor
  · intro accepted
    refine ⟨fun member => ?_, fun member => ?_⟩
    · have kept := (accepted_iff (importable.characters _ member)).mp (accepted _ member)
      exact kept.1 rfl
    · have kept := (accepted_iff (importable.characters _ member)).mp (accepted _ member)
      exact kept.2 rfl
  · rintro ⟨noHyphen, noTilde⟩ c member
    refine (accepted_iff (importable.characters c member)).mpr ⟨?_, ?_⟩
    · rintro rfl
      exact noHyphen member
    · rintro rfl
      exact noTilde member

theorem all_qualified (importable : IsImportPath q.package)
    (named : alphabet.isIdentifier q.name = true) :
    (q.qualified.toList.all fun c => alphabet.continues c || isSeparator c) = true ↔
      IsPlainPath q.package := by
  have name : (q.name.toList.all fun c => alphabet.continues c || isSeparator c) = true := by
    rw [isIdentifier, Bool.and_eq_true, List.all_eq_true] at named
    refine List.all_eq_true.mpr fun c member => ?_
    rw [named.2 c member, Bool.true_or]
  have dot : (alphabet.continues '.' || isSeparator '.') = true := Bool.or_true _
  have point : (".".toList.all fun c => alphabet.continues c || isSeparator c) = true := by
    simpa using dot
  rw [QualName.qualified, String.toList_append, String.toList_append, List.all_append,
    List.all_append, name, point, Bool.and_true, Bool.and_true]
  exact all_importPath importable

theorem isIdentifier_flat (importable : IsImportPath q.package)
    (named : alphabet.isIdentifier q.name = true) :
    alphabet.isIdentifier q.flat = true ↔ IsPlainPath q.package := by
  have head :
      (q.qualified.toList.head?.any fun c => alphabet.begins c || isSeparator c) = true := by
    obtain ⟨c, first, letter⟩ := importable.letter
    have few : c.toNat < 128 :=
      toNat_lt_of_isAlphanum (by rw [Char.isAlphanum, letter, Bool.true_or])
    rw [QualName.qualified, String.toList_append, String.toList_append, List.append_assoc,
      List.head?_append, first, Option.some_or, Option.any_some, alphabet.begins_ascii few, letter]
    rfl
  rw [QualName.flat, isIdentifier_flatten, head, Bool.true_and]
  exact all_qualified importable named

theorem isIdentifier_make_flat (importable : IsImportPath q.package)
    (named : alphabet.isIdentifier q.name = true) :
    alphabet.isIdentifier ("make_" ++ q.flat) = true ↔ IsPlainPath q.package := by
  have ascii : ∀ c ∈ "make/".toList, (alphabet.continues c || isSeparator c) = true := by
    intro c member
    obtain ⟨few, plain⟩ := ascii_of_all
      (p := fun c => c.isAlphanum || c == '_' || isSeparator c) (by decide) member
    rw [alphabet.continues_ascii few, plain]
  have head : alphabet.begins 'm' = true := alphabet.begins_ascii (by decide)
  rw [q.make_flat, isIdentifier_flatten, String.toList_append, List.all_append,
    List.all_eq_true.mpr ascii, Bool.true_and, ← all_qualified importable named]
  simp [head]

end Alphabet

end Replica
