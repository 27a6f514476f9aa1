import Mathlib.Data.List.Chain
import Mathlib.Tactic.IntervalCases
import Replica.Proofs.Name
import Replica.Proofs.Worklist

/-!
What a flattened name tells about the name. Underscores come in pairs, so an underscore between
other characters is what became of a separator; and where separators keep apart from each other and
from underscores, the name can be read back, but for which of the two separators it was.
-/

namespace Replica

def isMark (c : Char) : Bool :=
  c == '_' || isSeparator c

/-- Two characters that may stand side by side: a separator has no mark beside it. -/
def KeepsApart (c d : Char) : Prop :=
  (isSeparator c = true → isMark d = false) ∧ (isSeparator d = true → isMark c = false)

instance (c d : Char) : Decidable (KeepsApart c d) :=
  inferInstanceAs (Decidable (_ ∧ _))

/-- No separator has an underscore or another separator for a neighbour. -/
def SeparatorsApart (text : String) : Prop :=
  text.toList.IsChain KeepsApart

instance (text : String) : Decidable (SeparatorsApart text) :=
  inferInstanceAs (Decidable (List.IsChain _ _))

def dot (c : Char) : Char :=
  if c = '/' then '.' else c

def dotted (text : String) : String :=
  String.ofList (text.toList.map dot)

theorem separator_cases {c : Char} (separator : isSeparator c = true) : c = '.' ∨ c = '/' := by
  rwa [isSeparator, Bool.or_eq_true, beq_iff_eq, beq_iff_eq] at separator

theorem flattenChar_of_separator {c : Char} (separator : isSeparator c = true) :
    flattenChar c = ['_'] := by
  rcases separator_cases separator with rfl | rfl
  · rfl
  · rfl

theorem isMark_of_mem {c : Char} (special : c ∈ ['_', '.', '/']) : isMark c = true := by
  simp only [List.mem_cons, List.not_mem_nil, or_false] at special
  rcases special with rfl | rfl | rfl
  · rfl
  · rfl
  · rfl

theorem flattenChar_of_unmarked {c : Char} (unmarked : isMark c = false) : flattenChar c = [c] := by
  rcases flattenChar_cases c with kept | ⟨special, _⟩
  · exact kept
  · rw [isMark_of_mem special] at unmarked
    cases unmarked

theorem ne_underscore_of_unmarked {c : Char} (unmarked : isMark c = false) : c ≠ '_' := by
  rintro rfl
  cases unmarked

theorem mark_cases (c : Char) : c = '_' ∨ isSeparator c = true ∨ isMark c = false := by
  cases mark : isMark c with
  | false => exact .inr (.inr rfl)
  | true =>
      rw [isMark, Bool.or_eq_true, beq_iff_eq] at mark
      exact mark.imp_right .inl

theorem flattenChar_dot (c : Char) : flattenChar (dot c) = flattenChar c := by
  unfold dot
  split
  · rename_i slash
    rw [slash]
    rfl
  · rfl

def unflatten : List Char → List Char
  | '_' :: '_' :: rest => '_' :: unflatten rest
  | '_' :: rest => '.' :: unflatten rest
  | c :: rest => c :: unflatten rest
  | [] => []

theorem unflatten_single {text : List Char} (alone : ∀ rest, text ≠ '_' :: rest) :
    unflatten ('_' :: text) = '.' :: unflatten text := by
  cases text with
  | nil => rfl
  | cons c rest =>
      rw [unflatten]
      rintro others ⟨⟩
      exact alone rest rfl

theorem unflatten_cons {c : Char} (other : c ≠ '_') (text : List Char) :
    unflatten (c :: text) = c :: unflatten text := by
  rw [unflatten]
  · rintro rest same
    exact absurd same other
  · exact other

theorem flatMap_ne_underscore {c : Char} {text : List Char} (apart : (c :: text).IsChain KeepsApart)
    (separator : isSeparator c = true) (rest : List Char) :
    text.flatMap flattenChar ≠ '_' :: rest := by
  intro same
  obtain ⟨d, special, others, rfl⟩ := separator_of_flatMap same
  have unmarked := (List.isChain_cons_cons.mp apart).1.1 separator
  rw [isMark_of_mem special] at unmarked
  cases unmarked

theorem unflatten_flatMap {text : List Char} (apart : text.IsChain KeepsApart) :
    unflatten (text.flatMap flattenChar) = text.map dot := by
  induction text with
  | nil => rfl
  | cons c rest ih =>
      have later := ih apart.tail
      rw [List.flatMap_cons, List.map_cons]
      rcases mark_cases c with rfl | separator | unmarked
      · rw [← later]
        rfl
      · rw [flattenChar_of_separator separator, List.singleton_append,
          unflatten_single (flatMap_ne_underscore apart separator), later]
        rcases separator_cases separator with rfl | rfl
        · rfl
        · rfl
      · have kept : dot c = c := by
          rw [dot, if_neg]
          rintro rfl
          cases unmarked
        rw [flattenChar_of_unmarked unmarked, List.singleton_append,
          unflatten_cons (ne_underscore_of_unmarked unmarked), later, kept]

theorem flatten_dotted (text : String) : flatten (dotted text) = flatten text := by
  rw [flatten, flatten, dotted, String.toList_ofList, List.flatMap_map]
  simp only [flattenChar_dot]

theorem flatten_eq_iff {first second : String} (apart : SeparatorsApart first)
    (apart' : SeparatorsApart second) :
    flatten first = flatten second ↔ dotted first = dotted second := by
  constructor
  · intro same
    -- Undoing the flattening leaves nothing open but which separators there were.
    have lists : first.toList.flatMap flattenChar = second.toList.flatMap flattenChar :=
      String.ofList_injective same
    rw [dotted, dotted, ← unflatten_flatMap apart, ← unflatten_flatMap apart', lists]
  · intro same
    rw [← flatten_dotted first, same, flatten_dotted]

/-- What stands at `i` of the flattened text was written for the character at `j` of the text. -/
def WrittenFor (text : List Char) (i j : Nat) : Prop :=
  ((text.take j).flatMap flattenChar).length ≤ i ∧
    i < ((text.take (j + 1)).flatMap flattenChar).length

/-- A run of underscores that begins and ends at `i`. -/
structure LoneUnderscore (text : List Char) (i : Nat) : Prop where
  here : text[i]? = some '_'
  before : ∀ k, k + 1 = i → text[k]? ≠ some '_'
  after : text[i + 1]? ≠ some '_'

section

variable {text : List Char} {i j k : Nat}

theorem WrittenFor.le (first : WrittenFor text i j) (second : WrittenFor text i k) : j ≤ k := by
  by_contra greater
  obtain ⟨rest, further⟩ : text.take (k + 1) <+: text.take j :=
    List.take_prefix_take_left (by omega)
  have longer := congrArg (fun part => (part.flatMap flattenChar).length) further
  simp only [List.flatMap_append, List.length_append] at longer
  have bounds := And.intro first.1 second.2
  omega

theorem exists_writtenFor (inside : i < (text.flatMap flattenChar).length) :
    ∃ before c after, text = before ++ c :: after ∧
      ∃ k < (flattenChar c).length, i = (before.flatMap flattenChar).length + k := by
  induction text generalizing i with
  | nil => exact absurd inside (Nat.not_lt_zero i)
  | cons c rest ih =>
      rw [List.flatMap_cons, List.length_append] at inside
      by_cases own : i < (flattenChar c).length
      · exact ⟨[], c, rest, rfl, i, own, by simp⟩
      · obtain ⟨before, d, after, rfl, k, within, same⟩ :=
          ih (i := i - (flattenChar c).length) (by omega)
        refine ⟨c :: before, d, after, rfl, k, within, ?_⟩
        rw [List.flatMap_cons, List.length_append]
        omega

theorem writtenFor_length {before after : List Char} {c : Char}
    (within : k < (flattenChar c).length) :
    WrittenFor (before ++ c :: after) ((before.flatMap flattenChar).length + k) before.length := by
  have through : (before ++ c :: after).take (before.length + 1) = before ++ [c] :=
    List.take_length_add_append 1
  constructor
  · rw [List.take_left]
    omega
  · rw [through, List.flatMap_append, List.length_append, List.flatMap_singleton]
    omega

theorem LoneUnderscore.separator (lone : LoneUnderscore (text.flatMap flattenChar) i) :
    ∃ j c, WrittenFor text i j ∧ text[j]? = some c ∧ isSeparator c = true := by
  obtain ⟨inside, _⟩ := List.getElem?_eq_some_iff.mp lone.here
  obtain ⟨before, c, after, rfl, k, within, rfl⟩ := exists_writtenFor inside
  have written : ∀ k < (flattenChar c).length, ((before ++ c :: after).flatMap flattenChar)[
      (before.flatMap flattenChar).length + k]? = (flattenChar c)[k]? := by
    intro k within
    rw [List.flatMap_append, List.flatMap_cons, List.getElem?_append_right (Nat.le_add_right _ k),
      Nat.add_sub_cancel_left, List.getElem?_append_left within]
  refine ⟨before.length, c, writtenFor_length within, by simp, ?_⟩
  rcases mark_cases c with rfl | separator | unmarked
  · have few : k < 2 := within
    -- An underscore leaves two, and each has the other beside it.
    interval_cases k
    · exact absurd (written 1 (by decide)) lone.after
    · exact absurd (written 0 (by decide)) (lone.before _ rfl)
  · exact separator
  · have here := lone.here
    rw [written k within] at here
    simp only [flattenChar_of_unmarked unmarked] at here within
    have first : k = 0 := Nat.lt_one_iff.mp within
    rw [first] at here
    exact absurd (Option.some.inj here) (ne_underscore_of_unmarked unmarked)

end

structure QualName.DiffersInSeparators (p q : QualName) : Prop where
  distinct : p ≠ q
  package : dotted p.package = dotted q.package
  name : dotted p.name = dotted q.name

theorem dotted_append (first second : String) :
    dotted (first ++ second) = dotted first ++ dotted second := by
  simp only [dotted, String.toList_append, List.map_append, String.ofList_append]

theorem length_dotted (text : String) : (dotted text).length = text.length := by
  rw [dotted, String.length_ofList, List.length_map, String.length_toList]

theorem QualName.parts_of_dotted {p q : QualName} (same : dotted p.qualified = dotted q.qualified)
    (together : p.package.length = q.package.length) :
    dotted p.package = dotted q.package ∧ dotted p.name = dotted q.name := by
  simp only [qualified, dotted_append] at same
  have lists := congrArg String.toList same
  simp only [String.toList_append, List.append_assoc] at lists
  have lengths : (dotted p.package).toList.length = (dotted q.package).toList.length := by
    rw [String.length_toList, String.length_toList, length_dotted, length_dotted, together]
  obtain ⟨packages, rest⟩ := List.append_inj lists lengths
  exact ⟨String.toList_injective packages, String.toList_injective (List.append_cancel_left rest)⟩

/-- Two names for which one flattened name was taken, and how they come to share it. -/
structure NameCollision.OfSeparators (e : NameCollision) : Prop where
  same : dotted e.first.qualified = dotted e.second.qualified
  apart : e.first.DiffersInSeparators e.second ∨ e.first.package.length ≠ e.second.package.length

theorem Worklist.push_ofSeparators {w : Worklist} {q : QualName} {e : NameCollision}
    (pushed : w.push q = .error e) (apart : SeparatorsApart e.first.qualified)
    (apart' : SeparatorsApart e.second.qualified) : e.OfSeparators := by
  obtain ⟨_, rfl, flat, distinct⟩ := push_eq_error pushed
  have same := (flatten_eq_iff apart apart').mp flat
  refine ⟨same, ?_⟩
  by_cases together : e.first.package.length = e.second.package.length
  · obtain ⟨package, name⟩ := QualName.parts_of_dotted same together
    exact .inl ⟨distinct, package, name⟩
  · exact .inr together

/-- Names whose separators keep apart are told apart by their flattened names, but for which
separators they have; in any name an underscore on its own was written for one separator, and for
nothing else; and so what a worklist refuses among such names is the same name with other separators
or with its parts divided elsewhere. -/
theorem flatten_tells_apart :
    (∀ first second, SeparatorsApart first → SeparatorsApart second →
      (flatten first = flatten second ↔ dotted first = dotted second)) ∧
    (∀ text i, LoneUnderscore (flatten text).toList i →
      ∃ j c, WrittenFor text.toList i j ∧ (∀ k, WrittenFor text.toList i k → k = j) ∧
        text.toList[j]? = some c ∧ isSeparator c = true) ∧
    ∀ (w : Worklist) (q : QualName) (e : NameCollision), w.push q = .error e →
      SeparatorsApart e.first.qualified → SeparatorsApart e.second.qualified →
      e.OfSeparators := by
  refine ⟨fun _ _ => flatten_eq_iff, fun text i lone => ?_, fun w q e => w.push_ofSeparators⟩
  rw [flatten, String.toList_ofList] at lone
  obtain ⟨j, c, written, here, separator⟩ := lone.separator
  exact ⟨j, c, written, fun k other => (other.le written).antisymm (written.le other), here,
    separator⟩

theorem paths_tell_apart :
    (SeparatorsApart "lib.org/x_y.T" ∧ SeparatorsApart "lib.org/x/y.T" ∧
      flatten "lib.org/x_y.T" ≠ flatten "lib.org/x/y.T") ∧
    (LoneUnderscore (flatten "a_b.C").toList 4 ∧ ∃ j c, WrittenFor "a_b.C".toList 4 j ∧
      "a_b.C".toList[j]? = some c ∧ isSeparator c = true) ∧
    ∃ w e, ({} : Worklist).push ⟨"a/b", "C"⟩ = .ok w ∧ w.push ⟨"a.b", "C"⟩ = .error e ∧
      e = ⟨⟨"a/b", "C"⟩, ⟨"a.b", "C"⟩⟩ ∧ SeparatorsApart e.first.qualified ∧
      SeparatorsApart e.second.qualified ∧ e.OfSeparators := by
  have apart : SeparatorsApart "lib.org/x_y.T" := by decide
  have apart' : SeparatorsApart "lib.org/x/y.T" := by decide
  have lone : LoneUnderscore (flatten "a_b.C").toList 4 := by
    refine ⟨by decide, ?_, by decide⟩
    intro k next
    rw [Nat.succ.inj next]
    decide
  obtain ⟨w, pushed, refused⟩ : ∃ w, ({} : Worklist).push ⟨"a/b", "C"⟩ = .ok w ∧
      w.push ⟨"a.b", "C"⟩ = .error ⟨⟨"a/b", "C"⟩, ⟨"a.b", "C"⟩⟩ := ⟨_, rfl, rfl⟩
  refine ⟨⟨apart, apart', ?_⟩, ⟨lone, ?_⟩, w, _, pushed, refused, rfl, ?_⟩
  · rw [Ne, flatten_tells_apart.1 _ _ apart apart']
    decide
  · obtain ⟨j, c, written, _, here, separator⟩ := flatten_tells_apart.2.1 "a_b.C" 4 lone
    exact ⟨j, c, written, here, separator⟩
  · have slash : SeparatorsApart "a/b.C" := by decide
    have dots : SeparatorsApart "a.b.C" := by decide
    exact ⟨slash, dots, flatten_tells_apart.2.2 w _ _ refused slash dots⟩

end Replica
