import Mathlib.Data.List.Forall2
import Replica.Proofs.Expr.Text

/-!
How the fields of a struct are aligned. From the front they are cut into sections, in one way only;
each field has a line of its own, and the types of a section begin in one column, one past the
longest name of the section.
-/

namespace Replica

/-- Named fields that stand together before `rest`: none but the last has a type of several lines,
and it ends there, before a field without a name, or with the last field of all. -/
structure IsRun (named rest : List Row) : Prop where
  nonempty : named ≠ []
  names : ∀ row ∈ named, row.name ≠ ""
  inner : ∀ row ∈ named.dropLast, '\n' ∉ row.text.toList
  ends : (∃ row ∈ named.getLast?, '\n' ∈ row.text.toList) ∨ (∃ row ∈ rest.head?, row.name = "") ∨
    rest = []

/-- The sections of rows, from the front. -/
inductive CutInto : List Row → List (List Row) → Prop
  | nil : CutInto [] []
  | unnamed {row : Row} {rest : List Row} {others : List (List Row)} (unnamed : row.name = "")
      (cut : CutInto rest others) : CutInto (row :: rest) ([row] :: others)
  | run {named rest : List Row} {others : List (List Row)} (run : IsRun named rest)
      (cut : CutInto rest others) : CutInto (named ++ rest) (named :: others)

section

variable {row : Row} {rest next named rows : List Row} {others cut : List (List Row)}

theorem Row.closes_iff : row.closes = true ↔ row.name = "" ∨ '\n' ∈ row.text.toList := by
  simp [closes]

theorem isNamedSection_eq_false_iff : isNamedSection rows = false ↔
    (∃ row ∈ rows.head?, row.name = "") ∨ rows = [] := by
  cases rows <;> simp [isNamedSection]

theorem isNamedSection_eq (split : sections rows = next :: others) :
    isNamedSection next = isNamedSection rows := by
  cases rows with
  | nil => cases split
  | cons row rest =>
      rw [sections] at split
      split at split
      · cases split
        rfl
      · split_ifs at split <;> cases split <;> rfl

theorem sections_of_closes (ends : row.closes = true ∨ isNamedSection rest = false) :
    sections (row :: rest) = [row] :: sections rest := by
  rw [sections]
  cases split : sections rest with
  | nil => rfl
  | cons next others =>
      have border : (row.closes || !isNamedSection next) = true := by
        simpa [isNamedSection_eq split] using ends
      exact if_pos border

theorem sections_of_open (inside : row.closes = false) (follows : isNamedSection rest = true)
    (split : sections rest = next :: others) :
    sections (row :: rest) = (row :: next) :: others := by
  rw [sections, split]
  refine if_neg ?_
  simp [inside, isNamedSection_eq split, follows]

theorem sections_of_run (run : IsRun named rest) :
    sections (named ++ rest) = named :: sections rest := by
  obtain ⟨nonempty, names, inner, ends⟩ := run
  induction named with
  | nil => exact absurd rfl nonempty
  | cons row others ih =>
      cases others with
      | nil =>
          refine sections_of_closes ?_
          rcases ends with ⟨last, final, broken⟩ | border
          · cases final
            exact .inl (Row.closes_iff.mpr (.inr broken))
          · exact .inr (isNamedSection_eq_false_iff.mpr border)
      | cons second others =>
          rw [List.forall_mem_cons] at names
          rw [List.dropLast_cons_cons, List.forall_mem_cons] at inner
          have inside : row.closes = false := by
            rw [← Bool.not_eq_true, Row.closes_iff]
            exact not_or.mpr ⟨names.1, inner.1⟩
          have follows : isNamedSection (second :: others ++ rest) = true := by
            simpa [isNamedSection] using names.2 second List.mem_cons_self
          have tail := ih (List.cons_ne_nil _ _) names.2 inner.2 ends
          exact sections_of_open inside follows tail

theorem CutInto.eq_sections (cut : CutInto rows others) : others = sections rows := by
  induction cut with
  | nil => rfl
  | unnamed unnamed _ ih =>
      rw [sections_of_closes (.inl (Row.closes_iff.mpr (.inl unnamed))), ih]
  | run run _ ih => rw [sections_of_run run, ih]

theorem IsRun.single (named : row.name ≠ "")
    (border : row.closes = true ∨ isNamedSection rest = false) : IsRun [row] rest where
  nonempty := List.cons_ne_nil _ _
  names := by simpa using named
  inner := by simp
  ends := by
    rw [Row.closes_iff] at border
    rcases border with (unnamed | broken) | border
    · exact absurd unnamed named
    · exact .inl ⟨row, rfl, broken⟩
    · exact .inr (isNamedSection_eq_false_iff.mp border)

theorem IsRun.cons (run : IsRun next rest) (named : row.name ≠ "")
    (inside : row.closes = false) : IsRun (row :: next) rest where
  nonempty := List.cons_ne_nil _ _
  names := List.forall_mem_cons.mpr ⟨named, run.names⟩
  inner := by
    have flat : '\n' ∉ row.text.toList := by
      intro broken
      simp [Row.closes_iff.mpr (.inr broken)] at inside
    rw [List.dropLast_cons_of_ne_nil run.nonempty]
    exact List.forall_mem_cons.mpr ⟨flat, run.inner⟩
  ends := by
    obtain ⟨second, others, rfl⟩ := List.exists_cons_of_ne_nil run.nonempty
    exact run.ends

theorem cutInto_sections (rows : List Row) : CutInto rows (sections rows) := by
  induction rows with
  | nil => exact .nil
  | cons row rest ih =>
      by_cases unnamed : row.name = ""
      · rw [sections_of_closes (.inl (Row.closes_iff.mpr (.inl unnamed)))]
        exact .unnamed unnamed ih
      by_cases border : row.closes = true ∨ isNamedSection rest = false
      · rw [sections_of_closes border]
        exact .run (.single unnamed border) ih
      · rw [not_or, Bool.not_eq_true, Bool.not_eq_false] at border
        obtain ⟨inside, follows⟩ := border
        generalize split : sections rest = cut at ih
        -- The first section of the rest begins with a named field, so it is a run.
        cases ih with
        | nil => cases follows
        | unnamed bare _ => simp [isNamedSection, bare] at follows
        | run run cut =>
            rw [sections_of_open inside follows split]
            exact .run (run.cons unnamed inside) cut

end

def IsLongest (rows : List Row) (width : Nat) : Prop :=
  (∀ row ∈ rows, row.name.length ≤ width) ∧ ∃ row ∈ rows, row.name.length = width

/-- The line of a field whose type begins `column` characters after the tabs. A name has at least
one space behind it. -/
def IsLine (depth column : Nat) (row : Row) (line : String) : Prop :=
  ∃ gap, line = tabs depth ++ row.name ++ spaces gap ++ row.text ++ "\n" ∧
    row.name.length + gap = column ∧ (row.name ≠ "" → 1 ≤ gap)

inductive AreLines (depth : Nat) : List Row → List String → Prop
  | unnamed {row : Row} {line : String} (unnamed : row.name = "")
      (isLine : IsLine depth 0 row line) : AreLines depth [row] [line]
  | aligned {rows : List Row} {lines : List String} {width : Nat}
      (names : ∀ row ∈ rows, row.name ≠ "") (longest : IsLongest rows width)
      (areLines : List.Forall₂ (IsLine depth (width + 1)) rows lines) : AreLines depth rows lines

theorem isLongest_nameWidth {rows : List Row} (nonempty : rows ≠ []) :
    IsLongest rows (nameWidth rows) := by
  have greatest : (rows.map (·.name.length)).max? = some (nameWidth rows) := by
    obtain ⟨row, rest, rfl⟩ := List.exists_cons_of_ne_nil nonempty
    simp [List.max?, nameWidth, List.foldl_map]
  rw [List.max?_eq_some_iff] at greatest
  simp only [List.mem_map, forall_exists_index, and_imp, forall_apply_eq_imp_iff₂] at greatest
  exact ⟨greatest.2, greatest.1⟩

theorem isLine_rowText {depth width : Nat} {row : Row} (named : row.name ≠ "")
    (fits : row.name.length ≤ width) : IsLine depth (width + 1) row (rowText depth width row) := by
  refine ⟨width - row.name.length + 1, ?_, by omega, by simp⟩
  rw [rowText, if_neg named, ← String.toList_inj]
  simp

theorem isLine_unnamed {depth width : Nat} {row : Row} (unnamed : row.name = "") :
    IsLine depth 0 row (rowText depth width row) := by
  refine ⟨0, ?_, by simp [unnamed], by simp [unnamed]⟩
  rw [rowText, if_pos unnamed, ← String.toList_inj]
  simp [unnamed, spaces]

def sectionLines (depth : Nat) (aligned : List Row) : List String :=
  aligned.map (rowText depth (nameWidth aligned))

theorem CutInto.areLines {depth : Nat} {rows : List Row} {cut : List (List Row)}
    (isCut : CutInto rows cut) :
    List.Forall₂ (AreLines depth) cut (cut.map (sectionLines depth)) := by
  induction isCut with
  | nil => exact .nil
  | unnamed unnamed _ ih => exact .cons (.unnamed unnamed (isLine_unnamed unnamed)) ih
  | run run _ ih =>
      have longest := isLongest_nameWidth run.nonempty
      refine .cons (.aligned run.names longest ?_) ih
      rw [sectionLines, List.forall₂_map_right_iff, List.forall₂_same]
      intro row listed
      exact isLine_rowText (run.names row listed) (longest.1 row listed)

theorem join_sectionText (depth : Nat) (cut : List (List Row)) :
    String.join (cut.map (sectionText depth)) =
      String.join (cut.map (sectionLines depth)).flatten := by
  rw [← String.toList_inj]
  induction cut with
  | nil => rfl
  | cons aligned rest ih =>
      simp only [String.toList_join] at ih
      simp [ih, sectionText, sectionLines]

/-- A struct without fields is written in one word. The fields of any other are cut into sections
from the front, in one way only, and each has its line: the lines stand between the line that opens
the struct and the brace that closes it, in the order of the fields. -/
theorem structLayout_sections (aliases : String → String) (depth : Nat)
    (members : List (Member Expr)) :
    ∃ rows cut lines, rows = members.map (fun m => ⟨m.name, m.type.layout aliases (depth + 1)⟩) ∧
      CutInto rows cut ∧ (∀ other, CutInto rows other → other = cut) ∧ cut.flatten = rows ∧
      List.Forall₂ (AreLines (depth + 1)) cut lines ∧
      (Expr.struct members).layout aliases depth =
        if members = [] then "struct\x7b\x7d"
        else "struct \x7b\n" ++ String.join lines.flatten ++ tabs depth ++ "\x7d" := by
  let rows := Expr.rows aliases (depth + 1) members
  have cut := cutInto_sections rows
  refine ⟨rows, sections rows, _, Expr.rows_eq .., cut, fun _ other => other.eq_sections,
    sections_flatten rows, cut.areLines, ?_⟩
  rw [Expr.layout]
  split_ifs with none
  · subst none
    rfl
  · have nonempty : rows.isEmpty = false := by
      simpa [rows, Expr.rows_eq] using none
    rw [structText, nonempty, join_sectionText]
    rfl

def lockedMembers : List (Member Expr) :=
  [⟨"", .qualified ⟨"sync", "Mutex"⟩, 0⟩, ⟨"done", .struct [], 1⟩]

/-- The inner struct has no lines of its own, and the type of the embedded field does not begin one
past the longest name of its section, which is empty. -/
theorem lockedMembers_unaligned :
    (Expr.struct lockedMembers).layout id 0 =
      "struct \x7b\n\tsync.Mutex\n\tdone struct\x7b\x7d\n\x7d" ∧
    (∀ lines, (Expr.struct []).layout id 1 ≠
      "struct \x7b\n" ++ String.join lines ++ tabs 1 ++ "\x7d") ∧
    IsLongest [⟨"", "sync.Mutex"⟩] 0 ∧
    ¬ IsLine 1 (0 + 1) ⟨"", "sync.Mutex"⟩ "\tsync.Mutex\n" := by
  refine ⟨by decide, ?_, by simp [IsLongest], ?_⟩
  · intro lines same
    have chars := congrArg (fun text => text.toList[6]?) same
    simp [Expr.layout, Expr.rows, structText] at chars
  · rintro ⟨gap, same, column, _⟩
    obtain rfl : gap = 1 := by simpa using column
    exact absurd same (by decide)

end Replica
