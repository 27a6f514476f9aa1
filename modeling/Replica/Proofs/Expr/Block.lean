import Replica.Expr.Layout
import Replica.Proofs.Script

/-!
Structs and interfaces over several lines. Each field or element stands between braces on a line of
its own, which is read up to its end; how far the types of fields are moved to the right depends on
the fields around them, but whatever the distance, it can be told from the text.
-/

namespace Replica

section

variable {α : Type} {write : α → List Char} {ok : α → Prop} {items others : List α}
  {r s : List Char}

def lineChars (depth : Nat) (line : List Char) : List Char :=
  List.replicate depth '\t' ++ (line ++ ['\n'])

def blockChars (depth : Nat) (lines : List (List Char)) : List Char :=
  if lines.isEmpty then ['{', '}']
  else ' ' :: '{' :: '\n' :: (lines.flatMap (lineChars (depth + 1)) ++
    (List.replicate depth '\t' ++ ['}']))

theorem blockChars_begins (depth : Nat) (lines : List (List Char)) :
    ∃ c rest, blockChars depth lines = c :: rest ∧ c ∈ [' ', '{'] := by
  rw [blockChars]
  split_ifs
  · exact ⟨_, _, rfl, by decide⟩
  · exact ⟨_, _, rfl, by decide⟩

theorem lineChars_append (depth : Nat) (line rest : List Char) :
    lineChars depth line ++ rest = List.replicate depth '\t' ++ (line ++ '\n' :: rest) := by
  simp [lineChars]

theorem line_ne_closing {depth : Nat} {line more rest : List Char} :
    lineChars (depth + 1) line ++ more ≠ List.replicate depth '\t' ++ '}' :: rest := by
  rw [lineChars_append, List.replicate_succ', List.append_assoc]
  intro same
  exact absurd (List.cons.inj (List.append_cancel_left same)).1 (by decide)

theorem Readable.lines {depth : Nat} (readable : ∀ a ∈ items, Readable write ok a)
    (fine : ∀ b ∈ others, ok b)
    (same : (items.map write).flatMap (lineChars (depth + 1)) ++
        (List.replicate depth '\t' ++ '}' :: r) =
      (others.map write).flatMap (lineChars (depth + 1)) ++
        (List.replicate depth '\t' ++ '}' :: s)) :
    items = others ∧ r = s := by
  -- As long as both go on with a line, the tabs of the lines cancel; the last brace has one tab less.
  induction items generalizing others with
  | nil =>
      cases others with
      | nil => exact ⟨rfl, (List.cons.inj (List.append_cancel_left same)).2⟩
      | cons b others =>
          rw [List.map_cons, List.flatMap_cons, List.append_assoc] at same
          exact absurd same.symm line_ne_closing
  | cons a items ih =>
      cases others with
      | nil =>
          rw [List.map_cons, List.flatMap_cons, List.append_assoc] at same
          exact absurd same line_ne_closing
      | cons b others =>
          rw [List.forall_mem_cons] at readable fine
          rw [List.map_cons, List.map_cons, List.flatMap_cons, List.flatMap_cons,
            List.append_assoc, List.append_assoc, lineChars_append, lineChars_append] at same
          obtain ⟨rfl, rest⟩ := readable.1 b _ _ fine.1 (ended_cons (by decide) _)
            (ended_cons (by decide) _) (List.append_cancel_left same)
          obtain ⟨rfl, rfl⟩ := ih readable.2 fine.2 (List.cons.inj rest).2
          exact ⟨rfl, rfl⟩

theorem Readable.block {depth : Nat} (readable : ∀ a ∈ items, Readable write ok a)
    (fine : ∀ b ∈ others, ok b)
    (same : blockChars depth (items.map write) ++ r = blockChars depth (others.map write) ++ s) :
    items = others ∧ r = s := by
  have shut : ∀ {depth : Nat} {items : List α} {rest more : List Char}, items ≠ [] →
      blockChars depth (items.map write) ++ rest ≠ '{' :: more := by
    intro depth items rest more some same
    rw [blockChars, List.isEmpty_map, if_neg (by simpa using some)] at same
    exact absurd (List.cons.inj same).1 (by decide)
  by_cases none : items = []
  · by_cases none' : others = []
    · subst none none'
      exact ⟨rfl, List.append_cancel_left same⟩
    · subst none
      exact absurd same.symm (shut none')
  · by_cases none' : others = []
    · subst none'
      exact absurd same (shut none)
    · rw [blockChars, blockChars, List.isEmpty_map, List.isEmpty_map, if_neg (by simpa using none),
        if_neg (by simpa using none')] at same
      simp only [List.cons_append, List.append_assoc, List.cons.injEq, true_and,
        List.nil_append] at same
      exact Readable.lines readable fine same

end

theorem interfaceLayout_eq (depth : Nat) (lines : List String) :
    (interfaceLayout depth lines).toList =
      "interface".toList ++ blockChars depth (lines.map String.toList) := by
  have between : (String.join (lines.map fun line => tabs (depth + 1) ++ line ++ "\n")).toList =
      (lines.map String.toList).flatMap (lineChars (depth + 1)) := by
    simp [tabs, lineChars, List.flatMap_def, Function.comp_def]
  rw [interfaceLayout, blockChars, List.isEmpty_map]
  split_ifs
  · rfl
  · simp only [String.toList_append, between]
    simp [tabs]

def padding (width : Nat) (row : Row) : Nat :=
  if row.name = "" then 0 else width - row.name.length + 1

/-- Rows with the paddings that their sections give them. -/
def padded (rows : List Row) : List (Nat × Row) :=
  (sections rows).flatMap fun aligned =>
    aligned.map fun row => (padding (nameWidth aligned) row, row)

def paddedChars (pad : Nat) (name : String) (text : List Char) : List Char :=
  name.toList ++ (List.replicate pad ' ' ++ text)

theorem sections_flatten (rows : List Row) : (sections rows).flatten = rows := by
  induction rows with
  | nil => rfl
  | cons row rest ih =>
      rw [sections]
      cases others : sections rest with
      | nil =>
          rw [others] at ih
          simpa using ih
      | cons next others' =>
          rw [others] at ih
          simp only
          split_ifs <;> simpa using ih

theorem padded_rows (rows : List Row) : (padded rows).map (·.2) = rows := by
  rw [padded, List.map_flatMap]
  simpa [Function.comp_def, List.flatMap_def] using sections_flatten rows

theorem rowText_eq (depth width : Nat) (row : Row) : (rowText depth width row).toList =
    lineChars depth (paddedChars (padding width row) row.name row.text.toList) := by
  rw [rowText, padding, paddedChars]
  split_ifs with unnamed
  · simp [tabs, lineChars, unnamed]
  · simp [tabs, spaces, lineChars]

theorem structText_eq (depth : Nat) (rows : List Row) : (structText depth rows).toList =
    "struct".toList ++ blockChars depth
      ((padded rows).map fun p => paddedChars p.1 p.2.name p.2.text.toList) := by
  have none : (padded rows).isEmpty = rows.isEmpty := by
    rw [← List.isEmpty_map, padded_rows]
  have aligned : ∀ rows : List Row, (sectionText (depth + 1) rows).toList =
      (rows.map fun row => paddedChars (padding (nameWidth rows) row) row.name
        row.text.toList).flatMap (lineChars (depth + 1)) := by
    intro rows
    simp [sectionText, List.flatMap_def, Function.comp_def, rowText_eq]
  have between : (String.join ((sections rows).map (sectionText (depth + 1)))).toList =
      ((padded rows).map fun p => paddedChars p.1 p.2.name p.2.text.toList).flatMap
        (lineChars (depth + 1)) := by
    rw [padded, List.map_flatMap, List.flatMap_assoc]
    simp [List.flatMap_def, Function.comp_def, aligned]
  rw [structText, blockChars, List.isEmpty_map, none]
  split_ifs
  · rfl
  · simp only [String.toList_append, between]
    simp [tabs]

def Aligned (pad : Nat) (name : String) : Prop :=
  name = "" ∧ pad = 0 ∨ name ≠ "" ∧ ∃ more, pad = more + 1

theorem padded_aligned {rows : List Row} {pad : Nat} {row : Row}
    (member : (pad, row) ∈ padded rows) : Aligned pad row.name := by
  obtain ⟨aligned, _, inside⟩ := List.mem_flatMap.mp member
  obtain ⟨_, _, same⟩ := List.mem_map.mp inside
  cases same
  by_cases unnamed : row.name = ""
  · exact .inl ⟨unnamed, if_pos unnamed⟩
  · exact .inr ⟨unnamed, _, if_neg unnamed⟩

namespace Script

variable {alphabet : Alphabet} {α : Type} (script : Script alphabet α)

def memberChars (p : Nat × Member α) : List Char :=
  paddedChars p.1 p.2.name (script.write p.2.type)

structure ProperMember (m : Member α) : Prop where
  name : m.name = "" ∨ alphabet.IsName m.name
  type : script.Proper m.type
  position : m.position = 0

variable {script}

theorem spaces_inj {pad pad' : Nat} {a b : α} {r s : List Char} (proper : script.Proper a)
    (proper' : script.Proper b) (same : List.replicate pad ' ' ++ (script.write a ++ r) =
      List.replicate pad' ' ' ++ (script.write b ++ s)) :
    pad = pad' ∧ script.write a ++ r = script.write b ++ s := by
  have blank : ∀ {pad : Nat}, ∀ c ∈ List.replicate pad ' ', (c == ' ') = true := by
    intro pad c member
    rw [List.eq_of_mem_replicate member, beq_self_eq_true]
  have stop : ∀ {a : α} {rest : List Char}, script.Proper a →
      ∀ c, (script.write a ++ rest).head? = some c → (c == ' ') = false := by
    intro a rest proper c first
    obtain ⟨d, more, written, other⟩ := script.begins proper
    rw [written] at first
    rw [← Option.some.inj first, beq_eq_false_iff_ne]
    rintro rfl
    exact other (by decide)
  obtain ⟨pads, texts⟩ := append_inj_of_stop blank blank (stop proper) (stop proper') same
  exact ⟨by simpa using congrArg List.length pads, texts⟩

theorem member_readable {p : Nat × Member α} (proper : script.ProperMember p.2)
    (aligned : Aligned p.1 p.2.name) (readable : script.Reads p.2.type) :
    Readable script.memberChars (fun p => script.ProperMember p.2 ∧ Aligned p.1 p.2.name) p := by
  rintro q r s ⟨proper', aligned'⟩ ended ended' same
  obtain ⟨pad, name, type, position⟩ := p
  obtain ⟨pad', name', type', position'⟩ := q
  obtain ⟨named, whole, rfl⟩ := proper
  obtain ⟨named', whole', rfl⟩ := proper'
  have types : script.write type ++ r = script.write type' ++ s → name = name' → pad = pad' →
      (pad, Member.mk name type 0) = (pad', Member.mk name' type' 0) ∧ r = s := by
    rintro written rfl rfl
    obtain ⟨rfl, rest⟩ := readable type' r s whole' ended ended' written
    exact ⟨rfl, rest⟩
  simp only [memberChars, paddedChars, List.append_assoc] at same
  rcases aligned with ⟨rfl, rfl⟩ | ⟨some, more, rfl⟩
  · rcases aligned' with ⟨rfl, rfl⟩ | ⟨some', more', rfl⟩
    · exact types same rfl rfl
    · exact absurd same.symm (script.apart (named'.resolve_left some') (by decide) whole ended)
  · rcases aligned' with ⟨rfl, rfl⟩ | ⟨some', more', rfl⟩
    · exact absurd same (script.apart (named.resolve_left some) (by decide) whole' ended')
    · obtain ⟨names, rest⟩ := name_inj (by decide) named named' same
      obtain ⟨pads, texts⟩ := spaces_inj whole whole' rest
      exact types texts names (congrArg Nat.succ pads)

theorem exists_padded (text : α → String) (members : List (Member α)) :
    ∃ items : List (Nat × Member α), items.map (·.2) = members ∧
      (∀ p ∈ items, Aligned p.1 p.2.name) ∧
      (padded (members.map fun m => ⟨m.name, text m.type⟩)).map
        (fun p => paddedChars p.1 p.2.name p.2.text.toList) =
      items.map fun p => paddedChars p.1 p.2.name (text p.2.type).toList := by
  -- Rows keep the order of the fields, so each field can be taken together with its padding.
  let row : Member α → Row := fun m => ⟨m.name, text m.type⟩
  let pads := (padded (members.map row)).map (·.1)
  have rows : (padded (members.map row)).map (·.2) = members.map row := padded_rows _
  have lengths : pads.length = members.length := by
    simpa [pads] using congrArg List.length rows
  have split : padded (members.map row) = (pads.zip members).map (Prod.map id row) := by
    rw [← List.zip_map_right]
    exact List.zip_of_prod rfl rows
  refine ⟨pads.zip members, List.map_snd_zip (Nat.le_of_eq lengths.symm), ?_, ?_⟩
  · rintro ⟨pad, m⟩ member
    have inside : (pad, row m) ∈ padded (members.map row) := by
      rw [split]
      exact List.mem_map_of_mem member
    exact padded_aligned inside
  · change (padded (members.map row)).map _ = _
    rw [split, List.map_map]
    rfl

theorem members_inj {text : α → String} (written : ∀ a, script.write a = (text a).toList)
    {depth : Nat} {members members' : List (Member α)} {r s : List Char}
    (proper : ∀ m ∈ members, script.ProperMember m)
    (readable : ∀ m ∈ members, script.Reads m.type)
    (proper' : ∀ m ∈ members', script.ProperMember m)
    (same : blockChars depth ((padded (members.map fun m => ⟨m.name, text m.type⟩)).map
        fun p => paddedChars p.1 p.2.name p.2.text.toList) ++ r =
      blockChars depth ((padded (members'.map fun m => ⟨m.name, text m.type⟩)).map
        fun p => paddedChars p.1 p.2.name p.2.text.toList) ++ s) :
    members = members' ∧ r = s := by
  obtain ⟨items, rfl, aligned, lines⟩ := exists_padded text members
  obtain ⟨items', rfl, aligned', lines'⟩ := exists_padded text members'
  simp only [lines, lines', ← written] at same
  obtain ⟨rfl, rest⟩ := Readable.block
    (fun p member => member_readable (proper p.2 (List.mem_map_of_mem member)) (aligned p member)
      (readable p.2 (List.mem_map_of_mem member)))
    (fun p member => ⟨proper' p.2 (List.mem_map_of_mem member), aligned' p member⟩) same
  exact ⟨rfl, rest⟩

end Script

end Replica
