import Replica.Proofs.Identifier

/-!
What can be read off from the front of a text: names up to the first character that is not one of
theirs, and texts between marks one after another.
-/

namespace Replica

def ends : List Char := [',', ';', ')', ']', '}', '\n']

def around : List Char := ends ++ [' ', '(', '.']

def marks : List Char := around ++ ['*', '[', '{']

def Ended (rest : List Char) : Prop :=
  ∀ c, rest.head? = some c → c ∈ ends

theorem ended_nil : Ended [] := nofun

theorem ended_cons {c : Char} (mark : c ∈ ends) (rest : List Char) : Ended (c :: rest) := by
  intro first same
  exact Option.some.inj same ▸ mark

theorem stop_cons {p : Char → Bool} {mark : Char} (other : p mark = false) (rest : List Char) :
    ∀ c, (mark :: rest).head? = some c → p c = false := by
  intro c first
  exact Option.some.inj first ▸ other

theorem append_inj_of_stop {p : Char → Bool} {front front' rest rest' : List Char}
    (all : ∀ c ∈ front, p c = true) (all' : ∀ c ∈ front', p c = true)
    (stop : ∀ c, rest.head? = some c → p c = false)
    (stop' : ∀ c, rest'.head? = some c → p c = false) (same : front ++ rest = front' ++ rest') :
    front = front' ∧ rest = rest' := by
  have taken : ∀ {left right : List Char}, (∀ c ∈ left, p c = true) →
      (∀ c, right.head? = some c → p c = false) → (left ++ right).takeWhile p = left := by
    intro left right all stop
    rw [List.takeWhile_append_of_pos all]
    cases right with
    | nil => exact List.append_nil left
    | cons c right => simp [stop c rfl]
  have fronts : front = front' := by
    rw [← taken all stop, same, taken all' stop']
  subst fronts
  exact ⟨rfl, List.append_cancel_left same⟩

def keywords : List String := [
  "break", "case", "chan", "const", "continue", "default", "defer", "else", "fallthrough", "for",
  "func", "go", "goto", "if", "import", "interface", "map", "package", "range", "return", "select",
  "struct", "switch", "type", "var"]

namespace Alphabet

variable (alphabet : Alphabet)

structure IsName (name : String) : Prop where
  identifier : alphabet.isIdentifier name = true
  free : name ∉ keywords

variable {alphabet}

theorem continues_mark {c : Char} (mark : c ∈ marks) :
    alphabet.continues c = false := by
  obtain ⟨few, plain⟩ := ascii_of_all
    (p := fun c => !(c.isAlphanum || c == '_')) (by decide) mark
  rw [alphabet.continues_ascii few]
  exact (Bool.not_eq_true' _).mp plain

theorem not_mark {c : Char} (continues : alphabet.continues c = true) :
    c ∉ around := by
  intro mark
  rw [continues_mark (List.mem_append_left _ mark)] at continues
  cases continues

namespace IsName

variable {name : String}

theorem continues (named : alphabet.IsName name) :
    ∀ c ∈ name.toList, alphabet.continues c = true := by
  have identifier := named.identifier
  rw [isIdentifier, Bool.and_eq_true, List.all_eq_true] at identifier
  exact identifier.2

theorem dotless (named : alphabet.IsName name) : '.' ∉ name.toList := by
  intro member
  have dot := named.continues '.' member
  rw [alphabet.continues_ascii (by decide)] at dot
  revert dot
  decide

theorem exists_cons (named : alphabet.IsName name) :
    ∃ c rest, name.toList = c :: rest ∧ alphabet.continues c = true := by
  have continues := named.continues
  have identifier := named.identifier
  cases split : name.toList with
  | nil =>
      rw [isIdentifier, split] at identifier
      cases identifier
  | cons c rest => exact ⟨c, rest, rfl, continues c (split ▸ List.mem_cons_self)⟩

theorem begins (named : alphabet.IsName name) (rest : List Char) :
    ∃ c more, name.toList ++ rest = c :: more ∧ c ∉ around := by
  obtain ⟨c, more, split, continues⟩ := named.exists_cons
  exact ⟨c, more ++ rest, by rw [split, List.cons_append], not_mark continues⟩

theorem opens (named : alphabet.IsName name) (rest : List Char) :
    ∃ c more, name.toList ++ rest = c :: more ∧ c ∉ ends := by
  obtain ⟨c, more, written, apart⟩ := named.begins rest
  exact ⟨c, more, written, fun mark => apart (List.mem_append_left _ mark)⟩

theorem ne_empty (named : alphabet.IsName name) : name ≠ "" := by
  rintro rfl
  obtain ⟨c, rest, split, _⟩ := named.exists_cons
  cases split

end IsName

end Alphabet

/-- `a` is what can be read off from the front of a text that begins with what is written for it. -/
def Readable {α : Type} (write : α → List Char) (ok : α → Prop) (a : α) : Prop :=
  ∀ b r s, ok b → Ended r → Ended s → write a ++ r = write b ++ s → a = b ∧ r = s

section

variable {α : Type} {write : α → List Char} {ok : α → Prop} {mark closer : Char}
  {items others : List α} {r s : List Char}

def further (mark : Char) (write : α → List Char) (items : List α) : List Char :=
  items.flatMap fun a => mark :: ' ' :: write a

theorem intercalate_cons (mark : Char) (write : α → List Char) (a : α) (items : List α) :
    [mark, ' '].intercalate ((a :: items).map write) = write a ++ further mark write items := by
  induction items generalizing a with
  | nil => simp [further]
  | cons b items ih =>
      rw [List.map_cons, List.map_cons, List.intercalate_cons_cons, ← List.map_cons, ih,
        List.append_assoc]
      rfl

theorem ended_further (isEnd : mark ∈ ends) (closes : closer ∈ ends) (items : List α)
    (rest : List Char) : Ended (further mark write items ++ closer :: rest) := by
  cases items with
  | nil => exact ended_cons closes rest
  | cons b more => exact ended_cons isEnd _

theorem Readable.further (isEnd : mark ∈ ends) (closes : closer ∈ ends) (apart : mark ≠ closer)
    (readable : ∀ a ∈ items, Readable write ok a) (fine : ∀ b ∈ others, ok b)
    (same : further mark write items ++ closer :: r = further mark write others ++ closer :: s) :
    items = others ∧ r = s := by
  induction items generalizing others with
  | nil =>
      cases others with
      | nil => exact ⟨rfl, (List.cons.inj same).2⟩
      | cons b others => exact absurd (List.cons.inj same).1.symm apart
  | cons a items ih =>
      cases others with
      | nil => exact absurd (List.cons.inj same).1 apart
      | cons b others =>
          rw [List.forall_mem_cons] at readable fine
          simp only [further, List.flatMap_cons, List.cons_append, List.append_assoc,
            List.cons.injEq, true_and] at same
          obtain ⟨rfl, rest⟩ := readable.1 b _ _ fine.1 (ended_further isEnd closes items r)
            (ended_further isEnd closes others s) same
          obtain ⟨rfl, rfl⟩ := ih readable.2 fine.2 rest
          exact ⟨rfl, rfl⟩

theorem Readable.joined (isEnd : mark ∈ ends) (closes : closer ∈ ends) (apart : mark ≠ closer)
    (begins : ∀ a, ok a → ∃ c rest, write a = c :: rest ∧ c ∉ ends)
    (readable : ∀ a ∈ items, ok a ∧ Readable write ok a) (fine : ∀ b ∈ others, ok b)
    (same : [mark, ' '].intercalate (items.map write) ++ closer :: r =
      [mark, ' '].intercalate (others.map write) ++ closer :: s) :
    items = others ∧ r = s := by
  -- The empty list is written as nothing, and no text begins with the closing mark.
  have unclosed : ∀ a rest more, ok a → write a ++ rest ≠ closer :: more := by
    intro a rest more fine same
    obtain ⟨c, others, written, open'⟩ := begins a fine
    rw [written] at same
    exact open' ((List.cons.inj same).1 ▸ closes)
  cases items with
  | nil =>
      cases others with
      | nil => exact ⟨rfl, (List.cons.inj same).2⟩
      | cons b others =>
          rw [intercalate_cons, List.append_assoc] at same
          exact absurd same.symm (unclosed b _ _ (fine b List.mem_cons_self))
  | cons a items =>
      rw [List.forall_mem_cons] at readable
      cases others with
      | nil =>
          rw [intercalate_cons, List.append_assoc] at same
          exact absurd same (unclosed a _ _ readable.1.1)
      | cons b others =>
          rw [List.forall_mem_cons] at fine
          rw [intercalate_cons, intercalate_cons, List.append_assoc, List.append_assoc] at same
          obtain ⟨rfl, rest⟩ := readable.1.2 b _ _ fine.1 (ended_further isEnd closes items r)
            (ended_further isEnd closes others s) same
          obtain ⟨rfl, rfl⟩ :=
            Readable.further isEnd closes apart (fun a known => (readable.2 a known).2) fine.2 rest
          exact ⟨rfl, rfl⟩

end

section

variable {alphabet : Alphabet}

theorem name_continues {name : String} (named : name = "" ∨ alphabet.IsName name) :
    ∀ c ∈ name.toList, alphabet.continues c = true := by
  rcases named with rfl | named
  · nofun
  · exact named.continues

theorem name_inj {name name' : String} {mark : Char} {r s : List Char}
    (isMark : mark ∈ around) (named : name = "" ∨ alphabet.IsName name)
    (named' : name' = "" ∨ alphabet.IsName name')
    (same : name.toList ++ mark :: r = name'.toList ++ mark :: s) : name = name' ∧ r = s := by
  have stop : alphabet.continues mark = false :=
    Bool.eq_false_iff.mpr fun continues => Alphabet.not_mark continues isMark
  obtain ⟨names, rests⟩ := append_inj_of_stop (name_continues named) (name_continues named')
    (stop_cons stop r) (stop_cons stop s) same
  exact ⟨String.toList_injective names, (List.cons.inj rests).2⟩

theorem Alphabet.IsName.ne_word {name word : String} {p : Char → Bool} {c : Char}
    {rest tail : List Char} (named : alphabet.IsName name) (all : ∀ c ∈ name.toList, p c = true)
    (all' : ∀ c ∈ word.toList, p c = true) (stop : p c = false)
    (stop' : ∀ c, tail.head? = some c → p c = false)
    (keyword : tail.head? = some c → word ∈ keywords) :
    name.toList ++ c :: rest ≠ word.toList ++ tail := by
  intro same
  obtain ⟨words, tails⟩ := append_inj_of_stop all all' (stop_cons stop rest) stop' same
  have reserved := keyword (tails ▸ rfl)
  rw [← String.toList_injective words] at reserved
  exact named.free reserved

theorem digits_inj {len len' : UInt64} {r s : List Char}
    (same : Nat.toDigits 10 len.toNat ++ ']' :: r = Nat.toDigits 10 len'.toNat ++ ']' :: s) :
    len = len' ∧ r = s := by
  have digits : ∀ (len : UInt64), ∀ c ∈ Nat.toDigits 10 len.toNat, c.isDigit = true :=
    fun len c member => Nat.isDigit_of_mem_toDigits (by decide) (by decide) member
  obtain ⟨numbers, rest⟩ := append_inj_of_stop (digits len) (digits len')
    (stop_cons (by decide) r) (stop_cons (by decide) s) same
  have values := congrArg (Nat.ofDigitChars 10 · 0) numbers
  simp only [Nat.ofDigitChars_toDigits (b := 10) (by decide) (by decide)] at values
  exact ⟨UInt64.toNat_inj.mp values, (List.cons.inj rest).2⟩

theorem digits_cons (number : Nat) :
    ∃ d more, Nat.toDigits 10 number = d :: more ∧ d ≠ ']' := by
  cases digits : Nat.toDigits 10 number with
  | nil => exact absurd digits Nat.toDigits_ne_nil
  | cons d more =>
      refine ⟨d, more, rfl, ?_⟩
      rintro rfl
      have digit : (']').isDigit = true :=
        Nat.isDigit_of_mem_toDigits (by decide) (by decide) (digits ▸ List.mem_cons_self)
      exact absurd digit (by decide)

end

end Replica
