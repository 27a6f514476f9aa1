import Replica.Proofs.Reading
import Replica.Proofs.Recursion
import Replica.Ty.Text

/-!
What a type begins with in Go text. Types made of well-formed names begin with a name, a qualified
name, a word of the language, or with a mark; together with what comes next this tells the kind of
the type.
-/

namespace Replica

namespace Alphabet

variable (alphabet : Alphabet)

def isPathChar (c : Char) : Bool :=
  alphabet.continues c || c ∈ ['-', '.', '~', '/']

structure IsPath (path : String) : Prop where
  first : path.toList.head?.any alphabet.continues = true
  all : ∀ c ∈ path.toList, alphabet.isPathChar c = true

variable {alphabet}

theorem isPathChar_ascii {c : Char} (few : c.toNat < 128) :
    alphabet.isPathChar c = (c.isAlphanum || c == '_' || c ∈ ['-', '.', '~', '/']) := by
  rw [isPathChar, alphabet.continues_ascii few]

theorem isPathChar_mark {c : Char} (mark : c ∈ ends ++ ['*', '[', '<', ' ', '(', '{']) :
    alphabet.isPathChar c = false := by
  obtain ⟨few, plain⟩ := ascii_of_all
    (p := fun c => !(c.isAlphanum || c == '_' || c ∈ ['-', '.', '~', '/'])) (by decide) mark
  rw [isPathChar_ascii few]
  exact (Bool.not_eq_true' _).mp plain

theorem IsName.pathChars {name : String} (named : alphabet.IsName name) :
    ∀ c ∈ name.toList, alphabet.isPathChar c = true := by
  intro c member
  rw [isPathChar, named.continues c member, Bool.true_or]

end Alphabet

variable (alphabet : Alphabet)

structure Signature.WellNamed (s : Signature Ty) : Prop where
  names : ∀ p ∈ s.params ++ s.results, p.name = "" ∨ alphabet.IsName p.name
  variadic : s.variadic = true → ∃ p elem, s.params.getLast? = some p ∧ p.type = .slice elem

def Ty.WellNamed : Ty → Prop
  | .basic name => alphabet.IsName name
  | .param name => alphabet.IsName name
  | .named base _ => alphabet.IsPath base.package ∧ alphabet.IsName base.name
  | .struct fields => ∀ f ∈ fields, f.name = "" ∨ alphabet.IsName f.name
  | .interface shape =>
    ∀ m ∈ shape.methods, alphabet.IsName m.name ∧ m.signature.WellNamed alphabet
  | .func signature => signature.WellNamed alphabet
  | _ => True

/-- `isParam` tells type parameters from basic types. -/
def Ty.Sided (isParam : String → Bool) : Ty → Prop
  | .basic name => isParam name = false
  | .param name => isParam name = true
  | _ => True

namespace Ty

def word : Ty → String
  | .basic name => name
  | .param name => name
  | .named base _ => base.qualified
  | .pointer _ => ""
  | .slice _ => ""
  | .map _ _ => "map"
  | .array _ _ => ""
  | .chan .both _ => "chan"
  | .chan .send _ => "chan"
  | .chan .recv _ => ""
  | .struct _ => "struct"
  | .interface _ => "interface"
  | .func _ => "func"

def tail : Ty → List Char
  | .basic _ => []
  | .param _ => []
  | .named _ args => (argsText args).toList
  | .pointer elem => '*' :: elem.text.toList
  | .slice elem => '[' :: ']' :: elem.text.toList
  | .map key val => '[' :: (key.text.toList ++ ']' :: val.text.toList)
  | .array len elem => '[' :: (Nat.toDigits 10 len.toNat ++ ']' :: elem.text.toList)
  | .chan .both elem => ' ' :: elem.text.toList
  | .chan .send elem => '<' :: '-' :: ' ' :: elem.text.toList
  | .chan .recv elem => ['<', '-', 'c', 'h', 'a', 'n', ' '] ++ elem.text.toList
  | .struct fields => '{' :: (("; ".intercalate (fieldTexts fields)).toList ++ ['}'])
  | .interface ⟨embedded, methods⟩ =>
    '{' :: (("; ".intercalate (texts embedded ++ methodTexts methods)).toList ++ ['}'])
  | .func signature => (signatureText signature).toList

theorem toList_text (t : Ty) : t.text.toList = t.word.toList ++ t.tail := by
  cases t with
  | chan direction elem => cases direction <;> simp [text, word, tail]
  | interface shape =>
      obtain ⟨embedded, methods⟩ := shape
      simp [text, word, tail, interfaceText]
  | _ => simp [text, word, tail]

variable {alphabet} {t u : Ty} {r s : List Char}

theorem word_pathChars (named : t.WellNamed alphabet) :
    ∀ c ∈ t.word.toList, alphabet.isPathChar c = true := by
  have letters : ∀ word : String, word.toList.all (·.isAlpha) = true →
      ∀ c ∈ word.toList, alphabet.isPathChar c = true := by
    intro word all c member
    have letter : c.isAlphanum = true := by
      rw [Char.isAlphanum, List.all_eq_true.mp all c member, Bool.true_or]
    rw [Alphabet.isPathChar_ascii (toNat_lt_of_isAlphanum letter), letter]
    rfl
  cases t with
  | basic name => exact Alphabet.IsName.pathChars named
  | param name => exact Alphabet.IsName.pathChars named
  | named base args =>
      obtain ⟨path, name⟩ := named
      intro c member
      rw [word, QualName.qualified, String.toList_append, String.toList_append, List.mem_append,
        List.mem_append] at member
      rcases member with (inPath | dot) | inName
      · exact path.all c inPath
      · rw [List.mem_singleton.mp dot, Alphabet.isPathChar_ascii (by decide)]
        rfl
      · exact name.pathChars c inName
  | chan direction elem =>
      cases direction <;> rw [word] <;> exact letters _ (by decide)
  | _ => rw [word]; exact letters _ (by decide)

theorem tail_begins (ended : Ended r) {c : Char} (first : (t.tail ++ r).head? = some c) :
    c ∈ ends ++ ['*', '[', '<', ' ', '(', '{'] := by
  have marked : ∀ {mark : Char} {rest : List Char}, (mark :: rest).head? = some c →
      mark ∈ ['*', '[', '<', ' ', '(', '{'] → c ∈ ends ++ ['*', '[', '<', ' ', '(', '{'] := by
    intro mark rest same member
    exact List.mem_append_right _ (Option.some.inj same ▸ member)
  cases t with
  | basic name => exact List.mem_append_left _ (ended c first)
  | param name => exact List.mem_append_left _ (ended c first)
  | named base args =>
      cases args with
      | nil => exact List.mem_append_left _ (ended c first)
      | cons arg args =>
          rw [tail, argsText, String.toList_append, String.toList_append] at first
          exact marked first (by decide)
  | func signature =>
      rw [tail, signatureText, String.toList_append, String.toList_append, String.toList_append,
        List.append_assoc, List.append_assoc, List.append_assoc] at first
      exact marked first (by decide)
  | chan direction elem => cases direction <;> exact marked first (by decide)
  | _ => exact marked first (by decide)

theorem word_inj (named : t.WellNamed alphabet) (named' : u.WellNamed alphabet) (ended : Ended r)
    (ended' : Ended s) (same : t.text.toList ++ r = u.text.toList ++ s) :
    t.word = u.word ∧ t.tail ++ r = u.tail ++ s := by
  have stop : ∀ {t : Ty} {rest : List Char}, Ended rest → ∀ c, (t.tail ++ rest).head? = some c →
      alphabet.isPathChar c = false :=
    fun ended c first => Alphabet.isPathChar_mark (tail_begins ended first)
  rw [toList_text, toList_text, List.append_assoc, List.append_assoc] at same
  obtain ⟨words, tails⟩ := append_inj_of_stop (word_pathChars named) (word_pathChars named')
    (stop ended) (stop ended') same
  exact ⟨String.toList_injective words, tails⟩

theorem text_begins (named : t.WellNamed alphabet) :
    ∃ c rest, t.text.toList = c :: rest ∧ c ∉ around := by
  rw [toList_text]
  cases t with
  | basic name => exact Alphabet.IsName.begins named []
  | param name => exact Alphabet.IsName.begins named []
  | named base args =>
      obtain ⟨path, _⟩ := named
      have first := path.first
      cases split : base.package.toList with
      | nil =>
          rw [split] at first
          cases first
      | cons c more =>
          rw [split] at first
          rw [word, QualName.qualified, String.toList_append, String.toList_append, split]
          exact ⟨c, _, rfl, Alphabet.not_mark first⟩
  | chan direction elem =>
      cases direction <;> simp only [word, tail] <;> exact ⟨_, _, rfl, by decide⟩
  | _ => simp only [word, tail]; exact ⟨_, _, rfl, by decide⟩

theorem keyword_of_tail (ended : Ended r) {c : Char} (first : (t.tail ++ r).head? = some c)
    (mark : c ∈ [' ', '(']) : t.word ∈ keywords := by
  have apart : c ∉ '*' :: '[' :: '<' :: '{' :: ends := by
    simp only [List.mem_cons, List.not_mem_nil, or_false] at mark
    rcases mark with rfl | rfl <;> decide
  have other : ∀ {mark : Char} {rest : List Char}, (mark :: rest).head? = some c →
      mark ∈ '*' :: '[' :: '<' :: '{' :: ends → t.word ∈ keywords := by
    intro mark rest same member
    exact absurd (Option.some.inj same ▸ member) apart
  have later : r.head? = some c → t.word ∈ keywords := fun first =>
    absurd (List.mem_append_right ['*', '[', '<', '{'] (ended c first)) apart
  cases t with
  | basic name => exact later first
  | param name => exact later first
  | named base args =>
      cases args with
      | nil => exact later first
      | cons arg args =>
          rw [tail, argsText, String.toList_append, String.toList_append] at first
          exact other first (by decide)
  | func signature => rw [word]; decide
  | chan direction elem =>
      cases direction with
      | both => rw [word]; decide
      | send => exact other first (by decide)
      | recv => exact other first (by decide)
  | _ => exact other first (by decide)

theorem name_ne_text {name : String} {rest : List Char} {c : Char} (isName : alphabet.IsName name)
    (mark : c ∈ [' ', '(']) (named : t.WellNamed alphabet) (ended : Ended r) :
    name.toList ++ c :: rest ≠ t.text.toList ++ r := by
  have marked : c ∈ ends ++ ['*', '[', '<', ' ', '(', '{'] := by
    simp only [List.mem_cons, List.not_mem_nil, or_false] at mark
    rcases mark with rfl | rfl <;> decide
  rw [toList_text, List.append_assoc]
  exact isName.ne_word isName.pathChars (word_pathChars named) (Alphabet.isPathChar_mark marked)
    (fun d first => Alphabet.isPathChar_mark (tail_begins ended first))
    (fun first => keyword_of_tail ended first mark)

def kindOfMark : List Char → String
  | '*' :: _ => "pointer"
  | '[' :: ']' :: _ => "slice"
  | '[' :: _ => "array"
  | _ => "chan"

def kindOf (isParam : String → Bool) (word : String) (tail : List Char) : String :=
  if word = "" then kindOfMark tail
  else if '.' ∈ word.toList then "named"
  else if word = "func" then "signature"
  else if word ∈ keywords then word
  else if isParam word then "type-param"
  else "basic"

theorem kindOf_eq {isParam : String → Bool} (named : t.WellNamed alphabet)
    (sided : t.Sided isParam) (r : List Char) :
    kindOf isParam t.word (t.tail ++ r) = t.kindName := by
  have free : ∀ {name : String}, alphabet.IsName name →
      kindOf isParam name r = if isParam name then "type-param" else "basic" := by
    intro name named
    have notFunc : name ≠ "func" := by
      rintro rfl
      exact absurd named.free (by decide)
    rw [kindOf, if_neg named.ne_empty, if_neg named.dotless, if_neg notFunc, if_neg named.free]
  cases t with
  | basic name =>
      rw [Sided] at sided
      exact (free named).trans (by rw [sided]; rfl)
  | param name =>
      rw [Sided] at sided
      exact (free named).trans (by rw [sided]; rfl)
  | named base args =>
      have dot : '.' ∈ base.qualified.toList := by simp [QualName.qualified]
      have some : base.qualified ≠ "" := by
        intro empty
        rw [empty] at dot
        cases dot
      rw [word, kindOf, if_neg some, if_pos dot, kindName]
  | array len elem =>
      obtain ⟨d, more, digits, other⟩ := digits_cons len.toNat
      rw [word, tail, digits, kindOf, if_pos rfl]
      simp [kindOfMark, kindName, other]
  | chan direction elem =>
      cases direction <;> simp [kindOf, kindOfMark, word, tail, kindName, keywords]
  | _ => simp [kindOf, kindOfMark, word, tail, kindName, keywords]

end Ty

end Replica
