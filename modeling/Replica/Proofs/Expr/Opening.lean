import Replica.Proofs.Expr.Block
import Replica.Proofs.Expr.Unplaced
import Replica.Proofs.Ty.Opening

/-!
What a written expression begins with. Well-formed expressions begin with a name, which an alias is
too, with a word of the language, or with a mark; together with what comes next this tells the kind
of the expression.
-/

namespace Replica

namespace Expr

variable (alphabet : Alphabet)

structure WellNamedSignature (s : Signature Expr) : Prop where
  names : ∀ p ∈ s.params ++ s.results, p.name = "" ∨ alphabet.IsName p.name
  variadic : s.variadic = true → ∃ p elem, s.params.getLast? = some p ∧ p.type = .slice elem

def WellNamedElement : Element Expr → Prop
  | .embedded _ => True
  | .method name signature => alphabet.IsName name ∧ WellNamedSignature alphabet signature

def isHead : Expr → Bool
  | .ident _ => true
  | .qualified _ => true
  | _ => false

/-- The names that an expression has itself are names of the language, and arguments, of which there
are some, are given to a name. -/
def WellNamed : Expr → Prop
  | .ident name => alphabet.IsName name
  | .qualified q => alphabet.IsName q.name
  | .applied base args => base.isHead = true ∧ args ≠ []
  | .struct members => ∀ m ∈ members, m.name = "" ∨ alphabet.IsName m.name
  | .func signature => WellNamedSignature alphabet signature
  | .interface elements => ∀ element ∈ elements, WellNamedElement alphabet element
  | _ => True

end Expr

/-- What packages go by. Those that are known go by names of the language, no two by the same. -/
structure Aliasing (alphabet : Alphabet) where
  aliases : String → String
  Known : String → Prop
  isName : ∀ {path : String}, Known path → alphabet.IsName (aliases path)
  injective : ∀ {path path' : String}, Known path → Known path' →
    aliases path = aliases path' → path = path'

namespace Expr

variable {alphabet : Alphabet} (table : Aliasing alphabet)

def Settled : Expr → Prop
  | .qualified q => table.Known q.package
  | .struct members => ∀ m ∈ members, m.position = 0
  | _ => True

def Proper : Expr → Prop :=
  Every fun e => e.WellNamed alphabet ∧ e.Settled table

def ProperHead : Expr → Prop
  | .ident name => alphabet.IsName name
  | .qualified q => table.Known q.package ∧ alphabet.IsName q.name
  | _ => False

def word (aliases : String → String) : Expr → String
  | .ident name => name
  | .qualified q => aliases q.package
  | .applied base _ => base.word aliases
  | .pointer _ => ""
  | .map _ _ => "map"
  | .array _ _ => ""
  | .slice _ => ""
  | .struct _ => "struct"
  | .func _ => "func"
  | .interface _ => "interface"

def tail (aliases : String → String) (depth : Nat) : Expr → List Char
  | .ident _ => []
  | .qualified q => '.' :: q.name.toList
  | .applied base args => base.tail aliases depth ++
    '[' :: ((", ".intercalate (layouts aliases depth args)).toList ++ [']'])
  | .pointer elem => '*' :: (elem.layout aliases depth).toList
  | .map key value =>
    '[' :: ((key.layout aliases depth).toList ++ ']' :: (value.layout aliases depth).toList)
  | .array len elem =>
    '[' :: (Nat.toDigits 10 len.toNat ++ ']' :: (elem.layout aliases depth).toList)
  | .slice elem => '[' :: ']' :: (elem.layout aliases depth).toList
  | .struct members => blockChars depth ((padded (rows aliases (depth + 1) members)).map
    fun p => paddedChars p.1 p.2.name p.2.text.toList)
  | .func signature => (signatureLayout aliases depth signature).toList
  | .interface elements =>
    blockChars depth ((elementLines aliases (depth + 1) elements).map String.toList)

theorem toList_layout (aliases : String → String) (depth : Nat) :
    ∀ e : Expr, (e.layout aliases depth).toList = (e.word aliases).toList ++ e.tail aliases depth
  | .ident _ => by simp [layout, word, tail]
  | .qualified _ => by simp [layout, word, tail]
  | .applied base _ => by simp [layout, word, tail, toList_layout aliases depth base]
  | .pointer _ => by simp [layout, word, tail]
  | .map _ _ => by simp [layout, word, tail]
  | .array _ _ => by simp [layout, word, tail]
  | .slice _ => by simp [layout, word, tail]
  | .struct _ => by rw [layout, word, tail, structText_eq]
  | .func _ => by simp [layout, word, tail]
  | .interface _ => by rw [layout, word, tail, interfaceLayout_eq]

def kindName : Expr → String
  | .ident _ => "name"
  | .qualified _ => "name"
  | .applied _ _ => "name"
  | .pointer _ => "pointer"
  | .map _ _ => "map"
  | .array _ _ => "array"
  | .slice _ => "slice"
  | .struct _ => "struct"
  | .func _ => "func"
  | .interface _ => "interface"

variable {table} {e f : Expr} {depth : Nat} {r s : List Char}

theorem Proper.exists_head (proper : e.Proper table) (kind : e.kindName = "name") :
    ∃ (base : Expr) (args : List Expr), e = base.apply args ∧ base.ProperHead table ∧
      ∀ arg ∈ args, arg ∈ e.children := by
  cases e with
  | ident name => exact ⟨_, [], rfl, proper.here.1, nofun⟩
  | qualified q => exact ⟨_, [], rfl, ⟨proper.here.2, proper.here.1⟩, nofun⟩
  | applied base args =>
      obtain ⟨isHead, some⟩ := proper.here.1
      obtain ⟨arg, rest, rfl⟩ := List.exists_cons_of_ne_nil some
      have inner : base.Proper table := proper.child List.mem_cons_self
      refine ⟨base, arg :: rest, rfl, ?_, fun arg member => List.mem_cons_of_mem _ member⟩
      cases base with
      | ident name => exact inner.here.1
      | qualified q => exact ⟨inner.here.2, inner.here.1⟩
      | _ => cases isHead
  | _ => simp [kindName] at kind

theorem word_apply (aliases : String → String) (base : Expr) (args : List Expr) :
    (base.apply args).word aliases = base.word aliases := by
  cases args <;> rfl

theorem ProperHead.word_isName (head : e.ProperHead table) :
    alphabet.IsName (e.word table.aliases) := by
  cases e with
  | ident name => exact head
  | qualified q => exact table.isName head.1
  | _ => cases head

theorem word_isName (proper : e.Proper table) (kind : e.kindName = "name") :
    alphabet.IsName (e.word table.aliases) := by
  obtain ⟨base, args, rfl, head, _⟩ := proper.exists_head kind
  rw [word_apply]
  exact head.word_isName

theorem word_reserved (other : e.kindName ≠ "name") :
    e.word table.aliases ∈ ["", "map", "struct", "func", "interface"] := by
  cases e with
  | ident _ | qualified _ | applied _ _ => exact absurd rfl other
  | _ => rw [word]; decide

theorem word_continues (proper : e.Proper table) :
    ∀ c ∈ (e.word table.aliases).toList, alphabet.continues c = true := by
  have letters : ∀ word ∈ ["", "map", "struct", "func", "interface"],
      word.toList.all (·.isAlpha) = true := by decide
  by_cases kind : e.kindName = "name"
  · exact (word_isName proper kind).continues
  · intro c member
    have letter : c.isAlphanum = true := by
      rw [Char.isAlphanum, List.all_eq_true.mp (letters _ (word_reserved kind)) c member,
        Bool.true_or]
    rw [alphabet.continues_ascii (toNat_lt_of_isAlphanum letter), letter, Bool.true_or]

theorem tail_apply (aliases : String → String) (base : Expr) (args : List Expr) :
    (base.apply args).tail aliases depth = base.tail aliases depth ++
      if args = [] then [] else
        '[' :: ((", ".intercalate (layouts aliases depth args)).toList ++ [']']) := by
  cases args with
  | nil => exact (List.append_nil _).symm
  | cons arg args =>
      rw [if_neg (List.cons_ne_nil arg args)]
      rfl

theorem name_tail_begins (proper : e.Proper table) (kind : e.kindName = "name") (ended : Ended r)
    {c : Char} (first : (e.tail table.aliases depth ++ r).head? = some c) :
    c ∈ ends ++ ['.', '['] := by
  obtain ⟨base, args, rfl, head, _⟩ := proper.exists_head kind
  rw [tail_apply] at first
  cases base with
  | ident name =>
      rw [tail, List.nil_append] at first
      split_ifs at first
      · exact List.mem_append_left _ (ended c first)
      · exact Option.some.inj first ▸ by decide
  | qualified q => exact Option.some.inj first ▸ by decide
  | _ => cases head

theorem tail_begins (proper : e.Proper table) (ended : Ended r) {c : Char}
    (first : (e.tail table.aliases depth ++ r).head? = some c) : c ∈ marks := by
  have block : ∀ {lines : List (List Char)}, (blockChars depth lines ++ r).head? = some c →
      c ∈ marks := by
    intro lines first
    obtain ⟨d, rest, written, mark⟩ := blockChars_begins depth lines
    have within : [' ', '{'] ⊆ marks := by decide
    rw [written] at first
    exact within (Option.some.inj first ▸ mark)
  by_cases kind : e.kindName = "name"
  · have within : ends ++ ['.', '['] ⊆ marks := by decide
    exact within (name_tail_begins proper kind ended first)
  · cases e with
    | ident _ | qualified _ | applied _ _ => exact absurd rfl kind
    | func signature =>
        rw [tail, signatureLayout, String.toList_append, String.toList_append,
          String.toList_append] at first
        exact Option.some.inj first ▸ by decide
    | struct members => exact block first
    | interface elements => exact block first
    | _ => exact Option.some.inj first ▸ by decide

theorem word_inj (proper : e.Proper table) (proper' : f.Proper table) (ended : Ended r)
    (ended' : Ended s) (same : (e.layout table.aliases depth).toList ++ r =
      (f.layout table.aliases depth).toList ++ s) :
    e.word table.aliases = f.word table.aliases ∧
      e.tail table.aliases depth ++ r = f.tail table.aliases depth ++ s := by
  rw [toList_layout, toList_layout, List.append_assoc, List.append_assoc] at same
  obtain ⟨words, tails⟩ := append_inj_of_stop (word_continues proper) (word_continues proper')
    (fun c first => Alphabet.continues_mark (tail_begins proper ended first))
    (fun c first => Alphabet.continues_mark (tail_begins proper' ended' first)) same
  exact ⟨String.toList_injective words, tails⟩

theorem layout_begins (proper : e.Proper table) :
    ∃ c rest, (e.layout table.aliases depth).toList = c :: rest ∧ c ∉ around := by
  rw [toList_layout]
  by_cases kind : e.kindName = "name"
  · exact (word_isName proper kind).begins _
  · cases e with
    | ident _ | qualified _ | applied _ _ => exact absurd rfl kind
    | _ => simp only [word, tail]; exact ⟨_, _, rfl, by decide⟩

theorem keyword_of_tail (proper : e.Proper table) (ended : Ended r) {c : Char}
    (first : (e.tail table.aliases depth ++ r).head? = some c) (mark : c ∈ [' ', '(']) :
    e.word table.aliases ∈ keywords := by
  have apart : ∀ others : List Char, ' ' ∉ others → '(' ∉ others → c ∉ others := by
    intro others space opening
    rcases List.mem_pair.mp mark with rfl | rfl
    · exact space
    · exact opening
  by_cases kind : e.kindName = "name"
  · exact absurd (name_tail_begins proper kind ended first) (apart _ (by decide) (by decide))
  · cases e with
    | ident _ | qualified _ | applied _ _ => exact absurd rfl kind
    | pointer elem | array len elem | slice elem =>
        have marked : c ∈ ['*', '['] := Option.some.inj first ▸ by decide
        exact absurd marked (apart _ (by decide) (by decide))
    | _ => rw [word]; decide

theorem name_ne_layout {name : String} {rest : List Char} {c : Char} (isName : alphabet.IsName name)
    (mark : c ∈ [' ', '(']) (proper : e.Proper table) (ended : Ended r) :
    name.toList ++ c :: rest ≠ (e.layout table.aliases depth).toList ++ r := by
  have within : [' ', '('] ⊆ marks := by decide
  rw [toList_layout, List.append_assoc]
  exact isName.ne_word isName.continues (word_continues proper)
    (Alphabet.continues_mark (within mark))
    (fun d first => Alphabet.continues_mark (tail_begins proper ended first))
    (fun first => keyword_of_tail proper ended first mark)

def kindOf (word : String) (tail : List Char) : String :=
  if word = "" then Ty.kindOfMark tail else if word ∈ keywords then word else "name"

theorem kindOf_eq (proper : e.Proper table) (r : List Char) :
    kindOf (e.word table.aliases) (e.tail table.aliases depth ++ r) = e.kindName := by
  by_cases kind : e.kindName = "name"
  · have isName := word_isName proper kind
    rw [kindOf, if_neg isName.ne_empty, if_neg isName.free, kind]
  · cases e with
    | ident _ | qualified _ | applied _ _ => exact absurd rfl kind
    | array len elem =>
        obtain ⟨d, more, digits, other⟩ := digits_cons len.toNat
        rw [word, tail, digits, kindOf, if_pos rfl]
        simp [Ty.kindOfMark, kindName, other]
    | _ => simp [kindOf, Ty.kindOfMark, word, tail, kindName, keywords]

end Expr

end Replica
