/-!
The characters that YAML text is made of. Carriage returns and next line characters are taken for
line feeds beforehand, so three line breaks remain.
-/

namespace Replica.Yaml

def isBlank (c : Char) : Bool :=
  c == ' ' || c == '\t'

def isBreak (c : Char) : Bool :=
  c == '\n' || c == '\u2028' || c == '\u2029'

def isByteOrderMark (c : Char) : Bool :=
  c == '\ufeff'

def atWordEnd : List Char → Bool
  | [] => true
  | c :: _ => isBlank c || isBreak c

def isFlowIndicator (c : Char) : Bool :=
  c == ',' || c == '[' || c == ']' || c == '\x7b' || c == '\x7d'

/-- Characters that no plain scalar may begin with. The last one is the backquote. -/
def isIndicator (c : Char) : Bool :=
  isFlowIndicator c
    || ['#', '&', '*', '!', '|', '>', '\'', '"', '%', '@', Char.ofNat 96].contains c

def beginsPlain (inFlow : Bool) : List Char → Bool
  | [] => false
  | '-' :: rest => !atWordEnd rest
  | '?' :: rest => !inFlow && !atWordEnd rest
  | ':' :: rest => !inFlow && !atWordEnd rest
  | c :: _ => !isBlank c && !isBreak c && !isIndicator c

def atDocumentMark : List Char → Bool
  | '-' :: '-' :: '-' :: rest => atWordEnd rest
  | '.' :: '.' :: '.' :: rest => atWordEnd rest
  | _ => false

def isPrintable (c : Char) : Bool :=
  let n := c.toNat
  (0x20 ≤ n && n ≤ 0x7e) || (0xa0 ≤ n && n ≤ 0xfffd && n != 0xfeff) || 0x10000 ≤ n

def isAllowed (c : Char) : Bool :=
  isPrintable c || c == '\t' || c == '\n' || c == '\r' || c.toNat == 0x85 || isByteOrderMark c

def hexValue? (c : Char) : Option Nat :=
  if c.isDigit then some (c.toNat - 48)
  else if 'a' ≤ c && c ≤ 'f' then some (c.toNat - 87)
  else if 'A' ≤ c && c ≤ 'F' then some (c.toNat - 55)
  else none

def number? (base : Nat) (digits : List Char) : Option Nat :=
  let append := fun value c => do
    let digit ← hexValue? c
    if digit < base then some (value * base + digit) else none
  if digits.isEmpty then none else digits.foldlM append 0

end Replica.Yaml
