import Replica.Yaml.Tag

/-!
The tokens of a YAML text. Block collections begin and end where the indentation says so; a key
that is followed by its colon on the same line is marked when the colon is met, by putting the
marks in front of the tokens it is made of.

Anchors and block scalars are not read.
-/

namespace Replica.Yaml

inductive Token where
  | documentStart
  | documentEnd
  | directive (value : Directive)
  | blockList
  | blockObject
  | blockEnd
  | flowList
  | flowListEnd
  | flowObject
  | flowObjectEnd
  | item
  | comma
  | key
  | value
  | tag (name : TagName)
  | scalar (value : Scalar)
  deriving DecidableEq, Repr

/-- A place where a key may have begun: `index` tokens precede it. A `required` candidate has to
turn out to be a key, because it stands where the enclosing object has its keys. -/
structure Candidate where
  index : Nat
  place : Place
  required : Bool

/-- `indents` are the columns of the open block collections, the innermost first. There is a
candidate, if any, for the block level and for each open flow collection, the innermost first.
Tokens are kept in reverse. -/
structure Lexer where
  rest : List Char
  place : Place := {}
  keyAllowed : Bool := true
  indents : List Nat := []
  candidate : Option Candidate := none
  outer : List (Option Candidate) := []
  tokens : List Token := []
  count : Nat := 0

namespace Lexer

def inFlow (l : Lexer) : Bool :=
  !l.outer.isEmpty

def emit (l : Lexer) (token : Token) : Lexer :=
  { l with tokens := token :: l.tokens, count := l.count + 1 }

def insert (l : Lexer) (index : Nat) (token : Token) : Lexer :=
  let later := l.count - index
  { l with tokens := l.tokens.take later ++ token :: l.tokens.drop later, count := l.count + 1 }

def advance (l : Lexer) (count : Nat) : Lexer :=
  { l with rest := l.rest.drop count, place := l.place.pastAll (l.rest.take count) }

def advanceTo (l : Lexer) (rest : List Char) : Lexer :=
  l.advance (l.rest.length - rest.length)

/-- Skips blanks, comments and line breaks. A byte order mark may begin a line. After a line break
outside of flow collections a key may begin; where one may begin, tabs are no white space. -/
def skipSpace (inFlow keyAllowed inComment : Bool) (place : Place) :
    List Char → Bool × Place × List Char
  | [] => (keyAllowed, place, [])
  | c :: rest =>
    if isBreak c then skipSpace inFlow (keyAllowed || !inFlow) false (place.past c) rest
    else if inComment || c == '#' then skipSpace inFlow keyAllowed true (place.past c) rest
    else if c == ' ' || (c == '\t' && (inFlow || !keyAllowed))
        || (isByteOrderMark c && place.column == 0) then
      skipSpace inFlow keyAllowed false (place.past c) rest
    else (keyAllowed, place, c :: rest)

def toNextToken (l : Lexer) : Lexer :=
  let (keyAllowed, place, rest) := skipSpace l.inFlow l.keyAllowed false l.place l.rest
  { l with keyAllowed, place, rest }

def isStale (place : Place) (candidate : Candidate) : Bool :=
  candidate.place.line < place.line || candidate.place.offset + 1024 < place.offset

/-- Gives up a candidate that can no longer be a key; there is no result if it had to be one. -/
def dropStale (place : Place) : Option Candidate → Option (Option Candidate)
  | none => some none
  | some candidate =>
    if !isStale place candidate then some (some candidate)
    else if candidate.required then none
    else some none

def dropAllStale (l : Lexer) : Option Lexer := do
  let candidate ← dropStale l.place l.candidate
  let outer ← l.outer.mapM (dropStale l.place)
  return { l with candidate, outer }

def giveUpKey (l : Lexer) : Option Lexer :=
  if l.candidate.any (·.required) then none else some { l with candidate := none }

def noteKey (l : Lexer) : Option Lexer :=
  if l.keyAllowed then do
    let l ← l.giveUpKey
    let required := !l.inFlow && l.indents.head? == some l.place.column
    return { l with candidate := some ⟨l.count, l.place, required⟩ }
  else some l

def closeBlocks (column : Option Nat) (l : Lexer) : Lexer :=
  if l.inFlow then l
  else
    let closes := fun indent => column.all (· < indent)
    let closed := l.indents.takeWhile closes
    { l with
      indents := l.indents.drop closed.length
      tokens := List.replicate closed.length .blockEnd ++ l.tokens
      count := l.count + closed.length }

def openBlock (l : Lexer) (column index : Nat) (token : Token) : Lexer :=
  if l.inFlow || l.indents.head?.any (column ≤ ·) then l
  else { l.insert index token with indents := column :: l.indents }

def documentMark (l : Lexer) (token : Token) : Option Lexer := do
  let l ← (l.closeBlocks none).giveUpKey
  return { (l.advance 3).emit token with keyAllowed := false }

def openFlow (l : Lexer) (token : Token) : Option Lexer := do
  let l ← l.noteKey
  return { (l.advance 1).emit token with
    candidate := none, outer := l.candidate :: l.outer, keyAllowed := true }

def closeFlow (l : Lexer) (token : Token) : Option Lexer := do
  let l ← l.giveUpKey
  let l := { (l.advance 1).emit token with keyAllowed := false }
  match l.outer with
  | [] => return l
  | candidate :: outer => return { l with candidate, outer }

def comma (l : Lexer) : Option Lexer := do
  let l ← l.giveUpKey
  return { (l.advance 1).emit .comma with keyAllowed := true }

def item (l : Lexer) : Option Lexer :=
  if !l.inFlow && !l.keyAllowed then none
  else do
    let l ← (l.openBlock l.place.column l.count .blockList).giveUpKey
    return { (l.advance 1).emit .item with keyAllowed := true }

def key (l : Lexer) : Option Lexer :=
  if !l.inFlow && !l.keyAllowed then none
  else do
    let l ← (l.openBlock l.place.column l.count .blockObject).giveUpKey
    return { (l.advance 1).emit .key with keyAllowed := !l.inFlow }

def value (l : Lexer) : Option Lexer :=
  match l.candidate with
  | some candidate =>
    let l := l.insert candidate.index .key
    let l := l.openBlock candidate.place.column candidate.index .blockObject
    some { (l.advance 1).emit .value with candidate := none, keyAllowed := false }
  | none =>
    if !l.inFlow && !l.keyAllowed then none
    else
      let l := l.openBlock l.place.column l.count .blockObject
      some { (l.advance 1).emit .value with keyAllowed := !l.inFlow }

def scalar (l : Lexer) (plain : Bool) (read : Lexer → Option Lexeme) : Option Lexer := do
  let l ← l.noteKey
  let lexeme ← read l
  let l := { l with keyAllowed := lexeme.spansLines, place := lexeme.place, rest := lexeme.rest }
  return l.emit (.scalar { text := String.ofList lexeme.text, plain })

def plainScalar (l : Lexer) : Option Lexer :=
  let indent := match l.indents with
    | [] => 0
    | column :: _ => column + 1
  l.scalar true fun l => plain? l.inFlow indent l.place .none [] l.rest

def tag (l : Lexer) : Option Lexer := do
  let l ← l.noteKey
  let (name, rest) ← tag? l.inFlow l.rest
  return { (l.advanceTo rest).emit (.tag name) with keyAllowed := false }

def directive (l : Lexer) : Option Lexer := do
  let l ← (l.closeBlocks none).giveUpKey
  let (directive, rest) ← directive? (l.rest.drop 1)
  return { (l.advanceTo rest).emit (.directive directive) with keyAllowed := false }

def next (l : Lexer) : Option Lexer :=
  let atMark := l.place.column == 0 && atDocumentMark l.rest
  match l.rest with
  | '-' :: rest =>
    if atMark then l.documentMark .documentStart
    else if atWordEnd rest then l.item
    else l.plainScalar
  | '[' :: _ => l.openFlow .flowList
  | '\x7b' :: _ => l.openFlow .flowObject
  | ']' :: _ => l.closeFlow .flowListEnd
  | '\x7d' :: _ => l.closeFlow .flowObjectEnd
  | ',' :: _ => l.comma
  | '?' :: rest => if l.inFlow || atWordEnd rest then l.key else l.plainScalar
  | ':' :: rest => if l.inFlow || atWordEnd rest then l.value else l.plainScalar
  | '\'' :: _ =>
    l.scalar false fun l => singleQuoted? (l.place.past '\'') .none [] (l.rest.drop 1)
  | '"' :: _ =>
    l.scalar false fun l => doubleQuoted? (l.place.past '"') .none [] (l.rest.drop 1)
  | '!' :: _ => l.tag
  | '%' :: _ => if l.place.column == 0 then l.directive else none
  | rest =>
    if atMark then l.documentMark .documentEnd
    else if beginsPlain l.inFlow rest then l.plainScalar
    else none

def run : (steps : Nat) → Lexer → Option (List Token)
  | 0, _ => none
  | steps + 1, l => do
    let l ← l.toNextToken.dropAllStale
    if l.rest.isEmpty then
      let l ← (l.closeBlocks none).giveUpKey
      return l.tokens.reverse
    else
      let l ← (l.closeBlocks (some l.place.column)).next
      run steps l

end Lexer

def unifyBreaks : List Char → List Char
  | '\r' :: '\n' :: rest => '\n' :: unifyBreaks rest
  | '\r' :: rest => '\n' :: unifyBreaks rest
  | c :: rest => (if c.toNat = 0x85 then '\n' else c) :: unifyBreaks rest
  | [] => []

def tokens? (text : String) : Option (List Token) :=
  if text.toList.all isAllowed then
    let rest := unifyBreaks text.toList
    Lexer.run (rest.length + 1) { rest }
  else none

end Replica.Yaml
