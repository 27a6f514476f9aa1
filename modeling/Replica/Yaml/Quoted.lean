import Replica.Yaml.Scalar

/-!
The text of scalars that may run over several lines: plain and quoted ones.

Line breaks inside a scalar fold: a single line feed becomes a space and of several the first is
dropped, while separators are kept. Blanks around line breaks are dropped, and other blanks are
kept.
-/

namespace Replica.Yaml

structure Place where
  line : Nat := 0
  column : Nat := 0
  offset : Nat := 0
  deriving Repr

namespace Place

def past (p : Place) (c : Char) : Place :=
  if isBreak c then ⟨p.line + 1, 0, p.offset + c.utf8Size⟩
  else { p with column := p.column + 1, offset := p.offset + c.utf8Size }

def pastAll (p : Place) (cs : List Char) : Place :=
  cs.foldl past p

end Place

/-- White space that has been read but not written. Of several lines the `first` break may be
escaped, and the others are kept in reverse. -/
inductive Gap where
  | none
  | blanks (reversed : List Char)
  | lines (first : Option Char) (reversed : List Char)

namespace Gap

def blank (c : Char) : Gap → Gap
  | .none => .blanks [c]
  | .blanks reversed => .blanks (c :: reversed)
  | .lines first reversed => .lines first reversed

def lineBreak (c : Char) : Gap → Gap
  | .lines first reversed => .lines first (c :: reversed)
  | _ => .lines (some c) []

def space (c : Char) (gap : Gap) : Gap :=
  if isBreak c then gap.lineBreak c else gap.blank c

def spansLines : Gap → Bool
  | .lines _ _ => true
  | _ => false

def flush : Gap → List Char → List Char
  | .none, written => written
  | .blanks reversed, written => reversed ++ written
  | .lines (some '\n') [], written => ' ' :: written
  | .lines (some '\n') reversed, written => reversed ++ written
  | .lines first reversed, written => reversed ++ first.toList ++ written

end Gap

structure Lexeme where
  text : List Char
  spansLines : Bool := false
  place : Place
  rest : List Char

/-- Whether a plain scalar ends before `c`, which is no white space. Only after white space can a
comment, a document mark or a smaller indentation end it. -/
def endsPlain (inFlow : Bool) (indent : Nat) (place : Place) (gap : Gap) (c : Char)
    (rest : List Char) : Bool :=
  let afterGap := match gap with
    | .none => false
    | .blanks _ => c == '#'
    | .lines _ _ =>
      c == '#' || (!inFlow && place.column < indent)
        || (place.column == 0 && atDocumentMark (c :: rest))
  afterGap || (c == ':' && atWordEnd rest) || (inFlow && isFlowIndicator c)

def strayColon (inFlow : Bool) (c : Char) : List Char → Bool
  | [] => false
  | next :: _ => inFlow && c == ':' && (isFlowIndicator next || next == '?')

/-- Reads a plain scalar. `indent` is the least column of its further lines outside of flow
collections; what is written so far is kept in reverse. -/
def plain? (inFlow : Bool) (indent : Nat) (place : Place) (gap : Gap) (written : List Char) :
    List Char → Option Lexeme
  | [] => some ⟨written.reverse, gap.spansLines, place, []⟩
  | c :: rest =>
    if isBlank c || isBreak c then
      if gap.spansLines && c == '\t' && place.column < indent then none
      else plain? inFlow indent (place.past c) (gap.space c) written rest
    else if endsPlain inFlow indent place gap c rest then
      some ⟨written.reverse, gap.spansLines, place, c :: rest⟩
    else if strayColon inFlow c rest then none
    else plain? inFlow indent (place.past c) .none (c :: gap.flush written) rest

def isInterrupted (place : Place) (text : List Char) : Bool :=
  place.column == 0 && atDocumentMark text

def singleQuoted? (place : Place) (gap : Gap) (written : List Char) : List Char → Option Lexeme
  | [] => none
  | '\'' :: '\'' :: rest =>
    singleQuoted? (place.pastAll ['\'', '\'']) .none ('\'' :: gap.flush written) rest
  | '\'' :: rest => some { text := (gap.flush written).reverse, place := place.past '\'', rest }
  | c :: rest =>
    if isBlank c || isBreak c then singleQuoted? (place.past c) (gap.space c) written rest
    else if isInterrupted place (c :: rest) then none
    else singleQuoted? (place.past c) .none (c :: gap.flush written) rest

def unescape? (letter : Char) : Option Char :=
  [('0', Char.ofNat 0), ('a', Char.ofNat 7), ('b', Char.ofNat 8), ('t', '\t'), ('\t', '\t'),
    ('n', '\n'), ('v', Char.ofNat 11), ('f', Char.ofNat 12), ('r', '\r'), ('e', Char.ofNat 27),
    (' ', ' '), ('"', '"'), ('/', '/'), ('\\', '\\'), ('N', Char.ofNat 0x85),
    ('_', Char.ofNat 0xa0), ('L', '\u2028'), ('P', '\u2029')].lookup letter

def codePoint? (digits : List Char) : Option Char :=
  (number? 16 digits).bind fun n => if n.isValidChar then some (Char.ofNat n) else none

def escapeWidth? (letter : Char) : Option Nat :=
  [('x', 2), ('u', 4), ('U', 8)].lookup letter

def escape? (letter : Char) (rest : List Char) : Option (Char × Nat) :=
  match escapeWidth? letter with
  | none => (unescape? letter).map (·, 0)
  | some width =>
    if rest.length < width then none else (codePoint? (rest.take width)).map (·, width)

def doubleQuoted? (place : Place) (gap : Gap) (written : List Char) : List Char → Option Lexeme
  | [] => none
  | '"' :: rest => some { text := (gap.flush written).reverse, place := place.past '"', rest }
  | '\\' :: letter :: rest =>
    if isBreak letter then
      doubleQuoted? ((place.past '\\').past letter) (.lines none []) (gap.flush written) rest
    else match escape? letter rest with
      | none => none
      | some (c, width) =>
        doubleQuoted? (place.pastAll ('\\' :: letter :: rest.take width)) .none
          (c :: gap.flush written) (rest.drop width)
  | c :: rest =>
    if isBlank c || isBreak c then doubleQuoted? (place.past c) (gap.space c) written rest
    else if isInterrupted place (c :: rest) then none
    else doubleQuoted? (place.past c) .none (c :: gap.flush written) rest
termination_by text => text.length
decreasing_by
  all_goals simp_wf
  all_goals omega

end Replica.Yaml
