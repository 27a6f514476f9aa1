import Replica.Doc.Json
import Replica.Yaml.Scalar

/-!
Documents as block-style YAML with sorted keys. Texts are plain unless some reader would take them
for something else or they cannot be written plainly; values of several lines keep their lines.
-/

namespace Replica.Yaml

def reservedWords : List String :=
  ["~", "null", "nil", "nan", "true", "false", "y", "yes", "n", "no", "on", "off"]

/-- Whether some reader may take a text for something else. In any case of letters the reserved
words are in doubt, and so is all that begins as a number does. -/
def isDoubtful (value : String) : Bool :=
  reservedWords.contains value.toLower
    || value.toList.head?.any fun c => c.isDigit || isSign c || c == '.'

def hasSeparator : List Char → Bool
  | [] => false
  | ':' :: rest => atWordEnd rest || hasSeparator rest
  | ' ' :: '#' :: _ => true
  | _ :: rest => hasSeparator rest

def canBePlain (text : List Char) : Bool :=
  beginsPlain false text && !hasSeparator text && !text.any isBreak && text.getLast? != some ' '
    && !"---".toList.isPrefixOf text && !"...".toList.isPrefixOf text

def indentation (width : Nat) : List Char :=
  List.replicate width ' '

/-- Puts the indentation in front of all lines but empty ones. The text may go on with a line that
has begun. -/
def indentLines (width : Nat) (begun : Bool) : List Char → List Char
  | [] => []
  | c :: rest =>
    if isBreak c then c :: indentLines width false rest
    else if begun then c :: indentLines width true rest
    else indentation width ++ c :: indentLines width true rest

def endsInBreak (text : List Char) : Bool :=
  text.getLast?.any isBreak

def hasPair (first second : Char → Bool) (text : List Char) : Bool :=
  (text.zip text.tail).any fun (a, b) => first a && second b

def isSpace (c : Char) : Bool :=
  c == ' '

def canBeSingleQuoted (text : List Char) : Bool :=
  text.all isPrintable && !hasPair isSpace isBreak text && !hasPair isBreak isSpace text

def singleQuoted (indent : Nat) (text : List Char) : List Char :=
  let quotes := text.flatMap fun c => if c = '\'' then ['\'', '\''] else [c]
  let last := if endsInBreak text then indentation indent else []
  ['\''] ++ indentLines indent true quotes ++ last ++ ['\'']

def hexDigits (width n : Nat) : List Char :=
  (List.range width).reverse.map fun k =>
    let digit := n / Nat.pow 16 k % 16
    if digit < 10 then Char.ofNat (48 + digit) else Char.ofNat (55 + digit)

def shortEscapes : List (Nat × Char) :=
  [(0, '0'), (7, 'a'), (8, 'b'), (9, 't'), (10, 'n'), (11, 'v'), (12, 'f'), (13, 'r'), (27, 'e'),
    (34, '"'), (92, '\\'), (0x85, 'N'), (0xa0, '_'), (0x2028, 'L'), (0x2029, 'P')]

def escapeChar (c : Char) : List Char :=
  if isPrintable c && !isBreak c && c != '"' && c != '\\' then [c]
  else match shortEscapes.lookup c.toNat with
    | some letter => ['\\', letter]
    | none =>
      if c.toNat < 0x100 then '\\' :: 'x' :: hexDigits 2 c.toNat
      else if c.toNat < 0x10000 then '\\' :: 'u' :: hexDigits 4 c.toNat
      else '\\' :: 'U' :: hexDigits 8 c.toNat

def doubleQuoted (text : List Char) : List Char :=
  ['"'] ++ text.flatMap escapeChar ++ ['"']

/-- Whether a text has several lines that can be written as they are: each is printable and ends in
no space. -/
def canBeLiteral (text : List Char) : Bool :=
  text.contains '\n' && text.all (fun c => isPrintable c || isBreak c)
    && !hasPair isSpace isBreak text && text.getLast? != some ' '

def chomping (text : List Char) : List Char :=
  match text.reverse with
  | c :: rest => if !isBreak c then ['-'] else if rest.head?.all isBreak then ['+'] else []
  | [] => ['-']

/-- A text line by line. The width of the indentation is said when the first line does not show
it. -/
def literal (indent : Nat) (text : List Char) : List Char :=
  let width := if text.head?.any fun c => isSpace c || isBreak c then ['2'] else []
  ['|'] ++ width ++ chomping text ++ ['\n'] ++ indentLines indent false text
    ++ if endsInBreak text then [] else ['\n']

def textScalar (indent : Nat) (value : String) : List Char :=
  let text := value.toList
  if text.contains '\n' then doubleQuoted text
  else if !isDoubtful value && text.all isPrintable && canBePlain text then text
  else if canBeSingleQuoted text then singleQuoted indent text
  else doubleQuoted text

def scalarLines (indent : Nat) : JsonScalar → String
  | .null => "null\n"
  | .flag value => toString value ++ "\n"
  | .natural value => toString value ++ "\n"
  | .number value => value ++ "\n"
  | .text value =>
    String.ofList
      (if canBeLiteral value.toList then literal indent value.toList
      else textScalar indent value ++ ['\n'])

def keyScalar (key : String) : String :=
  String.ofList (if key.toList.any isBreak then doubleQuoted key.toList else textScalar 0 key)

def indented (width : Nat) (line : String) : String :=
  String.ofList (indentation width) ++ line

def insertEntry (entry : String × Json) : List (String × Json) → List (String × Json)
  | [] => [entry]
  | first :: rest =>
    if entry.1 < first.1 then entry :: first :: rest else first :: insertEntry entry rest

mutual

def sortKeys : Json → Json
  | .scalar value => .scalar value
  | .list items => .list (sortItems items)
  | .object entries => .object (sortEntries entries)

def sortItems : List Json → List Json
  | [] => []
  | doc :: docs => sortKeys doc :: sortItems docs

def sortEntries : List (String × Json) → List (String × Json)
  | [] => []
  | (key, doc) :: entries => insertEntry (key, sortKeys doc) (sortEntries entries)

end

mutual

def print (indent : Nat) : Json → String
  | .scalar value => scalarLines indent value
  | .list [] => "[]\n"
  | .list (item :: items) => "- " ++ print (indent + 2) item ++ printItems indent items
  | .object [] => "\x7b\x7d\n"
  | .object ((key, value) :: entries) =>
    keyScalar key ++ ":" ++ printValue indent value ++ printEntries indent entries

def printValue (indent : Nat) : Json → String
  | .scalar value => " " ++ scalarLines (indent + 2) value
  | .list [] => " []\n"
  | .list (item :: items) =>
    "\n" ++ indented indent "- " ++ print (indent + 2) item ++ printItems indent items
  | .object [] => " \x7b\x7d\n"
  | .object ((key, value) :: entries) =>
    "\n" ++ indented (indent + 2) (keyScalar key) ++ ":" ++ printValue (indent + 2) value
      ++ printEntries (indent + 2) entries

def printItems (indent : Nat) : List Json → String
  | [] => ""
  | item :: items => indented indent "- " ++ print (indent + 2) item ++ printItems indent items

def printEntries (indent : Nat) : List (String × Json) → String
  | [] => ""
  | (key, value) :: entries =>
    indented indent (keyScalar key) ++ ":" ++ printValue indent value ++ printEntries indent entries

end

def text (doc : Json) : String :=
  print 0 (sortKeys doc)

end Replica.Yaml
