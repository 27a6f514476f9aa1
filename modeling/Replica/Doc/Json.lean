import Replica.Doc.Basic

/-!
JSON documents and their indented text.
-/

namespace Replica

/-- `number` keeps the text of a number that is no natural number. -/
inductive JsonScalar where
  | null
  | flag (value : Bool)
  | natural (value : Nat)
  | number (literal : String)
  | text (value : String)
  deriving DecidableEq, Repr, Inhabited

abbrev Json := Doc JsonScalar

namespace Json

def null : Json := .scalar .null

def flag (value : Bool) : Json := .scalar (.flag value)

def natural (value : Nat) : Json := .scalar (.natural value)

def text (value : String) : Json := .scalar (.text value)

def texts (values : List String) : Json := .list (values.map text)

def optional (key : String) (value : Option Json) : List (String × Json) :=
  (value.map (key, ·)).toList

def nonempty (key : String) (items : List Json) : List (String × Json) :=
  if items.isEmpty then [] else [(key, .list items)]

/-- Scalars are read as what they are; only an optional text may be null. -/
def rules : ScalarRules JsonScalar where
  text?
    | .text value => some value
    | _ => none
  optionalText?
    | .null => some none
    | .text value => some (some value)
    | _ => none
  choice?
    | .text value => some value
    | _ => none
  flag?
    | .flag value => some value
    | _ => none
  word?
    | .natural value => if value < UInt64.size then some (UInt64.ofNat value) else none
    | _ => none
  isBlank _ := false
  isUnit value := value == .null
  positional := true

def hexDigit (n : Nat) : Char :=
  if n < 10 then Char.ofNat (48 + n) else Char.ofNat (87 + n)

def escapeChar (c : Char) : List Char :=
  if c = '"' then ['\\', '"']
  else if c = '\\' then ['\\', '\\']
  else if c = '\n' then ['\\', 'n']
  else if c = '\r' then ['\\', 'r']
  else if c = '\t' then ['\\', 't']
  else if c.toNat = 8 then ['\\', 'b']
  else if c.toNat = 12 then ['\\', 'f']
  else if c.toNat < 32 then ['\\', 'u', '0', '0', hexDigit (c.toNat / 16), hexDigit (c.toNat % 16)]
  else [c]

def quoted (value : String) : String :=
  "\"" ++ String.ofList (value.toList.flatMap escapeChar) ++ "\""

def scalarText : JsonScalar → String
  | .null => "null"
  | .flag value => toString value
  | .natural value => toString value
  | .number literal => literal
  | .text value => quoted value

def indentation (depth : Nat) : String :=
  String.ofList (List.replicate (2 * depth) ' ')

def block (first last : String) (depth : Nat) (lines : List String) : String :=
  if lines.isEmpty then first ++ last
  else first ++ "\n" ++ ",\n".intercalate (lines.map (indentation (depth + 1) ++ ·)) ++ "\n"
    ++ indentation depth ++ last

mutual

def pretty (depth : Nat) : Json → String
  | .scalar value => scalarText value
  | .list items => block "[" "]" depth (prettyItems (depth + 1) items)
  | .object entries => block "\x7b" "\x7d" depth (prettyEntries (depth + 1) entries)

def prettyItems (depth : Nat) : List Json → List String
  | [] => []
  | doc :: docs => pretty depth doc :: prettyItems depth docs

def prettyEntries (depth : Nat) : List (String × Json) → List String
  | [] => []
  | (key, doc) :: entries => (quoted key ++ ": " ++ pretty depth doc) :: prettyEntries depth entries

end

end Json

end Replica
