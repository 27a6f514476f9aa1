import Replica.Expr.Basic

/-!
Go text of a type expression, laid out the way gofmt lays it out.

Struct fields are cut into sections and the types of a section start in one column. A field without
a name is a section of its own, and a section ends after a field that spans several lines.
-/

namespace Replica

def tabs (depth : Nat) : String :=
  String.ofList (List.replicate depth '\t')

def spaces (count : Nat) : String :=
  String.ofList (List.replicate count ' ')

structure Row where
  name : String
  text : String
  deriving DecidableEq, Repr

def Row.closes (row : Row) : Bool :=
  row.name == "" || row.text.toList.contains '\n'

/-- Whether a section begins with a named field and can be extended to the front. -/
def isNamedSection : List Row → Bool
  | [] => false
  | row :: _ => row.name != ""

def sections : List Row → List (List Row)
  | [] => []
  | row :: rest =>
    match sections rest with
    | [] => [[row]]
    | next :: others =>
      if row.closes || !isNamedSection next then [row] :: next :: others
      else (row :: next) :: others

def nameWidth (rows : List Row) : Nat :=
  rows.foldl (fun width row => max width row.name.length) 0

def rowText (depth width : Nat) (row : Row) : String :=
  let padded := if row.name = "" then ""
    else row.name ++ spaces (width - row.name.length + 1)
  tabs depth ++ padded ++ row.text ++ "\n"

def sectionText (depth : Nat) (rows : List Row) : String :=
  String.join (rows.map (rowText depth (nameWidth rows)))

def structText (depth : Nat) (rows : List Row) : String :=
  if rows.isEmpty then "struct\x7b\x7d"
  else "struct \x7b\n" ++ String.join ((sections rows).map (sectionText (depth + 1)))
    ++ tabs depth ++ "\x7d"

def interfaceLayout (depth : Nat) (lines : List String) : String :=
  if lines.isEmpty then "interface\x7b\x7d"
  else "interface \x7b\n" ++ String.join (lines.map fun line => tabs (depth + 1) ++ line ++ "\n")
    ++ tabs depth ++ "\x7d"

def resultsText (results : List (Field Expr)) (texts : List String) : String :=
  match texts with
  | [] => ""
  | [text] => if results.any (·.name != "") then " (" ++ text ++ ")" else " " ++ text
  | texts => " (" ++ ", ".intercalate texts ++ ")"

namespace Expr

mutual

/-- `aliases` gives the name a package is imported under; `depth` is the depth of the line on which
the expression begins. -/
def layout (aliases : String → String) (depth : Nat) : Expr → String
  | .ident name => name
  | .qualified q => aliases q.package ++ "." ++ q.name
  | .applied base args =>
    base.layout aliases depth ++ "[" ++ ", ".intercalate (layouts aliases depth args) ++ "]"
  | .pointer elem => "*" ++ elem.layout aliases depth
  | .map key value => "map[" ++ key.layout aliases depth ++ "]" ++ value.layout aliases depth
  | .array len elem => "[" ++ toString len.toNat ++ "]" ++ elem.layout aliases depth
  | .slice elem => "[]" ++ elem.layout aliases depth
  | .struct members => structText depth (rows aliases (depth + 1) members)
  | .func signature => "func" ++ signatureLayout aliases depth signature
  | .interface elements => interfaceLayout depth (elementLines aliases (depth + 1) elements)

def layouts (aliases : String → String) (depth : Nat) : List Expr → List String
  | [] => []
  | e :: es => e.layout aliases depth :: layouts aliases depth es

def rows (aliases : String → String) (depth : Nat) : List (Member Expr) → List Row
  | [] => []
  | ⟨name, type, _⟩ :: members => ⟨name, type.layout aliases depth⟩ :: rows aliases depth members

def paramLayouts (aliases : String → String) (depth : Nat) (variadic : Bool) :
    List (Field Expr) → List String
  | [] => []
  | ⟨name, type⟩ :: params =>
    let typeText := match type with
      | .slice elem =>
        (if variadic && params.isEmpty then "..." else "[]") ++ elem.layout aliases depth
      | other => other.layout aliases depth
    (if name = "" then typeText else name ++ " " ++ typeText)
      :: paramLayouts aliases depth variadic params

def signatureLayout (aliases : String → String) (depth : Nat) : Signature Expr → String
  | ⟨params, results, variadic⟩ =>
    "(" ++ ", ".intercalate (paramLayouts aliases depth variadic params) ++ ")"
      ++ resultsText results (paramLayouts aliases depth false results)

def elementLines (aliases : String → String) (depth : Nat) : List (Element Expr) → List String
  | [] => []
  | .embedded type :: elements => type.layout aliases depth :: elementLines aliases depth elements
  | .method name signature :: elements =>
    (name ++ signatureLayout aliases depth signature) :: elementLines aliases depth elements

end

end Expr

end Replica
