import Replica.Text.Segment
import Replica.Text.Uppercase

/-!
Names of packages and types: which of them other code may use, what a package is called when
nothing else is said, and how a qualified name becomes a single identifier.
-/

namespace Replica

def isExported (name : String) : Bool :=
  match name.toList with
  | [] => false
  | c :: _ => Text.isUppercase c

/-- A path with an `internal` segment may only be imported from its parent tree. -/
def isInternal (path : String) : Bool :=
  let text := path.toList
  text == "internal".toList
    || "internal/".toList.isPrefixOf text
    || "/internal".toList.isSuffixOf text
    || Text.occursIn "/internal/".toList text

def isMajorVersion : List Char → Bool
  | 'v' :: digits => !digits.isEmpty && digits.all Char.isDigit
  | _ => false

/-- The last segment of a path, or the one before a major version such as `v2`, up to its first
dot and with hyphens made underscores. -/
def defaultPackageName (path : String) : String :=
  let base := match (Text.segments (· == '/') path.toList).reverse with
    | [] => []
    | [only] => only
    | last :: previous :: _ => if isMajorVersion last then previous else last
  String.ofList ((base.takeWhile (· != '.')).map fun c => if c = '-' then '_' else c)

/-- A separator becomes one underscore and an underscore two. -/
def flattenChar : Char → List Char
  | '_' => ['_', '_']
  | '.' => ['_']
  | '/' => ['_']
  | c => [c]

def flatten (text : String) : String :=
  String.ofList (text.toList.flatMap flattenChar)

structure QualName where
  package : String
  name : String
  deriving DecidableEq, Repr, Inhabited

namespace QualName

def qualified (q : QualName) : String :=
  q.package ++ "." ++ q.name

def flat (q : QualName) : String :=
  flatten q.qualified

def isPublic (q : QualName) : Bool :=
  isExported q.name && !isInternal q.package

end QualName

end Replica
