import Replica.Ty.Basic
import Replica.Namespace.Basic

/-!
The type expressions and declarations that a run writes.
-/

namespace Replica

structure Member (α : Type) where
  name : String
  type : α
  position : Nat
  deriving DecidableEq, Repr

inductive Element (α : Type) where
  | embedded (type : α)
  | method (name : String) (signature : Signature α)
  deriving DecidableEq, Repr

/-- `ident` is a universe name, a type parameter or a declaration of the same file; `qualified`
names an exported type of another package, whose alias is chosen when the file is laid out. -/
inductive Expr where
  | ident (name : String)
  | qualified (name : QualName)
  | applied (base : Expr) (args : List Expr)
  | pointer (elem : Expr)
  | map (key value : Expr)
  | array (len : UInt64) (elem : Expr)
  | slice (elem : Expr)
  | struct (members : List (Member Expr))
  | func (signature : Signature Expr)
  | interface (elements : List (Element Expr))
  deriving Inhabited

def Expr.apply (base : Expr) : List Expr → Expr
  | [] => base
  | args => .applied base args

def Signature.blanked {α : Type} (s : Signature α) : Signature α :=
  { s with
    params := s.params.map ({ · with name := "_" })
    results := s.results.map ({ · with name := "_" }) }

inductive Body where
  | struct (members : List (Member Expr))
  | interface (elements : List (Element Expr))
  | defined (type : Expr)

/-- The declaration `name`, laid out like `origin`. -/
structure Decl where
  name : String
  origin : QualName
  params : List (Field Expr) := []
  body : Body

/-- `localName` is the alias the package goes by in the file. It is written out when it is not the
package's own name. -/
structure Import where
  path : String
  localName : String
  explicit : Bool
  group : ImportGroup
  deriving DecidableEq, Repr

structure Conversion where
  name : String
  params : List (Field Expr) := []
  source : Expr
  target : Expr

structure Stub where
  receiver : String
  pointerReceiver : Bool
  method : String
  signature : Signature Expr

structure Tree where
  imports : List Import
  decls : List Decl
  conversions : List Conversion
  stubs : List Stub

def Tree.decl? (tree : Tree) (name : String) : Option Decl :=
  tree.decls.find? (·.name == name)

end Replica
