import Replica.Ty.Substitution

/-!
What a namespace file says: the module it belongs to and the packages it describes.
-/

namespace Replica

structure TypeDecl where
  name : String
  params : List (Field Ty) := []
  underlying : Ty
  deriving DecidableEq, Inhabited

namespace TypeDecl

def isGeneric (d : TypeDecl) : Bool :=
  !d.params.isEmpty

def paramNames (d : TypeDecl) : List String :=
  d.params.map (·.name)

def instantiate (d : TypeDecl) (args : List Ty) : Ty :=
  d.underlying.substitute d.paramNames args

end TypeDecl

structure Package where
  path : String
  name : Option String := none
  types : List TypeDecl := []
  deriving DecidableEq, Inhabited

namespace Package

def packageName (p : Package) : String :=
  p.name.getD (defaultPackageName p.path)

def lookup (p : Package) (name : String) : Option TypeDecl :=
  p.types.find? (·.name == name)

end Package

/-- `package` is what generated files are called unless the command line says otherwise; `imports`
are further namespace files. -/
structure Metadata where
  module : String
  package : Option String := none
  dependencies : List String := []
  imports : List String := []
  deriving DecidableEq, Inhabited

structure NamespaceFile where
  metadata : Metadata
  packages : List Package := []
  deriving DecidableEq, Inhabited

end Replica
