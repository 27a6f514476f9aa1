import Replica.Expr.Basic

/-!
The import block: which packages are imported, in which order and under which names.
-/

namespace Replica

/-- What an import block asks about a package: the name it is imported under when it needs no alias,
and the group it belongs to. -/
structure PackageSource where
  packageName : String → String
  classify : String → ImportGroup

def Namespace.packageSource (ns : Namespace) : PackageSource where
  packageName := ns.packageName
  classify := ns.classify

instance : Coe Namespace PackageSource := ⟨Namespace.packageSource⟩

/-- Paths in increasing byte order, each once. -/
def insertPath (path : String) : List String → List String
  | [] => [path]
  | first :: rest =>
    if path < first then path :: first :: rest
    else if path = first then first :: rest
    else first :: insertPath path rest

def suffixed (name : String) (k : Nat) : String :=
  if k = 0 then name else name ++ toString k

/-- The least suffix with which `name` is free. One of the first `taken.length + 1` is. -/
def freeSuffix (taken : List String) (name : String) : Nat :=
  ((List.range (taken.length + 1)).find? (suffixed name · ∉ taken)).getD 0

def assignAliases (source : PackageSource) (taken : List String) : List String → List Import
  | [] => []
  | path :: rest =>
    let suffix := freeSuffix taken (source.packageName path)
    let localName := suffixed (source.packageName path) suffix
    ⟨path, localName, suffix != 0, source.classify path⟩
      :: assignAliases source (taken ++ [localName]) rest

def importBlock (source : PackageSource) (paths : List String) : List Import :=
  assignAliases source []
    (paths.filter (source.classify · = .firstParty)
      ++ paths.filter (source.classify · = .dependency))

end Replica
