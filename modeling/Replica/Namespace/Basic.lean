import Replica.Namespace.File

/-!
The types a run can see: every package of the loaded files, in load order, and what is needed to
tell the module's own packages from those of its dependencies.
-/

namespace Replica

inductive ImportGroup where
  | firstParty
  | dependency
  deriving DecidableEq, Repr

structure Namespace where
  module : String
  outputPackage : Option String := none
  dependencies : List String := []
  packages : List Package := []
  deriving DecidableEq, Inhabited

inductive NamespaceError where
  | noFiles
  | duplicatePackage (path : String)
  deriving DecidableEq, Repr

def NamespaceError.message : NamespaceError → String
  | .noFiles => "No namespace files loaded"
  | .duplicatePackage path => "package '" ++ path ++ "' is defined more than once"

/-- Why a requested name is no root. Each keeps the name as it was requested. -/
inductive LookupError where
  | unqualified (requested : String)
  | unknownNamespace (path requested : String)
  | unknownType (requested : String)
  | internal (requested : String)
  | unexported (requested : String)
  | notComposite (requested kind : String)
  deriving DecidableEq, Repr

def LookupError.message : LookupError → String
  | .unqualified requested => "module-less type: " ++ requested
  | .unknownNamespace path requested => "unknown namespace '" ++ path ++ "' in " ++ requested
  | .unknownType requested => "no type found: " ++ requested
  | .internal requested => "cannot process internal type: " ++ requested
  | .unexported requested => "cannot reference unexported type: " ++ requested
  | .notComposite requested kind => "not a struct type: " ++ requested ++ " is a " ++ kind

namespace Namespace

def package? (ns : Namespace) (path : String) : Option Package :=
  ns.packages.find? (·.path == path)

def declaration? (ns : Namespace) (q : QualName) : Option TypeDecl :=
  (ns.package? q.package).bind (·.lookup q.name)

def packageName (ns : Namespace) (path : String) : String :=
  match ns.package? path with
  | some package => package.packageName
  | none => defaultPackageName path

def isDependency (ns : Namespace) (path : String) : Bool :=
  ns.dependencies.any fun dependency =>
    path == dependency || (dependency.toList ++ ['/']).isPrefixOf path.toList

def classify (ns : Namespace) (path : String) : ImportGroup :=
  if ns.isDependency path then .dependency else .firstParty

def addDependency (ns : Namespace) (path : String) : Namespace :=
  if path ∈ ns.dependencies then ns
  else { ns with dependencies := ns.dependencies ++ [path] }

def addPackage (ns : Namespace) (package : Package) : Except NamespaceError Namespace :=
  if (ns.package? package.path).isSome then .error (.duplicatePackage package.path)
  else .ok { ns with packages := ns.packages ++ [package] }

def addFile (ns : Namespace) (file : NamespaceFile) : Except NamespaceError Namespace :=
  file.packages.foldlM addPackage (file.metadata.dependencies.foldl addDependency ns)

def ofFiles : List NamespaceFile → Except NamespaceError Namespace
  | [] => .error .noFiles
  | root :: others =>
    (root :: others).foldlM addFile
      { module := root.metadata.module, outputPackage := root.metadata.package }

/-- The package path and the type name of a requested name, without its type arguments. -/
def splitRoot? (requested : String) : Option QualName :=
  match Text.splitAtLast? '.' (requested.toList.takeWhile (· != '[')) with
  | none => none
  | some (path, name) =>
    if path.isEmpty || name.isEmpty || name.contains '/' then none
    else some ⟨String.ofList path, String.ofList name⟩

/-- Resolves `package/path.Name` to a declared struct. A trailing list of type arguments is
ignored: a generic root stands for all its instances. -/
def lookup (ns : Namespace) (requested : String) : Except LookupError QualName :=
  match splitRoot? requested with
  | none => .error (.unqualified requested)
  | some root =>
    if isInternal root.package then .error (.internal requested)
    else if !isExported root.name then .error (.unexported requested)
    else match ns.package? root.package with
      | none => .error (.unknownNamespace root.package requested)
      | some package =>
        match package.lookup root.name with
        | none => .error (.unknownType requested)
        | some decl =>
          match decl.underlying with
          | .struct _ => .ok root
          | other => .error (.notComposite requested other.kindName)

end Namespace

end Replica
