import Replica.Files.Basic
import Replica.Namespace.Basic
import Replica.Unseen

/-!
Loading namespace files with their imports. Each place is loaded once, so imports may form cycles;
a file comes after the files it imports, apart from those that are still being loaded. How a text
is read as a file is left to a parser.
-/

namespace Replica

inductive LoadError where
  | cannotOpen (path : String) (e : FileError)
  | unreadable (e : FileError)
  | malformed (path : String)
  | malformedText
  | importNotFound (name base : String)
  | importsWithoutPlace
  | invalid (e : NamespaceError)
  deriving DecidableEq, Repr

def LoadError.message : LoadError → String
  | .cannotOpen path e => "cannot open '" ++ path ++ "': " ++ e.message
  | .unreadable e => e.message
  | .malformed path => "failed to parse '" ++ path ++ "'"
  | .malformedText => "failed to parse the text"
  | .importNotFound name base =>
    "Import '" ++ name ++ "' not found relative to '" ++ base ++ "' or in include directories"
  | .importsWithoutPlace => "namespace imports need a file location; use load_namespace"
  | .invalid e => e.message

/-- `loaded` are the places whose loading has begun, `files` the contents in the order in which
loading ended, and `root` the index of the first file that was requested and not imported. -/
structure Loader where
  loaded : List String := []
  files : List NamespaceFile := []
  root : Option Nat := none

inductive FileRequest where
  | direct (path : String)
  | imported (name base : String)
  deriving DecidableEq, Repr

def FileRequest.isDirect : FileRequest → Bool
  | .direct _ => true
  | .imported _ _ => false

inductive LoadTask where
  | load (request : FileRequest)
  | keep (file : NamespaceFile) (requested : Bool)

def importCandidates (includes : List String) (name base : String) : List String :=
  Path.beside base name :: includes.map (Path.within · name)

def resolveImport? (fs : FileSystem) (includes : List String) (name base : String) :
    Option String :=
  (importCandidates includes name base).findSome? fs.find?

def FileRequest.path (fs : FileSystem) (includes : List String) :
    FileRequest → Except LoadError String
  | .direct path => .ok path
  | .imported name base =>
    match resolveImport? fs includes name base with
    | some place => .ok place
    | none => .error (.importNotFound name base)

/-- How a text is read as a namespace file, if it is one. -/
abbrev Parser := String → Option NamespaceFile

namespace Loader

def keep (l : Loader) (file : NamespaceFile) (requested : Bool) : Loader :=
  { l with
    files := l.files ++ [file]
    root := if requested && l.root.isNone then some l.files.length else l.root }

def readFile (parse : Parser) (fs : FileSystem) (path : String) :
    Except LoadError NamespaceFile :=
  match fs.contents path with
  | .error e => .error (.unreadable e)
  | .ok text =>
    match parse text with
    | none => .error (.malformed path)
    | some file => .ok file

def fileTasks (file : NamespaceFile) (path : String) (requested : Bool) : List LoadTask :=
  file.metadata.imports.map (fun name => .load (.imported name path)) ++ [.keep file requested]

/-- Works through tasks. A place counts as loaded from the moment it was found, whatever comes of
it. -/
def run (parse : Parser) (fs : FileSystem) (includes : List String) (l : Loader) :
    List LoadTask → Loader × Except LoadError Unit
  | [] => (l, .ok ())
  | .keep file requested :: rest => run parse fs includes (l.keep file requested) rest
  | .load request :: rest =>
    match request.path fs includes with
    | .error e => (l, .error e)
    | .ok path =>
      match _ : fs.locate path with
      | .error e => (l, .error (.cannotOpen path e))
      | .ok place =>
        if _ : place ∈ l.loaded then run parse fs includes l rest
        else
          match readFile parse fs path with
          | .error e => ({ l with loaded := place :: l.loaded }, .error e)
          | .ok file =>
            run parse fs includes { l with loaded := place :: l.loaded }
              (fileTasks file path request.isDirect ++ rest)
termination_by tasks => (unseen fs.places l.loaded, tasks.length)
decreasing_by
  · exact Prod.Lex.right _ (by simp)
  · exact Prod.Lex.right _ (by simp)
  · exact Prod.Lex.left _ _ (unseen_extend_lt (fs.locate_mem _ _ ‹_›) ‹_›)

def load (parse : Parser) (fs : FileSystem) (includes : List String) (l : Loader)
    (path : String) : Loader × Except LoadError Unit :=
  l.run parse fs includes [.load (.direct path)]

def rootFirst (l : Loader) : List NamespaceFile :=
  match l.root with
  | none => l.files
  | some index => l.files[index]?.toList ++ l.files.eraseIdx index

def toNamespace (l : Loader) : Except NamespaceError Namespace :=
  Namespace.ofFiles l.rootFirst

def loadAll (parse : Parser) (fs : FileSystem) (includes : List String) (l : Loader) :
    List String → Except LoadError Loader
  | [] => .ok l
  | path :: paths =>
    match l.load parse fs includes path with
    | (l, .ok ()) => l.loadAll parse fs includes paths
    | (_, .error e) => .error e

end Loader

def loadNamespace (parse : Parser) (fs : FileSystem) (files includes : List String) :
    Except LoadError Namespace := do
  let loader ← Loader.loadAll parse fs includes {} files
  loader.toNamespace.mapError .invalid

def namespaceOfText (parse : Parser) (text : String) : Except LoadError Namespace :=
  match parse text with
  | none => .error .malformedText
  | some file =>
    if file.metadata.imports.isEmpty then (Namespace.ofFiles [file]).mapError .invalid
    else .error .importsWithoutPlace

end Replica
