import Replica.Expr.Writing
import Replica.Loader
import Replica.SourceFile
import Replica.Synthesis
import Replica.Yaml.Printing

/-!
The two commands: writing the replicas of the requested types to a Go file, and printing the tree
of their declarations. What a command has to write or print is its result.
-/

namespace Replica

inductive CommandError where
  | load (e : LoadError)
  | noPackage
  | generate (e : SynthesisError)
  | analyze (e : SynthesisError)
  | write (path : String) (e : FileError)
  deriving DecidableEq, Repr

def CommandError.messages : CommandError → List String
  | .load e => [e.message]
  | .noPackage => ["no package name: pass -p or set namespace.package"]
  | .generate e => ["failed to synthesize mirrors", e.message]
  | .analyze e => [e.message]
  | .write path e => ["failed to write " ++ path, e.message]

def indentCause (cause : String) : String :=
  String.ofList
    (('\n' :: cause.toList).flatMap fun c => if c = '\n' then "\n    ".toList else [c])

def CommandError.report (e : CommandError) : String :=
  match e.messages with
  | [] => "Error"
  | [only] => "Error: " ++ only
  | outer :: causes =>
    "Error: " ++ outer ++ "\n\nCaused by:" ++ String.join (causes.map indentCause)

/-- `package` overrides the package that the namespace names. -/
structure GenerateOptions where
  files : List String := []
  includes : List String := []
  output : String := ""
  package : Option String := none
  excludeComment : Bool := false
  types : List String := []
  deriving DecidableEq, Repr, Inhabited

inductive TreeFormat where
  | json
  | yaml
  deriving DecidableEq, Repr

structure AnalyzeOptions where
  files : List String := []
  includes : List String := []
  format : TreeFormat := .json
  types : List String := []
  deriving DecidableEq, Repr

inductive Command where
  | generate (options : GenerateOptions)
  | analyze (options : AnalyzeOptions)
  deriving DecidableEq, Repr

inductive Effect where
  | write (path text : String)
  | print (line : String)
  deriving DecidableEq, Repr

def repeated (option : String) (values : List String) : List String :=
  values.flatMap fun value => [option, value]

/-- The arguments that generate the same file again from the directory that holds it. -/
def GenerateOptions.arguments (o : GenerateOptions) : List String :=
  repeated "-f" o.files ++ repeated "-i" o.includes
    ++ ["-o", (Path.fileName? o.output).getD o.output] ++ repeated "-p" o.package.toList ++ o.types

def GenerateOptions.line (o : GenerateOptions) : String :=
  " ".intercalate ("mirror-gen" :: "generate" :: o.arguments)

def GenerateOptions.run (parse : Parser) (limit : Nat) (fs : FileSystem) (o : GenerateOptions) :
    Except CommandError Effect := do
  let ns ← (loadNamespace parse fs o.files o.includes).mapError .load
  match o.package.or ns.outputPackage with
  | none => .error .noPackage
  | some package =>
    let tree ← (synthesize limit ns o.types).mapError .generate
    let generateLine := if o.excludeComment then none else some o.line
    return .write o.output (tree.sourceText { package, generateLine })

def Tree.formatted (tree : Tree) : TreeFormat → String
  | .json => Json.pretty 0 (Json.ofTree tree)
  | .yaml => Yaml.text (Json.ofTree tree)

def AnalyzeOptions.run (parse : Parser) (limit : Nat) (fs : FileSystem) (o : AnalyzeOptions) :
    Except CommandError Effect := do
  let ns ← (loadNamespace parse fs o.files o.includes).mapError .load
  let tree ← (synthesize limit ns o.types).mapError .analyze
  return .print (tree.formatted o.format)

def Command.run (parse : Parser) (limit : Nat) (fs : FileSystem) :
    Command → Except CommandError Effect
  | .generate options => options.run parse limit fs
  | .analyze options => options.run parse limit fs

end Replica
