import Replica.Command.Arguments
import Replica.Yaml.Reading

/-!
The program: reads the files a command may ask for, runs the command, and writes or prints what it
results in.
-/

namespace Replica

def stepLimit : Nat := 1000000

def FileError.ofCause : IO.Error → FileError
  | .noFileOrDirectory _ _ _ => .notFound
  | .inappropriateType _ code _ => if code = 20 then .notDirectory else .isDirectory
  | .invalidArgument _ code details =>
    if code = 36 then .nameTooLong else .other (details ++ " (os error " ++ toString code ++ ")")
  | .permissionDenied _ code details => .other (details ++ " (os error " ++ toString code ++ ")")
  | e => .other (toString e)

def attempt {α : Type} (path : String) (action : IO α) : IO (Except FileError α) := do
  match Path.check path with
  | .error e => return .error e
  | .ok () =>
    match ← action.toBaseIO with
    | .ok value => return .ok value
    | .error e => return .error (FileError.ofCause e)

structure Probe where
  path : String
  place : Except FileError String
  contents : Except FileError String

def Probe.ofPath (path : String) : IO Probe := do
  let place ← attempt path do
    let place ← IO.FS.realPath path
    let _ ← place.metadata
    return place.toString
  return { path, place, contents := ← attempt path (IO.FS.readFile path) }

/-- The paths that loading a probed file may ask for. -/
def Probe.further (includes : List String) (probe : Probe) : List String :=
  match probe.contents.toOption.bind Yaml.namespaceFile? with
  | none => []
  | some file =>
    let bases := probe.path :: probe.place.toOption.toList
    probe.place.toOption.toList ++ bases.flatMap fun base =>
      file.metadata.imports.flatMap (importCandidates includes · base)

partial def probeAll (includes : List String) (probes : List Probe) : List String → IO (List Probe)
  | [] => return probes
  | path :: paths => do
    if probes.any (·.path == path) then probeAll includes probes paths
    else
      let probe ← Probe.ofPath path
      let places := probe.place.toOption.toList
      probeAll includes (probe :: probes) (places ++ probe.further includes ++ paths)

def findProbe? (probes : List Probe) (path : String) : Option Probe :=
  probes.find? (·.path == path)

def locateIn (probes : List Probe) (path : String) : Except FileError String :=
  match findProbe? probes path with
  | some probe => probe.place
  | none => .error .notFound

theorem locateIn_mem {probes : List Probe} {path place : String}
    (located : locateIn probes path = .ok place) :
    place ∈ probes.flatMap (·.place.toOption.toList) := by
  unfold locateIn at located
  split at located
  · rename_i probe found
    refine List.mem_flatMap.mpr ⟨probe, List.mem_of_find?_eq_some found, ?_⟩
    simp [located, Except.toOption]
  · simp at located

def probedSystem (probes : List Probe) : FileSystem where
  places := probes.flatMap (·.place.toOption.toList)
  locate := locateIn probes
  contents path :=
    match findProbe? probes path with
    | some probe => probe.contents
    | none => .error .notFound
  locate_mem _ _ := locateIn_mem

def Command.sources : Command → List String × List String
  | .generate options => (options.files, options.includes)
  | .analyze options => (options.files, options.includes)

def Effect.perform : Effect → IO (Except CommandError Unit)
  | .print line => do
    IO.println line
    return .ok ()
  | .write path text => do
    return (← attempt path (IO.FS.writeFile path text)).mapError (.write path)

def Command.perform (command : Command) : IO (Except CommandError Unit) := do
  let (files, includes) := command.sources
  let probes ← probeAll includes [] files
  match command.run Yaml.namespaceFile? stepLimit (probedSystem probes) with
  | .error e => return .error e
  | .ok effect => effect.perform

end Replica

def main (words : List String) : IO UInt32 := do
  match Replica.Command.ofWords? words with
  | none =>
    IO.eprintln "usage: mirror-gen generate|analyze -f FILE [-i DIR] [OPTIONS] TYPE..."
    return 2
  | some command =>
    match ← command.perform with
    | .ok () => return 0
    | .error e =>
      IO.eprintln e.report
      return 1
