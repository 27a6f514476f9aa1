import Replica.Proofs.Command.Arguments
import Replica.Proofs.Location

/-!
The line that a generated file carries, run again where the file lies. Its words ask for the same
package and the same types, and for a file of the same name. The paths of the namespace files and
of the directories stand in it as they were given, and so they lead from there to other places
unless they are absolute or leave all that the two directories do not share.
-/

namespace Replica

def wordsOf (line : String) : List String :=
  (Text.segments (· == ' ') line.toList).map String.ofList

namespace GenerateOptions

def outputName (o : GenerateOptions) : String :=
  (Path.fileName? o.output).getD o.output

def home (o : GenerateOptions) (cwd : Location) : Location :=
  (cwd.follow o.output).dropLast

def given (o : GenerateOptions) : List String :=
  o.files ++ o.includes ++ o.output :: o.package.toList ++ o.types

def said (o : GenerateOptions) : List Argument :=
  o.files.map (.value "files") ++ o.includes.map (.value "include-dir")
    ++ [o.outputName].map (.value "output") ++ o.package.toList.map (.value "package")
    ++ o.types.map .type

/-- Two requests, each made in a directory, ask for the same: their paths lead to the same
locations. -/
structure Matches (here : Location) (o : GenerateOptions) (there : Location)
    (o' : GenerateOptions) : Prop where
  files : o.files.map here.follow = o'.files.map there.follow
  includes : o.includes.map here.follow = o'.includes.map there.follow
  output : here.follow o.output = there.follow o'.output
  package : o.package = o'.package
  excludeComment : o.excludeComment = o'.excludeComment
  types : o.types = o'.types

/-- Read as a command line in the directory of the output, the line asks for the same again. -/
def Reruns (o : GenerateOptions) (cwd : Location) : Prop :=
  ∃ again, Command.ofWords? (wordsOf o.line).tail = some (.generate again) ∧
    Matches cwd o (o.home cwd) again

/-- A word that a line can hold without quotes and that is not taken for an option. -/
def IsPlain (word : String) : Prop :=
  ' ' ∉ word.toList ∧ word.toList.head? ≠ some '-'

instance : DecidablePred IsPlain :=
  fun _ => inferInstanceAs (Decidable (_ ∧ _))

def repeatedPaths (o : GenerateOptions) : List String :=
  o.files ++ o.includes ++ if Path.fileName? o.output = none then [o.output] else []

variable {o : GenerateOptions}

theorem outputName_clear (clear : ' ' ∉ o.output.toList) : ' ' ∉ o.outputName.toList := by
  rw [outputName]
  cases named : Path.fileName? o.output with
  | none => exact clear
  | some name =>
      obtain ⟨_, _, inside, _⟩ := Path.follow_of_fileName [] named
      exact fun space => clear (inside.subset space)

theorem mem_arguments {word : String} (listed : word ∈ o.arguments) :
    word ∈ ["-f", "-i", "-o", "-p"] ∨ word = o.outputName ∨ word ∈ o.given := by
  simp only [arguments, repeated, List.mem_append, List.mem_flatMap, List.mem_cons,
    List.not_mem_nil, or_false] at listed
  simp only [given, outputName, List.mem_append, List.mem_cons, List.not_mem_nil, or_false]
  grind

theorem wordsOf_line (clear : ∀ word ∈ o.given, ' ' ∉ word.toList) :
    wordsOf o.line = "mirror-gen" :: "generate" :: o.arguments := by
  refine Text.map_segments_intercalate (List.cons_ne_nil _ _) fun word listed => ?_
  rw [List.mem_cons, List.mem_cons] at listed
  rcases listed with rfl | rfl | listed
  · decide
  · decide
  · rcases mem_arguments listed with option | rfl | listed
    · have options : ∀ word ∈ ["-f", "-i", "-o", "-p"], ' ' ∉ word.toList := by decide
      exact options word option
    · exact outputName_clear (clear o.output (by simp [given]))
    · exact clear word listed

theorem opens_options : Opens generateSpecs "-f" "files" ∧ Opens generateSpecs "-i" "include-dir" ∧
    Opens generateSpecs "-o" "output" ∧ Opens generateSpecs "-p" "package" := by
  refine ⟨⟨by decide, .short ['f'], rfl, rfl⟩, ⟨by decide, .short ['i'], rfl, rfl⟩,
    ⟨by decide, .short ['o'], rfl, rfl⟩, ⟨by decide, .short ['p'], rfl, rfl⟩⟩

theorem outputName_ne (complete : o.Complete) : o.outputName ≠ "" := by
  rw [outputName]
  cases named : Path.fileName? o.output with
  | none => exact complete.paths.2.2
  | some name => exact (Path.follow_of_fileName [] named).2.2.2.1

theorem valuesOf_said (name : String) : valuesOf o.said name =
    (if "files" = name then o.files else []) ++ (if "include-dir" = name then o.includes else [])
      ++ (if "output" = name then [o.outputName] else [])
      ++ (if "package" = name then o.package.toList else []) := by
  simp only [said, valuesOf_append, valuesOf_map_value, valuesOf_map_type, List.append_nil]

theorem typesOf_said : typesOf o.said = o.types := by
  simp only [said, typesOf_append, typesOf_map_value, typesOf_map_type, List.nil_append]

theorem flagsOf_said : flagsOf o.said = [] := by
  simp only [said, flagsOf_append, flagsOf_map_value, flagsOf_map_type, List.nil_append]

theorem generateOptions?_said (complete : o.Complete) :
    generateOptions? o.said =
      some { o with output := o.outputName, excludeComment := false } := by
  have files : paths? o.said "files" = some o.files := by
    simp [paths?, valuesOf_said, complete.paths.1]
  have includes : paths? o.said "include-dir" = some o.includes := by
    simp [paths?, valuesOf_said, complete.paths.2.1]
  have output : single? o.said "output" = some (some o.outputName) := by
    simp [single?, valuesOf_said]
  have package : single? o.said "package" = some o.package := by
    cases given : o.package <;> simp [single?, valuesOf_said, given]
  have isComplete : isComplete o.said = true := by
    simp [isComplete, valuesOf_said, typesOf_said, flagsOf_said, complete.files, complete.types]
  have named : (some o.outputName).filter (· != "") = some o.outputName := by
    simp [outputName_ne complete]
  simp [generateOptions?, files, includes, output, named, package, typesOf_said, flagsOf_said,
    isComplete]

theorem ofWords?_line (complete : o.Complete) (plain : ∀ word ∈ o.given, IsPlain word) :
    Command.ofWords? (wordsOf o.line).tail =
      if optionWord? o.outputName = none then
        some (.generate { o with output := o.outputName, excludeComment := false })
      else none := by
  have operands : ∀ word ∈ o.given, optionWord? word = none :=
    fun word listed => optionWord?_eq_none (plain word listed).2
  simp only [given, List.mem_append, List.mem_cons] at operands
  obtain ⟨file, dir, output, package⟩ := opens_options
  have before : Conveys generateSpecs (repeated "-f" o.files ++ repeated "-i" o.includes)
      (o.files.map (.value "files") ++ o.includes.map (.value "include-dir")) :=
    (conveys_repeated file fun path listed => operands path (by simp [listed])).append
      (conveys_repeated dir fun path listed => operands path (by simp [listed]))
  rw [wordsOf_line fun word listed => (plain word listed).1, List.tail_cons, Command.ofWords?]
  split_ifs with operand
  · have whole : Conveys generateSpecs o.arguments o.said :=
      ((before.append (conveys_value output operand)).append
        (conveys_repeated package fun name listed => operands name (by simp [listed]))).append
          (conveys_types fun type listed => operands type (by simp [listed]))
    simp [whole.readWords_eq, generateOptions?_said complete]
  · have unread : readWords generateSpecs none o.arguments = none := by
      rw [arguments, List.append_assoc, List.append_assoc, before, List.cons_append,
        readWords_opens output, List.cons_append, ← outputName, readWords_refuses operand]
      rfl
    simp [unread]

/-- The name of an output may look like an option although its path does not. -/
example :
    Command.ofWords? (wordsOf (line
      { files := ["app.yaml"], output := "out/-x.go", types := ["lib.Shelf"] })).tail = none := by
  decide +kernel

theorem follow_outputName {name : String} (cwd : Location)
    (named : Path.fileName? o.output = some name) :
    cwd.follow o.output = (o.home cwd).follow o.outputName := by
  obtain ⟨leads, clear, _, some, stays, upwards⟩ := Path.follow_of_fileName cwd named
  rw [outputName, named, Option.getD_some, Path.follow_fileName _ clear some stays upwards]
  exact leads

theorem matches_iff (cwd : Location) (o : GenerateOptions) :
    Matches cwd o (o.home cwd) { o with output := o.outputName } ↔
      ∀ path ∈ o.repeatedPaths, Path.SharedBy path cwd (o.home cwd) := by
  have output : cwd.follow o.output = (o.home cwd).follow o.outputName ↔
      ∀ path ∈ if Path.fileName? o.output = none then [o.output] else [],
        cwd.follow path = (o.home cwd).follow path := by
    cases named : Path.fileName? o.output with
    | none => simp [outputName, named]
    | some name => simp [follow_outputName cwd named]
  simp only [← Path.follow_eq_follow_iff, repeatedPaths, List.forall_mem_append]
  rw [← output, ← List.map_inj_left, ← List.map_inj_left]
  constructor
  · intro same
    exact ⟨⟨same.files, same.includes⟩, same.output⟩
  · rintro ⟨⟨files, includes⟩, output⟩
    exact ⟨files, includes, output, rfl, rfl, rfl⟩

theorem write_outputName {cwd : Location} {tree after : FileTree} {text : String}
    (written : tree.write cwd o.output text = .ok after) :
    tree.write (o.home cwd) o.outputName text = .ok after := by
  obtain ⟨name, named, again⟩ := FileTree.write_fileName written
  rw [outputName, named]
  exact again

end GenerateOptions

/-- Without spaces and without words that look like options, the line asks for the same package,
the same types and the same words for the paths, provided that the name of the output does not look
like an option. It runs again exactly if moreover each path that it repeats is absolute or leaves
all that the two directories do not share. In any file system the output is the same file, and once
the line runs again, so is what is found under each path. -/
theorem generateLine_reruns {cwd : Location} {words : List String} {o : GenerateOptions}
    (asked : Command.ofWords? words = some (.generate o)) (commented : o.excludeComment = false)
    (plain : ∀ word ∈ o.given, GenerateOptions.IsPlain word) :
    (Command.ofWords? (wordsOf o.line).tail =
      if optionWord? o.outputName = none then some (.generate { o with output := o.outputName })
      else none) ∧
    (o.Reruns cwd ↔ optionWord? o.outputName = none ∧
      ∀ path ∈ o.repeatedPaths, Path.SharedBy path cwd (o.home cwd)) ∧
    ∀ tree : FileTree,
      (∀ text after, tree.write cwd o.output text = .ok after →
        tree.write (o.home cwd) o.outputName text = .ok after) ∧
      (o.Reruns cwd → ∀ path ∈ o.files ++ o.includes, ∀ here there,
        tree.resolve cwd path = .ok here → tree.resolve (o.home cwd) path = .ok there →
          here = there) := by
  have read := GenerateOptions.ofWords?_line (Command.complete asked) plain
  rw [← commented] at read
  have reruns : o.Reruns cwd ↔ optionWord? o.outputName = none ∧
      ∀ path ∈ o.repeatedPaths, Path.SharedBy path cwd (o.home cwd) := by
    rw [GenerateOptions.Reruns, read]
    by_cases operand : optionWord? o.outputName = none
    · rw [if_pos operand, ← GenerateOptions.matches_iff cwd o]
      simp [operand]
    · simp [operand]
  refine ⟨read, reruns, fun tree => ⟨fun text after => GenerateOptions.write_outputName, ?_⟩⟩
  intro again path listed here there found found'
  have shared := (reruns.mp again).2 path (List.mem_append_left _ listed)
  calc
    here = cwd.follow path := FileTree.resolve_eq_follow found
    _ = (o.home cwd).follow path := Path.follow_eq_follow_iff.mpr shared
    _ = there := (FileTree.resolve_eq_follow found').symm

def siblingWords : List String :=
  ["generate", "-f", "/work/app.namespace.yaml", "-i", "../std", "-o", "../out/mirrors.go",
    "-p", "mirrors", "lib.Shelf"]

def siblingOptions : GenerateOptions where
  files := ["/work/app.namespace.yaml"]
  includes := ["../std"]
  output := "../out/mirrors.go"
  package := some "mirrors"
  types := ["lib.Shelf"]

theorem sibling_line_reruns :
    Command.ofWords? siblingWords = some (.generate siblingOptions) ∧
      siblingOptions.excludeComment = false ∧
      (∀ word ∈ siblingOptions.given, GenerateOptions.IsPlain word) ∧
      siblingOptions.Reruns ["work", "gen"] := by
  have asked : Command.ofWords? siblingWords = some (.generate siblingOptions) := by
    decide +kernel
  have plain : ∀ word ∈ siblingOptions.given, GenerateOptions.IsPlain word := by decide
  have shared : ∀ path ∈ siblingOptions.repeatedPaths,
      Path.SharedBy path ["work", "gen"] (siblingOptions.home ["work", "gen"]) := by
    decide
  exact ⟨asked, rfl, plain,
    (generateLine_reruns asked rfl plain).2.1.mpr ⟨by decide, shared⟩⟩

def shelfWords : List String :=
  ["generate", "-f", "app.namespace.yaml", "-o", "out/mirrors.go", "-p", "mirrors", "lib.Shelf"]

def shelfOptions : GenerateOptions where
  files := ["app.namespace.yaml"]
  output := "out/mirrors.go"
  package := some "mirrors"
  types := ["lib.Shelf"]

/-- The line looks for the namespace file in the directory of the output. -/
theorem shelf_line_strays :
    Command.ofWords? shelfWords = some (.generate shelfOptions) ∧
      shelfOptions.excludeComment = false ∧
      (∀ word ∈ shelfOptions.given, GenerateOptions.IsPlain word) ∧
      ¬ shelfOptions.Reruns ["work"] := by
  have asked : Command.ofWords? shelfWords = some (.generate shelfOptions) := by
    decide +kernel
  have plain : ∀ word ∈ shelfOptions.given, GenerateOptions.IsPlain word := by decide
  refine ⟨asked, rfl, plain, ?_⟩
  rintro ⟨again, read, same⟩
  rw [GenerateOptions.ofWords?_line (Command.complete asked) plain, if_pos (by decide)] at read
  cases read
  have elsewhere := List.map_inj_left.mp same.files "app.namespace.yaml" (by decide)
  exact absurd elsewhere (by decide)

end Replica
