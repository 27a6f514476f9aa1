import Replica.Command.Basic

/-!
Reading the command line. Options and types may come in any order; after `--` everything is a
type. An option with a value takes the rest of its word, or else the next word, which must not
look like an option.
-/

namespace Replica

structure OptionSpec where
  letter : Option Char
  name : String
  takesValue : Bool

def commonOptions : List OptionSpec :=
  [⟨some 'f', "files", true⟩, ⟨some 'i', "include-dir", true⟩, ⟨some 'v', "verbose", false⟩]

def generateSpecs : List OptionSpec :=
  commonOptions ++
    [⟨some 'o', "output", true⟩, ⟨some 'p', "package", true⟩, ⟨some 'x', "exclude-comment", false⟩]

def analyzeSpecs : List OptionSpec :=
  commonOptions ++ [⟨none, "format", true⟩]

inductive Argument where
  | flag (name : String)
  | value (name value : String)
  | type (name : String)
  deriving DecidableEq, Repr

inductive OptionWord where
  | long (name : String) (value : Option String)
  | short (letters : List Char)

/-- Two hyphens, a name and perhaps `=` and a value; or one hyphen and letters. A hyphen alone is no
option. -/
def optionWord? (word : String) : Option OptionWord :=
  match word.toList with
  | '-' :: '-' :: rest =>
    let name := String.ofList (rest.takeWhile (· != '='))
    match rest.dropWhile (· != '=') with
    | [] => some (.long name none)
    | _ :: value => some (.long name (some (String.ofList value)))
  | '-' :: c :: rest => some (.short (c :: rest))
  | _ => none

structure OptionReading where
  arguments : List Argument
  waiting : Option String := none

def readLong (specs : List OptionSpec) (name : String) (value : Option String) :
    Option OptionReading := do
  let spec ← specs.find? (·.name == name)
  match value with
  | some value => if spec.takesValue then some { arguments := [.value name value] } else none
  | none =>
    if spec.takesValue then some { arguments := [], waiting := some name }
    else some { arguments := [.flag name] }

/-- A letter that takes a value ends a bundle; an `=` before the value is left out. -/
def readShort (specs : List OptionSpec) : List Char → Option OptionReading
  | [] => some { arguments := [] }
  | letter :: rest => do
    let spec ← specs.find? (·.letter == some letter)
    if spec.takesValue then
      match rest with
      | [] => some { arguments := [], waiting := some spec.name }
      | '=' :: value => some { arguments := [.value spec.name (String.ofList value)] }
      | value => some { arguments := [.value spec.name (String.ofList value)] }
    else
      let others ← readShort specs rest
      return { others with arguments := .flag spec.name :: others.arguments }

def readOption (specs : List OptionSpec) : OptionWord → Option OptionReading
  | .long name value => readLong specs name value
  | .short letters => readShort specs letters

/-- Reads the words after the name of the command. `waiting` is the option before that has no value
yet. -/
def readWords (specs : List OptionSpec) : (waiting : Option String) → List String →
    Option (List Argument)
  | none, [] => some []
  | some _, [] => none
  | waiting, word :: words =>
    if word = "--" then
      if waiting.isSome then none else some (words.map .type)
    else match optionWord? word with
      | some option =>
        if waiting.isSome then none
        else do
          let reading ← readOption specs option
          return reading.arguments ++ (← readWords specs reading.waiting words)
      | none => do
        let others ← readWords specs none words
        match waiting with
        | some name => return .value name word :: others
        | none => return .type word :: others

def valuesOf (arguments : List Argument) (name : String) : List String :=
  arguments.filterMap fun
    | .value n value => if n = name then some value else none
    | _ => none

def typesOf (arguments : List Argument) : List String :=
  arguments.filterMap fun
    | .type name => some name
    | _ => none

def flagsOf (arguments : List Argument) : List String :=
  arguments.filterMap fun
    | .flag name => some name
    | _ => none

def single? (arguments : List Argument) (name : String) : Option (Option String) :=
  match valuesOf arguments name with
  | [] => some none
  | [value] => some (some value)
  | _ => none

def paths? (arguments : List Argument) (name : String) : Option (List String) :=
  let values := valuesOf arguments name
  if values.contains "" then none else some values

def isComplete (arguments : List Argument) : Bool :=
  !(valuesOf arguments "files").isEmpty && !(typesOf arguments).isEmpty
    && decide (flagsOf arguments).Nodup

def generateOptions? (arguments : List Argument) : Option GenerateOptions := do
  let files ← paths? arguments "files"
  let includes ← paths? arguments "include-dir"
  let output ← (← single? arguments "output").filter (· != "")
  let package ← single? arguments "package"
  if !isComplete arguments then none
  else
    let excludeComment := (flagsOf arguments).contains "exclude-comment"
    return { files, includes, output, package, excludeComment, types := typesOf arguments }

def treeFormat? : Option String → Option TreeFormat
  | none => some .json
  | some "json" => some .json
  | some "yaml" => some .yaml
  | some _ => none

def analyzeOptions? (arguments : List Argument) : Option AnalyzeOptions := do
  let files ← paths? arguments "files"
  let includes ← paths? arguments "include-dir"
  let format ← treeFormat? (← single? arguments "format")
  if !isComplete arguments then none
  else return { files, includes, format, types := typesOf arguments }

def Command.ofWords? : List String → Option Command
  | "generate" :: words => do
    return .generate (← generateOptions? (← readWords generateSpecs none words))
  | "analyze" :: words => do
    return .analyze (← analyzeOptions? (← readWords analyzeSpecs none words))
  | _ => none

end Replica
