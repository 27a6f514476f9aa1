import Replica.Command.Arguments

/-!
What words a command line is read from. Options with their values and types are read one after the
other, whatever follows them, and a word that looks like an option is never a value.
-/

namespace Replica

theorem optionWord?_eq_none {word : String} (plain : word.toList.head? ≠ some '-') :
    optionWord? word = none := by
  unfold optionWord?
  split <;> simp_all

section

variable {specs : List OptionSpec} {option name word : String} {words words' : List String}
  {arguments arguments' : List Argument}

theorem readWords_operand (waiting : Option String) (operand : optionWord? word = none) :
    readWords specs waiting (word :: words) =
      (readWords specs none words).map
        ((waiting.elim (.type word) (.value · word)) :: ·) := by
  have apart : word ≠ "--" := by
    rintro rfl
    simp [optionWord?] at operand
  cases waiting <;> cases read : readWords specs none words <;>
    simp [readWords, apart, operand, read]

/-- A word that looks like an option is no value. -/
theorem readWords_refuses (looks : optionWord? word ≠ none) :
    readWords specs (some name) (word :: words) = none := by
  rw [readWords]
  cases option : optionWord? word with
  | none => exact absurd option looks
  | some => simp

def Opens (specs : List OptionSpec) (option name : String) : Prop :=
  option ≠ "--" ∧ ∃ word, optionWord? option = some word ∧
    readOption specs word = some { arguments := [], waiting := some name }

theorem readWords_opens (opens : Opens specs option name) :
    readWords specs none (option :: words) = readWords specs (some name) words := by
  obtain ⟨apart, word, looks, read⟩ := opens
  rw [readWords, if_neg apart, looks]
  simp [read]

/-- The words say just `arguments`, whatever comes after them. -/
def Conveys (specs : List OptionSpec) (words : List String) (arguments : List Argument) : Prop :=
  ∀ rest, readWords specs none (words ++ rest) = (readWords specs none rest).map (arguments ++ ·)

theorem Conveys.readWords_eq (conveys : Conveys specs words arguments) :
    readWords specs none words = some arguments := by
  simpa [readWords] using conveys []

theorem Conveys.nil : Conveys specs [] [] := by
  simp [Conveys]

theorem Conveys.append (conveys : Conveys specs words arguments)
    (conveys' : Conveys specs words' arguments') :
    Conveys specs (words ++ words') (arguments ++ arguments') := by
  intro rest
  rw [List.append_assoc, conveys, conveys', Option.map_map]
  simp [Function.comp_def]

theorem conveys_value (opens : Opens specs option name) (operand : optionWord? word = none) :
    Conveys specs [option, word] [.value name word] := by
  intro rest
  rw [List.cons_append, List.singleton_append, readWords_opens opens, readWords_operand _ operand]
  rfl

theorem conveys_type (operand : optionWord? word = none) : Conveys specs [word] [.type word] := by
  intro rest
  rw [List.singleton_append, readWords_operand _ operand]
  rfl

theorem conveys_repeated {values : List String} (opens : Opens specs option name)
    (operands : ∀ value ∈ values, optionWord? value = none) :
    Conveys specs (repeated option values) (values.map (.value name)) := by
  induction values with
  | nil => exact .nil
  | cons value values ih =>
      rw [List.forall_mem_cons] at operands
      exact (conveys_value opens operands.1).append (ih operands.2)

theorem conveys_types {types : List String} (operands : ∀ type ∈ types, optionWord? type = none) :
    Conveys specs types (types.map .type) := by
  induction types with
  | nil => exact .nil
  | cons type types ih =>
      rw [List.forall_mem_cons] at operands
      exact (conveys_type operands.1).append (ih operands.2)

end

section

variable (values types : List String) (arguments arguments' : List Argument) (name other : String)

@[simp] theorem valuesOf_append :
    valuesOf (arguments ++ arguments') name = valuesOf arguments name ++ valuesOf arguments' name :=
  List.filterMap_append

@[simp] theorem typesOf_append :
    typesOf (arguments ++ arguments') = typesOf arguments ++ typesOf arguments' :=
  List.filterMap_append

@[simp] theorem flagsOf_append :
    flagsOf (arguments ++ arguments') = flagsOf arguments ++ flagsOf arguments' :=
  List.filterMap_append

@[simp] theorem valuesOf_map_value :
    valuesOf (values.map (.value name)) other = if name = other then values else [] := by
  rw [valuesOf, List.filterMap_map]
  change values.filterMap (fun value => if name = other then some value else none) = _
  by_cases same : name = other
  · simp only [if_pos same]
    exact List.filterMap_some
  · simp [if_neg same]

@[simp] theorem valuesOf_map_type : valuesOf (types.map .type) name = [] := by
  simp [valuesOf, List.filterMap_map]

@[simp] theorem typesOf_map_value : typesOf (values.map (.value name)) = [] := by
  simp [typesOf, List.filterMap_map]

@[simp] theorem typesOf_map_type : typesOf (types.map .type) = types := by
  rw [typesOf, List.filterMap_map]
  exact List.filterMap_some

@[simp] theorem flagsOf_map_value : flagsOf (values.map (.value name)) = [] := by
  simp [flagsOf, List.filterMap_map]

@[simp] theorem flagsOf_map_type : flagsOf (types.map .type) = [] := by
  simp [flagsOf, List.filterMap_map]

end

/-- What a command line has to say at least. -/
structure GenerateOptions.Complete (o : GenerateOptions) : Prop where
  files : o.files ≠ []
  types : o.types ≠ []
  paths : "" ∉ o.files ∧ "" ∉ o.includes ∧ o.output ≠ ""

theorem paths?_eq_some {arguments : List Argument} {name : String} {paths : List String}
    (read : paths? arguments name = some paths) :
    valuesOf arguments name = paths ∧ "" ∉ paths := by
  simp only [paths?] at read
  split at read
  · cases read
  · rename_i full
    cases read
    exact ⟨rfl, by simpa using full⟩

theorem generateOptions?_complete {arguments : List Argument} {o : GenerateOptions}
    (asked : generateOptions? arguments = some o) : o.Complete := by
  simp only [generateOptions?, Option.bind_eq_bind, Option.bind_eq_some_iff] at asked
  obtain ⟨files, readFiles, includes, readIncludes, output?, _, output, kept, package, _, asked⟩ :=
    asked
  obtain ⟨given, files_some⟩ := paths?_eq_some readFiles
  obtain ⟨_, includes_some⟩ := paths?_eq_some readIncludes
  split at asked
  · cases asked
  · rename_i complete
    cases asked
    obtain ⟨⟨files_given, types_given⟩, _⟩ : (files ≠ [] ∧ typesOf arguments ≠ []) ∧
        (flagsOf arguments).Nodup := by
      simpa [isComplete, given] using complete
    have output_some : output ≠ "" := by
      simpa using (Option.filter_eq_some_iff.mp kept).2
    exact ⟨files_given, types_given, files_some, includes_some, output_some⟩

theorem Command.complete {words : List String} {o : GenerateOptions}
    (asked : Command.ofWords? words = some (.generate o)) : o.Complete := by
  unfold Command.ofWords? at asked
  split at asked
  · simp only [Option.bind_eq_bind, Option.bind_eq_some_iff] at asked
    obtain ⟨arguments, _, options, read, asked⟩ := asked
    cases asked
    exact generateOptions?_complete read
  · simp only [Option.bind_eq_bind, Option.bind_eq_some_iff] at asked
    obtain ⟨_, _, _, _, asked⟩ := asked
    cases asked
  · cases asked

end Replica
