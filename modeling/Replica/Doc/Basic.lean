/-!
Documents: scalars, lists and objects, and what it takes to read records and tagged values from
them. What a scalar says depends on the format, so readers take the rules of the format.

A reader opens lists and objects inside each other only as deep as it is allowed to. Parts of a
document that it passes over do not count.
-/

namespace Replica

inductive Doc (σ : Type) where
  | scalar (value : σ)
  | list (items : List (Doc σ))
  | object (entries : List (String × Doc σ))
  deriving Inhabited

namespace Doc

variable {σ α : Type}

mutual

def depth : Doc σ → Nat
  | .scalar _ => 1
  | .list items => depthAll items + 1
  | .object entries => depthEntries entries + 1

def depthAll : List (Doc σ) → Nat
  | [] => 0
  | doc :: docs => max doc.depth (depthAll docs)

def depthEntries : List (String × Doc σ) → Nat
  | [] => 0
  | (_, doc) :: entries => max doc.depth (depthEntries entries)

end

end Doc

/-- How a format reads its scalars. `choice?` is what a scalar says where it names one of several
alternatives. `isBlank` scalars stand for an empty list or object as well; an `isUnit` scalar may
follow the name of an alternative as its value; `positional` formats read a list as the object with
the same values. -/
structure ScalarRules (σ : Type) where
  text? : σ → Option String
  optionalText? : σ → Option (Option String)
  choice? : σ → Option String
  flag? : σ → Option Bool
  word? : σ → Option UInt64
  isBlank : σ → Bool
  isUnit : σ → Bool
  positional : Bool

/-- Reads a document of which at most `levels` lists and objects inside each other are opened. -/
abbrev Reader (σ α : Type) := (levels : Nat) → Doc σ → Option α

structure Record (σ : Type) where
  levels : Nat := 0
  entries : List (String × Doc σ) := []

namespace Reader

variable {σ α : Type} (rules : ScalarRules σ)

def ofScalar (read : σ → Option α) : Reader σ α
  | _, .scalar value => read value
  | _, _ => none

def text : Reader σ String := ofScalar rules.text?

def optionalText : Reader σ (Option String) := ofScalar rules.optionalText?

def flag : Reader σ Bool := ofScalar rules.flag?

def word : Reader σ UInt64 := ofScalar rules.word?

def list (item : Reader σ α) : Reader σ (List α)
  | _, .scalar value => if rules.isBlank value then some [] else none
  | levels + 1, .list items => items.mapM (item levels)
  | _, _ => none

/-- The fields called `names`; others are passed over, and no field may be there twice. -/
def fields (names : List String) : Reader σ (Record σ)
  | _, .scalar value => if rules.isBlank value then some {} else none
  | levels + 1, .list items =>
    if rules.positional && items.length ≤ names.length then
      some { levels, entries := names.zip items }
    else none
  | levels + 1, .object entries =>
    let known := entries.filter fun (key, _) => names.contains key
    if (known.map (·.1)).Nodup then some { levels, entries := known } else none
  | _, _ => none

def tagged : Doc σ → Option (String × Doc σ)
  | .object [entry] => some entry
  | _ => none

def choice : Reader σ String := fun _ doc =>
  match doc with
  | .scalar value => rules.choice? value
  | .object [(name, .scalar value)] => if rules.isUnit value then some name else none
  | _ => none

end Reader

namespace Record

variable {σ α : Type} (record : Record σ)

def required (name : String) (read : Reader σ α) : Option α :=
  (record.entries.lookup name).bind (read record.levels)

def optional (name : String) (default : α) (read : Reader σ α) : Option α :=
  match record.entries.lookup name with
  | none => some default
  | some doc => read record.levels doc

end Record

end Replica
