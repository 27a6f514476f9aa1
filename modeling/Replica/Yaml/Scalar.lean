import Replica.Doc.Basic
import Replica.Yaml.Character

/-!
YAML scalars and what they say.
-/

namespace Replica.Yaml

structure Scalar where
  text : String
  plain : Bool
  tag : Option String := none
  deriving DecidableEq, Repr, Inhabited

def Scalar.empty : Scalar := ⟨"", true, none⟩

def isSign (c : Char) : Bool :=
  c == '+' || c == '-'

def hasIdleZero : List Char → Bool
  | '0' :: rest => !rest.isEmpty && rest.all Char.isDigit
  | _ => false

def natural? : List Char → Option Nat
  | '0' :: 'x' :: digits => number? 16 digits
  | '0' :: 'o' :: digits => number? 8 digits
  | '0' :: 'b' :: digits => number? 2 digits
  | digits => if hasIdleZero digits then none else number? 10 digits

def word? (text : List Char) : Option UInt64 :=
  let digits := match text with
    | '+' :: rest => rest
    | rest => rest
  (natural? digits).bind fun n => if n < UInt64.size then some (UInt64.ofNat n) else none

def nullWords : List String := ["~", "null", "Null", "NULL"]

def trueWords : List String := ["true", "True", "TRUE"]

def falseWords : List String := ["false", "False", "FALSE"]

def coreTag (name : String) : String :=
  "tag:yaml.org,2002:" ++ name

def isApplicationTag (tag : String) : Bool :=
  tag.startsWith "!"

def isTextTag (tag : String) : Bool :=
  !isApplicationTag tag && !(["null", "bool", "int", "float"].map coreTag).contains tag

namespace Scalar

/-- A plain scalar may say that there is no text; one that is tagged as null has to. -/
def optionalText? (s : Scalar) : Option (Option String) :=
  if !s.plain then some (some s.text)
  else match s.tag with
    | none => some (if s.text = "" || nullWords.contains s.text then none else some s.text)
    | some tag =>
      if tag != coreTag "null" then some (some s.text)
      else if nullWords.contains s.text then some none
      else none

def flag? (s : Scalar) : Option Bool :=
  if !s.plain then none
  else if trueWords.contains s.text then some true
  else if falseWords.contains s.text then some false
  else none

end Scalar

/-- What stands at the leaves of a document: a scalar, or an object with a key that is no scalar, of
which nothing can be read. -/
inductive Leaf where
  | scalar (value : Scalar)
  | unkeyed
  deriving DecidableEq, Repr, Inhabited

def Leaf.scalar? : Leaf → Option Scalar
  | .scalar value => some value
  | .unkeyed => none

def rules : ScalarRules Leaf where
  text? leaf := leaf.scalar?.map (·.text)
  optionalText? leaf := leaf.scalar?.bind Scalar.optionalText?
  choice? leaf := leaf.scalar?.bind fun s => if s.tag.all isTextTag then some s.text else none
  flag? leaf := leaf.scalar?.bind Scalar.flag?
  word? leaf := leaf.scalar?.bind fun s => if s.plain then word? s.text.toList else none
  isBlank leaf := leaf.scalar?.any fun s => s.plain && s.text == ""
  isUnit _ := false
  positional := false

end Replica.Yaml
