import Replica.Yaml.Token
import Replica.Namespace.Reading

/-!
Reading YAML texts of one document, without anchors, aliases and block scalars. This is the reader
that the program is run with; loading takes any other as well.
-/

namespace Replica.Yaml

abbrev Node := Doc Leaf

def emptyNode : Node := .scalar (.scalar .empty)

abbrev Entry := Node × Node

def keyText? : Node → Option String
  | .scalar (.scalar s) => some s.text
  | _ => none

def objectOf (entries : List Entry) : Node :=
  match entries.mapM fun (key, value) => (keyText? key).map (·, value) with
  | some entries => .object entries
  | none => .scalar .unkeyed

/-- Puts a tag on a node. Lists may have any tag. The tag of an object is one more entry if only an
application defines it: then the object is no value with a tag, and fields are read as ever. -/
def tagNode (tag : String) : Node → Node
  | .scalar (.scalar s) => .scalar (.scalar { s with tag := if tag = "!" then none else some tag })
  | .object entries =>
    .object (if isApplicationTag tag then (tag, emptyNode) :: entries else entries)
  | node => node

def beginsFlowNode : List Token → Bool
  | .scalar _ :: _ | .flowList :: _ | .flowObject :: _ => true
  | _ => false

def beginsBlockNode (flush : Bool) : List Token → Bool
  | .blockList :: _ | .blockObject :: _ => true
  | .item :: _ => flush
  | tokens => beginsFlowNode tokens

def tagAlone (tag : String) : Node :=
  .scalar (.scalar { Scalar.empty with tag := some tag })

def isOmitted : List Token → Bool
  | .item :: _ | .key :: _ | .value :: _ | .blockEnd :: _ => true
  | _ => false

def isOmittedValue : List Token → Bool
  | .key :: _ | .value :: _ | .blockEnd :: _ => true
  | _ => false

def isOmittedFlow : List Token → Bool
  | .value :: _ | .comma :: _ | .flowListEnd :: _ | .flowObjectEnd :: _ => true
  | _ => false

variable (prefixes : List (String × String))

mutual

def blockNode (flush : Bool) : (steps : Nat) → List Token → Option (Node × List Token)
  | 0, _ => none
  | steps + 1, .blockList :: rest => do
    let (items, rest) ← blockItems steps rest
    return (.list items, rest)
  | steps + 1, .blockObject :: rest => do
    let (entries, rest) ← blockEntries steps rest
    return (objectOf entries, rest)
  | steps + 1, .item :: rest =>
    if flush then do
      let (items, rest) ← flushItems steps (.item :: rest)
      return (.list items, rest)
    else none
  | steps + 1, .tag name :: rest => do
    let tag ← name.resolve? prefixes
    if beginsBlockNode flush rest then
      let (node, rest) ← blockNode flush steps rest
      return (tagNode tag node, rest)
    else return (tagAlone tag, rest)
  | steps + 1, tokens => flowNode steps tokens

def blockItems : (steps : Nat) → List Token → Option (List Node × List Token)
  | 0, _ => none
  | _ + 1, .blockEnd :: rest => some ([], rest)
  | steps + 1, .item :: rest => do
    let (first, rest) ← if (rest.head?.any (· == .item)) || (rest.head?.any (· == .blockEnd))
      then some (emptyNode, rest) else blockNode false steps rest
    let (items, rest) ← blockItems steps rest
    return (first :: items, rest)
  | _ + 1, _ => none

def flushItems : (steps : Nat) → List Token → Option (List Node × List Token)
  | 0, _ => none
  | steps + 1, .item :: rest => do
    let (first, rest) ← if isOmitted rest then some (emptyNode, rest)
      else blockNode false steps rest
    let (items, rest) ← flushItems steps rest
    return (first :: items, rest)
  | _ + 1, rest => some ([], rest)

def blockEntries : (steps : Nat) → List Token → Option (List Entry × List Token)
  | 0, _ => none
  | _ + 1, .blockEnd :: rest => some ([], rest)
  | steps + 1, .key :: rest => do
    let (key, rest) ← if isOmittedValue rest then some (emptyNode, rest)
      else blockNode true steps rest
    let (value, rest) ← blockValue steps rest
    let (entries, rest) ← blockEntries steps rest
    return ((key, value) :: entries, rest)
  | _ + 1, _ => none

def blockValue : (steps : Nat) → List Token → Option (Node × List Token)
  | 0, _ => none
  | steps + 1, .value :: rest =>
    if isOmittedValue rest then some (emptyNode, rest) else blockNode true steps rest
  | _ + 1, rest => some (emptyNode, rest)

def flowNode : (steps : Nat) → List Token → Option (Node × List Token)
  | 0, _ => none
  | _ + 1, .scalar s :: rest => some (.scalar (.scalar s), rest)
  | steps + 1, .flowList :: rest => do
    let (items, rest) ← flowItems true steps rest
    return (.list items, rest)
  | steps + 1, .flowObject :: rest => do
    let (entries, rest) ← flowEntries true steps rest
    return (objectOf entries, rest)
  | steps + 1, .tag name :: rest => do
    let tag ← name.resolve? prefixes
    if beginsFlowNode rest then
      let (node, rest) ← flowNode steps rest
      return (tagNode tag node, rest)
    else return (tagAlone tag, rest)
  | _ + 1, _ => none

def flowItems (first : Bool) : (steps : Nat) → List Token → Option (List Node × List Token)
  | 0, _ => none
  | _ + 1, .flowListEnd :: rest => some ([], rest)
  | steps + 1, .comma :: rest => if first then none else flowItemsAfterComma steps rest
  | steps + 1, rest => if first then flowItemsAfterComma steps rest else none

/-- An item with a key is an object of one entry. Where the key is left out, whatever stands in its
place is passed over. -/
def flowItemsAfterComma : (steps : Nat) → List Token → Option (List Node × List Token)
  | 0, _ => none
  | _ + 1, .flowListEnd :: rest => some ([], rest)
  | steps + 1, .key :: rest => do
    let (key, rest) ← match rest with
      | .value :: rest | .comma :: rest | .flowListEnd :: rest => some (emptyNode, rest)
      | rest => flowNode steps rest
    let (value, rest) ← flowValue steps rest
    let (items, rest) ← flowItems false steps rest
    return (objectOf [(key, value)] :: items, rest)
  | steps + 1, rest => do
    let (item, rest) ← flowNode steps rest
    let (items, rest) ← flowItems false steps rest
    return (item :: items, rest)

def flowValue : (steps : Nat) → List Token → Option (Node × List Token)
  | 0, _ => none
  | steps + 1, .value :: rest =>
    if isOmittedFlow rest then some (emptyNode, rest) else flowNode steps rest
  | _ + 1, rest => some (emptyNode, rest)

def flowEntries (first : Bool) : (steps : Nat) → List Token → Option (List Entry × List Token)
  | 0, _ => none
  | _ + 1, .flowObjectEnd :: rest => some ([], rest)
  | steps + 1, .comma :: rest => if first then none else flowEntriesAfterComma steps rest
  | steps + 1, rest => if first then flowEntriesAfterComma steps rest else none

def flowEntriesAfterComma : (steps : Nat) → List Token → Option (List Entry × List Token)
  | 0, _ => none
  | _ + 1, .flowObjectEnd :: rest => some ([], rest)
  | steps + 1, .key :: rest => do
    let (key, rest) ← if isOmittedFlow rest then some (emptyNode, rest) else flowNode steps rest
    let (value, rest) ← flowValue steps rest
    let (entries, rest) ← flowEntries false steps rest
    return ((key, value) :: entries, rest)
  | steps + 1, rest => do
    let (key, rest) ← flowNode steps rest
    let (entries, rest) ← flowEntries false steps rest
    return ((key, emptyNode) :: entries, rest)

end

def splitDirectives : List Token → List Directive × List Token
  | .directive value :: rest =>
    let (directives, rest) := splitDirectives rest
    (value :: directives, rest)
  | rest => ([], rest)

def atDocumentEnd : List Token → Bool
  | [] => true
  | .documentStart :: _ | .documentEnd :: _ | .directive _ :: _ => true
  | _ => false

/-- Reads a document. After directives there has to be a mark where it starts. -/
def firstDocument? (tokens : List Token) : Option (Node × List Token) := do
  let (directives, rest) := splitDirectives tokens
  let prefixes ← prefixes? directives
  let steps := 4 * rest.length + 4
  match rest with
  | .documentStart :: rest =>
    if atDocumentEnd rest then some (emptyNode, rest) else blockNode prefixes false steps rest
  | rest => if directives.isEmpty then blockNode prefixes false steps rest else none

def document? (text : String) : Option Node := do
  let (node, rest) ← firstDocument? (← tokens? text)
  if rest.all (· == .documentEnd) then some node else none

def levelLimit : Nat := 128

/-- The namespace file that a text describes, if it describes one. -/
def namespaceFile? (text : String) : Option NamespaceFile :=
  (document? text).bind (Reader.namespaceFile rules levelLimit)

end Replica.Yaml
