import Replica.Namespace.Basic
import Replica.Ty.Text

/-!
The methods an interface asks for, with its embedded interfaces resolved.

Embeddings of generic interfaces may grow for ever, so the collection takes a limit on its steps
and has no answer when the limit is reached; with more steps an answer stays the same.
-/

namespace Replica

/-- The interface a constraint or an embedded element stands for. A named type stands for one when
its declaration is one; declarations are not followed further. -/
def interfaceOf? (ns : Namespace) : Ty → Option (Interface Ty)
  | .interface shape => some shape
  | .named base args =>
    match ns.declaration? base with
    | none => none
    | some decl =>
      match decl.instantiate args with
      | .interface shape => some shape
      | _ => none
  | _ => none

inductive Demand where
  | embedded (type : Ty)
  | method (method : Method Ty)

def Interface.demands (shape : Interface Ty) : List Demand :=
  shape.embedded.map .embedded ++ shape.methods.map .method

def instantiation? : Ty → Option String
  | .named base args => some (Ty.named base args).text
  | _ => none

/-- All methods demanded, in order and with repetitions. An instantiation in `expanded` has been
resolved before and is skipped. -/
def demandedMethods (ns : Namespace) :
    (limit : Nat) → (expanded : List String) → List Demand → Option (List (Method Ty))
  | _, _, [] => some []
  | 0, _, _ :: _ => none
  | limit + 1, expanded, .method method :: rest =>
    (demandedMethods ns limit expanded rest).map (method :: ·)
  | limit + 1, expanded, .embedded type :: rest =>
    let key := (instantiation? type).toList
    if key.any (· ∈ expanded) then demandedMethods ns limit expanded rest
    else
      let inner := match interfaceOf? ns type with
        | some shape => shape.demands
        | none => []
      demandedMethods ns limit (key ++ expanded) (inner ++ rest)

def firstOfEachName : List (Method Ty) → List (Method Ty)
  | [] => []
  | method :: rest => method :: (firstOfEachName rest).filter (·.name != method.name)

def methodSet (limit : Nat) (ns : Namespace) (shape : Interface Ty) : Option (List (Method Ty)) :=
  (demandedMethods ns limit [] shape.demands).map firstOfEachName

end Replica
