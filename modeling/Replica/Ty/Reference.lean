import Replica.Ty.Basic

/-!
The declarations a type names.
-/

namespace Replica.Ty

mutual

/-- Every declaration named anywhere in a type, the ones in type arguments before the one they are
given to. -/
def refs : Ty → List QualName
  | .basic _ => []
  | .param _ => []
  | .named base args => refsAll args ++ [base]
  | .pointer elem => elem.refs
  | .slice elem => elem.refs
  | .map key val => key.refs ++ val.refs
  | .array _ elem => elem.refs
  | .chan _ elem => elem.refs
  | .struct fields => refsFields fields
  | .interface shape => refsInterface shape
  | .func signature => refsSignature signature

def refsAll : List Ty → List QualName
  | [] => []
  | t :: ts => t.refs ++ refsAll ts

def refsFields : List (Field Ty) → List QualName
  | [] => []
  | ⟨_, type⟩ :: fields => type.refs ++ refsFields fields

def refsSignature : Signature Ty → List QualName
  | ⟨params, results, _⟩ => refsFields params ++ refsFields results

def refsMethods : List (Method Ty) → List QualName
  | [] => []
  | ⟨_, signature⟩ :: methods => refsSignature signature ++ refsMethods methods

def refsInterface : Interface Ty → List QualName
  | ⟨embedded, methods⟩ => refsAll embedded ++ refsMethods methods

end

end Replica.Ty
