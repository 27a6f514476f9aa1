import Replica.Ty.Basic

/-!
Replacing type parameters by types, all at once.
-/

namespace Replica.Ty

/-- What `args` give to the parameter `name`: the argument at the place where `params` first lists
it. -/
def argument? : List String → List Ty → String → Option Ty
  | p :: params, arg :: args, name => if p = name then some arg else argument? params args name
  | _, _, _ => none

mutual

def subst (value : String → Option Ty) : Ty → Ty
  | .basic name => .basic name
  | .param name => (value name).getD (.param name)
  | .named base args => .named base (substAll value args)
  | .pointer elem => .pointer (elem.subst value)
  | .slice elem => .slice (elem.subst value)
  | .map key val => .map (key.subst value) (val.subst value)
  | .array len elem => .array len (elem.subst value)
  | .chan direction elem => .chan direction (elem.subst value)
  | .struct fields => .struct (substFields value fields)
  | .interface shape => .interface (substInterface value shape)
  | .func signature => .func (substSignature value signature)

def substAll (value : String → Option Ty) : List Ty → List Ty
  | [] => []
  | t :: ts => t.subst value :: substAll value ts

def substFields (value : String → Option Ty) : List (Field Ty) → List (Field Ty)
  | [] => []
  | ⟨name, type⟩ :: fields => ⟨name, type.subst value⟩ :: substFields value fields

def substSignature (value : String → Option Ty) : Signature Ty → Signature Ty
  | ⟨params, results, variadic⟩ => ⟨substFields value params, substFields value results, variadic⟩

def substMethods (value : String → Option Ty) : List (Method Ty) → List (Method Ty)
  | [] => []
  | ⟨name, signature⟩ :: methods =>
    ⟨name, substSignature value signature⟩ :: substMethods value methods

def substInterface (value : String → Option Ty) : Interface Ty → Interface Ty
  | ⟨embedded, methods⟩ => ⟨substAll value embedded, substMethods value methods⟩

end

def substitute (params : List String) (args : List Ty) : Ty → Ty :=
  subst (argument? params args)

mutual

def mentionsParam : Ty → Bool
  | .basic _ => false
  | .param _ => true
  | .named _ args => mentionsParamAll args
  | .pointer elem => elem.mentionsParam
  | .slice elem => elem.mentionsParam
  | .map key val => key.mentionsParam || val.mentionsParam
  | .array _ elem => elem.mentionsParam
  | .chan _ elem => elem.mentionsParam
  | .struct fields => mentionsParamFields fields
  | .interface shape => mentionsParamInterface shape
  | .func signature => mentionsParamSignature signature

def mentionsParamAll : List Ty → Bool
  | [] => false
  | t :: ts => t.mentionsParam || mentionsParamAll ts

def mentionsParamFields : List (Field Ty) → Bool
  | [] => false
  | ⟨_, type⟩ :: fields => type.mentionsParam || mentionsParamFields fields

def mentionsParamSignature : Signature Ty → Bool
  | ⟨params, results, _⟩ => mentionsParamFields params || mentionsParamFields results

def mentionsParamMethods : List (Method Ty) → Bool
  | [] => false
  | ⟨_, signature⟩ :: methods => mentionsParamSignature signature || mentionsParamMethods methods

def mentionsParamInterface : Interface Ty → Bool
  | ⟨embedded, methods⟩ => mentionsParamAll embedded || mentionsParamMethods methods

end

end Replica.Ty
