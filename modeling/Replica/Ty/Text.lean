import Replica.Ty.Basic

/-!
Go text of a type, on one line and with package paths written out. It appears in messages and
tells instantiations apart.
-/

namespace Replica.Ty

def resultText (names texts : List String) : String :=
  if names = [] then ""
  else if names = [""] then " " ++ ", ".intercalate texts
  else " (" ++ ", ".intercalate texts ++ ")"

mutual

def text : Ty → String
  | .basic name => name
  | .param name => name
  | .named base args => base.qualified ++ argsText args
  | .pointer elem => "*" ++ elem.text
  | .slice elem => "[]" ++ elem.text
  | .map key val => "map[" ++ key.text ++ "]" ++ val.text
  | .array len elem => "[" ++ toString len.toNat ++ "]" ++ elem.text
  | .chan .both elem => "chan " ++ elem.text
  | .chan .send elem => "chan<- " ++ elem.text
  | .chan .recv elem => "<-chan " ++ elem.text
  | .struct fields => "struct\x7b" ++ "; ".intercalate (fieldTexts fields) ++ "\x7d"
  | .interface shape => interfaceText shape
  | .func signature => "func" ++ signatureText signature

def argsText : List Ty → String
  | [] => ""
  | t :: ts => "[" ++ ", ".intercalate (t.text :: texts ts) ++ "]"

def texts : List Ty → List String
  | [] => []
  | t :: ts => t.text :: texts ts

def fieldTexts : List (Field Ty) → List String
  | [] => []
  | ⟨name, type⟩ :: fields => (name ++ " " ++ type.text) :: fieldTexts fields

def paramTexts (variadic : Bool) : List (Field Ty) → List String
  | [] => []
  | ⟨name, type⟩ :: params =>
    let typeText := match type with
      | .slice elem => if variadic && params.isEmpty then "..." ++ elem.text else "[]" ++ elem.text
      | other => other.text
    (if name = "" then typeText else name ++ " " ++ typeText) :: paramTexts variadic params

def signatureText : Signature Ty → String
  | ⟨params, results, variadic⟩ =>
    "(" ++ ", ".intercalate (paramTexts variadic params) ++ ")"
      ++ resultText (results.map (·.name)) (paramTexts false results)

def methodTexts : List (Method Ty) → List String
  | [] => []
  | ⟨name, signature⟩ :: methods => (name ++ signatureText signature) :: methodTexts methods

def interfaceText : Interface Ty → String
  | ⟨embedded, methods⟩ =>
    "interface\x7b" ++ "; ".intercalate (texts embedded ++ methodTexts methods) ++ "\x7d"

end

end Replica.Ty
