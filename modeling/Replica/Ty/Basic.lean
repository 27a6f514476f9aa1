import Replica.Name

/-!
Source type expressions, with structural equality decided by recursion on both sides.

`Field`, `Signature`, `Method` and `Interface` are shared by the types a namespace declares and by
the expressions written for them, so they are parametrised by what stands in a type's place.
-/

namespace Replica

/-- A struct field, a parameter, a result or a type parameter. An embedded field and an unnamed
parameter have the empty name. -/
structure Field (α : Type) where
  name : String
  type : α
  deriving DecidableEq, Repr, Inhabited

/-- The last parameter of a variadic signature has a slice type. -/
structure Signature (α : Type) where
  params : List (Field α) := []
  results : List (Field α) := []
  variadic : Bool := false
  deriving DecidableEq, Repr, Inhabited

structure Method (α : Type) where
  name : String
  signature : Signature α
  deriving DecidableEq, Repr, Inhabited

structure Interface (α : Type) where
  embedded : List α := []
  methods : List (Method α) := []
  deriving DecidableEq, Repr, Inhabited

inductive Direction where
  | both
  | send
  | recv
  deriving DecidableEq, Repr

inductive Ty where
  | basic (name : String)
  | param (name : String)
  | named (base : QualName) (args : List Ty)
  | pointer (elem : Ty)
  | slice (elem : Ty)
  | map (key value : Ty)
  | array (len : UInt64) (elem : Ty)
  | chan (direction : Direction) (elem : Ty)
  | struct (fields : List (Field Ty))
  | interface (shape : Interface Ty)
  | func (signature : Signature Ty)
  deriving Inhabited

namespace Ty

def kindName : Ty → String
  | .basic _ => "basic"
  | .param _ => "type-param"
  | .named _ _ => "named"
  | .pointer _ => "pointer"
  | .slice _ => "slice"
  | .map _ _ => "map"
  | .array _ _ => "array"
  | .chan _ _ => "chan"
  | .struct _ => "struct"
  | .interface _ => "interface"
  | .func _ => "signature"

def isSlice : Ty → Bool
  | .slice _ => true
  | _ => false

def embeddedName : Ty → String
  | .named base _ => base.name
  | .pointer elem => elem.embeddedName
  | _ => ""

mutual

def beq : Ty → Ty → Bool
  | .basic a, .basic b => a == b
  | .param a, .param b => a == b
  | .named a as, .named b bs => a == b && beqAll as bs
  | .pointer a, .pointer b => a.beq b
  | .slice a, .slice b => a.beq b
  | .map a c, .map b d => a.beq b && c.beq d
  | .array m a, .array n b => m == n && a.beq b
  | .chan m a, .chan n b => m == n && a.beq b
  | .struct as, .struct bs => beqFields as bs
  | .interface a, .interface b => beqInterface a b
  | .func a, .func b => beqSignature a b
  | _, _ => false

def beqAll : List Ty → List Ty → Bool
  | [], [] => true
  | a :: as, b :: bs => a.beq b && beqAll as bs
  | _, _ => false

def beqFields : List (Field Ty) → List (Field Ty) → Bool
  | [], [] => true
  | ⟨m, a⟩ :: as, ⟨n, b⟩ :: bs => m == n && a.beq b && beqFields as bs
  | _, _ => false

def beqSignature : Signature Ty → Signature Ty → Bool
  | ⟨ps, rs, v⟩, ⟨qs, ss, w⟩ => beqFields ps qs && beqFields rs ss && v == w

def beqMethods : List (Method Ty) → List (Method Ty) → Bool
  | [], [] => true
  | ⟨m, a⟩ :: as, ⟨n, b⟩ :: bs => m == n && beqSignature a b && beqMethods as bs
  | _, _ => false

def beqInterface : Interface Ty → Interface Ty → Bool
  | ⟨es, ms⟩, ⟨fs, ns⟩ => beqAll es fs && beqMethods ms ns

end

mutual

theorem beq_iff : ∀ a b : Ty, a.beq b = true ↔ a = b
  | .basic _, b => by cases b <;> simp [beq]
  | .param _, b => by cases b <;> simp [beq]
  | .named _ as, b => by cases b <;> simp [beq, beqAll_iff as]
  | .pointer a, b => by cases b <;> simp [beq, beq_iff a]
  | .slice a, b => by cases b <;> simp [beq, beq_iff a]
  | .map a c, b => by cases b <;> simp [beq, beq_iff a, beq_iff c]
  | .array _ a, b => by cases b <;> simp [beq, beq_iff a]
  | .chan _ a, b => by cases b <;> simp [beq, beq_iff a]
  | .struct as, b => by cases b <;> simp [beq, beqFields_iff as]
  | .interface a, b => by cases b <;> simp [beq, beqInterface_iff a]
  | .func a, b => by cases b <;> simp [beq, beqSignature_iff a]

theorem beqAll_iff : ∀ as bs : List Ty, beqAll as bs = true ↔ as = bs
  | [], bs => by cases bs <;> simp [beqAll]
  | a :: as, bs => by cases bs <;> simp [beqAll, beq_iff a, beqAll_iff as]

theorem beqFields_iff : ∀ as bs : List (Field Ty), beqFields as bs = true ↔ as = bs
  | [], bs => by cases bs <;> simp [beqFields]
  | ⟨_, a⟩ :: as, [] => by simp [beqFields]
  | ⟨_, a⟩ :: as, ⟨_, b⟩ :: bs => by simp [beqFields, beq_iff a, beqFields_iff as]

theorem beqSignature_iff : ∀ a b : Signature Ty, beqSignature a b = true ↔ a = b
  | ⟨ps, rs, _⟩, ⟨_, _, _⟩ => by simp [beqSignature, beqFields_iff ps, beqFields_iff rs, and_assoc]

theorem beqMethods_iff : ∀ as bs : List (Method Ty), beqMethods as bs = true ↔ as = bs
  | [], bs => by cases bs <;> simp [beqMethods]
  | ⟨_, a⟩ :: as, [] => by simp [beqMethods]
  | ⟨_, a⟩ :: as, ⟨_, b⟩ :: bs => by simp [beqMethods, beqSignature_iff a, beqMethods_iff as]

theorem beqInterface_iff : ∀ a b : Interface Ty, beqInterface a b = true ↔ a = b
  | ⟨es, ms⟩, ⟨_, _⟩ => by simp [beqInterface, beqAll_iff es, beqMethods_iff ms]

end

instance : DecidableEq Ty := fun a b => decidable_of_iff _ (beq_iff a b)

end Ty

end Replica
