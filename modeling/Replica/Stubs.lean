import Replica.Context

/-!
Methods with empty bodies, attached to replicas so that they go on satisfying the constraints of
the instantiations they are arguments of.
-/

namespace Replica

/-- `attached` holds the receiver and method of every stub begun, also of those that failed. -/
structure Stubbing where
  context : Context := {}
  attached : List (String × String) := []
  stubs : List Stub := []

/-- A declaration that an obligation is about, and whether through a pointer. -/
structure Receiver where
  origin : QualName
  pointer : Bool
  deriving DecidableEq, Repr

def Obligation.receiver? (owed : Obligation) : Option Receiver :=
  match owed.argument with
  | .named origin [] => if origin.isPublic then none else some ⟨origin, false⟩
  | .pointer (.named origin []) => if origin.isPublic then none else some ⟨origin, true⟩
  | _ => none

def Namespace.declaresInterface (ns : Namespace) (q : QualName) : Bool :=
  match ns.declaration? q with
  | none => false
  | some decl =>
    match decl.underlying with
    | .interface _ => true
    | _ => false

namespace Stubbing

def attachMethod (limit : Nat) (ns : Namespace) (s : Stubbing) (receiver : Receiver)
    (method : Method Ty) : Stubbing × Except SynthesisError Unit :=
  let name := receiver.origin.flat
  if Ty.mentionsParamSignature method.signature || (name, method.name) ∈ s.attached then (s, .ok ())
  else
    let attached := s.attached ++ [(name, method.name)]
    match s.context.settle name (spellSignature limit ns [] method.signature) with
    | (context, .error e) => ({ s with context, attached }, .error e)
    | (context, .ok signature) =>
      let stub := ⟨name, receiver.pointer, method.name, signature.blanked⟩
      ({ context, attached, stubs := s.stubs ++ [stub] }, .ok ())

def attachMethods (limit : Nat) (ns : Namespace) (s : Stubbing) (receiver : Receiver) :
    List (Method Ty) → Stubbing × Except SynthesisError Unit
  | [] => (s, .ok ())
  | method :: rest =>
    match s.attachMethod limit ns receiver method with
    | (s, .ok ()) => s.attachMethods limit ns receiver rest
    | (s, .error e) => (s, .error e)

/-- Attaches what an obligation asks for, if its argument is a replica that the file declares and
that can have methods. -/
def attach (limit : Nat) (ns : Namespace) (s : Stubbing) (owed : Obligation) :
    Stubbing × Except SynthesisError Unit :=
  match owed.receiver? with
  | none => (s, .ok ())
  | some receiver =>
    if receiver.origin ∉ s.context.worklist.known || ns.declaresInterface receiver.origin then
      (s, .ok ())
    else match methodSet limit ns owed.constraint with
      | none => (s, .error .limitReached)
      | some methods => s.attachMethods limit ns receiver methods

end Stubbing

end Replica
