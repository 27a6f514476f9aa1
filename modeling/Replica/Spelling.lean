import Replica.Expr.Basic
import Replica.MethodSet
import Replica.Recursion

/-!
How a source type is spelled in a file outside its package.

A named type that the file can name is named. Every other one is either spelled out in place or,
when it needs a name of its own, named after a declaration that the file will hold: private
structs, generic types, recursive types, and interfaces with members that are private.

A spelling does not depend on what has been spelled before. It lists what it needs from the file
in the order in which the needs arise, up to the error if there is one.
-/

namespace Replica

inductive SpellingError where
  | unsupported (kind : String)
  | unknownReference (reference : String)
  | unboundParam (param : String)
  | openVariadic
  | argCount (reference : String) (expected found : Nat)
  | limitReached
  deriving DecidableEq, Repr

/-- `argument` stands where a type parameter is constrained by `constraint`, whose own parameters
have been replaced by the arguments. -/
structure Obligation where
  constraint : Interface Ty
  argument : Ty
  deriving DecidableEq

/-- The file has to import a package, to declare a replica, or to meet an obligation. -/
inductive Need where
  | package (path : String)
  | replica (origin : QualName)
  | obligation (owed : Obligation)
  deriving DecidableEq

structure Spelling (α : Type) where
  needs : List Need
  outcome : Except SpellingError α

namespace Spelling

variable {α β : Type}

def fail (e : SpellingError) : Spelling α :=
  ⟨[], .error e⟩

def need (n : Need) : Spelling Unit :=
  ⟨[n], .ok ()⟩

def andThen (s : Spelling α) (next : α → Spelling β) : Spelling β :=
  match s.outcome with
  | .ok a => ⟨s.needs ++ (next a).needs, (next a).outcome⟩
  | .error e => ⟨s.needs, .error e⟩

instance : Monad Spelling where
  pure a := ⟨[], .ok a⟩
  bind := andThen

end Spelling

def spellReplica (q : QualName) : Spelling Expr := do
  Spelling.need (.replica q)
  pure (.ident q.flat)

def spellPublic (q : QualName) : Spelling Expr := do
  Spelling.need (.package q.package)
  pure (.qualified q)

def namesPrivateType : Ty → Bool
  | .named base _ => !base.isPublic
  | .pointer elem => namesPrivateType elem
  | _ => false

/-- Whether an interface has a method of its own that another package cannot write: an unexported
one, or one with a private type as a parameter or result. -/
def exposesPrivateMember (shape : Interface Ty) : Bool :=
  shape.methods.any fun method =>
    !isExported method.name
      || (method.signature.params ++ method.signature.results).any (namesPrivateType ·.type)

/-- Records what `arg` owes to `constraint`: nothing, unless it is an interface with methods. -/
def spellObligation (limit : Nat) (ns : Namespace) (constraint arg : Ty) : Spelling Unit :=
  match interfaceOf? ns constraint with
  | none => pure ()
  | some shape =>
    match methodSet limit ns shape with
    | none => .fail .limitReached
    | some [] => pure ()
    | some (_ :: _) => .need (.obligation ⟨shape, arg⟩)

def TypeDecl.constraints (decl : TypeDecl) (args : List Ty) : List (Ty × Ty) :=
  (decl.params.zip args).map fun (param, arg) =>
    (param.type.substitute decl.paramNames args, arg)

def spellObligations (limit : Nat) (ns : Namespace) : List (Ty × Ty) → Spelling Unit
  | [] => pure ()
  | (constraint, arg) :: rest => do
    spellObligation limit ns constraint arg
    spellObligations limit ns rest

/-- A generic type always has a name: its own when it is public, else that of its replica. -/
def spellInstance (limit : Nat) (ns : Namespace) (base : QualName) (args : List Ty)
    (spelledArgs : Spelling (List Expr)) : Spelling Expr := do
  let argExprs ← spelledArgs
  match ns.declaration? base with
  | none =>
    if base.isPublic then
      let head ← spellPublic base
      pure (head.apply argExprs)
    else .fail (.unknownReference (Ty.named base args).text)
  | some decl =>
    let head ← if base.isPublic then spellPublic base else spellReplica base
    if decl.params.length = args.length then
      spellObligations limit ns (decl.constraints args)
      pure (head.apply argExprs)
    else .fail (.argCount (Ty.named base args).text decl.params.length args.length)

def spellPrivate (limit : Nat) (ns : Namespace) (inline : Ty → Spelling Expr)
    (base : QualName) (underlying : Ty) : Spelling Expr :=
  match underlying with
  | .struct _ => spellReplica base
  | .interface shape =>
    match methodSet limit ns shape with
    | none => .fail .limitReached
    | some [] => pure (.ident "any")
    | some (_ :: _) =>
      if exposesPrivateMember shape || isRecursive ns (.named base []) then spellReplica base
      else inline underlying
  | _ => if isRecursive ns (.named base []) then spellReplica base else inline underlying

def spellNamed (limit : Nat) (ns : Namespace) (inline : Ty → Spelling Expr)
    (base : QualName) (args : List Ty) (spelledArgs : Spelling (List Expr)) : Spelling Expr :=
  if !args.isEmpty || (ns.declaration? base).any (·.isGeneric) then
    spellInstance limit ns base args spelledArgs
  else if base.isPublic then spellPublic base
  else match ns.declaration? base with
    | none => .fail (.unknownReference base.qualified)
    | some decl => spellPrivate limit ns inline base decl.underlying

/-- Embedded fields take the name of what they embed, since the spelling may not be a name. -/
def memberName (name : String) (type : Ty) : String :=
  if name = "" then type.embeddedName else name

def isOpenVariadic (signature : Signature Ty) : Bool :=
  signature.variadic && !signature.params.getLast?.any (·.type.isSlice)

mutual

def spellWith (limit : Nat) (ns : Namespace) (inline : Ty → Spelling Expr) (scope : List String) :
    Ty → Spelling Expr
  | .basic name => pure (.ident name)
  | .param name => if name ∈ scope then pure (.ident name) else .fail (.unboundParam name)
  | .named base args =>
    spellNamed limit ns inline base args (spellAllWith limit ns inline scope args)
  | .pointer elem => do return .pointer (← spellWith limit ns inline scope elem)
  | .slice elem => do return .slice (← spellWith limit ns inline scope elem)
  | .map key value => do
    let keyExpr ← spellWith limit ns inline scope key
    return .map keyExpr (← spellWith limit ns inline scope value)
  | .array len elem => do return .array len (← spellWith limit ns inline scope elem)
  | .chan _ _ => .fail (.unsupported "chan")
  | .struct fields => do return .struct (← spellMembersWith limit ns inline scope 0 fields)
  | .interface shape =>
    match methodSet limit ns shape with
    | none => .fail .limitReached
    | some [] => pure (.ident "any")
    | some (_ :: _) => do return .interface (← spellElementsWith limit ns inline scope shape)
  | .func signature => do return .func (← spellSignatureWith limit ns inline scope signature)

def spellAllWith (limit : Nat) (ns : Namespace) (inline : Ty → Spelling Expr)
    (scope : List String) : List Ty → Spelling (List Expr)
  | [] => pure []
  | type :: rest => do
    let expr ← spellWith limit ns inline scope type
    return expr :: (← spellAllWith limit ns inline scope rest)

def spellMembersWith (limit : Nat) (ns : Namespace) (inline : Ty → Spelling Expr)
    (scope : List String) (position : Nat) : List (Field Ty) → Spelling (List (Member Expr))
  | [] => pure []
  | ⟨name, type⟩ :: rest => do
    let expr ← spellWith limit ns inline scope type
    return ⟨memberName name type, expr, position⟩ ::
      (← spellMembersWith limit ns inline scope (position + 1) rest)

def spellParamsWith (limit : Nat) (ns : Namespace) (inline : Ty → Spelling Expr)
    (scope : List String) : List (Field Ty) → Spelling (List (Field Expr))
  | [] => pure []
  | ⟨name, type⟩ :: rest => do
    let expr ← spellWith limit ns inline scope type
    return ⟨name, expr⟩ :: (← spellParamsWith limit ns inline scope rest)

def spellSignatureWith (limit : Nat) (ns : Namespace) (inline : Ty → Spelling Expr)
    (scope : List String) : Signature Ty → Spelling (Signature Expr)
  | ⟨params, results, variadic⟩ =>
    if isOpenVariadic ⟨params, results, variadic⟩ then .fail .openVariadic
    else do
      let paramExprs ← spellParamsWith limit ns inline scope params
      return ⟨paramExprs, ← spellParamsWith limit ns inline scope results, variadic⟩

def spellMethodsWith (limit : Nat) (ns : Namespace) (inline : Ty → Spelling Expr)
    (scope : List String) : List (Method Ty) → Spelling (List (Element Expr))
  | [] => pure []
  | ⟨name, signature⟩ :: rest => do
    let written ← spellSignatureWith limit ns inline scope signature
    return .method name written :: (← spellMethodsWith limit ns inline scope rest)

def spellElementsWith (limit : Nat) (ns : Namespace) (inline : Ty → Spelling Expr)
    (scope : List String) : Interface Ty → Spelling (List (Element Expr))
  | ⟨embedded, methods⟩ => do
    let exprs ← spellAllWith limit ns inline scope embedded
    return exprs.map .embedded ++ (← spellMethodsWith limit ns inline scope methods)

end

/-- Spells an underlying type in place, with at most `depth` others in place within it. No type
parameter is in scope there. -/
def spellInline (limit : Nat) (ns : Namespace) : (depth : Nat) → Ty → Spelling Expr
  | 0, _ => .fail .limitReached
  | depth + 1, type => spellWith limit ns (spellInline limit ns depth) [] type

def spell (limit : Nat) (ns : Namespace) : List String → Ty → Spelling Expr :=
  spellWith limit ns (spellInline limit ns limit)

def spellMembers (limit : Nat) (ns : Namespace) (scope : List String) :
    List (Field Ty) → Spelling (List (Member Expr)) :=
  spellMembersWith limit ns (spellInline limit ns limit) scope 0

def spellElements (limit : Nat) (ns : Namespace) :
    List String → Interface Ty → Spelling (List (Element Expr)) :=
  spellElementsWith limit ns (spellInline limit ns limit)

def spellSignature (limit : Nat) (ns : Namespace) :
    List String → Signature Ty → Spelling (Signature Expr) :=
  spellSignatureWith limit ns (spellInline limit ns limit)

def spellBody (limit : Nat) (ns : Namespace) (scope : List String) : Ty → Spelling Body
  | .struct fields => do return .struct (← spellMembers limit ns scope fields)
  | .interface shape => do return .interface (← spellElements limit ns scope shape)
  | other => do return .defined (← spell limit ns scope other)

def spellConstraints (limit : Nat) (ns : Namespace) (scope : List String) :
    List (Field Ty) → Spelling (List (Field Expr)) :=
  spellParamsWith limit ns (spellInline limit ns limit) scope

def spellDecl (limit : Nat) (ns : Namespace) (origin : QualName) (decl : TypeDecl) :
    Spelling Decl := do
  let params ← spellConstraints limit ns decl.paramNames decl.params
  let body ← spellBody limit ns decl.paramNames decl.underlying
  return ⟨origin.flat, origin, params, body⟩

end Replica
