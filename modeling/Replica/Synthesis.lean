import Replica.Stubs

/-!
From requested names to a tree of declarations: the requested types are queued and the queue is
drained; then, as long as obligations are open, stubs are attached and the queue is drained again.
-/

namespace Replica

structure Run extends Stubbing where
  decls : List Decl := []

namespace Run

def drain (ns : Namespace) (limit : Nat) : (steps : Nat) → Run → Except SynthesisError Run
  | steps, run =>
    match run.context.worklist.pop with
    | (none, _) => .ok run
    | (some q, worklist) =>
      match steps with
      | 0 => .error .limitReached
      | steps + 1 =>
        match ns.declaration? q with
        | none => .error (.spelling q.qualified (.unknownReference q.qualified))
        | some decl =>
          let context := { run.context with worklist }
          match context.settle q.qualified (spellDecl limit ns q decl) with
          | (_, .error e) => .error e
          | (context, .ok decl) =>
            let context := { context with worklist := context.worklist.markVisited decl.name }
            drain ns limit steps { run with context, decls := run.decls ++ [decl] }

def attachAll (limit : Nat) (ns : Namespace) : List Obligation → Run → Except SynthesisError Run
  | [], run => .ok run
  | owed :: rest, run =>
    match run.attach limit ns owed with
    | (_, .error e) => .error e
    | (stubbing, .ok ()) => attachAll limit ns rest { run with toStubbing := stubbing }

def fulfil (limit : Nat) (ns : Namespace) : (rounds : Nat) → Run → Except SynthesisError Run
  | rounds, run =>
    match run.context.obligations with
    | [] => .ok run
    | owed :: others =>
      match rounds with
      | 0 => .error .limitReached
      | rounds + 1 => do
        let context := { run.context with obligations := [] }
        let run ← attachAll limit ns (owed :: others) { run with context }
        fulfil limit ns rounds (← run.drain ns limit limit)

end Run

def resolveRoots (ns : Namespace) : List String → Except LookupError (List QualName)
  | [] => .ok []
  | name :: names => do
    let root ← ns.lookup name
    let roots ← resolveRoots ns names
    return root :: roots.filter (· ≠ root)

/-- `make_<replica>`. A generic root keeps its parameters, which are those of its replica. -/
def conversion (decls : List Decl) (root : QualName) : Conversion :=
  let params := match decls.find? (·.name == root.flat) with
    | some decl => decl.params
    | none => []
  let args := params.map fun param => Expr.ident param.name
  { name := "make_" ++ root.flat
    params
    source := .pointer ((Expr.qualified root).apply args)
    target := .pointer ((Expr.ident root.flat).apply args) }

def unsafePackage : String := "unsafe"

def Context.importRoots (c : Context) : List QualName → Context
  | [] => c
  | root :: roots =>
    ((c.importPackage root.package).importPackage unsafePackage).importRoots roots

/-- Synthesizes replicas of the requested structs. `limit` bounds each search that a namespace may
make endless. -/
def synthesize (limit : Nat) (ns : Namespace) (names : List String) :
    Except SynthesisError Tree := do
  if names.isEmpty then .error .noTypes
  else
    let roots ← (resolveRoots ns names).mapError .lookup
    let worklist ← (Worklist.pushAll {} roots).mapError .collision
    let run ← Run.drain ns limit limit { context := { worklist } }
    let conversions := roots.map (conversion run.decls)
    let run ← run.fulfil limit ns limit
    let imports := (run.context.importRoots roots).imports
    return ⟨importBlock ns imports, run.decls, conversions, run.stubs⟩

end Replica
