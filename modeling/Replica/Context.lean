import Replica.Imports
import Replica.Spelling
import Replica.Worklist

/-!
What a file needs so far: the declarations to make, the packages to import and the obligations to
meet. Spellings add to it and take nothing away.
-/

namespace Replica

inductive SynthesisError where
  | noTypes
  | lookup (e : LookupError)
  | spelling (owner : String) (e : SpellingError)
  | collision (e : NameCollision)
  | limitReached
  deriving DecidableEq, Repr

def SpellingError.message (owner : String) : SpellingError → String
  | .unsupported kind => "unsupported " ++ kind ++ " type in " ++ owner
  | .unknownReference reference => owner ++ " references undeclared type " ++ reference
  | .unboundParam param => "type parameter " ++ param ++ " is not in scope in " ++ owner
  | .openVariadic => "variadic signature in " ++ owner ++ " does not end in a slice parameter"
  | .argCount reference expected found =>
    reference ++ " takes " ++ toString expected ++ " type arguments, found " ++ toString found
  | .limitReached => "limit of steps reached in " ++ owner

def NameCollision.message (e : NameCollision) : String :=
  e.first.qualified ++ " and " ++ e.second.qualified ++ " both flatten to " ++ e.second.flat

def SynthesisError.message : SynthesisError → String
  | .noTypes => "no types requested"
  | .lookup e => e.message
  | .spelling owner e => e.message owner
  | .collision e => e.message
  | .limitReached => "limit of steps reached"

structure Context where
  worklist : Worklist := {}
  imports : List String := []
  obligations : List Obligation := []

namespace Context

def importPackage (c : Context) (path : String) : Context :=
  { c with imports := insertPath path c.imports }

def owe (c : Context) (owed : Obligation) : Context :=
  if owed ∈ c.obligations then c else { c with obligations := c.obligations ++ [owed] }

/-- Adds needs in order, up to the first one whose name is taken. -/
def absorb (c : Context) : List Need → Context × Except NameCollision Unit
  | [] => (c, .ok ())
  | .package path :: rest => (c.importPackage path).absorb rest
  | .obligation owed :: rest => (c.owe owed).absorb rest
  | .replica q :: rest =>
    match c.worklist.push q with
    | .error e => (c, .error e)
    | .ok worklist => absorb { c with worklist } rest

/-- Takes over what a spelling needs. A name that is taken comes before the spelling's own error,
which arises after its last need. -/
def settle {α : Type} (c : Context) (owner : String) (s : Spelling α) :
    Context × Except SynthesisError α :=
  match c.absorb s.needs with
  | (c, .error e) => (c, .error (.collision e))
  | (c, .ok ()) => (c, s.outcome.mapError (.spelling owner))

end Context

end Replica
