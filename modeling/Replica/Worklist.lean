import Replica.Name

/-!
The declarations a file still has to make, first come first served. Each is queued once, and two
declarations that flatten to one name are told apart.
-/

namespace Replica

structure NameCollision where
  first : QualName
  second : QualName
  deriving DecidableEq, Repr

/-- `known` holds every declaration ever pushed, in order; `visited` the flattened names that are
done with. -/
structure Worklist where
  queue : List QualName := []
  known : List QualName := []
  visited : List String := []
  deriving DecidableEq, Repr

namespace Worklist

def push (w : Worklist) (q : QualName) : Except NameCollision Worklist :=
  match w.known.find? (·.flat == q.flat) with
  | none => .ok { w with queue := w.queue ++ [q], known := w.known ++ [q] }
  | some first => if first = q then .ok w else .error ⟨first, q⟩

def pushAll (w : Worklist) : List QualName → Except NameCollision Worklist
  | [] => .ok w
  | q :: rest =>
    match w.push q with
    | .ok w => w.pushAll rest
    | .error e => .error e

/-- The next declaration that is not visited. It leaves the queue, and so do the visited ones
before it. -/
def pop (w : Worklist) : Option QualName × Worklist :=
  match w.queue.dropWhile (·.flat ∈ w.visited) with
  | [] => (none, { w with queue := [] })
  | q :: rest => (some q, { w with queue := rest })

def markVisited (w : Worklist) (flat : String) : Worklist :=
  if flat ∈ w.visited then w else { w with visited := w.visited ++ [flat] }

def isEmpty (w : Worklist) : Bool :=
  w.queue.isEmpty

def knownName? (w : Worklist) (q : QualName) : Option String :=
  if q ∈ w.known then some q.flat else none

end Worklist

end Replica
