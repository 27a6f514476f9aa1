import Replica.Namespace.Basic
import Replica.Ty.Reference
import Replica.Unseen

/-!
Which named types reach themselves.

The search follows every reference of a type, descends into each declaration once, whatever its
arguments, and takes types without a declaration as leaves.
-/

namespace Replica

namespace Namespace

def declaredNames (ns : Namespace) : List String :=
  ns.packages.flatMap fun package =>
    package.types.map fun decl => (QualName.mk package.path decl.name).qualified

theorem qualified_mem_declaredNames {ns : Namespace} {q : QualName} {decl : TypeDecl}
    (declared : ns.declaration? q = some decl) : q.qualified ∈ ns.declaredNames := by
  obtain ⟨package, found, looked⟩ := Option.bind_eq_some_iff.mp declared
  have path : package.path = q.package := by simpa using List.find?_some found
  have name : decl.name = q.name := by simpa using List.find?_some looked
  refine List.mem_flatMap.mpr ⟨package, List.mem_of_find?_eq_some found, ?_⟩
  exact List.mem_map.mpr ⟨decl, List.mem_of_find?_eq_some looked, by rw [path, name]⟩

end Namespace

/-- Whether `subject` is met from the references still to be visited. A reference stands for its
qualified name; the names in `expanded` have been descended into. -/
def reaches (ns : Namespace) (subject : String) (expanded : List String) : List QualName → Bool
  | [] => false
  | q :: rest =>
    if q.qualified = subject then true
    else if _ : q.qualified ∈ expanded then reaches ns subject expanded rest
    else match _ : ns.declaration? q with
      | none => reaches ns subject (q.qualified :: expanded) rest
      | some decl => reaches ns subject (q.qualified :: expanded) (decl.underlying.refs ++ rest)
termination_by stack => (unseen ns.declaredNames expanded, stack.length)
decreasing_by
  · exact Prod.Lex.right _ (by simp)
  · have := unseen_extend_le ns.declaredNames expanded q.qualified
    simp only [Prod.lex_def, List.length_cons]
    omega
  · exact Prod.Lex.left _ _ (unseen_extend_lt (Namespace.qualified_mem_declaredNames ‹_›) ‹_›)

/-- Whether a named type can reach its own declaration, under any arguments. Other types never
are recursive. -/
def isRecursive (ns : Namespace) : Ty → Bool
  | .named base args =>
    let underlying := match ns.declaration? base with
      | some decl => decl.underlying.refs
      | none => []
    reaches ns base.qualified [base.qualified] (Ty.refsAll args ++ underlying)
  | _ => false

end Replica
