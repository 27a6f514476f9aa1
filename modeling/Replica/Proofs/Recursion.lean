import Mathlib.Logic.Relation
import Replica.Proofs.Ty.Children
import Replica.Recursion

/-!
The search for recursive types misses nothing: a type that is not called recursive cannot be
reached from its own declaration. Qualified names tell declarations apart as long as no type name
has a dot.
-/

namespace Replica

def QualName.Plain (q : QualName) : Prop :=
  '.' ∉ q.name.toList

theorem append_cons_inj {α : Type} {mark : α} {left left' right right' : List α}
    (absent : mark ∉ right) (absent' : mark ∉ right')
    (same : left ++ mark :: right = left' ++ mark :: right') : left = left' ∧ right = right' := by
  rcases List.append_eq_append_iff.mp same with ⟨middle, first, second⟩ | ⟨middle, first, second⟩
  · cases middle with
    | nil => exact ⟨by simpa using first.symm, (List.cons.inj second).2⟩
    | cons head tail =>
        have inside : mark ∈ right := by
          rw [(List.cons.inj second).2]
          exact List.mem_append_right _ List.mem_cons_self
        exact absurd inside absent
  · cases middle with
    | nil => exact ⟨by simpa using first, (List.cons.inj second).2.symm⟩
    | cons head tail =>
        have inside : mark ∈ right' := by
          rw [(List.cons.inj second).2]
          exact List.mem_append_right _ List.mem_cons_self
        exact absurd inside absent'

theorem QualName.qualified_inj {q r : QualName} (plain : q.Plain) (plain' : r.Plain)
    (same : q.qualified = r.qualified) : q = r := by
  cases q with
  | mk package name =>
      cases r with
      | mk package' name' =>
          have lists := congrArg String.toList same
          simp only [qualified, String.toList_append, List.append_assoc] at lists
          have parts : package.toList = package'.toList ∧ name.toList = name'.toList :=
            append_cons_inj plain plain' lists
          rw [String.toList_injective parts.1, String.toList_injective parts.2]

def Refers (ns : Namespace) (outer inner : QualName) : Prop :=
  ∃ decl, ns.declaration? outer = some decl ∧ inner ∈ decl.underlying.refs

/-- No type that is declared, or named in a declaration, has a dot in its name. -/
def Namespace.PlainNames (ns : Namespace) : Prop :=
  ∀ q decl, ns.declaration? q = some decl → q.Plain ∧ ∀ r ∈ decl.underlying.refs, r.Plain

/-- `q` is still to be visited or has been expanded. -/
def Covered (subject : String) (expanded : List String) (stack : List QualName) (q : QualName) :
    Prop :=
  q ∈ stack ∨ (q.qualified ∈ expanded ∧ q.qualified ≠ subject)

def ClosedUpTo (ns : Namespace) (subject : String) (expanded : List String)
    (stack : List QualName) : Prop :=
  ∀ q : QualName, q.Plain → q.qualified ∈ expanded → ∀ r, Refers ns q r →
    Covered subject expanded stack r

variable {ns : Namespace} {subject : String} {expanded : List String} {q : QualName}
  {rest : List QualName}

theorem Covered.skip {r : QualName} (covered : Covered subject expanded (q :: rest) r)
    (known : q.qualified ∈ expanded) (other : q.qualified ≠ subject) :
    Covered subject expanded rest r := by
  rcases covered with onStack | visited
  · rcases List.mem_cons.mp onStack with rfl | later
    · exact .inr ⟨known, other⟩
    · exact .inl later
  · exact .inr visited

theorem Covered.expand {r : QualName} (covered : Covered subject expanded (q :: rest) r)
    (other : q.qualified ≠ subject) (inner : List QualName) :
    Covered subject (q.qualified :: expanded) (inner ++ rest) r := by
  rcases covered with onStack | visited
  · rcases List.mem_cons.mp onStack with rfl | later
    · exact .inr ⟨List.mem_cons_self, other⟩
    · exact .inl (List.mem_append_right _ later)
  · exact .inr ⟨List.mem_cons_of_mem _ visited.1, visited.2⟩

theorem ClosedUpTo.skip (closed : ClosedUpTo ns subject expanded (q :: rest))
    (known : q.qualified ∈ expanded) (other : q.qualified ≠ subject) :
    ClosedUpTo ns subject expanded rest :=
  fun p plain member r refers => (closed p plain member r refers).skip known other

theorem ClosedUpTo.expand {inner : List QualName}
    (closed : ClosedUpTo ns subject expanded (q :: rest)) (plain : q.Plain)
    (other : q.qualified ≠ subject) (listed : ∀ r, Refers ns q r → r ∈ inner) :
    ClosedUpTo ns subject (q.qualified :: expanded) (inner ++ rest) := by
  intro p plain' member r refers
  rcases List.mem_cons.mp member with same | earlier
  · have eq := QualName.qualified_inj plain' plain same
    subst eq
    exact .inl (List.mem_append_left _ (listed r refers))
  · exact (closed p plain' earlier r refers).expand other inner

theorem Refers.plain (plainNames : ns.PlainNames) {r : QualName} (refers : Refers ns q r) :
    r.Plain := by
  rcases refers with ⟨decl, declared, member⟩
  exact (plainNames q decl declared).2 r member

/-- Once nothing is left to visit, what has been expanded is closed under naming. -/
theorem ne_subject_of_closed (plainNames : ns.PlainNames)
    (closed : ClosedUpTo ns subject expanded []) {r : QualName} (plain : q.Plain)
    (covered : Covered subject expanded [] q) (path : Relation.ReflTransGen (Refers ns) q r) :
    r.qualified ≠ subject := by
  have visited : r.Plain ∧ r.qualified ∈ expanded ∧ r.qualified ≠ subject := by
    induction path with
    | refl =>
        rcases covered with onStack | visited
        · exact absurd onStack List.not_mem_nil
        · exact ⟨plain, visited⟩
    | tail _ refers ih =>
        rcases closed _ ih.1 ih.2.1 _ refers with onStack | visited
        · exact absurd onStack List.not_mem_nil
        · exact ⟨refers.plain plainNames, visited⟩
  exact visited.2.2

theorem ne_subject_of_reaches_false (plainNames : ns.PlainNames) {stack : List QualName}
    (missed : reaches ns subject expanded stack = false)
    (plainStack : ∀ q ∈ stack, q.Plain) (closed : ClosedUpTo ns subject expanded stack)
    {r : QualName} (plain : q.Plain) (covered : Covered subject expanded stack q)
    (path : Relation.ReflTransGen (Refers ns) q r) : r.qualified ≠ subject := by
  -- Each step keeps the search closed: what an expanded declaration names is covered.
  induction expanded, stack using reaches.induct ns subject with
  | case1 expanded => exact ne_subject_of_closed plainNames closed plain covered path
  | case2 expanded next rest hit =>
      rw [reaches, if_pos hit] at missed
      cases missed
  | case3 expanded next rest other known ih =>
      rw [reaches, if_neg other, dif_pos known] at missed
      exact ih missed (fun p member => plainStack p (List.mem_cons_of_mem _ member))
        (closed.skip known other) (covered.skip known other)
  | case4 expanded next rest other fresh undeclared ih =>
      rw [reaches, if_neg other, dif_neg fresh] at missed
      split at missed
      · have leaf : ∀ r, Refers ns next r → r ∈ ([] : List QualName) := by
          intro r given
          rcases given with ⟨decl, declared, _⟩
          rw [undeclared] at declared
          cases declared
        exact ih missed (fun p member => plainStack p (List.mem_cons_of_mem _ member))
          (closed.expand (plainStack next List.mem_cons_self) other leaf)
          (covered.expand other [])
      · rename_i decl declared
        rw [undeclared] at declared
        cases declared
  | case5 expanded next rest other fresh decl declared ih =>
      rw [reaches, if_neg other, dif_neg fresh] at missed
      split at missed
      · rename_i undeclared
        rw [declared] at undeclared
        cases undeclared
      · rename_i decl' declared'
        rw [declared] at declared'
        cases declared'
        have listed : ∀ r, Refers ns next r → r ∈ decl.underlying.refs := by
          intro r given
          rcases given with ⟨decl', declared', member⟩
          rw [declared] at declared'
          cases declared'
          exact member
        refine ih missed ?_ (closed.expand (plainStack next List.mem_cons_self) other listed)
          (covered.expand other _)
        intro p member
        rcases List.mem_append.mp member with inner | outer
        · exact (plainNames next decl declared).2 p inner
        · exact plainStack p (List.mem_cons_of_mem _ outer)

theorem not_reached_of_not_recursive (plainNames : ns.PlainNames) {base : QualName}
    {decl : TypeDecl} (declared : ns.declaration? base = some decl)
    (acyclic : isRecursive ns (.named base []) = false)
    (member : q ∈ decl.underlying.refs) : ¬ Relation.ReflTransGen (Refers ns) q base := by
  intro path
  rw [isRecursive, declared] at acyclic
  have plainRefs := (plainNames base decl declared).2
  have closed : ClosedUpTo ns base.qualified [base.qualified] decl.underlying.refs := by
    intro p plain known r refers
    have same := QualName.qualified_inj plain (plainNames base decl declared).1
      (List.mem_singleton.mp known)
    subst same
    rcases refers with ⟨decl', declared', inside⟩
    rw [declared] at declared'
    cases declared'
    exact .inl inside
  exact ne_subject_of_reaches_false plainNames acyclic plainRefs closed (plainRefs q member)
    (.inl member) path rfl

theorem isRecursive_of_refs_eq_nil {decl : TypeDecl} (declared : ns.declaration? q = some decl)
    (noRefs : decl.underlying.refs = []) : isRecursive ns (.named q []) = false := by
  simp only [isRecursive, declared, noRefs, Ty.refsAll, List.append_nil]
  rw [reaches]

end Replica
