import Replica.Proofs.MethodSet
import Replica.Proofs.WellFormed

/-!
Parts of a namespace. A part is closed when the types it declares name nothing outside of it; no
walk that begins at names of a closed part sees whether there is more to the namespace.
-/

namespace Replica

def NamesWithin (within : QualName → Prop) : Ty → Prop
  | .named base _ => within base
  | _ => True

variable {within : QualName → Prop}

theorem every_namesWithin_iff {t : Ty} :
    Ty.Every (NamesWithin within) t ↔ ∀ q ∈ t.refs, within q := by
  constructor
  · intro every q member
    obtain ⟨args, named⟩ := every.of_mem_refs member
    exact named.here
  · intro inside
    induction t using Ty.induct with
    | step t ih =>
        have here : NamesWithin within t := by
          cases t with
          | named base args => exact inside base (Ty.mem_refs_named.mpr (.inr rfl))
          | _ => trivial
        refine ⟨here, fun u child => ih u child ?_⟩
        exact fun q member => inside q (Ty.mem_refs_of_child child member)

theorem NamesWithin.subst {value : String → Option Ty} {t : Ty} (names : NamesWithin within t)
    (composite : ∀ name, t ≠ .param name) : NamesWithin within (t.subst value) := by
  cases t with
  | param name => exact absurd rfl (composite name)
  | named base args => exact names
  | _ => trivial

namespace Namespace

/-- `part` declares what `ns` declares under the names from `within`, and these are all that its
types name. -/
structure PartOf (part ns : Namespace) (within : QualName → Prop) : Prop where
  same : ∀ q, within q → ns.declaration? q = part.declaration? q
  inside : ∀ q decl, part.declaration? q = some decl → within q
  underlying : ∀ q decl, part.declaration? q = some decl →
    Ty.Every (NamesWithin within) decl.underlying
  constraint : ∀ q decl, part.declaration? q = some decl → ∀ param ∈ decl.params,
    Ty.Every (NamesWithin within) param.type

theorem PartOf.inherited {part ns : Namespace} (partOf : part.PartOf ns within) :
    Inherited part (fun _ => NamesWithin within) :=
  inherited_of_subst (fun q decl declared => ⟨partOf.underlying q decl declared,
    partOf.constraint q decl declared⟩) (fun _ => trivial) fun _ _ => NamesWithin.subst

open Classical in
noncomputable def restrict (ns : Namespace) (within : QualName → Prop) : Namespace :=
  { ns with packages := ns.packages.map fun package =>
      { package with types := package.types.filter (within ⟨package.path, ·.name⟩) } }

section

variable (ns : Namespace) (within : QualName → Prop)

open Classical in
theorem package?_restrict (path : String) :
    (ns.restrict within).package? path = (ns.package? path).map fun package =>
      { package with types := package.types.filter (within ⟨package.path, ·.name⟩) } := by
  unfold package? restrict
  rw [List.find?_map]
  rfl

theorem declaration?_restrict {q : QualName} {decl : TypeDecl} :
    (ns.restrict within).declaration? q = some decl ↔ within q ∧ ns.declaration? q = some decl := by
  classical
  rw [declaration?, declaration?, package?_restrict]
  cases found : ns.package? q.package with
  | none => simp
  | some package =>
      have path : package.path = q.package := by simpa using List.find?_some found
      simp only [Option.map_some, Option.bind_some, Package.lookup, List.find?_filter, path]
      by_cases inside : within q
      · have same : ∀ other : TypeDecl, decide (decide (within ⟨q.package, other.name⟩) = true ∧
            (other.name == q.name) = true) = (other.name == q.name) := by
          intro other
          by_cases name : other.name = q.name
          · simp [name, inside]
          · simp [name]
        simp only [same, inside, true_and]
      · have missing : package.types.find? (fun other => decide
            (decide (within ⟨q.package, other.name⟩) = true ∧ (other.name == q.name) = true)) =
              none := by
          apply List.find?_eq_none.mpr
          intro other _ holds
          simp only [decide_eq_true_eq, beq_iff_eq] at holds
          obtain ⟨within', name⟩ := holds
          rw [name] at within'
          exact inside within'
        rw [missing]
        simp [inside]

end

structure Closed (ns : Namespace) (within : QualName → Prop) : Prop where
  underlying : ∀ q decl, within q → ns.declaration? q = some decl →
    ∀ r ∈ decl.underlying.refs, within r
  constraint : ∀ q decl, within q → ns.declaration? q = some decl → ∀ param ∈ decl.params,
    ∀ r ∈ param.type.refs, within r

theorem Closed.partOf {ns other : Namespace} (closed : ns.Closed within)
    (same : ∀ q, within q → other.declaration? q = ns.declaration? q) :
    (ns.restrict within).PartOf other within := by
  refine ⟨?_, ?_, ?_, ?_⟩
  · intro q inside
    rw [same q inside]
    ext decl
    rw [declaration?_restrict]
    exact (and_iff_right inside).symm
  · intro q decl declared
    exact (ns.declaration?_restrict within).mp declared |>.1
  · intro q decl declared
    obtain ⟨inside, declared⟩ := (ns.declaration?_restrict within).mp declared
    exact every_namesWithin_iff.mpr (closed.underlying q decl inside declared)
  · intro q decl declared param listed
    obtain ⟨inside, declared⟩ := (ns.declaration?_restrict within).mp declared
    exact every_namesWithin_iff.mpr (closed.constraint q decl inside declared param listed)

def references (ns : Namespace) (q : QualName) : List QualName :=
  match ns.declaration? q with
  | some decl => decl.underlying.refs
  | none => []

end Namespace

theorem reaches_cons (ns : Namespace) (subject : String) (expanded : List String) (q : QualName)
    (rest : List QualName) :
    reaches ns subject expanded (q :: rest) =
      if q.qualified = subject then true
      else if q.qualified ∈ expanded then reaches ns subject expanded rest
      else reaches ns subject (q.qualified :: expanded) (ns.references q ++ rest) := by
  rw [reaches, Namespace.references]
  split
  · rfl
  · split
    · rfl
    · split
      · rename_i undeclared
        rw [undeclared]
        rfl
      · rename_i decl declared
        rw [declared]

namespace Namespace.PartOf

variable {part ns : Namespace} (partOf : part.PartOf ns within)

include partOf

theorem interfaceOf?_eq {t : Ty} (names : NamesWithin within t) :
    interfaceOf? ns t = interfaceOf? part t := by
  cases t with
  | named base args => rw [interfaceOf?, interfaceOf?, partOf.same base names]
  | _ => rfl

theorem interfaceOf?_within {t : Ty} {shape : Interface Ty}
    (every : Ty.Every (NamesWithin within) t) (stands : interfaceOf? part t = some shape) :
    Ty.Every (NamesWithin within) (.interface shape) :=
  @Inherited.interfaceOf part [] _ partOf.inherited t shape every stands

theorem demandedMethods_eq {limit : Nat} {expanded : List String} {stack : List Demand}
    (inside : ∀ demand ∈ stack, demand.Within (NamesWithin within)) :
    demandedMethods ns limit expanded stack = demandedMethods part limit expanded stack := by
  induction limit generalizing expanded stack with
  | zero => cases stack <;> rfl
  | succ limit ih =>
      cases stack with
      | nil => rfl
      | cons demand rest =>
          have tail : ∀ demand ∈ rest, demand.Within (NamesWithin within) :=
            fun demand member => inside demand (List.mem_cons_of_mem _ member)
          have here := inside demand List.mem_cons_self
          cases demand with
          | method m => rw [demandedMethods, demandedMethods, ih tail]
          | embedded type =>
              have every : Ty.Every (NamesWithin within) type := here
              have next : ∀ demand ∈ innerDemands part type ++ rest,
                  demand.Within (NamesWithin within) := by
                intro demand member
                rcases List.mem_append.mp member with inner | outer
                · obtain ⟨shape, stands, demanded⟩ := mem_innerDemands inner
                  exact within_of_mem_demands (partOf.interfaceOf?_within every stands) demanded
                · exact tail demand outer
              rw [demandedMethods, demandedMethods, partOf.interfaceOf?_eq every.here, ih tail]
              split
              · rfl
              · exact ih next

theorem methodSet_eq {limit : Nat} {shape : Interface Ty}
    (every : Ty.Every (NamesWithin within) (.interface shape)) :
    methodSet limit ns shape = methodSet limit part shape := by
  rw [methodSet, methodSet,
    partOf.demandedMethods_eq fun demand member => within_of_mem_demands every member]

theorem references_eq {q : QualName} (inside : within q) : ns.references q = part.references q := by
  rw [references, references, partOf.same q inside]

theorem references_within {q r : QualName} (member : r ∈ part.references q) : within r := by
  rw [references] at member
  split at member
  · rename_i decl declared
    exact every_namesWithin_iff.mp (partOf.underlying q decl declared) r member
  · exact absurd member List.not_mem_nil

theorem reaches_eq {subject : String} {expanded : List String} {stack : List QualName}
    (inside : ∀ q ∈ stack, within q) :
    reaches ns subject expanded stack = reaches part subject expanded stack := by
  have tail : ∀ {q : QualName} {rest : List QualName}, (∀ r ∈ q :: rest, within r) →
      ∀ r ∈ rest, within r := fun all r member => all r (List.mem_cons_of_mem _ member)
  induction expanded, stack using reaches.induct part subject with
  | case1 expanded => rw [reaches, reaches]
  | case2 expanded q rest hit => rw [reaches, reaches, if_pos hit, if_pos hit]
  | case3 expanded q rest other known ih =>
      rw [reaches_cons, reaches_cons, if_neg other, if_neg other, if_pos known, if_pos known]
      exact ih (tail inside)
  | case4 expanded q rest other fresh undeclared ih =>
      have none : part.references q = [] := by rw [references, undeclared]
      rw [reaches_cons, reaches_cons, partOf.references_eq (inside q List.mem_cons_self), none,
        if_neg other, if_neg other, if_neg fresh, if_neg fresh]
      exact ih (tail inside)
  | case5 expanded q rest other fresh decl declared ih =>
      have named : part.references q = decl.underlying.refs := by rw [references, declared]
      have deeper : ∀ r ∈ decl.underlying.refs ++ rest, within r := by
        intro r member
        rcases List.mem_append.mp member with inner | outer
        · rw [← named] at inner
          exact partOf.references_within inner
        · exact tail inside r outer
      rw [reaches_cons, reaches_cons, partOf.references_eq (inside q List.mem_cons_self), named,
        if_neg other, if_neg other, if_neg fresh, if_neg fresh]
      exact ih deeper

theorem isRecursive_eq {base : QualName} (inside : within base) :
    isRecursive ns (.named base []) = isRecursive part (.named base []) := by
  change reaches ns _ _ (ns.references base) = reaches part _ _ (part.references base)
  rw [partOf.references_eq inside]
  exact partOf.reaches_eq fun r => partOf.references_within

theorem declaresInterface_eq {q : QualName} (inside : within q) :
    ns.declaresInterface q = part.declaresInterface q := by
  rw [declaresInterface, declaresInterface, partOf.same q inside]

end Namespace.PartOf

end Replica
