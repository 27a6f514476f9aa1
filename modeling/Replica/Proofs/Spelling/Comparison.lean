import Replica.Proofs.Spelling.Congruence
import Replica.Proofs.Spelling.Referent

/-!
Two runs of the speller compared. They may have different limits and different ways to put a type in
the place of a private name. Main statement: a relation that sequencing keeps relates the spellings
of a type if it relates what is put in place of private names in it.
-/

namespace Replica

variable {ns : Namespace} {limit more : Nat} {inline inline' : Ty → Spelling Expr}
  {scope : List String} {q : QualName} {t : Ty}

/-- Somewhere in `t` the speller writes what the private name `q` is declared as in the place of the
name. -/
inductive Ty.Inlines (ns : Namespace) (q : QualName) : Ty → Prop where
  | here {decl : TypeDecl} (simple : PrivateSimple ns q decl)
      (unnamed : ¬ NeedsName ns q decl.underlying) (demanding : decl.underlying.Demanding ns) :
      Ty.Inlines ns q (.named q [])
  | inside {t u : Ty} (outer : t.Demanding ns) (child : u ∈ t.children)
      (inner : Ty.Inlines ns q u) : Ty.Inlines ns q t

theorem not_recursive_of_unnamed {underlying : Ty} (unnamed : ¬ NeedsName ns q underlying)
    (demanding : underlying.Demanding ns) : isRecursive ns (.named q []) = false := by
  apply Bool.eq_false_iff.mpr
  intro recursive
  apply unnamed
  cases underlying with
  | struct fields => trivial
  | interface shape => exact ⟨demanding shape rfl, .inr recursive⟩
  | _ => exact recursive

theorem Ty.Inlines.declared (inlines : t.Inlines ns q) :
    ∃ decl, PrivateSimple ns q decl ∧ isRecursive ns (.named q []) = false := by
  induction inlines with
  | here simple unnamed demanding => exact ⟨_, simple, not_recursive_of_unnamed unnamed demanding⟩
  | inside _ _ _ ih => exact ih

theorem Ty.Inlines.mem_refs (inlines : t.Inlines ns q) : q ∈ t.refs := by
  induction inlines with
  | here => exact mem_refs_iff.mpr (.inl ⟨[], rfl⟩)
  | inside _ child _ ih => exact mem_refs_of_child child ih

/-- `R` is kept by sequencing, and it does not matter to `R` that searches for methods end after
`limit` steps on one side and after `more` on the other. -/
structure Spelling.Compares (ns : Namespace) (limit more : Nat)
    (R : (α : Type) → Spelling α → Spelling α → Prop) : Prop extends Spelling.Congruence R where
  search : ∀ shape, methodSet limit ns shape = methodSet more ns shape ∨
    methodSet limit ns shape = none ∧ ∀ {α : Type} (s : Spelling α), R α (.fail .limitReached) s

namespace Spelling.Compares

variable {R : (α : Type) → Spelling α → Spelling α → Prop} {α : Type}
  (compares : Spelling.Compares ns limit more R)

include compares

theorem byMethods (shape : Interface Ty) {nothing something something' : Spelling α}
    (related : ¬ HasMethodSet ns shape [] → R α something something') :
    R α
      (match methodSet limit ns shape with
        | none => .fail .limitReached
        | some [] => nothing
        | some (_ :: _) => something)
      (match methodSet more ns shape with
        | none => .fail .limitReached
        | some [] => nothing
        | some (_ :: _) => something') := by
  rcases compares.search shape with same | ⟨stuck, below⟩
  · rw [same]
    cases found : methodSet more ns shape with
    | none => exact compares.refl _
    | some methods =>
        cases methods with
        | nil => exact compares.refl _
        | cons m rest => exact related (not_hasMethodSet_nil found)
  · rw [stuck]
    exact below _

theorem spellObligations (pairs : List (Ty × Ty)) :
    R Unit (Replica.spellObligations limit ns pairs) (Replica.spellObligations more ns pairs) := by
  induction pairs with
  | nil => exact compares.refl _
  | cons pair rest ih =>
      refine compares.bind ?_ fun _ => ih
      unfold spellObligation
      cases interfaceOf? ns pair.1 with
      | none => exact compares.refl _
      | some shape => exact compares.byMethods shape fun _ => compares.refl _

theorem spellApplied (base : QualName) (args : List Ty) (exprs : List Expr) :
    R Expr (Replica.spellApplied limit ns base args exprs)
      (Replica.spellApplied more ns base args exprs) := by
  unfold Replica.spellApplied
  cases ns.declaration? base with
  | none => exact compares.refl _
  | some decl =>
      refine compares.bind (compares.refl _) fun head => ?_
      split
      · exact compares.bind (compares.spellObligations _) fun _ => compares.refl _
      · exact compares.refl _

theorem spellPrivate {base : QualName} {underlying : Ty}
    (inlined : ¬ NeedsName ns base underlying → underlying.Demanding ns →
      R Expr (inline underlying) (inline' underlying)) :
    R Expr (Replica.spellPrivate limit ns inline base underlying)
      (Replica.spellPrivate more ns inline' base underlying) := by
  cases underlying with
  | struct fields => exact compares.refl _
  | interface shape =>
      refine compares.byMethods shape fun demanding => ?_
      split
      · exact compares.refl _
      · rename_i unnamed
        rw [Bool.or_eq_true] at unnamed
        refine inlined (fun needsName => unnamed needsName.2) ?_
        rintro shape' ⟨⟩
        exact demanding
  | _ =>
      simp only [Replica.spellPrivate]
      split
      · exact compares.refl _
      · rename_i acyclic
        exact inlined acyclic fun shape same => by cases same

theorem spellNamed {base : QualName} {args : List Ty} {spelled spelled' : Spelling (List Expr)}
    (given : R (List Expr) spelled spelled')
    (inlined : args = [] → ∀ decl, PrivateSimple ns base decl →
      ¬ NeedsName ns base decl.underlying → decl.underlying.Demanding ns →
      R Expr (inline decl.underlying) (inline' decl.underlying)) :
    R Expr (Replica.spellNamed limit ns inline base args spelled)
      (Replica.spellNamed more ns inline' base args spelled') := by
  unfold Replica.spellNamed
  split
  · rw [spellInstance_eq, spellInstance_eq]
    exact compares.bind given fun exprs => compares.spellApplied base args exprs
  · rename_i simple
    split
    · exact compares.refl _
    · rename_i hidden
      cases declared : ns.declaration? base with
      | none => exact compares.refl _
      | some decl =>
          simp only [declared, TypeDecl.isGeneric, Option.any_some, Bool.or_eq_true, not_or,
            Bool.not_eq_true, Bool.not_eq_false', List.isEmpty_iff] at simple hidden
          exact compares.spellPrivate (inlined simple.1 decl ⟨hidden, declared, simple.2⟩)

end Spelling.Compares

theorem spellWith_related {R : (α : Type) → Spelling α → Spelling α → Prop}
    (compares : Spelling.Compares ns limit more R)
    (inlined : ∀ q decl, t.Inlines ns q → PrivateSimple ns q decl →
      R Expr (inline decl.underlying) (inline' decl.underlying)) :
    R Expr (spellWith limit ns inline scope t) (spellWith more ns inline' scope t) := by
  induction t using Ty.induct with
  | step t ih =>
      have children (demanding : t.Demanding ns) : ∀ u ∈ t.children,
          R Expr (spellWith limit ns inline scope u) (spellWith more ns inline' scope u) :=
        fun u child => ih u child fun q decl inlines =>
          inlined q decl (.inside demanding child inlines)
      have plain (other : ∀ shape, t ≠ .interface shape) : t.Demanding ns :=
        fun shape same => absurd same (other shape)
      cases t with
      | basic name | param name | chan direction elem => exact compares.refl _
      | named base args =>
          unfold spellWith
          rw [spellAllWith_eq, spellAllWith_eq]
          apply compares.spellNamed (compares.each (children (plain (by simp))))
          rintro rfl decl simple unnamed demanding
          exact inlined base decl (.here simple unnamed demanding) simple
      | pointer elem => exact compares.map (children (plain (by simp)) elem List.mem_cons_self) _
      | slice elem => exact compares.map (children (plain (by simp)) elem List.mem_cons_self) _
      | array len elem => exact compares.map (children (plain (by simp)) elem List.mem_cons_self) _
      | map key value =>
          have first := children (plain (by simp)) key List.mem_cons_self
          have second := children (plain (by simp)) value
            (List.mem_cons_of_mem _ List.mem_cons_self)
          exact compares.bind first fun keyExpr => compares.map second _
      | struct fields =>
          unfold spellWith
          exact compares.map (compares.spellMembers (children (plain (by simp)))) _
      | interface shape =>
          unfold spellWith
          -- The parts of an interface only count if it asks for methods.
          refine compares.byMethods shape fun demanding => ?_
          have own : (Ty.interface shape).Demanding ns := by
            rintro shape' ⟨⟩
            exact demanding
          exact compares.map (compares.spellElements (children own)) _
      | func signature =>
          unfold spellWith
          exact compares.map (compares.spellSignature (children (plain (by simp)))) _

end Replica
