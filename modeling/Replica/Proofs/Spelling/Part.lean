import Replica.Proofs.Part
import Replica.Proofs.Spelling.Congruence

/-!
A type whose names all come from a closed part of a namespace is spelled as if there were nothing
but that part.
-/

namespace Replica

namespace Namespace.PartOf

variable {within : QualName → Prop} {part ns : Namespace} (partOf : part.PartOf ns within)
  {limit : Nat} {inline inline' : Ty → Spelling Expr} {scope : List String} {base : QualName}
  {args : List Ty}

include partOf

theorem spellObligation_eq {constraint arg : Ty}
    (every : Ty.Every (NamesWithin within) constraint) :
    spellObligation limit ns constraint arg = spellObligation limit part constraint arg := by
  rw [spellObligation, spellObligation, partOf.interfaceOf?_eq every.here]
  split
  · rfl
  · rename_i shape stands
    rw [partOf.methodSet_eq (partOf.interfaceOf?_within every stands)]

theorem spellObligations_eq {pairs : List (Ty × Ty)}
    (every : ∀ pair ∈ pairs, Ty.Every (NamesWithin within) pair.1) :
    spellObligations limit ns pairs = spellObligations limit part pairs := by
  induction pairs with
  | nil => rfl
  | cons pair rest ih =>
      rw [spellObligations, spellObligations,
        partOf.spellObligation_eq (every pair List.mem_cons_self),
        ih fun other member => every other (List.mem_cons_of_mem _ member)]

theorem spellApplied_eq (every : Ty.Every (NamesWithin within) (.named base args))
    (exprs : List Expr) :
    spellApplied limit ns base args exprs = spellApplied limit part base args exprs := by
  rw [spellApplied, spellApplied, partOf.same base every.here]
  split
  · rfl
  · rename_i decl declared
    have constraints : ∀ pair ∈ decl.constraints args,
        Ty.Every (NamesWithin within) pair.1 := by
      intro pair member
      obtain ⟨_, param, listed, same⟩ := mem_constraints member
      rw [same]
      exact partOf.inherited.instantiate [] base args decl param.type every declared
        (partOf.constraint base decl declared param listed)
    rw [partOf.spellObligations_eq constraints]

theorem spellPrivate_eq {decl : TypeDecl} (declared : part.declaration? base = some decl)
    (same : inline decl.underlying = inline' decl.underlying) :
    spellPrivate limit ns inline base decl.underlying =
      spellPrivate limit part inline' base decl.underlying := by
  have every := partOf.underlying base decl declared
  have recursive := partOf.isRecursive_eq (partOf.inside base decl declared)
  generalize decl.underlying = underlying at every same
  cases underlying with
  | struct fields => rfl
  | interface shape =>
      rw [spellPrivate, spellPrivate, partOf.methodSet_eq every, recursive, same]
  | _ => simp only [spellPrivate, recursive, same]

theorem spellNamed_eq (every : Ty.Every (NamesWithin within) (.named base args))
    (inlined : ∀ t, Ty.Every (NamesWithin within) t → inline t = inline' t)
    (spelledArgs : Spelling (List Expr)) :
    spellNamed limit ns inline base args spelledArgs =
      spellNamed limit part inline' base args spelledArgs := by
  have applied : spellInstance limit ns base args spelledArgs =
      spellInstance limit part base args spelledArgs := by
    rw [spellInstance_eq, spellInstance_eq]
    congr 1
    funext exprs
    exact partOf.spellApplied_eq every exprs
  rw [spellNamed, spellNamed, applied, partOf.same base every.here]
  split
  · rfl
  · split
    · rfl
    · split
      · rfl
      · rename_i decl declared
        exact partOf.spellPrivate_eq declared
          (inlined decl.underlying (partOf.underlying base decl declared))

theorem spellWith_eq (inlined : ∀ t, Ty.Every (NamesWithin within) t → inline t = inline' t)
    {t : Ty} (every : Ty.Every (NamesWithin within) t) :
    spellWith limit ns inline scope t = spellWith limit part inline' scope t := by
  induction t using Ty.induct with
  | step t ih =>
      have children : ∀ u ∈ t.children,
          spellWith limit ns inline scope u = spellWith limit part inline' scope u :=
        fun u child => ih u child (every.child child)
      cases t with
      | basic name | param name | chan direction elem => rfl
      | named base args =>
          have given : Spelling.each (spellWith limit ns inline scope) args =
              Spelling.each (spellWith limit part inline' scope) args :=
            Spelling.Congruence.eq.each children
          rw [spellWith, spellWith, spellAllWith_eq, spellAllWith_eq, given]
          exact partOf.spellNamed_eq every inlined _
      | pointer elem | slice elem | array len elem =>
          rw [spellWith, spellWith, children elem List.mem_cons_self]
      | map key value =>
          have first := children key List.mem_cons_self
          have second := children value (List.mem_cons_of_mem _ List.mem_cons_self)
          rw [spellWith, spellWith, first, second]
      | struct fields => rw [spellWith, spellWith, Spelling.Congruence.eq.spellMembers children]
      | interface shape =>
          rw [spellWith, spellWith, partOf.methodSet_eq every, Spelling.Congruence.eq.spellElements children]
      | func signature => rw [spellWith, spellWith, Spelling.Congruence.eq.spellSignature children]

theorem spellInline_eq (depth : Nat) {t : Ty} (every : Ty.Every (NamesWithin within) t) :
    spellInline limit ns depth t = spellInline limit part depth t := by
  induction depth generalizing t with
  | zero => rfl
  | succ depth ih =>
      rw [spellInline, spellInline]
      exact partOf.spellWith_eq (fun u => ih) every

theorem spell_eq {t : Ty} (every : Ty.Every (NamesWithin within) t) :
    spell limit ns scope t = spell limit part scope t :=
  partOf.spellWith_eq (fun _ => partOf.spellInline_eq limit) every

theorem spellSignature_eq {s : Signature Ty}
    (every : ∀ t ∈ s.types, Ty.Every (NamesWithin within) t) :
    spellSignature limit ns scope s = spellSignature limit part scope s :=
  Spelling.Congruence.eq.spellSignature fun t member => partOf.spell_eq (every t member)

theorem spellBody_eq {t : Ty} (every : Ty.Every (NamesWithin within) t) :
    spellBody limit ns scope t = spellBody limit part scope t := by
  have children : ∀ u ∈ t.children, spell limit ns scope u = spell limit part scope u :=
    fun u child => partOf.spell_eq (every.child child)
  cases t with
  | struct fields =>
      rw [spellBody, spellBody, spellMembers, spellMembers, Spelling.Congruence.eq.spellMembers children]
  | interface shape =>
      rw [spellBody, spellBody, spellElements, spellElements, Spelling.Congruence.eq.spellElements children]
  | _ => simp only [spellBody, partOf.spell_eq every]

theorem spellDecl_eq {q : QualName} {decl : TypeDecl} (declared : part.declaration? q = some decl) :
    spellDecl limit ns q decl = spellDecl limit part q decl := by
  have params : spellConstraints limit ns decl.paramNames decl.params =
      spellConstraints limit part decl.paramNames decl.params := by
    rw [spellConstraints, spellConstraints, spellParamsWith_eq, spellParamsWith_eq]
    apply Spelling.Congruence.eq.spellFields
    intro t member
    obtain ⟨param, listed, rfl⟩ := List.mem_map.mp member
    exact partOf.spell_eq (partOf.constraint q decl declared param listed)
  rw [spellDecl, spellDecl, params, partOf.spellBody_eq (partOf.underlying q decl declared)]

end Namespace.PartOf

end Replica
