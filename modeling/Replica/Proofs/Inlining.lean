import Replica.Proofs.Part
import Replica.Proofs.Run.Ending
import Replica.Proofs.Spelling.Comparison

/-!
Types in place of private names, inside each other. A type is put in place only if it does not reach
itself, and all that the speller follows from there is what the search for recursive types follows.
Main statement: so no declaration is put in place inside of itself, and spelling always ends.
-/

namespace Replica

open Filter

variable {ns : Namespace} {limit depth more : Nat} {scope : List String} {q r : QualName} {t : Ty}
  {chain : List QualName}

/-- `chain` lists private names in whose places types are put inside each other: the first is in
`t`, and each further one in what the one before it is declared as. -/
inductive Ty.InlinesAlong (ns : Namespace) : Ty → List QualName → Prop where
  | nil {t : Ty} : Ty.InlinesAlong ns t []
  | cons {t : Ty} {q : QualName} {decl : TypeDecl} {chain : List QualName}
      (first : t.Inlines ns q) (declared : ns.declaration? q = some decl)
      (rest : Ty.InlinesAlong ns decl.underlying chain) : Ty.InlinesAlong ns t (q :: chain)

theorem Ty.InlinesAlong.declared (along : t.InlinesAlong ns chain) (member : q ∈ chain) :
    ∃ decl, PrivateSimple ns q decl ∧ isRecursive ns (.named q []) = false := by
  induction along with
  | nil => exact absurd member List.not_mem_nil
  | cons first _ _ ih =>
      rcases List.mem_cons.mp member with rfl | later
      · exact first.declared
      · exact ih later

theorem Ty.InlinesAlong.isChain (along : t.InlinesAlong ns chain) : chain.IsChain (Refers ns) := by
  induction along with
  | nil => exact .nil
  | cons _ declared rest ih =>
      cases rest with
      | nil => exact .singleton _
      | cons next _ _ => exact .cons_cons ⟨_, declared, next.mem_refs⟩ ih

theorem Ty.InlinesAlong.not_reaches_self (plain : ns.PlainNames) (along : t.InlinesAlong ns chain)
    (member : q ∈ chain) : ¬ Relation.TransGen (Refers ns) q q := by
  intro cycle
  obtain ⟨_, _, acyclic⟩ := along.declared member
  obtain ⟨r, ⟨decl, declared, inside⟩, path⟩ := Relation.TransGen.head'_iff.mp cycle
  exact not_reached_of_not_recursive plain declared acyclic inside path

theorem Ty.InlinesAlong.nodup (plain : ns.PlainNames) (along : t.InlinesAlong ns chain) :
    chain.Nodup := by
  have steps : chain.IsChain (Relation.TransGen (Refers ns)) :=
    along.isChain.imp fun _ _ => .single
  -- Any two places of the chain are joined by a way, which for a repetition would be a cycle.
  have reaches : chain.Pairwise (Relation.TransGen (Refers ns)) :=
    List.isChain_iff_pairwise.mp steps
  refine reaches.imp_of_mem ?_
  rintro p _ member _ path rfl
  exact along.not_reaches_self plain member path

theorem Ty.InlinesAlong.length_le (plain : ns.PlainNames) (along : t.InlinesAlong ns chain) :
    chain.length ≤ ns.declaredTypes.length := by
  have listed : chain ⊆ ns.declaredTypes := by
    intro q member
    obtain ⟨decl, simple, _⟩ := along.declared member
    exact Namespace.mem_declaredTypes simple.2.1
  exact ((along.nodup plain).subperm listed).length_le

theorem Spelling.compares_eq : Spelling.Compares ns limit limit fun _ => Eq where
  toCongruence := .eq
  search _ := .inl rfl

def Ty.InlinesWithin (ns : Namespace) (depth : Nat) (t : Ty) : Prop :=
  ∀ chain, t.InlinesAlong ns chain → chain.length ≤ depth

theorem spellWith_of_inlinesWithin (within : t.InlinesWithin ns depth) (le : depth ≤ more) :
    spellWith limit ns (spellInline limit ns more) scope t =
      spellWith limit ns (spellInline limit ns depth) scope t := by
  induction depth generalizing t scope more with
  | zero =>
      refine spellWith_related Spelling.compares_eq fun q decl inlines simple => ?_
      exact absurd (within [q] (.cons inlines simple.2.1 .nil)) (by simp)
  | succ depth ih =>
      refine spellWith_related Spelling.compares_eq fun q decl inlines simple => ?_
      obtain ⟨more, rfl⟩ := Nat.exists_eq_add_of_lt le
      have inner : decl.underlying.InlinesWithin ns depth := fun chain along =>
        Nat.le_of_succ_le_succ (within (q :: chain) (.cons inlines simple.2.1 along))
      exact ih inner (by omega)

/-- In a namespace whose type names have no dots and in which embedding is finite, every type is
spelled or fails to be, in any context. The declarations whose types are put in place inside each
other are distinct: none of them reaches itself by what the search for recursive types follows, and
each follows from the one before. So no more of them are inside each other than are declared, and
what is put elsewhere does not matter. -/
theorem spelling_ends (plain : ns.PlainNames) (finite : ns.FiniteEmbedding) (t : Ty)
    (scope : List String) (c : Context) (owner : String) :
    (∃ bound c' result, (∀ limit ≥ bound, c.settle owner (spell limit ns scope t) = (c', result)) ∧
      ∀ e, result = .error e → ¬ e.Limited) ∧
    (∀ chain, t.InlinesAlong ns chain → chain.Nodup ∧ chain.IsChain (Refers ns) ∧
      ∀ q ∈ chain, isRecursive ns (.named q []) = false ∧ ¬ Relation.TransGen (Refers ns) q q) ∧
    (∀ limit, ∀ depth ≥ ns.declaredTypes.length,
      spellWith limit ns (spellInline limit ns depth) scope t =
        spellWith limit ns (spellInline limit ns ns.declaredTypes.length) scope t) ∧
    ∀ limit inline inline', (∀ q decl, t.Inlines ns q → PrivateSimple ns q decl →
      inline decl.underlying = inline' decl.underlying) →
      spellWith limit ns inline scope t = spellWith limit ns inline' scope t := by
  refine ⟨?_, fun chain along => ⟨along.nodup plain, along.isChain, fun q member => ?_⟩, ?_,
    fun limit inline inline' => spellWith_related Spelling.compares_eq⟩
  · have lenient : Lenient (· ≠ .limitReached) := fun _ => id
    have every : Ty.Every (ProperUnless (· ≠ .limitReached) ns scope) t :=
      every_properUnless lenient t
    have converges := spell_converges (.of_lenient lenient plain finite) every
    obtain ⟨⟨c', result⟩, fine, eventually⟩ := converges.settle c owner
    obtain ⟨bound, same⟩ := eventually_atTop.mp eventually
    exact ⟨bound, c', result, same, fine⟩
  · obtain ⟨_, _, acyclic⟩ := along.declared member
    exact ⟨acyclic, along.not_reaches_self plain member⟩
  · intro limit depth enough
    exact spellWith_of_inlinesWithin (fun chain along => along.length_le plain) enough

def walks : Namespace where
  module := "lib"
  packages := [
    { path := "lib"
      types := [
        { name := "path", underlying := .slice (.named ⟨"lib", "stride"⟩ []) },
        { name := "stride"
          underlying := .map (.named ⟨"lib", "unit"⟩ []) (.named ⟨"lib", "visit"⟩ []) },
        { name := "unit", underlying := .basic "int" },
        { name := "visit", underlying := .func ⟨[⟨"", .named ⟨"lib", "visit"⟩ []⟩], [], false⟩ }] }]

theorem walks_declared {decl : TypeDecl} (declared : walks.declaration? q = some decl) :
    q ∈ [⟨"lib", "path"⟩, ⟨"lib", "stride"⟩, ⟨"lib", "unit"⟩, (⟨"lib", "visit"⟩ : QualName)] :=
  Namespace.mem_declaredTypes declared

theorem walks_plain (member : q.name ∈ ["path", "stride", "unit", "visit"]) : q.Plain := by
  have dotless : ∀ name ∈ ["path", "stride", "unit", "visit"], '.' ∉ name.toList := by decide
  exact dotless q.name member

theorem walks_plainNames : walks.PlainNames := by
  intro q decl declared
  have named := walks_declared declared
  simp only [List.mem_cons, List.not_mem_nil, or_false] at named
  rcases named with rfl | rfl | rfl | rfl
  all_goals
    cases declared
    refine ⟨walks_plain (by decide), fun r member => walks_plain ?_⟩
    revert r
    decide

theorem walks_finiteEmbedding : walks.FiniteEmbedding := by
  apply finiteEmbedding_of_flat
  intro base args shape stands
  cases declared : walks.declaration? base with
  | none =>
      rw [interfaceOf?, declared] at stands
      cases stands
  | some decl =>
      rw [interfaceOf?, declared] at stands
      have named := walks_declared declared
      simp only [List.mem_cons, List.not_mem_nil, or_false] at named
      rcases named with rfl | rfl | rfl | rfl <;> (cases declared; cases stands)

theorem walks_not_recursive {name : String} (member : name ∈ ["path", "stride", "unit"]) :
    isRecursive walks (.named ⟨"lib", name⟩ []) = false := by
  have search : isRecursive walks (.named ⟨"lib", name⟩ []) =
      reaches walks (QualName.mk "lib" name).qualified [(QualName.mk "lib" name).qualified]
        (walks.references ⟨"lib", name⟩) := rfl
  have strides : walks.references ⟨"lib", "path"⟩ = [⟨"lib", "stride"⟩] := rfl
  have units : walks.references ⟨"lib", "stride"⟩ = [⟨"lib", "unit"⟩, ⟨"lib", "visit"⟩] := rfl
  have numbers : walks.references ⟨"lib", "unit"⟩ = [] := rfl
  have visits : walks.references ⟨"lib", "visit"⟩ = [⟨"lib", "visit"⟩] := rfl
  simp only [List.mem_cons, List.not_mem_nil, or_false] at member
  rcases member with rfl | rfl | rfl <;>
    simp [search, reaches_cons, reaches, strides, units, numbers, visits, QualName.qualified]

theorem walks_inlines {name : String} {decl : TypeDecl} (member : name ∈ ["path", "stride", "unit"])
    (declared : walks.declaration? ⟨"lib", name⟩ = some decl) :
    (Ty.named ⟨"lib", name⟩ []).Inlines walks ⟨"lib", name⟩ := by
  have acyclic := walks_not_recursive member
  have hidden : ∀ name ∈ ["path", "stride", "unit"], (QualName.mk "lib" name).isPublic = false := by
    decide
  refine .here ⟨hidden name member, declared, ?_⟩ ?_ ?_
  all_goals
    simp only [List.mem_cons, List.not_mem_nil, or_false] at member
    rcases member with rfl | rfl | rfl <;> cases declared
  all_goals simp [NeedsName, Ty.Demanding, acyclic]

theorem walks_along : (Ty.named ⟨"lib", "path"⟩ []).InlinesAlong walks
    [⟨"lib", "path"⟩, ⟨"lib", "stride"⟩, ⟨"lib", "unit"⟩] := by
  have strides : (Ty.named ⟨"lib", "stride"⟩ []).Inlines walks ⟨"lib", "stride"⟩ :=
    walks_inlines (by decide) rfl
  have units : (Ty.named ⟨"lib", "unit"⟩ []).Inlines walks ⟨"lib", "unit"⟩ :=
    walks_inlines (by decide) rfl
  refine .cons (walks_inlines (by decide) rfl) rfl (.cons ?_ rfl (.cons ?_ rfl .nil))
  · exact .inside (fun _ same => by cases same) List.mem_cons_self strides
  · exact .inside (fun _ same => by cases same) List.mem_cons_self units

theorem walks_spelling_ends :
    (∃ bound c' result,
      (∀ limit ≥ bound, ({} : Context).settle "lib.Map" (spell limit walks []
        (.named ⟨"lib", "path"⟩ [])) = (c', result)) ∧ ∀ e, result = .error e → ¬ e.Limited) ∧
    (Ty.named ⟨"lib", "path"⟩ []).InlinesAlong walks
      [⟨"lib", "path"⟩, ⟨"lib", "stride"⟩, ⟨"lib", "unit"⟩] ∧
    ¬ Relation.TransGen (Refers walks) ⟨"lib", "stride"⟩ ⟨"lib", "stride"⟩ := by
  obtain ⟨ends, distinct, _⟩ := spelling_ends walks_plainNames walks_finiteEmbedding
    (.named ⟨"lib", "path"⟩ []) [] {} "lib.Map"
  obtain ⟨_, _, acyclic⟩ := distinct _ walks_along
  exact ⟨ends, walks_along, (acyclic ⟨"lib", "stride"⟩ (by decide)).2⟩

end Replica
