import Replica.Proofs.Settling
import Replica.Proofs.Spelling.Spelled
import Replica.Proofs.WellFormed

/-!
Every type is spelled, or fails to be: with limits that are large enough the speller comes to one
answer, which is not that a limit was reached, and proper types do not fail. Types in place of
private names are the reason for a second limit; a path through them passes each declaration once.
-/

namespace Replica

open Filter

/-- Along `l` a spelling comes to be one and the same, and only fails with an error that is
allowed. -/
def Converges {ι α : Type} (allowed : SpellingError → Prop) (l : Filter ι) (f : ι → Spelling α) :
    Prop :=
  Settles l (fun s => Allows allowed s.outcome) f

def Lenient (allowed : SpellingError → Prop) : Prop := ∀ e, e ≠ .limitReached → allowed e

namespace Converges

variable {ι κ α β : Type} {allowed : SpellingError → Prop} {l : Filter ι} {f : ι → Spelling α}
  {g : ι → α → Spelling β}

theorem const (needs : List Need) (a : α) : Converges allowed l fun _ => ⟨needs, .ok a⟩ :=
  Settles.const (allows_ok a)

theorem pure (a : α) : Converges allowed l fun _ => (Pure.pure a : Spelling α) := .const [] a

theorem fail {e : SpellingError} (lenient : Lenient allowed) (other : e ≠ .limitReached) :
    Converges allowed l fun _ => (.fail e : Spelling α) :=
  Settles.const (allows_error (lenient e other))

theorem congr {f' : ι → Spelling α} (first : Converges allowed l f) (same : ∀ᶠ i in l, f' i = f i) :
    Converges allowed l f' := Settles.congr first same

theorem comp {l' : Filter κ} {φ : κ → ι} (first : Converges allowed l f)
    (tends : Tendsto φ l' l) : Converges allowed l' fun k => f (φ k) := Settles.comp first tends

theorem bind (first : Converges allowed l f) (next : ∀ a, Converges allowed l fun i => g i a) :
    Converges allowed l fun i => f i >>= g i := by
  obtain ⟨⟨before, outcome⟩, fine, first⟩ := first
  cases outcome with
  | error e =>
      refine ⟨⟨before, .error e⟩, allows_error (fine e rfl), ?_⟩
      filter_upwards [first] with i found
      rw [found]
      rfl
  | ok a =>
      obtain ⟨⟨after, outcome⟩, fine', second⟩ := next a
      refine ⟨⟨before ++ after, outcome⟩, fine', ?_⟩
      filter_upwards [first, second] with i left right
      change (f i).andThen (g i) = _
      simp only [left, Spelling.andThen, right]

theorem map (first : Converges allowed l f) (wrap : α → β) :
    Converges allowed l fun i => do return wrap (← f i) :=
  first.bind fun a => .pure (wrap a)

theorem each {h : ι → α → Spelling β} {as : List α}
    (every : ∀ a ∈ as, Converges allowed l fun i => h i a) :
    Converges allowed l fun i => Spelling.each (h i) as := by
  induction as with
  | nil => exact .pure []
  | cons a rest ih =>
      have head := every a List.mem_cons_self
      have tail := ih fun b member => every b (List.mem_cons_of_mem _ member)
      exact head.bind fun b => tail.map (b :: ·)

end Converges

variable {ns : Namespace} {ι : Type} {allowed : SpellingError → Prop} {l : Filter ι}
  {limit : ι → Nat} {inline : ι → Ty → Spelling Expr} {scope : List String}

theorem spellFields_converges {fields : List (Field Ty)} (each : ∀ t ∈ fields.map (·.type),
    Converges allowed l fun i => spellWith (limit i) ns (inline i) scope t) :
    Converges allowed l fun i =>
      Spelling.each (spellFieldWith (limit i) ns (inline i) scope) fields := by
  apply Converges.each
  intro field member
  have inner := each field.type (List.mem_map.mpr ⟨field, member, rfl⟩)
  exact inner.map fun expr => (⟨field.name, expr⟩ : Field Expr)

theorem spellMembersWith_converges {fields : List (Field Ty)} (each : ∀ t ∈ fields.map (·.type),
    Converges allowed l fun i => spellWith (limit i) ns (inline i) scope t) :
    Converges allowed l fun i => spellMembersWith (limit i) ns (inline i) scope 0 fields := by
  simp only [spellMembersWith_eq]
  apply Converges.each
  intro place member
  have inside : place.1 ∈ fields := List.fst_mem_of_mem_zipIdx member
  have inner := each place.1.type (List.mem_map.mpr ⟨place.1, inside, rfl⟩)
  exact inner.map fun expr =>
    (⟨memberName place.1.name place.1.type, expr, place.2⟩ : Member Expr)

theorem spellSignatureWith_converges {s : Signature Ty}
    (ended : isOpenVariadic s = false ∨ Lenient allowed)
    (each : ∀ t ∈ s.types, Converges allowed l fun i => spellWith (limit i) ns (inline i) scope t) :
    Converges allowed l fun i => spellSignatureWith (limit i) ns (inline i) scope s := by
  simp only [spellSignatureWith_eq]
  split
  · rename_i openEnded
    exact .fail (ended.resolve_left (by simp [openEnded])) (by simp)
  have params := spellFields_converges fun t member => each t (List.mem_append_left _ member)
  have results := spellFields_converges fun t member => each t (List.mem_append_right _ member)
  exact params.bind fun paramExprs =>
    results.map fun resultExprs => (⟨paramExprs, resultExprs, s.variadic⟩ : Signature Expr)

theorem spellElementsWith_converges {shape : Interface Ty}
    (ended : (∀ m ∈ shape.methods, isOpenVariadic m.signature = false) ∨ Lenient allowed)
    (each : ∀ t ∈ shape.types,
      Converges allowed l fun i => spellWith (limit i) ns (inline i) scope t) :
    Converges allowed l fun i => spellElementsWith (limit i) ns (inline i) scope shape := by
  simp only [spellElementsWith_eq]
  have embedded : Converges allowed l fun i =>
      Spelling.each (spellWith (limit i) ns (inline i) scope) shape.embedded :=
    .each fun t member => each t (List.mem_append_left _ member)
  have methods : Converges allowed l fun i =>
      Spelling.each (spellMethodWith (limit i) ns (inline i) scope) shape.methods := by
    apply Converges.each
    intro m member
    have inner := spellSignatureWith_converges (ended.imp_left fun all => all m member)
      fun t inside => each t (Interface.mem_types_of_method member inside)
    exact inner.map (Element.method m.name)
  exact embedded.bind fun exprs => methods.map (exprs.map Element.embedded ++ ·)

def ProperUnless (allowed : SpellingError → Prop) (ns : Namespace) (scope : List String)
    (t : Ty) : Prop :=
  Proper ns scope t ∨ Lenient allowed

section

variable (finite : ns.FiniteEmbedding) (tends : Tendsto limit l atTop)

include finite tends

theorem methodSet_converges (shape : Interface Ty) :
    ∃ methods, HasMethodSet ns shape methods ∧
      ∀ᶠ i in l, methodSet (limit i) ns shape = some methods := by
  obtain ⟨methods, has⟩ := exists_hasMethodSet finite shape
  exact ⟨methods, has, tends.eventually has.eventually⟩

theorem spellObligation_converges (constraint arg : Ty) :
    Converges allowed l fun i => spellObligation (limit i) ns constraint arg := by
  unfold spellObligation
  cases interfaceOf? ns constraint with
  | none => exact .pure ()
  | some shape =>
      obtain ⟨methods, _, demands⟩ := methodSet_converges finite tends shape
      cases methods with
      | nil =>
          apply (Converges.pure ()).congr
          filter_upwards [demands] with i found
          simp only [found]
      | cons m rest =>
          apply (Converges.const [.obligation ⟨shape, arg⟩] ()).congr
          filter_upwards [demands] with i found
          simp only [found]
          rfl

theorem spellObligations_converges (pairs : List (Ty × Ty)) :
    Converges allowed l fun i => spellObligations (limit i) ns pairs := by
  induction pairs with
  | nil => exact .pure ()
  | cons pair rest ih =>
      exact (spellObligation_converges finite tends pair.1 pair.2).bind fun _ => ih

theorem spellApplied_converges {base : QualName} {args : List Ty}
    (resolves : Resolves ns base args ∨ Lenient allowed) (exprs : List Expr) :
    Converges allowed l fun i => spellApplied (limit i) ns base args exprs := by
  unfold spellApplied
  cases declared : ns.declaration? base with
  | none =>
      by_cases exported : base.isPublic = true
      · simp only [exported, if_true]
        exact .const [.package base.package] ((Expr.qualified base).apply exprs)
      · have lenient : Lenient allowed := resolves.resolve_left fun resolves => by
          obtain ⟨decl, found⟩ := resolves.declared (by simpa using exported)
          rw [declared] at found
          cases found
        simp only [exported]
        exact .fail lenient (by simp)
  | some decl =>
      have head : Converges allowed l fun _ => spellHead base := by
        unfold spellHead
        by_cases exported : base.isPublic = true
        · simp only [exported, if_true]
          exact .const [.package base.package] (Expr.qualified base)
        · simp only [exported]
          exact .const [.replica base] (Expr.ident base.flat)
      apply head.bind
      intro expr
      by_cases arity : decl.params.length = args.length
      · simp only [arity, if_true]
        exact (spellObligations_converges finite tends _).bind fun _ => .pure _
      · simp only [arity, if_false]
        refine .fail (resolves.resolve_left fun resolves => ?_) (by simp)
        exact arity (resolves.arity decl declared)

theorem spellPrivate_converges {base : QualName} {underlying : Ty}
    (inlined : isRecursive ns (.named base []) = false →
      Converges allowed l fun i => inline i underlying) :
    Converges allowed l fun i => spellPrivate (limit i) ns (inline i) base underlying := by
  have outlined : Converges allowed l fun _ => spellReplica base :=
    .const [.replica base] (Expr.ident base.flat)
  cases underlying with
  | struct fields => exact outlined
  | interface shape =>
      obtain ⟨methods, has, demands⟩ := methodSet_converges finite tends shape
      unfold spellPrivate
      cases methods with
      | nil =>
          apply (Converges.pure (Expr.ident "any")).congr
          filter_upwards [demands] with i found
          simp only [found]
      | cons m rest =>
          by_cases named : (exposesPrivateMember shape || isRecursive ns (.named base [])) = true
          · apply outlined.congr
            filter_upwards [demands] with i found
            simp only [found, named, if_true]
          · have acyclic : isRecursive ns (.named base []) = false := by
              rw [Bool.or_eq_true, not_or] at named
              simpa using named.2
            apply (inlined acyclic).congr
            filter_upwards [demands] with i found
            simp only [found, named]
            rfl
  | _ =>
      unfold spellPrivate
      by_cases recursive : isRecursive ns (.named base []) = true
      · simp only [recursive, if_true]
        exact outlined
      · simp only [recursive]
        exact inlined (by simpa using recursive)

theorem spellNamed_converges {base : QualName} {args : List Ty}
    (resolves : Resolves ns base args ∨ Lenient allowed)
    {spelledArgs : ι → Spelling (List Expr)} (given : Converges allowed l spelledArgs)
    (inlined : ∀ decl, PrivateSimple ns base decl → isRecursive ns (.named base []) = false →
      Converges allowed l fun i => inline i decl.underlying) :
    Converges allowed l fun i => spellNamed (limit i) ns (inline i) base args (spelledArgs i) := by
  unfold spellNamed
  by_cases generic : (!args.isEmpty || (ns.declaration? base).any (·.isGeneric)) = true
  · simp only [generic, if_true, spellInstance_eq]
    exact given.bind fun exprs => spellApplied_converges finite tends resolves exprs
  · simp only [generic]
    by_cases exported : base.isPublic = true
    · simp only [exported, if_true]
      exact .const [.package base.package] (Expr.qualified base)
    · have hidden : base.isPublic = false := by simpa using exported
      simp only [exported]
      cases declared : ns.declaration? base with
      | none =>
          have lenient : Lenient allowed := resolves.resolve_left fun resolves => by
            obtain ⟨decl, found⟩ := resolves.declared hidden
            rw [declared] at found
            cases found
          exact .fail lenient (by simp)
      | some decl =>
          have simple : PrivateSimple ns base decl := by
            refine ⟨hidden, declared, ?_⟩
            simp only [declared, TypeDecl.isGeneric, Option.any_some, Bool.or_eq_true,
              not_or] at generic
            simpa using generic.2
          exact spellPrivate_converges finite tends (inlined decl simple)

theorem spellWith_converges {t : Ty} (every : Ty.Every (ProperUnless allowed ns scope) t)
    (inlined : ∀ base ∈ t.refs, ∀ decl, PrivateSimple ns base decl →
      isRecursive ns (.named base []) = false →
      Converges allowed l fun i => inline i decl.underlying) :
    Converges allowed l fun i => spellWith (limit i) ns (inline i) scope t := by
  induction t using Ty.induct with
  | step t ih =>
      have children : ∀ u ∈ t.children,
          Converges allowed l fun i => spellWith (limit i) ns (inline i) scope u := by
        intro u child
        apply ih u child (every.child child)
        intro base member
        exact inlined base (Ty.mem_refs_of_child child member)
      cases t with
      | basic name => exact .pure (Expr.ident name)
      | param name =>
          unfold spellWith
          by_cases bound : name ∈ scope
          · simp only [bound, if_true]
            exact .pure (Expr.ident name)
          · simp only [bound, if_false]
            exact .fail (every.here.resolve_left bound) (by simp)
      | named base args =>
          unfold spellWith
          simp only [spellAllWith_eq]
          apply spellNamed_converges finite tends every.here (.each children)
          exact inlined base (Ty.mem_refs_iff.mpr (.inl ⟨args, rfl⟩))
      | pointer elem => exact (children elem List.mem_cons_self).map Expr.pointer
      | slice elem => exact (children elem List.mem_cons_self).map Expr.slice
      | array len elem => exact (children elem List.mem_cons_self).map (Expr.array len)
      | map key value =>
          have first := children key List.mem_cons_self
          have second := children value (List.mem_cons_of_mem _ List.mem_cons_self)
          exact first.bind fun keyExpr => second.map (Expr.map keyExpr)
      | chan direction elem => exact .fail (every.here.resolve_left id) (by simp)
      | struct fields =>
          unfold spellWith
          exact (spellMembersWith_converges children).map Expr.struct
      | interface shape =>
          obtain ⟨methods, _, demands⟩ := methodSet_converges finite tends shape
          unfold spellWith
          cases methods with
          | nil =>
              apply (Converges.pure (Expr.ident "any")).congr
              filter_upwards [demands] with i found
              simp only [found]
          | cons m rest =>
              have elements := (spellElementsWith_converges every.here children).map Expr.interface
              apply elements.congr
              filter_upwards [demands] with i found
              simp only [found]
      | func signature =>
          unfold spellWith
          exact (spellSignatureWith_converges every.here children).map Expr.func

end

structure Namespace.Admits (allowed : SpellingError → Prop) (ns : Namespace) : Prop where
  plain : ns.PlainNames
  finite : ns.FiniteEmbedding
  underlying : ∀ q decl, ns.declaration? q = some decl →
    Ty.Every (ProperUnless allowed ns decl.paramNames) decl.underlying
  constraint : ∀ q decl, ns.declaration? q = some decl → ∀ param ∈ decl.params,
    Ty.Every (ProperUnless allowed ns decl.paramNames) param.type

theorem Namespace.WellFormed.admits (wf : ns.WellFormed) : ns.Admits allowed where
  plain := wf.plainNames
  finite := wf.finite
  underlying q decl declared := (wf.underlying q decl declared).imp fun _ => .inl
  constraint q decl declared param member :=
    (wf.constraint q decl declared param member).imp fun _ => .inl

theorem every_properUnless (lenient : Lenient allowed) (t : Ty) :
    Ty.Every (ProperUnless allowed ns scope) t := by
  induction t using Ty.induct with
  | step t ih => exact ⟨.inr lenient, ih⟩

theorem Namespace.Admits.of_lenient (lenient : Lenient allowed) (plain : ns.PlainNames)
    (finite : ns.FiniteEmbedding) : ns.Admits allowed :=
  ⟨plain, finite, fun _ _ _ => every_properUnless lenient _,
    fun _ _ _ _ _ => every_properUnless lenient _⟩

section

variable (admits : ns.Admits allowed)

include admits

/-- The type that a private name stands for is spelled in its place. `path` holds the names that are
being replaced; none of them can be met again. -/
theorem spellInline_converges {base : QualName} {decl : TypeDecl}
    (simple : PrivateSimple ns base decl) (acyclic : isRecursive ns (.named base []) = false)
    (path : List QualName) (plain : ∀ p ∈ path, p.Plain)
    (apart : ∀ p ∈ path, ¬ Relation.ReflTransGen (Refers ns) base p) :
    Converges allowed atTop fun i : Nat × Nat => spellInline i.1 ns i.2 decl.underlying := by
  have plainBase : base.Plain := (admits.plain base decl simple.2.1).1
  -- This bounds the recursion: the path grows by a declared name that was not in it.
  have fresh : base.qualified ∉ path.map QualName.qualified := by
    intro member
    obtain ⟨p, inside, same⟩ := List.mem_map.mp member
    have eq : p = base := QualName.qualified_inj (plain p inside) plainBase same
    subst eq
    exact apart p inside .refl
  have every : Ty.Every (ProperUnless allowed ns []) decl.underlying := by
    have own := admits.underlying base decl simple.2.1
    rwa [TypeDecl.paramNames, simple.2.2] at own
  have inner : Converges allowed atTop fun i : Nat × Nat =>
      spellWith i.1 ns (spellInline i.1 ns i.2) [] decl.underlying := by
    apply spellWith_converges admits.finite tendsto_first every
    intro next member decl' simple' acyclic'
    have plain' : ∀ p ∈ base :: path, p.Plain := by
      intro p inside
      rcases List.mem_cons.mp inside with rfl | earlier
      · exact plainBase
      · exact plain p earlier
    have apart' : ∀ p ∈ base :: path, ¬ Relation.ReflTransGen (Refers ns) next p := by
      intro p inside chain
      rcases List.mem_cons.mp inside with rfl | earlier
      · exact not_reached_of_not_recursive admits.plain simple.2.1 acyclic member chain
      · have first : Refers ns base next := ⟨decl, simple.2.1, member⟩
        exact apart p earlier (.head first chain)
    exact spellInline_converges simple' acyclic' (base :: path) plain' apart'
  apply (inner.comp tendsto_shorter).congr
  filter_upwards [eventually_succ] with i positive
  obtain ⟨depth, eq⟩ := positive
  rw [eq]
  rfl
termination_by unseen ns.declaredNames (path.map QualName.qualified)
decreasing_by exact unseen_extend_lt (Namespace.qualified_mem_declaredNames simple.2.1) fresh

theorem spell_converges {t : Ty} (every : Ty.Every (ProperUnless allowed ns scope) t) :
    Converges allowed atTop fun limit => spell limit ns scope t := by
  unfold spell
  apply spellWith_converges admits.finite tendsto_id every
  intro base member decl simple acyclic
  have inPlace := spellInline_converges admits simple acyclic []
    (fun p inside => absurd inside List.not_mem_nil) fun p inside => absurd inside List.not_mem_nil
  exact inPlace.comp tendsto_atTop_diagonal

theorem spellSignature_converges {s : Signature Ty}
    (ended : isOpenVariadic s = false ∨ Lenient allowed)
    (every : ∀ t ∈ s.types, Ty.Every (ProperUnless allowed ns scope) t) :
    Converges allowed atTop fun limit => spellSignature limit ns scope s :=
  spellSignatureWith_converges ended fun t member => spell_converges admits (every t member)

theorem spellBody_converges {t : Ty} (every : Ty.Every (ProperUnless allowed ns scope) t) :
    Converges allowed atTop fun limit => spellBody limit ns scope t := by
  have children : ∀ u ∈ t.children, Converges allowed atTop fun limit => spell limit ns scope u :=
    fun u child => spell_converges admits (every.child child)
  cases t with
  | struct fields => exact (spellMembersWith_converges children).map Body.struct
  | interface shape => exact (spellElementsWith_converges every.here children).map Body.interface
  | _ => exact (spell_converges admits every).map Body.defined

theorem spellDecl_converges {q : QualName} {source : TypeDecl}
    (declared : ns.declaration? q = some source) :
    Converges allowed atTop fun limit => spellDecl limit ns q source := by
  unfold spellDecl spellConstraints
  simp only [spellParamsWith_eq]
  have params : Converges allowed atTop fun limit => Spelling.each
      (spellFieldWith limit ns (spellInline limit ns limit) source.paramNames) source.params := by
    apply spellFields_converges
    intro t member
    obtain ⟨param, listed, rfl⟩ := List.mem_map.mp member
    exact spell_converges admits (admits.constraint q source declared param listed)
  have body := spellBody_converges admits (admits.underlying q source declared)
  exact params.bind fun exprs => body.map fun written => (⟨q.flat, q, exprs, written⟩ : Decl)

end

end Replica
