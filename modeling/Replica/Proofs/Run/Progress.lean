import Mathlib.Data.Set.Finite.Lattice
import Replica.Proofs.Run.Replication
import Replica.Proofs.Run.Termination

/-!
Nothing goes wrong in a namespace without mistakes: whatever roots can be looked up, a tree is
synthesized for them.
-/

namespace Replica

open Filter

section

variable {ns : Namespace}
  (injective : ∀ q r decl decl', ns.declaration? q = some decl → ns.declaration? r = some decl' →
    q.flat = r.flat → q = r)

include injective

theorem inj_of_declared (q r : QualName) (declared : ∃ decl, ns.declaration? q = some decl)
    (declared' : ∃ decl, ns.declaration? r = some decl) (same : q.flat = r.flat) : q = r := by
  obtain ⟨decl, found⟩ := declared
  obtain ⟨decl', found'⟩ := declared'
  exact injective q r decl decl' found found' same

theorem pushAll_ok {c : Context} (declared : c.Declared ns) {qs : List QualName}
    (found : ∀ q ∈ qs, ∃ decl, ns.declaration? q = some decl) :
    ∃ worklist, c.worklist.pushAll qs = .ok worklist :=
  Worklist.pushAll_ok (inj_of_declared injective) declared found

theorem absorb_ok {c : Context} (declared : c.Declared ns) {needs : List Need}
    (justified : ∀ need ∈ needs, Justified ns anyReplica anything need) :
    ∃ c', c.absorb needs = (c', .ok ()) := by
  apply Context.absorb_ok (inj_of_declared injective) declared
  intro q member
  cases justified _ member with
  | replica _ found => exact ⟨_, found⟩

theorem settle_settles {α : Type} {c : Context} (declared : c.Declared ns) (owner : String)
    {f : Nat → Spelling α} (converges : Converges (fun _ => False) atTop f)
    (justified : ∀ limit needs a, f limit = ⟨needs, .ok a⟩ →
      ∀ need ∈ needs, Justified ns anyReplica anything need) :
    Settles atTop (fun r => Allows (fun _ => False) r.2) fun limit => c.settle owner (f limit) := by
  obtain ⟨⟨needs, outcome⟩, fine, eventually⟩ := converges
  cases outcome with
  | error e => exact (fine e rfl).elim
  | ok a =>
      obtain ⟨limit, spelled⟩ := eventually.exists
      obtain ⟨c', absorbed⟩ := absorb_ok injective declared (justified limit needs a spelled)
      refine ⟨(c', .ok a), allows_ok a, ?_⟩
      filter_upwards [eventually] with limit spelled
      rw [spelled, Context.settle, absorbed]
      rfl

end

theorem Inherited.and {ns : Namespace} {p q : List String → Ty → Prop} (first : Inherited ns p)
    (second : Inherited ns q) : Inherited ns fun scope t => p scope t ∧ q scope t where
  underlying r decl declared :=
    (first.underlying r decl declared).and (second.underlying r decl declared)
  constraint r decl declared param member :=
    (first.constraint r decl declared param member).and
      (second.constraint r decl declared param member)
  instantiate scope base args decl t every declared inner := by
    have left := first.instantiate scope base args decl t (every.imp fun _ both => both.1)
      declared (inner.imp fun _ both => both.1)
    have right := second.instantiate scope base args decl t (every.imp fun _ both => both.2)
      declared (inner.imp fun _ both => both.2)
    exact left.and right
  closed scope t here closed :=
    ⟨first.closed scope t here.1 closed, second.closed scope t here.2 closed⟩

variable {ns : Namespace}

theorem Namespace.WellFormed.prompt (wf : ns.WellFormed) {names : List String}
    (methodNames : ns.MethodNames names) {roots : List QualName} :
    Prompt ns roots (fun scope t => Proper ns scope t ∧ NamesIn names t) (fun _ => False) where
  inherited := wf.inherited.and methodNames.inherited
  finite := wf.finite
  names := by
    refine ⟨names, ?_⟩
    intro scope m own
    obtain ⟨shape, inside, every⟩ := own
    exact every.here.2 m inside
  decl s reached declared q worklist source popped found := by
    obtain ⟨_, sound⟩ := reached.sound (inherited_anything ns)
    obtain ⟨known, _, _⟩ := sound.queueing.consistent.pop_some popped
    have declared' : Context.Declared ns { s.context with worklist } := by
      intro r member
      exact declared r (known ▸ member)
    apply settle_settles wf.flat_injective declared' _ (spellDecl_converges wf.admits found)
    intro limit needs decl spelled
    exact (spellDecl_spelled spelled).justified (inherited_anything ns) found
  method s reached declared receiver m due closed := by
    have inherited := wf.inherited.and methodNames.inherited
    obtain ⟨_, sound⟩ := reached.sound inherited
    obtain ⟨scope, own⟩ :=
      (sound.recorded.due receiver m due).own inherited sound.recorded.justified
    have types := own.every inherited closed
    obtain ⟨shape, inside, every⟩ := own
    have ended : isOpenVariadic m.signature = false := every.here.1 m inside
    have converges : Converges (fun _ => False) atTop fun limit =>
        spellSignature limit ns [] m.signature :=
      spellSignature_converges wf.admits (.inl ended) fun t member =>
        (types t member).imp fun _ both => .inl both.1
    apply settle_settles wf.flat_injective declared _ converges
    intro limit needs signature spelled
    have stub := spellSignature_spelled ⟨⟨"", ""⟩, false⟩ closed spelled
    exact stub.justified (inherited_anything ns) fun t _ => every_anything [] t

/-- A namespace without mistakes gives a tree for every list of roots that can be looked up, with
any limit that is large enough. -/
theorem synthesize_of_wellFormed (wf : ns.WellFormed) {names : List String} (some : names ≠ [])
    (found : ∀ name ∈ names, ∃ root, ns.lookup name = .ok root) :
    ∃ tree bound, ∀ limit ≥ bound, synthesize limit ns names = .ok tree := by
  obtain ⟨methods, methodNames⟩ := ns.exists_methodNames
  obtain ⟨roots, resolved⟩ := resolveRoots_ok found
  have rooted : ∀ root ∈ roots, ∃ decl, ns.declaration? root = Option.some decl := by
    intro root member
    obtain ⟨name, _, looked⟩ := mem_resolveRoots resolved member
    obtain ⟨_, decl, fields, declared, _⟩ := lookup_eq_ok looked
    exact ⟨decl, declared⟩
  have nothing : Context.Declared ns {} := fun q member => absurd member List.not_mem_nil
  obtain ⟨worklist, pushed⟩ := pushAll_ok wf.flat_injective nothing rooted
  obtain ⟨result, fine, eventually⟩ :=
    synthesize_settles (wf.prompt methodNames) rooted some resolved pushed
  obtain ⟨bound, same⟩ := eventually_atTop.mp eventually
  cases result with
  | error e => exact (fine e rfl).elim
  | ok tree => exact ⟨tree, bound, same⟩

theorem finiteEmbedding_of_flat (flat : ∀ base args shape,
    interfaceOf? ns (.named base args) = some shape → shape.embedded = []) :
    ns.FiniteEmbedding := by
  intro t
  induction t using Ty.induct with
  | step t ih =>
      -- Nothing is embedded in what a name stands for, so embedding only leads to parts of a type.
      have inner : ∀ u, Expands ns t u → u ∈ t.children := by
        intro u expands
        obtain ⟨shape, stands, member⟩ := expands
        cases t with
        | interface own =>
            cases stands
            exact List.mem_append_left _ member
        | named base args =>
            rw [flat base args shape stands] at member
            exact absurd member List.not_mem_nil
        | _ => cases stands
      have below :
          (⋃ u ∈ {u | u ∈ t.children}, {v | Relation.ReflTransGen (Expands ns) u v}).Finite :=
        Set.Finite.biUnion (List.finite_toSet t.children) ih
      apply (below.insert t).subset
      intro v path
      rcases Relation.ReflTransGen.cases_head path with rfl | ⟨u, expands, rest⟩
      · exact Set.mem_insert _ _
      · apply Set.mem_insert_of_mem
        exact Set.mem_biUnion (inner u expands) rest

theorem Resolves.of_declared {base : QualName} {args : List Ty} {decl : TypeDecl}
    (plain : base.Plain) (declared : ns.declaration? base = some decl)
    (arity : decl.params.length = args.length) : Resolves ns base args := by
  refine ⟨plain, fun _ => ⟨decl, declared⟩, ?_⟩
  intro other found
  rw [declared] at found
  cases found
  exact arity

theorem geometry_declared {q : QualName} {decl : TypeDecl}
    (declared : geometry.declaration? q = some decl) :
    q = ⟨"geo", "Shape"⟩ ∨ q = ⟨"geo", "point"⟩ ∨ q = ⟨"geo", "cell"⟩ := by
  obtain ⟨package, listed, path, inside, name⟩ := Namespace.mem_of_declaration declared
  cases q with
  | mk own called =>
      rw [geometry, List.mem_singleton] at listed
      subst listed
      simp only [List.mem_cons, List.not_mem_nil, or_false] at inside path name
      subst path
      rcases inside with rfl | rfl | rfl
      · exact .inl (by rw [← name])
      · exact .inr (.inl (by rw [← name]))
      · exact .inr (.inr (by rw [← name]))

theorem geometry_wellFormed : geometry.WellFormed where
  plain q decl declared := by
    rcases geometry_declared declared with rfl | rfl | rfl <;> (unfold QualName.Plain; decide)
  underlying q decl declared := by
    have leaf : ∀ {scope t}, Proper geometry scope t → t.children = [] →
        Ty.Every (Proper geometry scope) t := by
      intro scope t here none
      refine ⟨here, fun u child => ?_⟩
      rw [none] at child
      exact absurd child List.not_mem_nil
    have point : Ty.Every (Proper geometry []) (.named ⟨"geo", "point"⟩ []) :=
      leaf (Resolves.of_declared (by unfold QualName.Plain; decide) rfl rfl) rfl
    have number : ∀ {scope}, Ty.Every (Proper geometry scope) (.basic "int") := leaf trivial rfl
    rcases geometry_declared declared with rfl | rfl | rfl
    · cases declared
      refine ⟨trivial, List.forall_mem_cons.mpr ⟨?_, List.forall_mem_cons.mpr ⟨?_,
        List.forall_mem_singleton.mpr ?_⟩⟩⟩
      · exact ⟨trivial, List.forall_mem_singleton.mpr point⟩
      · refine ⟨Resolves.of_declared (by unfold QualName.Plain; decide) rfl rfl, ?_⟩
        exact List.forall_mem_singleton.mpr point
      · refine ⟨⟨by unfold QualName.Plain; decide, fun hidden => ?_, fun decl found => ?_⟩, ?_⟩
        · cases hidden
        · cases found
        · exact List.forall_mem_singleton.mpr (leaf trivial rfl)
    · cases declared
      exact ⟨trivial, List.forall_mem_cons.mpr ⟨number, List.forall_mem_singleton.mpr number⟩⟩
    · cases declared
      exact ⟨trivial, List.forall_mem_singleton.mpr (leaf List.mem_cons_self rfl)⟩
  constraint q decl declared param member := by
    rcases geometry_declared declared with rfl | rfl | rfl
    · cases declared
      exact absurd member List.not_mem_nil
    · cases declared
      exact absurd member List.not_mem_nil
    · cases declared
      rw [List.mem_singleton.mp member]
      refine ⟨List.forall_mem_singleton.mpr rfl, List.forall_mem_singleton.mpr ?_⟩
      exact ⟨trivial, fun u child => absurd child List.not_mem_nil⟩
  flat_injective q r decl decl' declared declared' same := by
    rcases geometry_declared declared with rfl | rfl | rfl <;>
      rcases geometry_declared declared' with rfl | rfl | rfl <;>
      first
      | rfl
      | exact absurd same (by decide)
  finite := by
    apply finiteEmbedding_of_flat
    intro base args shape stands
    rw [interfaceOf?] at stands
    cases declared : geometry.declaration? base with
    | none =>
        rw [declared] at stands
        cases stands
    | some decl =>
        rw [declared] at stands
        rcases geometry_declared declared with rfl | rfl | rfl <;>
          (cases declared; cases stands)

theorem geometry_synthesizes : geometry.WellFormed ∧ ∃ tree bound, ∀ limit ≥ bound,
    synthesize limit geometry ["geo.Shape"] = .ok tree := by
  refine ⟨geometry_wellFormed, synthesize_of_wellFormed geometry_wellFormed (by decide) ?_⟩
  intro name member
  rw [List.mem_singleton.mp member]
  exact ⟨⟨"geo", "Shape"⟩, rfl⟩

end Replica
