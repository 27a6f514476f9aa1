import Replica.Proofs.Run.Progress

/-!
Every run ends, with a tree or with an error, if each of its single spellings does. Nothing else is
asked of a namespace but that embedding expands to finitely many instantiations. The spellings of a
namespace all end when its names have no dots.
-/

namespace Replica

open Filter

/-- A limit was reached, which says nothing about the namespace. -/
def SynthesisError.Limited (e : SynthesisError) : Prop :=
  e = .limitReached ∨ ∃ owner, e = .spelling owner .limitReached

/-- Each single spelling that a run over `roots` makes ends: that of the next declaration, and those
of the methods that are due. -/
structure SpellingsEnd (ns : Namespace) (roots : List QualName) : Prop where
  decls : ∀ s, Reached ns roots s → ∀ q source, s.context.worklist.pop.1 = some q →
    ns.declaration? q = some source →
    Converges (· ≠ .limitReached) atTop fun limit => spellDecl limit ns q source
  methods : ∀ s, Reached ns roots s → ∀ receiver m, (receiver, m) ∈ s.due →
    Ty.mentionsParamSignature m.signature = false →
    Converges (· ≠ .limitReached) atTop fun limit => spellSignature limit ns [] m.signature

variable {ns : Namespace} {roots : List QualName}

theorem Converges.settle {α : Type} {f : Nat → Spelling α}
    (converges : Converges (· ≠ .limitReached) atTop f) (c : Context) (owner : String) :
    Settles atTop (fun r => Allows (¬ ·.Limited) r.2) fun limit => c.settle owner (f limit) := by
  obtain ⟨s, fine, eventually⟩ := converges
  refine ⟨c.settle owner s, ?_, eventually.mono fun limit found => congrArg _ found⟩
  unfold Context.settle
  split
  · refine allows_error fun limited => ?_
    simp [SynthesisError.Limited] at limited
  · intro e same
    cases outcome : s.outcome with
    | ok a =>
        rw [outcome] at same
        cases same
    | error e' =>
        rw [outcome] at same
        cases same
        intro limited
        simp only [SynthesisError.Limited, SynthesisError.spelling.injEq, reduceCtorEq, false_or,
          exists_eq_left'] at limited
        exact fine e' outcome limited

theorem SpellingsEnd.prompt (ends : SpellingsEnd ns roots) (finite : ns.FiniteEmbedding)
    {names : List String} (methodNames : ns.MethodNames names) :
    Prompt ns roots (fun _ => NamesIn names) (¬ ·.Limited) where
  inherited := methodNames.inherited
  finite := finite
  names := by
    refine ⟨names, ?_⟩
    intro scope m own
    obtain ⟨shape, inside, every⟩ := own
    exact every.here m inside
  decl s reached _ q worklist source popped found :=
    (ends.decls s reached q source (congrArg Prod.fst popped) found).settle _ _
  method s reached _ receiver m due closed :=
    (ends.methods s reached receiver m due closed).settle _ _

theorem spellingsEnd_of_plainNames (plain : ns.PlainNames) (finite : ns.FiniteEmbedding) :
    SpellingsEnd ns roots := by
  have lenient : Lenient (· ≠ .limitReached) := fun _ => id
  have admits := Namespace.Admits.of_lenient lenient plain finite
  constructor
  · intro s reached q source popped found
    exact spellDecl_converges admits found
  · intro s reached receiver m due closed
    exact spellSignature_converges admits (.inr lenient) fun t _ => every_properUnless lenient t

/-- For any roots in any namespace in which embedding is finite, a run comes to a tree or an error
with every limit that is large enough, provided that its spellings do. -/
theorem synthesize_ends (finite : ns.FiniteEmbedding) (names : List String)
    (ends : ∀ roots, resolveRoots ns names = .ok roots → SpellingsEnd ns roots) :
    ∃ result bound, (∀ limit ≥ bound, synthesize limit ns names = result) ∧
      ∀ e, result = .error e → ¬ e.Limited := by
  have settles : Settles atTop (Allows (¬ ·.Limited)) fun limit => synthesize limit ns names := by
    by_cases none : names = []
    · subst none
      exact .const (allows_error (by simp [SynthesisError.Limited]))
    cases resolved : resolveRoots ns names with
    | error e =>
        simp only [synthesize_of_unresolved none resolved]
        exact .const (allows_error (by simp [SynthesisError.Limited]))
    | ok roots =>
        cases pushed : Worklist.pushAll {} roots with
        | error e =>
            simp only [synthesize_of_collision none resolved pushed]
            exact .const (allows_error (by simp [SynthesisError.Limited]))
        | ok worklist =>
            obtain ⟨methods, methodNames⟩ := ns.exists_methodNames
            have prompt := (ends roots resolved).prompt finite methodNames
            have rooted := declared_of_resolveRoots resolved
            exact synthesize_settles prompt rooted none resolved pushed
  obtain ⟨result, fine, eventually⟩ := settles
  obtain ⟨bound, same⟩ := eventually_atTop.mp eventually
  exact ⟨result, bound, same, fine⟩

theorem geometry_run_ends : ∃ result bound,
    (∀ limit ≥ bound, synthesize limit geometry ["geo.Shape"] = result) ∧
      ∀ e, result = .error e → ¬ e.Limited := by
  have plain := geometry_wellFormed.plainNames
  have finite := geometry_wellFormed.finite
  exact synthesize_ends finite ["geo.Shape"] fun _ _ => spellingsEnd_of_plainNames plain finite

end Replica
