import Replica.Proofs.Roots
import Replica.Proofs.Run.Invariant

/-!
Runs from beginning to end. A tree that is synthesized is read off the last stage of a complete run;
at that stage every declaration ever queued has been made.
-/

namespace Replica

/-- A run over `roots`, from their queueing to a stage at which nothing is left to do. -/
structure Completed (ns : Namespace) (roots : List QualName) (history : List Need) (final : Run) :
    Prop where
  ran : ∃ worklist, Worklist.pushAll {} roots = .ok worklist ∧
    Steps ns (.start worklist) history { toRun := final }
  drained : final.context.worklist.pop.1 = none
  met : final.context.obligations = []

/-- The tree that a completed run amounts to. -/
def Run.tree (ns : Namespace) (roots : List QualName) (final : Run) : Tree :=
  ⟨importBlock ns (final.context.importRoots roots).imports, final.decls,
    roots.map (conversion final.decls), final.stubs⟩

/-- A replica of `q` with `n` type parameters is declared under the flattened name. -/
def Tree.Declares (tree : Tree) (q : QualName) (n : Nat) : Prop :=
  ∃ decl ∈ tree.decls, decl.origin = q ∧ decl.name = q.flat ∧ decl.params.length = n

variable {ns : Namespace} {roots : List QualName} {history : List Need} {s t : Stage}
  {final : Run}

theorem Step.decls_extend {needs : List Need} (step : Step ns s needs t) : s.decls <+: t.decls := by
  cases step with
  | declare => exact List.prefix_append _ _
  | _ => exact List.prefix_rfl

theorem Steps.decls_extend (steps : Steps ns s history t) : s.decls <+: t.decls := by
  induction steps with
  | refl => exact List.prefix_rfl
  | tail _ last ih => exact ih.trans last.decls_extend

theorem conversion_of_prefix {decls more : List Decl} {root : QualName} (front : decls <+: more)
    (declared : ∃ decl ∈ decls, decl.name = root.flat) :
    conversion more root = conversion decls root := by
  rcases front with ⟨rest, rfl⟩
  have found : (decls.find? (·.name == root.flat)).isSome = true := by
    rcases declared with ⟨decl, member, name⟩
    exact List.find?_isSome.mpr ⟨decl, member, by simpa using name⟩
  rcases Option.isSome_iff_exists.mp found with ⟨decl, first⟩
  have same : (decls ++ rest).find? (·.name == root.flat) = some decl := by
    rw [List.find?_append, first, Option.some_or]
  rw [conversion, conversion, first, same]

theorem Worklist.Consistent.names_nodup {w : Worklist} {decls : List Decl}
    (consistent : w.Consistent (decls.map (·.origin)))
    (named : ∀ decl ∈ decls, decl.name = decl.origin.flat) : (decls.map (·.name)).Nodup := by
  have names := consistent.names
  rw [consistent.known, List.map_append, List.map_map] at names
  have same : decls.map (·.name) = decls.map (QualName.flat ∘ (·.origin)) :=
    List.map_congr_left named
  rw [same]
  exact names.of_append_left

namespace Completed

theorem sound (completed : Completed ns roots history final) :
    Sound ns anything roots history { toRun := final } := by
  rcases completed.ran with ⟨worklist, pushed, steps⟩
  exact steps.sound (inherited_anything ns) pushed

theorem origins (completed : Completed ns roots history final) :
    final.decls.map (·.origin) = (roots ++ replicasOf history).eraseDups := by
  have queueing := completed.sound.queueing
  rw [← queueing.consistent.pop_none completed.drained]
  exact queueing.logged

theorem declares_iff (completed : Completed ns roots history final) (q : QualName) :
    (∃ decl ∈ final.decls, decl.origin = q) ↔ q ∈ roots ∨ Need.replica q ∈ history := by
  have origins := completed.origins
  rw [← mem_replicasOf, ← List.mem_append, ← List.mem_eraseDups, ← origins, List.mem_map]

theorem refers (completed : Completed ns roots history final) (q : QualName) (source : TypeDecl)
    (needed : Need.replica q ∈ history) (declared : ns.declaration? q = some source) :
    (final.tree ns roots).Declares q source.params.length := by
  have sound := completed.sound
  rcases (completed.declares_iff q).mpr (.inr needed) with ⟨decl, member, rfl⟩
  rcases sound.written.decls decl member with ⟨source', needs, declared', spelled, _⟩
  rw [declared] at declared'
  cases declared'
  exact ⟨decl, member, rfl, sound.queueing.named decl member, spelled.arity⟩

theorem spelledDecl (completed : Completed ns roots history final) {decl : Decl}
    (member : decl ∈ final.decls) : ∃ source needs, ns.declaration? decl.origin = some source ∧
      SpelledDecl ns (final.tree ns roots).Declares decl.origin source needs decl := by
  rcases completed.sound.written.decls decl member with ⟨source, needs, declared, spelled, within⟩
  exact ⟨source, needs, declared,
    spelled.referring fun q source need => completed.refers q source (within _ need)⟩

theorem spelledStub (completed : Completed ns roots history final) {stub : Stub}
    (member : stub ∈ final.stubs) : ∃ receiver m needs,
      Asked ns history final.context.worklist.known receiver m ∧
      SpelledStub ns (final.tree ns roots).Declares receiver m needs stub := by
  rcases completed.sound.written.stubs stub member with ⟨receiver, m, needs, asked, spelled, within⟩
  exact ⟨receiver, m, needs, asked,
    spelled.referring fun q source need => completed.refers q source (within _ need)⟩

theorem names_nodup (completed : Completed ns roots history final) :
    (final.decls.map (·.name)).Nodup :=
  completed.sound.queueing.consistent.names_nodup completed.sound.queueing.named

end Completed

section

variable {limit : Nat} {names : List String} (some : names ≠ [])

include some

theorem synthesize_of_unresolved {e : LookupError} (unresolved : resolveRoots ns names = .error e) :
    synthesize limit ns names = .error (.lookup e) := by
  unfold synthesize
  rw [if_neg (by simpa using some), unresolved]
  rfl

theorem synthesize_of_collision {e : NameCollision} (resolved : resolveRoots ns names = .ok roots)
    (collided : Worklist.pushAll {} roots = .error e) :
    synthesize limit ns names = .error (.collision e) := by
  unfold synthesize
  rw [if_neg (by simpa using some), resolved]
  change (Worklist.pushAll {} roots).mapError _ >>= _ = _
  rw [collided]
  rfl

theorem synthesize_of_pushed {worklist : Worklist} (resolved : resolveRoots ns names = .ok roots)
    (pushed : Worklist.pushAll {} roots = .ok worklist) :
    synthesize limit ns names =
      Run.drain ns limit limit { context := { worklist } } >>= fun run =>
        Run.fulfil limit ns limit run >>= fun final =>
          .ok ⟨importBlock ns (final.context.importRoots roots).imports, final.decls,
            roots.map (conversion run.decls), final.stubs⟩ := by
  unfold synthesize
  rw [if_neg (by simpa using some), resolved]
  change (Worklist.pushAll {} roots).mapError _ >>= _ = _
  rw [pushed]
  rfl

end

theorem synthesize_completed {limit : Nat} {names : List String} {tree : Tree}
    (ended : synthesize limit ns names = .ok tree) : ∃ roots history final,
      names ≠ [] ∧ resolveRoots ns names = .ok roots ∧ Completed ns roots history final ∧
      tree = final.tree ns roots := by
  unfold synthesize at ended
  split at ended
  · cases ended
  · rename_i some
    rcases bind_eq_ok ended with ⟨roots, resolved, rest⟩
    rcases bind_eq_ok rest with ⟨worklist, pushed, rest⟩
    rcases bind_eq_ok rest with ⟨middle, drainedRun, rest⟩
    rcases bind_eq_ok rest with ⟨final, fulfilled, same⟩
    cases same
    replace resolved := mapError_eq_ok resolved
    replace pushed := mapError_eq_ok pushed
    rcases drain_steps drainedRun with ⟨before, first, drained⟩
    rcases fulfil_steps drained fulfilled with ⟨after, second, drained', met⟩
    have completed : Completed ns roots (before ++ after) final :=
      ⟨⟨worklist, pushed, first.trans second⟩, drained', met⟩
    refine ⟨roots, before ++ after, final, by simpa using some, resolved, completed, ?_⟩
    have queueing := (first.sound (inherited_anything ns) pushed).queueing
    have conversions : roots.map (conversion final.decls) = roots.map (conversion middle.decls) := by
      refine List.map_congr_left fun root member => conversion_of_prefix second.decls_extend ?_
      have known : root ∈ middle.context.worklist.known := by
        rw [queueing.logged, List.mem_eraseDups]
        exact List.mem_append_left _ member
      rw [queueing.consistent.pop_none drained] at known
      rcases List.mem_map.mp known with ⟨decl, inside, rfl⟩
      exact ⟨decl, inside, queueing.named decl inside⟩
    rw [Run.tree, conversions]

end Replica
