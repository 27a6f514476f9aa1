import Mathlib.Data.List.Perm.Basic
import Mathlib.Data.List.ProdSigma
import Replica.Proofs.Run.Invariant
import Replica.Proofs.WellFormed

/-!
What bounds a run: only declared types are queued, each once, and a method of one name is attached
to one of them once. Rounds that attach nothing leave nothing to do.
-/

namespace Replica

def Reached (ns : Namespace) (roots : List QualName) (s : Stage) : Prop :=
  ∃ worklist history, Worklist.pushAll {} roots = .ok worklist ∧
    Steps ns (.start worklist) history s

def Context.Declared (ns : Namespace) (c : Context) : Prop :=
  ∀ q ∈ c.worklist.known, ∃ decl, ns.declaration? q = some decl

variable {ns : Namespace} {roots : List QualName} {s t : Stage} {history : List Need}
  {p : List String → Ty → Prop}

theorem Reached.steps (reached : Reached ns roots s) (steps : Steps ns s history t) :
    Reached ns roots t := by
  obtain ⟨worklist, earlier, pushed, first⟩ := reached
  exact ⟨worklist, earlier ++ history, pushed, first.trans steps⟩

theorem Reached.sound (inherited : Inherited ns p) (reached : Reached ns roots s) :
    ∃ history, Sound ns p roots history s := by
  obtain ⟨worklist, history, pushed, steps⟩ := reached
  exact ⟨history, steps.sound inherited pushed⟩

section

variable (rooted : ∀ root ∈ roots, ∃ decl, ns.declaration? root = some decl)

include rooted

theorem Reached.declared (reached : Reached ns roots s) : s.context.Declared ns := by
  obtain ⟨history, sound⟩ := reached.sound (inherited_anything ns)
  intro q known
  rw [sound.queueing.logged, List.mem_eraseDups, List.mem_append, mem_replicasOf] at known
  rcases known with root | needed
  · exact rooted q root
  · cases sound.recorded.justified _ needed with
    | replica _ declared => exact ⟨_, declared⟩

theorem Reached.decls_length_le (reached : Reached ns roots s) :
    s.decls.length ≤ ns.declaredTypes.length := by
  obtain ⟨history, sound⟩ := reached.sound (inherited_anything ns)
  have consistent := sound.queueing.consistent
  have known : s.context.worklist.known.Nodup := consistent.names.of_map _
  rw [consistent.known] at known
  have made : (s.decls.map (·.origin)).Nodup := (List.nodup_append.mp known).1
  have listed : s.decls.map (·.origin) ⊆ ns.declaredTypes := by
    intro q member
    have inside : q ∈ s.context.worklist.known := by
      rw [consistent.known]
      exact List.mem_append_left _ member
    obtain ⟨decl, declared⟩ := reached.declared rooted q inside
    exact Namespace.mem_declaredTypes declared
  calc
    s.decls.length = (s.decls.map (·.origin)).length := (List.length_map _).symm
    _ ≤ ns.declaredTypes.length := (List.subperm_of_subset made listed).length_le

theorem Reached.attached (inherited : Inherited ns p) {names : List String}
    (named : ∀ scope (m : Method Ty), m.IsOwnIn (p scope) → m.name ∈ names)
    (reached : Reached ns roots s) :
    s.attached.Nodup ∧ s.attached ⊆ ns.declaredTypes.map QualName.flat ×ˢ names := by
  obtain ⟨worklist, history, pushed, steps⟩ := reached
  -- Only attaching a method changes what is attached, and only methods that are due are attached.
  induction steps with
  | refl => exact ⟨List.nodup_nil, List.nil_subset _⟩
  | @tail t u before after earlier last ih =>
      obtain ⟨distinct, within⟩ := ih
      have reached : Reached ns roots t := ⟨worklist, before, pushed, earlier⟩
      cases last with
      | @stub receiver m rest limit needs signature context next closed fresh spelled absorbed =>
          obtain ⟨history, sound⟩ := reached.sound inherited
          have asked := sound.recorded.due receiver m (by rw [next]; exact List.mem_cons_self)
          obtain ⟨decl, declared⟩ := reached.declared rooted receiver.origin asked.1
          obtain ⟨scope, own⟩ := asked.own inherited sound.recorded.justified
          have pair : (receiver.origin.flat, m.name) ∈
              ns.declaredTypes.map QualName.flat ×ˢ names := by
            apply List.mem_product.mpr
            have listed := Namespace.mem_declaredTypes declared
            exact ⟨List.mem_map.mpr ⟨receiver.origin, listed, rfl⟩, named scope m own⟩
          constructor
          · exact List.nodup_append.mpr ⟨distinct, List.nodup_singleton _, by
              intro known member other single same
              rw [List.mem_singleton.mp single] at same
              exact fresh (same ▸ member)⟩
          · intro known member
            rcases List.mem_append.mp member with earlier | now
            · exact within earlier
            · rw [List.mem_singleton.mp now]
              exact pair
      | declare | gather | dismiss | accept | skip => exact ⟨distinct, within⟩

end

theorem Step.attached_extends (step : Step ns s history t) : s.attached <+: t.attached := by
  cases step with
  | stub => exact List.prefix_append _ _
  | _ => exact List.prefix_rfl

theorem Steps.attached_extends (steps : Steps ns s history t) : s.attached <+: t.attached := by
  induction steps with
  | refl => exact List.prefix_rfl
  | tail _ last ih => exact ih.trans last.attached_extends

/-- From a stage with nothing open and nothing to declare, nothing comes up until a method is
attached. -/
theorem Steps.quiet (steps : Steps ns s history t) (met : s.context.obligations = [])
    (drained : s.Drained) (same : t.attached = s.attached) :
    t.context.obligations = [] ∧ t.Drained := by
  induction steps with
  | refl => exact ⟨met, drained⟩
  | @tail t u before after first last ih =>
      have back : t.attached = s.attached := by
        have longer := last.attached_extends.length_le
        have shorter := first.attached_extends.length_le
        rw [same] at longer
        exact (first.attached_extends.eq_of_length (by omega)).symm
      obtain ⟨met', drained'⟩ := ih back
      cases last with
      | declare _ popped _ _ _ =>
          rw [Stage.Drained, popped] at drained'
          cases drained'
      | gather _ _ owing => exact absurd met' owing
      | dismiss | accept | skip => exact ⟨met', drained'⟩
      | stub _ _ _ _ _ =>
          have lengths := congrArg List.length (same.trans back.symm)
          rw [List.length_append, List.length_singleton] at lengths
          omega

end Replica
