import Replica.Proofs.Run.Dealing
import Replica.Proofs.Run.Replication

/-!
The stubs of a synthesized tree. They are the methods that the recorded obligations demand, each
once, whatever the rounds in which the obligations came up.
-/

namespace Replica

variable {ns : Namespace} {roots : List QualName} {history : List Need} {final : Run}
  {receiver : Receiver} {m : Method Ty}

/-- A recorded obligation asks for the method `m`, which mentions no type parameter, on the replica
of `receiver`, which the tree declares. -/
structure Tree.Demands (tree : Tree) (ns : Namespace) (history : List Need) (receiver : Receiver)
    (m : Method Ty) : Prop where
  hidden : receiver.origin.isPublic = false
  outlined : receiver.origin ∈ tree.decls.map (·.origin)
  able : ns.declaresInterface receiver.origin = false
  closed : Ty.mentionsParamSignature m.signature = false
  asked : ∃ owed ∈ obligationsOf history, owed.argument = receiver.type ∧
    ∃ methods, HasMethodSet ns owed.constraint methods ∧ m ∈ methods

namespace Completed

variable (completed : Completed ns roots history final)
  (exported : ∀ root ∈ roots, root.isPublic = true)

include completed exported

theorem dealing : Dealing ns history { toRun := final } (obligationsOf history) := by
  obtain ⟨worklist, pushed, steps⟩ := completed.ran
  obtain ⟨dealt, dealing⟩ := steps.dealing exported pushed
  have order : (obligationsOf history).eraseDups = dealt.eraseDups := by
    simpa [completed.met] using dealing.order
  refine ⟨by simp [completed.met], ?_, fun _ _ none => absurd none List.not_mem_nil, ?_,
    dealing.keys, dealing.distinct⟩
  · intro owed member
    rw [← List.mem_eraseDups, order, List.mem_eraseDups] at member
    exact dealing.met owed member
  · intro stub member
    exact (dealing.first stub member).imp (fun _ => id) fun _ _ demand => demand.congr order.symm

theorem outlined_iff {q : QualName} (hidden : q.isPublic = false) :
    q ∈ final.decls.map (·.origin) ↔ Need.replica q ∈ history := by
  have noRoot : q ∉ roots := by
    intro root
    rw [exported q root] at hidden
    cases hidden
  simp [completed.origins, List.mem_eraseDups, mem_replicasOf, noRoot]

theorem mem_stubs {owed : Obligation} {name : StubName} (recorded : owed ∈ obligationsOf history)
    (demands : owed.DemandsStub ns name) : name ∈ final.stubs.map Stub.key := by
  have dealing := completed.dealing exported
  have attached : name ∈ final.attached := dealing.met_of_free rfl owed recorded name demands
  have keys : final.attached = final.stubs.map Stub.key := dealing.keys
  rwa [keys] at attached

theorem stubs_first {stub : Stub} (member : stub ∈ final.stubs) :
    FirstCome ns history (obligationsOf history) stub :=
  (completed.dealing exported).first stub member

end Completed

end Replica
