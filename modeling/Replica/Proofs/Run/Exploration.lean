import Replica.Proofs.Run.Outcome

/-!
The loop over the queue as a search. It declares the least set of types that has the roots and
whatever the replicas in it need, so that neither the order in which types are found nor the way to
them makes a difference to what is declared.
-/

namespace Replica

def Replicates (limit : Nat) (ns : Namespace) (q : QualName) (needs : List Need) (decl : Decl) :
    Prop :=
  ∃ source, ns.declaration? q = some source ∧ spellDecl limit ns q source = ⟨needs, .ok decl⟩

def Leads (limit : Nat) (ns : Namespace) (q r : QualName) : Prop :=
  ∃ needs decl, Replicates limit ns q needs decl ∧ Need.replica r ∈ needs

/-- `q` is a root or is needed for one, by way of any number of replicas. -/
def LedTo (limit : Nat) (ns : Namespace) (roots : List QualName) (q : QualName) : Prop :=
  ∃ root ∈ roots, Relation.ReflTransGen (Leads limit ns) root q

variable {limit : Nat} {ns : Namespace} {roots : List QualName} {q : QualName} {needs : List Need}
  {decl : Decl}

theorem Replicates.unique {needs' : List Need} {decl' : Decl}
    (first : Replicates limit ns q needs decl) (second : Replicates limit ns q needs' decl') :
    needs' = needs ∧ decl' = decl := by
  obtain ⟨source, declared, spelled⟩ := first
  obtain ⟨source', declared', spelled'⟩ := second
  rw [declared] at declared'
  cases declared'
  rw [spelled] at spelled'
  cases spelled'
  exact ⟨rfl, rfl⟩

theorem Replicates.origin_eq (replicates : Replicates limit ns q needs decl) : decl.origin = q := by
  obtain ⟨source, _, spelled⟩ := replicates
  exact (spellDecl_spelled spelled).origin_eq

theorem Replicates.named (replicates : Replicates limit ns q needs decl) : decl.name = q.flat := by
  obtain ⟨source, _, spelled⟩ := replicates
  exact (spellDecl_spelled spelled).named

theorem Replicates.own (replicates : Replicates limit ns q needs decl) :
    Replicates limit ns decl.origin needs decl := by
  rw [replicates.origin_eq]
  exact replicates

theorem LedTo.root {root : QualName} (member : root ∈ roots) : LedTo limit ns roots root :=
  ⟨root, member, .refl⟩

theorem LedTo.next {r : QualName} (led : LedTo limit ns roots q) (leads : Leads limit ns q r) :
    LedTo limit ns roots r := by
  obtain ⟨root, member, path⟩ := led
  exact ⟨root, member, path.tail leads⟩

theorem ledTo_or {more all : List QualName}
    (split : ∀ root, root ∈ all ↔ root ∈ roots ∨ root ∈ more) :
    LedTo limit ns all q ↔ LedTo limit ns roots q ∨ LedTo limit ns more q := by
  constructor
  · rintro ⟨root, member, path⟩
    rcases (split root).mp member with first | second
    · exact .inl ⟨root, first, path⟩
    · exact .inr ⟨root, second, path⟩
  · rintro (⟨root, member, path⟩ | ⟨root, member, path⟩)
    · exact ⟨root, (split root).mpr (.inl member), path⟩
    · exact ⟨root, (split root).mpr (.inr member), path⟩

theorem LedTo.mono {more : List QualName} (led : LedTo limit ns roots q)
    (subset : ∀ root ∈ roots, root ∈ more) : LedTo limit ns more q := by
  obtain ⟨root, member, path⟩ := led
  exact ⟨root, subset root member, path⟩

def NeededIn (limit : Nat) (ns : Namespace) (decls : List Decl) (need : Need) : Prop :=
  ∃ decl ∈ decls, ∃ needs, Replicates limit ns decl.origin needs decl ∧ need ∈ needs

theorem neededIn_concat {decls : List Decl} (here : Replicates limit ns decl.origin needs decl)
    {need : Need} :
    NeededIn limit ns (decls ++ [decl]) need ↔ NeededIn limit ns decls need ∨ need ∈ needs := by
  constructor
  · rintro ⟨other, member, needs', there, needed⟩
    rcases List.mem_append.mp member with earlier | last
    · exact .inl ⟨other, earlier, needs', there, needed⟩
    · rw [List.mem_singleton.mp last] at there
      rw [(here.unique there).1] at needed
      exact .inr needed
  · rintro (⟨other, member, rest⟩ | needed)
    · exact ⟨other, List.mem_append_left _ member, rest⟩
    · exact ⟨decl, List.mem_append_right _ (List.mem_singleton_self decl), needs, here, needed⟩

/-- What has been found from the roots while the queue is being worked off. -/
structure Explored (limit : Nat) (ns : Namespace) (roots : List QualName) (run : Run) : Prop where
  consistent : run.context.worklist.Consistent (run.decls.map (·.origin))
  written : ∀ decl ∈ run.decls, ∃ needs, Replicates limit ns decl.origin needs decl
  holds : ∀ need, run.context.Holds need ↔
    (∃ root ∈ roots, need = .replica root) ∨ NeededIn limit ns run.decls need
  found : ∀ q ∈ run.context.worklist.known, LedTo limit ns roots q
  increasing : run.context.imports.Pairwise (· < ·)
  unstubbed : run.stubs = []

theorem Explored.start {worklist : Worklist} (pushed : Worklist.pushAll {} roots = .ok worklist) :
    Explored limit ns roots { context := { worklist } } := by
  have known : ∀ p, p ∈ worklist.known ↔ p ∈ roots := by
    intro p
    rw [Worklist.mem_known_pushAll pushed]
    simp
  refine ⟨Worklist.consistent_empty.pushAll pushed, fun _ member => absurd member List.not_mem_nil,
    ?_, fun p member => .root ((known p).mp member), .nil, rfl⟩
  intro need
  have nothing : ¬ NeededIn limit ns [] need := by
    rintro ⟨decl, member, _⟩
    exact absurd member List.not_mem_nil
  rw [or_iff_left nothing]
  cases need with
  | replica p => simp [Context.Holds, known]
  | package path => simp [Context.Holds]
  | obligation owed => simp [Context.Holds]

theorem Explored.declare {run : Run} {worklist : Worklist} {source : TypeDecl} {context : Context}
    (explored : Explored limit ns roots run)
    (popped : run.context.worklist.pop = (some q, worklist))
    (declared : ns.declaration? q = some source)
    (settled : Context.settle { run.context with worklist } q.qualified
      (spellDecl limit ns q source) = (context, .ok decl)) :
    Explored limit ns roots { run with
      context := { context with worklist := context.worklist.markVisited decl.name }
      decls := run.decls ++ [decl] } := by
  obtain ⟨absorbed, spelled⟩ := Context.settle_eq_ok settled
  have grown := Context.absorb_eq_ok absorbed
  obtain ⟨known, inside, consistent⟩ := explored.consistent.pop_some popped
  have replicates : Replicates limit ns q _ decl := ⟨source, declared, spelled⟩
  have same := Context.holds_of_known (c := run.context) known
  have marked := Context.holds_of_known (c := context)
    (Worklist.known_markVisited (w := context.worklist) decl.name)
  refine ⟨?_, ?_, ?_, ?_, grown.increasing explored.increasing, explored.unstubbed⟩
  · rw [List.map_append, List.map_singleton, replicates.named, replicates.origin_eq]
    exact (consistent.pushAll grown.pushed).markVisited
      (List.mem_append_right _ (List.mem_singleton_self q))
  · intro other member
    rcases List.mem_append.mp member with earlier | last
    · exact explored.written other earlier
    · rw [List.mem_singleton.mp last]
      exact ⟨_, replicates.own⟩
  · intro need
    rw [marked, grown.holds_iff, same, explored.holds, neededIn_concat replicates.own, or_assoc]
  · intro p member
    rw [Worklist.known_markVisited, Worklist.mem_known_pushAll grown.pushed, known] at member
    rcases member with earlier | now
    · exact explored.found p earlier
    · exact (explored.found q inside).next ⟨_, decl, replicates, mem_replicasOf.mp now⟩

theorem drain_explored {steps : Nat} {run final : Run} (explored : Explored limit ns roots run)
    (ended : Run.drain ns limit steps run = .ok final) :
    Explored limit ns roots final ∧ final.context.worklist.pop.1 = none ∧
      final.decls.length ≤ run.decls.length + steps := by
  have drains := Run.drain_drains ended
  clear ended
  induction drains with
  | done empty => exact ⟨explored, empty, Nat.le_add_right _ _⟩
  | declare popped declared settled later ih =>
      obtain ⟨explored', drained, few⟩ := ih (explored.declare popped declared settled)
      refine ⟨explored', drained, ?_⟩
      rw [List.length_append, List.length_singleton] at few
      omega

namespace Explored

variable {run : Run} (explored : Explored limit ns roots run)
  (drained : run.context.worklist.pop.1 = none)

include explored drained

theorem declared_of_known (known : q ∈ run.context.worklist.known) :
    ∃ needs, ∃ decl ∈ run.decls, Replicates limit ns q needs decl := by
  rw [explored.consistent.pop_none drained] at known
  obtain ⟨decl, member, rfl⟩ := List.mem_map.mp known
  obtain ⟨needs, replicates⟩ := explored.written decl member
  exact ⟨needs, decl, member, replicates⟩

theorem mem_known_iff : q ∈ run.context.worklist.known ↔ LedTo limit ns roots q := by
  constructor
  · exact explored.found q
  · rintro ⟨root, member, path⟩
    induction path with
    | refl => exact (explored.holds (.replica root)).mpr (.inl ⟨root, member, rfl⟩)
    | tail _ leads ih =>
        obtain ⟨needs, decl, replicates, needed⟩ := leads
        obtain ⟨needs', decl', inside, replicates'⟩ := explored.declared_of_known drained ih
        rw [(replicates'.unique replicates).1] at needed
        apply (explored.holds (.replica _)).mpr
        exact .inr ⟨decl', inside, needs', replicates'.own, needed⟩

theorem mem_decls (led : LedTo limit ns roots q) (replicates : Replicates limit ns q needs decl) :
    decl ∈ run.decls := by
  obtain ⟨_, decl', inside, replicates'⟩ :=
    explored.declared_of_known drained ((explored.mem_known_iff drained).mpr led)
  rw [(replicates'.unique replicates).2]
  exact inside

theorem mem_decls_iff : decl ∈ run.decls ↔
    LedTo limit ns roots decl.origin ∧ ∃ needs, Replicates limit ns decl.origin needs decl := by
  constructor
  · intro member
    refine ⟨explored.found decl.origin ?_, explored.written decl member⟩
    rw [explored.consistent.pop_none drained]
    exact List.mem_map.mpr ⟨decl, member, rfl⟩
  · rintro ⟨led, needs, replicates⟩
    exact explored.mem_decls drained led replicates

theorem holds_iff {need : Need} : run.context.Holds need ↔
    (∃ root ∈ roots, need = .replica root) ∨
      ∃ q needs decl, LedTo limit ns roots q ∧ Replicates limit ns q needs decl ∧ need ∈ needs := by
  rw [explored.holds]
  apply or_congr Iff.rfl
  constructor
  · rintro ⟨decl, member, needs, replicates, needed⟩
    exact ⟨_, needs, decl, ((explored.mem_decls_iff drained).mp member).1, replicates, needed⟩
  · rintro ⟨q, needs, decl, led, replicates, needed⟩
    exact ⟨decl, explored.mem_decls drained led replicates, needs, replicates.own, needed⟩

omit drained in
theorem names_nodup : (run.decls.map (·.name)).Nodup := by
  apply explored.consistent.names_nodup
  intro decl member
  obtain ⟨needs, replicates⟩ := explored.written decl member
  exact replicates.named

theorem find?_eq (led : LedTo limit ns roots q) (replicates : Replicates limit ns q needs decl) :
    run.decls.find? (·.name == q.flat) = some decl := by
  have member := explored.mem_decls drained led replicates
  exact find?_of_nodup explored.names_nodup member replicates.named

end Explored

/-- Everything that the roots lead to can be declared within `limit` steps, under a name of its own
and with no obligation. -/
structure Declarable (limit : Nat) (ns : Namespace) (roots : List QualName) : Prop where
  written : ∀ q, LedTo limit ns roots q → ∃ needs decl, Replicates limit ns q needs decl ∧
    ∀ owed, Need.obligation owed ∉ needs
  apart : ∀ p q, LedTo limit ns roots p → LedTo limit ns roots q → p.flat = q.flat → p = q
  bounded : ∃ all : List QualName, all.length ≤ limit ∧ ∀ q, LedTo limit ns roots q → q ∈ all

theorem Declarable.mono {fewer : List QualName} (declarable : Declarable limit ns roots)
    (subset : ∀ root ∈ fewer, root ∈ roots) : Declarable limit ns fewer := by
  obtain ⟨all, short, complete⟩ := declarable.bounded
  refine ⟨?_, ?_, all, short, fun q led => complete q (led.mono subset)⟩
  · exact fun q led => declarable.written q (led.mono subset)
  · exact fun p q led led' => declarable.apart p q (led.mono subset) (led'.mono subset)

/-- A run over `roots` that ends with its first loop, since no obligation comes up in it. -/
structure Unobliged (limit : Nat) (ns : Namespace) (roots : List QualName) (run : Run) : Prop where
  drained : ∃ worklist, Worklist.pushAll {} roots = .ok worklist ∧
    Run.drain ns limit limit { context := { worklist } } = .ok run
  free : run.context.obligations = []

theorem Unobliged.explored {run : Run} (unobliged : Unobliged limit ns roots run) :
    Explored limit ns roots run ∧ run.context.worklist.pop.1 = none ∧ run.decls.length ≤ limit := by
  obtain ⟨worklist, pushed, ended⟩ := unobliged.drained
  obtain ⟨explored, drained, few⟩ := drain_explored (Explored.start pushed) ended
  refine ⟨explored, drained, ?_⟩
  rw [← Nat.zero_add limit]
  exact few

theorem Unobliged.declarable {run : Run} (unobliged : Unobliged limit ns roots run) :
    Declarable limit ns roots := by
  obtain ⟨explored, drained, few⟩ := unobliged.explored
  have known : ∀ q, LedTo limit ns roots q → q ∈ run.context.worklist.known :=
    fun q led => (explored.mem_known_iff drained).mpr led
  refine ⟨?_, ?_, run.context.worklist.known, ?_, known⟩
  · intro q led
    obtain ⟨needs, decl, _, replicates⟩ := explored.declared_of_known drained (known q led)
    refine ⟨needs, decl, replicates, ?_⟩
    intro owed needed
    have held : run.context.Holds (.obligation owed) :=
      (explored.holds_iff drained).mpr (.inr ⟨q, needs, decl, led, replicates, needed⟩)
    rw [Context.Holds, unobliged.free] at held
    exact absurd held List.not_mem_nil
  · intro p q led led'
    exact List.inj_on_of_nodup_map explored.consistent.names (known p led) (known q led')
  · rw [explored.consistent.pop_none drained, List.length_map]
    exact few

theorem Explored.decls_lt {run : Run} {worklist : Worklist} {all : List QualName}
    (explored : Explored limit ns roots run)
    (popped : run.context.worklist.pop = (some q, worklist))
    (complete : ∀ q, LedTo limit ns roots q → q ∈ all) : run.decls.length < all.length := by
  obtain ⟨known, _, consistent⟩ := explored.consistent.pop_some popped
  have distinct : worklist.known.Nodup := consistent.names.of_map _
  have subset : worklist.known ⊆ all := by
    intro p member
    exact complete p (explored.found p (known ▸ member))
  calc
    run.decls.length < (run.decls.map (·.origin) ++ [q]).length := by simp
    _ ≤ worklist.known.length := by
      rw [consistent.known]
      exact (List.prefix_append _ _).length_le
    _ ≤ all.length := (List.subperm_of_subset distinct subset).length_le

theorem Declarable.declares {run : Run} {worklist : Worklist}
    (declarable : Declarable limit ns roots) (explored : Explored limit ns roots run)
    (free : run.context.obligations = [])
    (popped : run.context.worklist.pop = (some q, worklist)) :
    ∃ source context decl, ns.declaration? q = some source ∧ context.obligations = [] ∧
      Context.settle { run.context with worklist } q.qualified (spellDecl limit ns q source) =
        (context, .ok decl) := by
  obtain ⟨known, inside, _⟩ := explored.consistent.pop_some popped
  have led := explored.found q inside
  obtain ⟨needs, decl, replicates, unowed⟩ := declarable.written q led
  -- Whatever is known or needed is led to, and names tell this apart.
  have known' : ∀ p ∈ worklist.known, LedTo limit ns roots p :=
    fun p member => explored.found p (known ▸ member)
  have needed : ∀ r, Need.replica r ∈ needs → LedTo limit ns roots r :=
    fun r member => led.next ⟨needs, decl, replicates, member⟩
  obtain ⟨context, absorbed⟩ :=
    Context.absorb_ok declarable.apart (c := { run.context with worklist }) known' needed
  obtain ⟨source, declared, spelled⟩ := replicates
  refine ⟨source, context, decl, declared, ?_, ?_⟩
  · apply List.eq_nil_iff_forall_not_mem.mpr
    intro owed member
    rcases ((Context.absorb_eq_ok absorbed).obligations owed).mp member with earlier | now
    · rw [show run.context.obligations = [] from free] at earlier
      exact absurd earlier List.not_mem_nil
    · exact unowed owed now
  · rw [Context.settle, spelled, absorbed]
    rfl

theorem Declarable.drain_ok (declarable : Declarable limit ns roots) {all : List QualName}
    (complete : ∀ q, LedTo limit ns roots q → q ∈ all) {steps : Nat} {run : Run}
    (explored : Explored limit ns roots run) (free : run.context.obligations = [])
    (enough : all.length ≤ run.decls.length + steps) :
    ∃ final, Run.drain ns limit steps run = .ok final ∧ final.context.obligations = [] := by
  induction steps generalizing run with
  | zero =>
      unfold Run.drain
      split
      · exact ⟨run, rfl, free⟩
      · rename_i q worklist popped
        have room := explored.decls_lt popped complete
        omega
  | succ steps ih =>
      unfold Run.drain
      split
      · exact ⟨run, rfl, free⟩
      · rename_i q worklist popped
        obtain ⟨source, context, decl, declared, free', settled⟩ :=
          declarable.declares explored free popped
        simp only [declared, settled]
        apply ih (explored.declare popped declared settled) free'
        rw [List.length_append, List.length_singleton]
        omega

theorem declarable_iff : Declarable limit ns roots ↔ ∃ run, Unobliged limit ns roots run := by
  constructor
  · intro declarable
    obtain ⟨all, short, complete⟩ := declarable.bounded
    have rooted : ∀ root ∈ roots, LedTo limit ns roots root := fun root => .root
    obtain ⟨worklist, pushed⟩ := Worklist.pushAll_ok declarable.apart (w := {})
      (fun p member => absurd member List.not_mem_nil) rooted
    obtain ⟨run, ended, free⟩ :=
      declarable.drain_ok complete (Explored.start pushed) rfl (by simpa using short)
    exact ⟨run, ⟨worklist, pushed, ended⟩, free⟩
  · rintro ⟨run, unobliged⟩
    exact unobliged.declarable

end Replica
