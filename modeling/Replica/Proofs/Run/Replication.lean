import Replica.Proofs.Run.Outcome

/-!
A synthesized tree as a whole: each declaration is laid out like the one it replicates, every
replica that is referred to is there, each once, and they come in the order in which they were first
asked for.
-/

namespace Replica

def stringer : Interface Ty where
  methods := [⟨"String", { results := [⟨"", .basic "string"⟩] }⟩]

/-- An exported struct over a private one and over a generic one that asks for a method. -/
def geometry : Namespace where
  module := "geo"
  packages := [
    { path := "geo"
      types := [
        { name := "Shape"
          underlying := .struct [
            ⟨"Corners", .slice (.named ⟨"geo", "point"⟩ [])⟩,
            ⟨"Center", .named ⟨"geo", "cell"⟩ [.named ⟨"geo", "point"⟩ []]⟩,
            ⟨"Tags", .named ⟨"set", "Set"⟩ [.basic "string"]⟩] },
        { name := "point", underlying := .struct [⟨"x", .basic "int"⟩, ⟨"y", .basic "int"⟩] },
        { name := "cell"
          params := [⟨"T", .interface stringer⟩]
          underlying := .struct [⟨"value", .param "T"⟩] }] }]

theorem geometry_ends : ∃ tree, synthesize 20 geometry ["geo.Shape"] = .ok tree := ⟨_, rfl⟩

variable {limit : Nat} {ns : Namespace} {names : List String} {tree : Tree}

/-- A conversion for `root` goes to its replica, given exactly the parameters that the replica
declares. -/
def Tree.Converts (tree : Tree) (root : QualName) (c : Conversion) : Prop :=
  ∃ decl ∈ tree.decls, decl.origin = root ∧ c.name = "make_" ++ decl.name ∧
    c.params = decl.params ∧
    c.target = .pointer ((Expr.ident decl.name).apply (decl.params.map fun p => .ident p.name))

/-- What a tree declares when `roots` were requested and `pushed` is what was queued for it, in
order and with repetitions. -/
structure Tree.Closed (ns : Namespace) (roots pushed : List QualName) (tree : Tree) : Prop where
  origins : tree.decls.map (·.origin) = pushed.eraseDups
  named : ∀ decl ∈ tree.decls, decl.name = decl.origin.flat
  distinct : (tree.decls.map (·.name)).Nodup
  first : roots <+: tree.decls.map (·.origin)
  conversions : List.Forall₂ tree.Converts roots tree.conversions
  decls : ∀ decl ∈ tree.decls, ∃ source needs, ns.declaration? decl.origin = some source ∧
    SpelledDecl ns tree.Declares decl.origin source needs decl
  stubs : ∀ stub ∈ tree.stubs, ∃ receiver m needs,
    SpelledStub ns tree.Declares receiver m needs stub
  receivers : ∀ stub ∈ tree.stubs, ∃ decl ∈ tree.decls, decl.name = stub.receiver ∧ decl.params = []

theorem Completed.converts {roots : List QualName} {history : List Need} {final : Run}
    (completed : Completed ns roots history final) {root : QualName} (member : root ∈ roots) :
    (final.tree ns roots).Converts root (conversion final.decls root) := by
  have declared := (completed.declares_iff root).mpr (.inl member)
  rcases declared with ⟨decl, inside, rfl⟩
  have named := completed.sound.queueing.named decl inside
  -- Names are distinct, so the first declaration under the name is the replica of the root.
  have found : final.decls.find? (·.name == decl.origin.flat) = some decl :=
    find?_of_nodup completed.names_nodup inside named
  refine ⟨decl, inside, rfl, ?_, ?_, ?_⟩
  · rw [conversion, found, named]
  · rw [conversion, found]
  · rw [conversion, found, named]

theorem Completed.receiver {roots : List QualName} {history : List Need} {final : Run}
    (completed : Completed ns roots history final) {stub : Stub} (member : stub ∈ final.stubs) :
    ∃ decl ∈ final.decls, decl.name = stub.receiver ∧ decl.params = [] := by
  have sound := completed.sound
  rcases sound.written.stubs stub member with ⟨receiver, m, needs, asked, spelled, _⟩
  rcases asked with ⟨known, _, owed, methods, recorded, found, _, _⟩
  rw [sound.queueing.consistent.pop_none completed.drained] at known
  rcases List.mem_map.mp known with ⟨decl, inside, same⟩
  refine ⟨decl, inside, ?_, ?_⟩
  · rw [spelled.receiver_eq, ← same]
    exact sound.queueing.named decl inside
  · cases sound.recorded.justified _ recorded with
    | obligation _ argument =>
        rcases argument.receiver found with ⟨source, hidden, declared, simple⟩
        rcases sound.written.decls decl inside with ⟨source', _, declared', written, _⟩
        rw [same, declared] at declared'
        cases declared'
        have arity := written.arity
        rw [simple] at arity
        exact List.eq_nil_of_length_eq_zero arity

theorem Completed.closed {roots : List QualName} {history : List Need} {final : Run}
    (completed : Completed ns roots history final) (distinct : roots.Nodup) :
    (final.tree ns roots).Closed ns roots (roots ++ replicasOf history) where
  origins := completed.origins
  named := completed.sound.queueing.named
  distinct := completed.names_nodup
  first := by
    change roots <+: final.decls.map (·.origin)
    rw [completed.origins, List.eraseDups_append, eraseDups_of_nodup distinct]
    exact List.prefix_append _ _
  conversions := by
    refine List.forall₂_map_right_iff.mpr (List.forall₂_same.mpr fun root member => ?_)
    exact completed.converts member
  decls := fun _ member => completed.spelledDecl member
  stubs := by
    intro stub member
    rcases completed.spelledStub member with ⟨receiver, m, needs, _, spelled⟩
    exact ⟨receiver, m, needs, spelled⟩
  receivers := fun _ member => completed.receiver member

/-- The declarations of a tree are those of its roots and of everything that was ever queued for
them, once each and in that order; all that is referred to is among them. `pushed` lists what was
queued, from the roots on through the history of the run. -/
theorem synthesize_closed (ended : synthesize limit ns names = .ok tree) :
    ∃ resolved history final, List.Forall₂ (fun name root => ns.lookup name = .ok root) names resolved ∧
      Completed ns resolved.eraseDups history final ∧
      tree = final.tree ns resolved.eraseDups ∧
      tree.Closed ns resolved.eraseDups (resolved.eraseDups ++ replicasOf history) := by
  rcases synthesize_completed ended with ⟨roots, history, final, _, asked, completed, rfl⟩
  rcases resolveRoots_eq_ok asked with ⟨resolved, each, rfl⟩
  exact ⟨resolved, history, final, each, completed, rfl, completed.closed (nodup_eraseDups resolved)⟩

theorem geometry_closed : ∃ tree, synthesize 20 geometry ["geo.Shape"] = .ok tree ∧
    ∃ resolved history final,
      List.Forall₂ (fun name root => geometry.lookup name = .ok root) ["geo.Shape"] resolved ∧
      Completed geometry resolved.eraseDups history final ∧
      tree = final.tree geometry resolved.eraseDups ∧
      tree.Closed geometry resolved.eraseDups (resolved.eraseDups ++ replicasOf history) := by
  rcases geometry_ends with ⟨tree, ended⟩
  exact ⟨tree, ended, synthesize_closed ended⟩

end Replica
