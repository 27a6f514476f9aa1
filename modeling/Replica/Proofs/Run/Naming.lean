import Replica.Proofs.Identifier
import Replica.Proofs.Run.Replication
import Replica.Proofs.WellFormed

/-!
Whether the names that a generated file declares are identifiers. They are taken from the paths of
packages, which may hold characters that no identifier has.
-/

namespace Replica

/-- Packages at paths that can be imported, with types that are declared under identifiers. -/
structure Namespace.Importable (ns : Namespace) (alphabet : Alphabet) : Prop where
  paths : ∀ package ∈ ns.packages, IsImportPath package.path
  types : ∀ package ∈ ns.packages, ∀ decl ∈ package.types,
    alphabet.isIdentifier decl.name = true

variable {ns : Namespace} {alphabet : Alphabet}

theorem Namespace.Importable.declared (importable : ns.Importable alphabet) {q : QualName}
    {decl : TypeDecl} (found : ns.declaration? q = some decl) :
    IsImportPath q.package ∧ alphabet.isIdentifier q.name = true := by
  obtain ⟨package, listed, path, inside, name⟩ := Namespace.mem_of_declaration found
  exact ⟨path ▸ importable.paths package listed, name ▸ importable.types package listed decl inside⟩

/-- The declarations and conversions of a tree whose names are identifiers are those for packages
with plain paths. `roots` are what was requested. -/
structure Tree.NamedByPaths (tree : Tree) (alphabet : Alphabet) (roots : List QualName) : Prop where
  decls : ∀ decl ∈ tree.decls,
    alphabet.isIdentifier decl.name = true ↔ IsPlainPath decl.origin.package
  conversions : List.Forall₂
    (fun root c => alphabet.isIdentifier c.name = true ↔ IsPlainPath root.package)
    roots tree.conversions

theorem Completed.namedByPaths {roots : List QualName} {history : List Need} {final : Run}
    (completed : Completed ns roots history final) (importable : ns.Importable alphabet) :
    (final.tree ns roots).NamedByPaths alphabet roots where
  decls decl member := by
    obtain ⟨source, needs, found, spelled⟩ := completed.spelledDecl member
    obtain ⟨path, name⟩ := importable.declared found
    rw [completed.sound.queueing.named decl member]
    exact Alphabet.isIdentifier_flat path name
  conversions := by
    refine List.forall₂_map_right_iff.mpr (List.forall₂_same.mpr fun root member => ?_)
    obtain ⟨decl, inside, rfl, _⟩ := completed.converts member
    obtain ⟨source, needs, found, spelled⟩ := completed.spelledDecl inside
    obtain ⟨path, name⟩ := importable.declared found
    exact Alphabet.isIdentifier_make_flat path name

/-- Where paths can be imported and types have identifiers for names, the name of a replica or of a
conversion is an identifier if there is neither a hyphen nor a tilde in the path of the package, and
only then. -/
theorem synthesize_namedByPaths {limit : Nat} {names : List String} {tree : Tree}
    (importable : ns.Importable alphabet) (ended : synthesize limit ns names = .ok tree) :
    ∃ roots, resolveRoots ns names = .ok roots ∧ tree.NamedByPaths alphabet roots := by
  obtain ⟨roots, history, final, _, resolved, completed, rfl⟩ := synthesize_completed ended
  exact ⟨roots, resolved, completed.namedByPaths importable⟩

def caches : Namespace where
  module := "example.com/go-cache"
  packages := [
    { path := "example.com/go-cache"
      types := [
        { name := "LRU"
          underlying := .struct [⟨"last", .pointer (.named ⟨"example.com/go-cache", "item"⟩ [])⟩] },
        { name := "item", underlying := .struct [⟨"size", .basic "int"⟩] }] }]

theorem caches_importable (alphabet : Alphabet) : caches.Importable alphabet where
  paths package listed := by
    have characters : caches.module.toList.all
        (fun c => c.isAlphanum || c ∈ ['-', '.', '_', '~', '/']) = true := by decide
    rw [List.mem_singleton.mp listed]
    exact ⟨⟨'e', rfl, rfl⟩, by simp, by decide⟩
  types package listed decl inside := by
    have named : ∀ name ∈ ["LRU", "item"], alphabet.isIdentifier name = true := by
      intro name member
      have few : name.toList.all (·.toNat < 128) = true := by
        revert name
        decide
      rw [alphabet.isIdentifier_ascii few]
      revert name
      decide
    rw [List.mem_singleton.mp listed] at inside
    rcases List.mem_cons.mp inside with rfl | later
    · exact named _ (by decide)
    · rw [List.mem_singleton.mp later]
      exact named _ (by decide)

theorem caches_namedByPaths : caches.Importable .ascii ∧
    ∃ tree roots, synthesize 20 caches ["example.com/go-cache.LRU"] = .ok tree ∧
      resolveRoots caches ["example.com/go-cache.LRU"] = .ok roots ∧
      tree.NamedByPaths .ascii roots := by
  obtain ⟨tree, ended⟩ : ∃ tree, synthesize 20 caches ["example.com/go-cache.LRU"] = .ok tree :=
    ⟨_, rfl⟩
  obtain ⟨roots, resolved, named⟩ := synthesize_namedByPaths (caches_importable .ascii) ended
  exact ⟨caches_importable .ascii, tree, roots, ended, resolved, named⟩

/-- The hyphen stays in every name, so that none is an identifier. -/
theorem caches_unnamable : (∀ alphabet, caches.Importable alphabet) ∧
    ∃ tree, synthesize 20 caches ["example.com/go-cache.LRU"] = .ok tree ∧
      tree.decls.map (·.name) = ["example_com_go-cache_LRU", "example_com_go-cache_item"] ∧
      tree.conversions.map (·.name) = ["make_example_com_go-cache_LRU"] ∧
      ∀ alphabet : Alphabet,
        (∀ decl ∈ tree.decls, alphabet.isIdentifier decl.name = false) ∧
        ∀ c ∈ tree.conversions, alphabet.isIdentifier c.name = false := by
  obtain ⟨tree, ended, decls, conversions⟩ : ∃ tree,
      synthesize 20 caches ["example.com/go-cache.LRU"] = .ok tree ∧
      tree.decls.map (·.name) = ["example_com_go-cache_LRU", "example_com_go-cache_item"] ∧
      tree.conversions.map (·.name) = ["make_example_com_go-cache_LRU"] := ⟨_, rfl, rfl, rfl⟩
  have refused : ∀ name ∈ ["example_com_go-cache_LRU", "example_com_go-cache_item",
      "make_example_com_go-cache_LRU"],
      ∀ alphabet : Alphabet, alphabet.isIdentifier name = false := by
    intro name member alphabet
    have few : name.toList.all (·.toNat < 128) = true := by
      revert name
      decide
    rw [alphabet.isIdentifier_ascii few]
    revert name
    decide
  refine ⟨caches_importable, tree, ended, decls, conversions, fun alphabet => ⟨?_, ?_⟩⟩
  · intro decl member
    have listed : decl.name ∈ tree.decls.map (·.name) := List.mem_map_of_mem member
    rw [decls] at listed
    exact refused _ (List.mem_append_left ["make_example_com_go-cache_LRU"] listed) alphabet
  · intro c member
    have listed : c.name ∈ tree.conversions.map (·.name) := List.mem_map_of_mem member
    rw [conversions] at listed
    exact refused _ (List.mem_append_right ["example_com_go-cache_LRU", "example_com_go-cache_item"]
      listed) alphabet

end Replica
