import Replica.Proofs.Expr.Layout
import Replica.Proofs.Run.Replication

/-!
The import block of a synthesized tree: the packages of all that the tree mentions, the one that
conversions go through, and no others.
-/

namespace Replica

theorem mentions_ident {name : String} {q : QualName} : ¬ (Expr.ident name).Mentions q := by
  intro mentions
  cases mentions with
  | inside child _ => exact absurd child List.not_mem_nil

theorem mentions_apply {base : Expr} {args : List Expr} {q : QualName} :
    (base.apply args).Mentions q ↔ base.Mentions q ∨ MentionedIn args q := by
  cases args with
  | nil =>
      constructor
      · exact .inl
      · intro given
        rcases given with mentions | ⟨e, member, _⟩
        · exact mentions
        · exact absurd member List.not_mem_nil
  | cons arg rest =>
      have other : ∀ r, Expr.applied base (arg :: rest) ≠ .qualified r := fun r same => by cases same
      change (Expr.applied base (arg :: rest)).Mentions q ↔ _
      rw [Expr.mentions_iff other, Expr.children]
      constructor
      · intro given
        rcases given with ⟨e, member, mentions⟩
        rcases List.mem_cons.mp member with rfl | later
        · exact .inl mentions
        · exact .inr ⟨e, later, mentions⟩
      · intro given
        rcases given with mentions | ⟨e, member, mentions⟩
        · exact ⟨base, List.mem_cons_self, mentions⟩
        · exact ⟨e, List.mem_cons_of_mem _ member, mentions⟩

theorem mentions_pointer {elem : Expr} {q : QualName} :
    (Expr.pointer elem).Mentions q ↔ elem.Mentions q := by
  have other : ∀ r, Expr.pointer elem ≠ .qualified r := fun r same => by cases same
  rw [Expr.mentions_iff other]
  exact ⟨fun ⟨_, member, mentions⟩ => List.mem_singleton.mp member ▸ mentions,
    fun mentions => ⟨elem, List.mem_singleton_self elem, mentions⟩⟩

theorem mentions_conversion {decls : List Decl} {root q : QualName} :
    MentionedIn (conversion decls root).exprs q ↔
      q = root ∨ MentionedIn ((conversion decls root).params.map (·.type)) q := by
  have idents : ∀ params : List (Field Expr),
      ¬ MentionedIn (params.map fun param => Expr.ident param.name) q := by
    intro params given
    rcases given with ⟨e, member, mentions⟩
    rcases List.mem_map.mp member with ⟨param, _, rfl⟩
    exact mentions_ident mentions
  have source : (conversion decls root).source.Mentions q ↔ q = root := by
    rw [conversion, mentions_pointer, mentions_apply, Expr.mentions_qualified]
    exact or_iff_left (idents _)
  have target : ¬ (conversion decls root).target.Mentions q := by
    rw [conversion, mentions_pointer, mentions_apply]
    intro given
    rcases given with mentions | inArgs
    · exact mentions_ident mentions
    · exact idents _ inArgs
  rw [Conversion.exprs, mentionedIn_append, or_comm]
  refine or_congr ?_ Iff.rfl
  constructor
  · intro given
    rcases given with ⟨e, member, mentions⟩
    rcases List.mem_cons.mp member with rfl | last
    · exact source.mp mentions
    · rw [List.mem_singleton.mp last] at mentions
      exact absurd mentions target
  · intro same
    exact ⟨_, List.mem_cons_self, source.mpr same⟩

theorem conversion_params_mentioned {decls : List Decl} {root q : QualName}
    (mentioned : MentionedIn ((conversion decls root).params.map (·.type)) q) :
    MentionedIn (decls.flatMap Decl.exprs) q := by
  rw [conversion] at mentioned
  cases found : decls.find? (·.name == root.flat) with
  | none =>
      simp only [found] at mentioned
      rcases mentioned with ⟨e, member, _⟩
      exact absurd member List.not_mem_nil
  | some decl =>
      simp only [found] at mentioned
      rcases mentioned with ⟨e, member, mentions⟩
      refine mentionedIn_flatMap.mpr ⟨decl, List.mem_of_find?_eq_some found, e, ?_, mentions⟩
      exact List.mem_append_left _ member

theorem mem_importRoots {c : Context} {roots : List QualName} {path : String} :
    path ∈ (c.importRoots roots).imports ↔ path ∈ c.imports ∨
      ∃ root ∈ roots, path = root.package ∨ path = unsafePackage := by
  induction roots generalizing c with
  | nil => simp [Context.importRoots]
  | cons root rest ih =>
      rw [Context.importRoots, ih, Context.importPackage, mem_insertPath, Context.importPackage,
        mem_insertPath]
      simp only [List.mem_cons, exists_eq_or_imp]
      tauto

theorem pairwise_importRoots {c : Context} {roots : List QualName}
    (increasing : c.imports.Pairwise (· < ·)) :
    (c.importRoots roots).imports.Pairwise (· < ·) := by
  induction roots generalizing c with
  | nil => exact increasing
  | cons root rest ih => exact ih (pairwise_insertPath (pairwise_insertPath increasing))

/-- The imports of a tree are what its text needs, each once, and lend their aliases to all of it. -/
structure Tree.ImportsExactly (tree : Tree) : Prop where
  paths : ∀ path, path ∈ tree.imports.map (·.path) ↔
    path = unsafePackage ∨ ∃ q, tree.Mentions q ∧ q.package = path
  distinct : (tree.imports.map (·.path)).Nodup
  accessible : ∀ q, tree.Mentions q → isExported q.name = true ∧ isInternal q.package = false
  aliased : ∀ entry ∈ tree.imports, tree.aliasOf entry.path = entry.localName
  sufficient : ∀ aliases, (∀ entry ∈ tree.imports, aliases entry.path = entry.localName) →
    tree.blocks aliases = tree.blocks tree.aliasOf

theorem aliasOf_entry {tree : Tree} (distinct : (tree.imports.map (·.path)).Nodup) {entry : Import}
    (member : entry ∈ tree.imports) : tree.aliasOf entry.path = entry.localName := by
  have reversed : (tree.imports.reverse.map (·.path)).Nodup := by
    rwa [List.map_reverse, List.nodup_reverse]
  rw [Tree.aliasOf, find?_of_nodup reversed (List.mem_reverse.mpr member) rfl]

theorem blocks_of_entries {tree : Tree}
    (listed : ∀ q, tree.Mentions q → q.package ∈ tree.imports.map (·.path))
    (pointers : unsafePackage ∈ tree.imports.map (·.path))
    (distinct : (tree.imports.map (·.path)).Nodup) {aliases : String → String}
    (agree : ∀ entry ∈ tree.imports, aliases entry.path = entry.localName) :
    tree.blocks aliases = tree.blocks tree.aliasOf := by
  have same : ∀ path ∈ tree.imports.map (·.path), aliases path = tree.aliasOf path := by
    intro path member
    rcases List.mem_map.mp member with ⟨entry, inside, rfl⟩
    rw [agree entry inside, aliasOf_entry distinct inside]
  exact Tree.blocks_congr (fun q mentions => same q.package (listed q mentions)) (same _ pointers)

section

variable {ns : Namespace} {roots : List QualName} {history : List Need} {final : Run}

theorem Run.tree_mentions {q : QualName} : (final.tree ns roots).Mentions q ↔ q ∈ roots ∨
    MentionedIn (final.decls.flatMap Decl.exprs ++ final.stubs.flatMap Stub.exprs) q := by
  have conversions : MentionedIn ((roots.map (conversion final.decls)).flatMap Conversion.exprs) q ↔
      ∃ root ∈ roots, MentionedIn (conversion final.decls root).exprs q := by
    rw [List.flatMap_map, mentionedIn_flatMap]
  rw [Tree.Mentions, Tree.exprs, Run.tree, mentionedIn_append, mentionedIn_append,
    mentionedIn_append, conversions]
  constructor
  · intro given
    rcases given with (inDecls | ⟨root, member, mentioned⟩) | inStubs
    · exact .inr (.inl inDecls)
    · rcases mentions_conversion.mp mentioned with rfl | inParams
      · exact .inl member
      · exact .inr (.inl (conversion_params_mentioned inParams))
    · exact .inr (.inr inStubs)
  · intro given
    rcases given with root | inDecls | inStubs
    · exact .inl (.inr ⟨q, root, mentions_conversion.mpr (.inl rfl)⟩)
    · exact .inl (.inl inDecls)
    · exact .inr inStubs

theorem Completed.importsExactly (completed : Completed ns roots history final)
    (some : roots ≠ []) (exported : ∀ root ∈ roots, root.isPublic = true) :
    (final.tree ns roots).ImportsExactly := by
  have written := completed.sound.written
  have perm := paths_importBlock_perm ns (final.context.importRoots roots).imports
  have paths : ∀ path, path ∈ (final.tree ns roots).imports.map (·.path) ↔
      path = unsafePackage ∨ ∃ q, (final.tree ns roots).Mentions q ∧ q.package = path := by
    intro path
    rw [Run.tree, perm.mem_iff, mem_importRoots, written.imports]
    constructor
    · intro given
      rcases given with needed | ⟨root, member, same | same⟩
      · rcases written.accounts.mentioned path needed with ⟨q, mentioned, same⟩
        exact .inr ⟨q, Run.tree_mentions.mpr (.inr mentioned), same⟩
      · exact .inr ⟨root, Run.tree_mentions.mpr (.inl member), same.symm⟩
      · exact .inl same
    · intro given
      rcases given with rfl | ⟨q, mentions, rfl⟩
      · rcases List.exists_mem_of_ne_nil roots some with ⟨root, member⟩
        exact .inr ⟨root, member, .inr rfl⟩
      · rcases Run.tree_mentions.mp mentions with member | mentioned
        · exact .inr ⟨q, member, .inl rfl⟩
        · exact .inl (written.accounts.needed q mentioned)
  have distinct : ((final.tree ns roots).imports.map (·.path)).Nodup := by
    refine perm.nodup_iff.mpr ?_
    exact (pairwise_importRoots written.increasing).imp fun below same => by
      subst same
      exact String.lt_irrefl _ below
  refine ⟨paths, distinct, ?_, fun entry member => aliasOf_entry distinct member, ?_⟩
  · intro q mentions
    have accessible : q.isPublic = true := by
      rcases Run.tree_mentions.mp mentions with member | mentioned
      · exact exported q member
      · exact written.accounts.exported q mentioned
    simpa [QualName.isPublic] using accessible
  · intro aliases agree
    refine blocks_of_entries (fun q mentions => ?_) ((paths _).mpr (.inl rfl)) distinct agree
    exact (paths _).mpr (.inr ⟨q, mentions, rfl⟩)

end

/-- What is imported is what the declarations, conversions and stubs of a tree mention, and the
package of unsafe pointers. -/
theorem synthesize_imports {limit : Nat} {ns : Namespace} {names : List String} {tree : Tree}
    (ended : synthesize limit ns names = .ok tree) : tree.ImportsExactly := by
  rcases synthesize_completed ended with ⟨roots, history, final, asked, resolved, completed, rfl⟩
  refine completed.importsExactly ?_ ?_
  · intro same
    subst same
    rcases resolveRoots_eq_ok resolved with ⟨all, each, none⟩
    cases each with
    | nil => exact asked rfl
    | cons _ _ =>
        rw [List.eraseDups_cons] at none
        cases none
  · intro root member
    rcases mem_resolveRoots resolved member with ⟨name, _, found⟩
    exact (lookup_eq_ok found).1

theorem geometry_imports : ∃ tree, synthesize 20 geometry ["geo.Shape"] = .ok tree ∧
    tree.ImportsExactly := by
  rcases geometry_ends with ⟨tree, ended⟩
  exact ⟨tree, ended, synthesize_imports ended⟩

end Replica
