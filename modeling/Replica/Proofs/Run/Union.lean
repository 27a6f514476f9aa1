import Replica.Proofs.Run.Exploration
import Replica.Proofs.Run.ImportBlock

/-!
Requests put together. As long as no obligation comes up, what is written for some roots is what is
written for each of them, taken together; their order decides only what comes first.
-/

namespace Replica

variable {limit : Nat} {ns : Namespace} {names : List String} {roots : List QualName} {run : Run}

/-- No obligation comes up while the requested types and all that they need are declared. Nothing is
left to do then. -/
def RecordsNone (limit : Nat) (ns : Namespace) (names : List String) : Prop :=
  ∀ roots worklist run, resolveRoots ns names = .ok roots →
    Worklist.pushAll {} roots = .ok worklist →
    Run.drain ns limit limit { context := { worklist } } = .ok run → run.context.obligations = []

theorem synthesize_of_unobliged (some : names ≠ []) (resolved : resolveRoots ns names = .ok roots)
    (unobliged : Unobliged limit ns roots run) :
    synthesize limit ns names = .ok (run.tree ns roots) := by
  obtain ⟨worklist, pushed, ended⟩ := unobliged.drained
  have met : Run.fulfil limit ns limit run = .ok run := by
    unfold Run.fulfil
    rw [unobliged.free]
  rw [synthesize_of_pushed some resolved pushed, ended]
  change (Run.fulfil limit ns limit run >>= _) = _
  rw [met]
  rfl

theorem unobliged_of_recordsNone {tree : Tree} (ended : synthesize limit ns names = .ok tree)
    (free : RecordsNone limit ns names) : ∃ roots run, resolveRoots ns names = .ok roots ∧
      Unobliged limit ns roots run ∧ tree = run.tree ns roots := by
  obtain ⟨roots, _, _, some, resolved, _⟩ := synthesize_completed ended
  cases pushed : Worklist.pushAll {} roots with
  | error e =>
      rw [synthesize_of_collision some resolved pushed] at ended
      cases ended
  | ok worklist =>
      have loops := ended
      rw [synthesize_of_pushed some resolved pushed] at loops
      obtain ⟨run, drained, _⟩ := bind_eq_ok loops
      have unobliged : Unobliged limit ns roots run :=
        ⟨⟨worklist, pushed, drained⟩, free roots worklist run resolved pushed drained⟩
      refine ⟨roots, run, resolved, unobliged, ?_⟩
      rw [synthesize_of_unobliged some resolved unobliged] at ended
      exact (Except.ok.inj ended).symm

namespace Unobliged

variable {more : List QualName} {other : Run}

theorem decls_iff (unobliged : Unobliged limit ns roots run) {decl : Decl} :
    decl ∈ run.decls ↔
      LedTo limit ns roots decl.origin ∧ ∃ needs, Replicates limit ns decl.origin needs decl := by
  obtain ⟨explored, drained, _⟩ := unobliged.explored
  exact explored.mem_decls_iff drained

theorem imports_iff (unobliged : Unobliged limit ns roots run) {path : String} :
    path ∈ (run.context.importRoots roots).imports ↔
      (∃ root ∈ roots, path = root.package ∨ path = unsafePackage) ∨
      ∃ q needs decl, LedTo limit ns roots q ∧ Replicates limit ns q needs decl ∧
        Need.package path ∈ needs := by
  obtain ⟨explored, drained, _⟩ := unobliged.explored
  have held : path ∈ run.context.imports ↔ ∃ q needs decl, LedTo limit ns roots q ∧
      Replicates limit ns q needs decl ∧ Need.package path ∈ needs := by
    change run.context.Holds (.package path) ↔ _
    rw [explored.holds_iff drained]
    apply or_iff_right
    rintro ⟨root, _, same⟩
    cases same
  rw [mem_importRoots, held, or_comm]

theorem conversion_eq (unobliged : Unobliged limit ns roots run)
    (unobliged' : Unobliged limit ns more other) {root : QualName} (member : root ∈ roots)
    (member' : root ∈ more) : conversion run.decls root = conversion other.decls root := by
  obtain ⟨explored, drained, _⟩ := unobliged.explored
  obtain ⟨explored', drained', _⟩ := unobliged'.explored
  obtain ⟨needs, decl, replicates, _⟩ := unobliged.declarable.written root (.root member)
  rw [conversion, conversion, explored.find?_eq drained (.root member) replicates,
    explored'.find?_eq drained' (.root member') replicates]

end Unobliged

/-- `tree` has the declarations and imports of both, and their conversions without repetitions. -/
structure Tree.IsUnion (tree first second : Tree) : Prop where
  decls : ∀ decl, decl ∈ tree.decls ↔ decl ∈ first.decls ∨ decl ∈ second.decls
  paths : ∀ path, path ∈ tree.imports.map (·.path) ↔
    path ∈ first.imports.map (·.path) ∨ path ∈ second.imports.map (·.path)
  conversions : tree.conversions = first.conversions ++
    second.conversions.filter (·.name ∉ first.conversions.map (·.name))
  shared : ∀ c ∈ second.conversions, c.name ∈ first.conversions.map (·.name) →
    c ∈ first.conversions

/-- The same imports, and the same declarations and conversions in another order. -/
structure Tree.Reorders (tree other : Tree) : Prop where
  imports : other.imports = tree.imports
  decls : other.decls.Perm tree.decls
  conversions : other.conversions.Perm tree.conversions
  stubs : other.stubs = tree.stubs

theorem Unobliged.name_mem_iff {first : List QualName} (unobliged : Unobliged limit ns roots run)
    (subset : ∀ root ∈ first, root ∈ roots) {decls decls' : List Decl} {root : QualName}
    (member : root ∈ roots) :
    (conversion decls root).name ∈ (first.map (conversion decls')).map (·.name) ↔ root ∈ first := by
  constructor
  · intro named
    obtain ⟨c, inside, same⟩ := List.mem_map.mp named
    obtain ⟨other, listed, rfl⟩ := List.mem_map.mp inside
    have flats : other.flat = root.flat := by
      simpa [conversion] using same
    have apart := unobliged.declarable.apart other root (.root (subset other listed)) (.root member)
    rw [← apart flats]
    exact listed
  · intro listed
    exact List.mem_map.mpr ⟨_, List.mem_map.mpr ⟨root, listed, rfl⟩, rfl⟩

section

variable {first second : List QualName} {run₁ run₂ : Run}
  (unobliged : Unobliged limit ns (first ++ second.filter (· ∉ first)) run)
  (unobliged₁ : Unobliged limit ns first run₁) (unobliged₂ : Unobliged limit ns second run₂)

include unobliged unobliged₁ unobliged₂

theorem Unobliged.isUnion : (run.tree ns (first ++ second.filter (· ∉ first))).IsUnion
    (run₁.tree ns first) (run₂.tree ns second) := by
  have split : ∀ root, root ∈ first ++ second.filter (· ∉ first) ↔
      root ∈ first ∨ root ∈ second := by
    intro root
    by_cases listed : root ∈ first <;> simp [listed]
  have led : ∀ q, LedTo limit ns (first ++ second.filter (· ∉ first)) q ↔
      LedTo limit ns first q ∨ LedTo limit ns second q := fun q => ledTo_or split
  have subset : ∀ root ∈ first, root ∈ first ++ second.filter (· ∉ first) :=
    fun root => List.mem_append_left _
  have path_iff : ∀ (final : Run) (roots : List QualName) (path : String),
      path ∈ (final.tree ns roots).imports.map (·.path) ↔
        path ∈ (final.context.importRoots roots).imports :=
    fun final roots path => (paths_importBlock_perm ns _).mem_iff
  refine ⟨?_, ?_, ?_, ?_⟩
  · intro decl
    change decl ∈ run.decls ↔ decl ∈ run₁.decls ∨ decl ∈ run₂.decls
    rw [unobliged.decls_iff, unobliged₁.decls_iff, unobliged₂.decls_iff, led, or_and_right]
  · intro path
    rw [path_iff, path_iff, path_iff, unobliged.imports_iff, unobliged₁.imports_iff,
      unobliged₂.imports_iff]
    simp only [split, led, or_and_right, exists_or]
    exact or_or_or_comm
  · have left : first.map (conversion run.decls) = first.map (conversion run₁.decls) :=
      List.map_congr_left fun root listed =>
        unobliged.conversion_eq unobliged₁ (subset root listed) listed
    -- Conversions are told apart by the names of their roots.
    have fresh : second.filter (· ∉ first) = second.filter fun root =>
        (conversion run₂.decls root).name ∉ (first.map (conversion run₁.decls)).map (·.name) := by
      apply List.filter_congr
      intro root listed
      rw [decide_eq_decide, unobliged.name_mem_iff subset ((split root).mpr (.inr listed))]
    have right : (second.filter (· ∉ first)).map (conversion run.decls) =
        (second.map (conversion run₂.decls)).filter
          (·.name ∉ (first.map (conversion run₁.decls)).map (·.name)) := by
      rw [List.filter_map, Function.comp_def, ← fresh]
      apply List.map_congr_left
      intro root member
      have listed := (List.mem_filter.mp member).1
      exact unobliged.conversion_eq unobliged₂ ((split root).mpr (.inr listed)) listed
    change (first ++ second.filter (· ∉ first)).map (conversion run.decls) = _
    rw [List.map_append, left, right]
    rfl
  · intro c member named
    obtain ⟨root, listed, rfl⟩ := List.mem_map.mp member
    have known := (unobliged.name_mem_iff subset ((split root).mpr (.inr listed))).mp named
    rw [unobliged₂.conversion_eq unobliged₁ listed known]
    exact List.mem_map.mpr ⟨root, known, rfl⟩

end

theorem Unobliged.reorders {other : List QualName} {run' : Run}
    (unobliged : Unobliged limit ns roots run) (unobliged' : Unobliged limit ns other run')
    (perm : other.Perm roots) : (run.tree ns roots).Reorders (run'.tree ns other) := by
  obtain ⟨explored, drained, _⟩ := unobliged.explored
  obtain ⟨explored', drained', _⟩ := unobliged'.explored
  have led : ∀ q, LedTo limit ns other q ↔ LedTo limit ns roots q := by
    intro q
    exact ⟨fun led => led.mono fun root => perm.mem_iff.mp,
      fun led => led.mono fun root => perm.mem_iff.mpr⟩
  refine ⟨?_, ?_, ?_, ?_⟩
  · have paths : (run'.context.importRoots other).imports =
        (run.context.importRoots roots).imports := by
      apply eq_of_increasing (pairwise_importRoots explored'.increasing)
        (pairwise_importRoots explored.increasing)
      intro path
      rw [unobliged'.imports_iff, unobliged.imports_iff]
      simp only [led, perm.mem_iff]
    change importBlock ns _ = importBlock ns _
    rw [paths]
  · -- Both trees declare what their roots lead to, and nothing twice.
    change run'.decls.Perm run.decls
    apply (List.perm_ext_iff_of_nodup explored'.names_nodup.of_map
      explored.names_nodup.of_map).mpr
    intro decl
    rw [unobliged'.decls_iff, unobliged.decls_iff, led]
  · have same : other.map (conversion run'.decls) = other.map (conversion run.decls) :=
      List.map_congr_left fun root member =>
        unobliged'.conversion_eq unobliged member (perm.mem_iff.mp member)
    change (other.map (conversion run'.decls)).Perm (roots.map (conversion run.decls))
    rw [same]
    exact perm.map _
  · exact explored'.unstubbed.trans explored.unstubbed.symm

section

variable {names₁ names₂ : List String} {tree : Tree}

/-- Without obligations, the tree for two lists of requests is the union of the trees for each, and
requests in another order or with repetitions give the same imports, declarations and conversions in
another order. -/
theorem synthesize_union (some₁ : names₁ ≠ []) (some₂ : names₂ ≠ [])
    (ended : synthesize limit ns (names₁ ++ names₂) = .ok tree)
    (free : RecordsNone limit ns (names₁ ++ names₂)) :
    (∃ tree₁ tree₂, synthesize limit ns names₁ = .ok tree₁ ∧
      synthesize limit ns names₂ = .ok tree₂ ∧ tree.IsUnion tree₁ tree₂) ∧
    ∀ names, (∀ name, name ∈ names ↔ name ∈ names₁ ++ names₂) →
      ∃ tree', synthesize limit ns names = .ok tree' ∧ tree.Reorders tree' := by
  obtain ⟨roots, run, resolved, unobliged, rfl⟩ := unobliged_of_recordsNone ended free
  have looked := lookup_ok_of_resolveRoots resolved
  constructor
  · obtain ⟨first, resolved₁⟩ :=
      resolveRoots_ok fun name member => looked name (List.mem_append_left _ member)
    obtain ⟨second, resolved₂⟩ :=
      resolveRoots_ok fun name member => looked name (List.mem_append_right _ member)
    have together := resolveRoots_append resolved₁ resolved₂
    rw [resolved] at together
    cases together
    have declarable := unobliged.declarable
    obtain ⟨run₁, unobliged₁⟩ := declarable_iff.mp
      (declarable.mono fun root (member : root ∈ first) => List.mem_append_left _ member)
    obtain ⟨run₂, unobliged₂⟩ := declarable_iff.mp
      (declarable.mono fun root (member : root ∈ second) => by
        by_cases listed : root ∈ first <;> simp [listed, member])
    exact ⟨_, _, synthesize_of_unobliged some₁ resolved₁ unobliged₁,
      synthesize_of_unobliged some₂ resolved₂ unobliged₂, unobliged.isUnion unobliged₁ unobliged₂⟩
  · intro names same
    obtain ⟨other, resolved'⟩ :=
      resolveRoots_ok fun name member => looked name ((same name).mp member)
    have some : names ≠ [] := by
      rintro rfl
      obtain ⟨name, member⟩ := List.exists_mem_of_ne_nil names₁ some₁
      exact absurd ((same name).mpr (List.mem_append_left _ member)) List.not_mem_nil
    have perm : other.Perm roots := by
      apply (List.perm_ext_iff_of_nodup (nodup_of_resolveRoots resolved')
        (nodup_of_resolveRoots resolved)).mpr
      intro root
      rw [mem_resolveRoots_iff resolved', mem_resolveRoots_iff resolved]
      simp only [same]
    obtain ⟨run', unobliged'⟩ := declarable_iff.mp
      (unobliged.declarable.mono fun root => perm.mem_iff.mp)
    exact ⟨_, synthesize_of_unobliged some resolved' unobliged', unobliged.reorders unobliged' perm⟩

end

def atlas : Namespace where
  module := "geo"
  packages := [
    { path := "geo"
      types := [
        { name := "Map", underlying := .struct [⟨"Places", .slice (.named ⟨"geo", "point"⟩ [])⟩] },
        { name := "Route"
          underlying := .struct [
            ⟨"Stops", .slice (.named ⟨"geo", "point"⟩ [])⟩,
            ⟨"Tags", .named ⟨"set", "Set"⟩ [.basic "string"]⟩] },
        { name := "point", underlying := .struct [⟨"x", .basic "int"⟩, ⟨"y", .basic "int"⟩] }] }]

theorem atlas_ends : ∃ tree, synthesize 20 atlas ["geo.Map", "geo.Route"] = .ok tree := ⟨_, rfl⟩

theorem atlas_recordsNone : RecordsNone 20 atlas ["geo.Map", "geo.Route"] := by
  intro roots worklist run resolved pushed drained
  cases resolved
  cases pushed
  cases drained
  rfl

theorem atlas_union : ∃ tree, synthesize 20 atlas ["geo.Map", "geo.Route"] = .ok tree ∧
    (∃ tree₁ tree₂, synthesize 20 atlas ["geo.Map"] = .ok tree₁ ∧
      synthesize 20 atlas ["geo.Route"] = .ok tree₂ ∧ tree.IsUnion tree₁ tree₂) ∧
    ∃ tree', synthesize 20 atlas ["geo.Route", "geo.Map", "geo.Route"] = .ok tree' ∧
      tree.Reorders tree' := by
  obtain ⟨tree, ended⟩ := atlas_ends
  have united := @synthesize_union 20 atlas ["geo.Map"] ["geo.Route"] tree (by decide) (by decide)
    ended atlas_recordsNone
  refine ⟨tree, ended, united.1, united.2 _ ?_⟩
  intro name
  simp only [List.cons_append, List.nil_append, List.mem_cons]
  tauto

end Replica
