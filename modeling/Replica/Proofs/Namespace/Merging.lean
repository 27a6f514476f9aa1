import Replica.Proofs.Classification
import Replica.Proofs.Run.Locality

/-!
Merging namespace files. A merge fails only where a package is described twice, and otherwise holds
the packages and dependencies of all files. What a run asks of a namespace depends on which these
are, not on the order in which they came.
-/

namespace Replica

def describedPackages (files : List NamespaceFile) : List Package :=
  files.flatMap (·.packages)

def listedDependencies (files : List NamespaceFile) : List String :=
  files.flatMap (·.metadata.dependencies)

namespace Namespace

variable {ns next : Namespace}

theorem package?_eq_none_iff {path : String} :
    ns.package? path = none ↔ path ∉ ns.packages.map (·.path) := by
  simp [package?, List.find?_eq_none]

theorem package?_eq_some_iff (distinct : (ns.packages.map (·.path)).Nodup) {path : String}
    {package : Package} :
    ns.package? path = some package ↔ package ∈ ns.packages ∧ package.path = path := by
  constructor
  · intro found
    exact ⟨List.mem_of_find?_eq_some found, by simpa using List.find?_some found⟩
  · rintro ⟨listed, here⟩
    exact find?_of_nodup distinct listed here

theorem addPackage_eq_ok_iff {package : Package} : ns.addPackage package = .ok next ↔
    package.path ∉ ns.packages.map (·.path) ∧
      next = { ns with packages := ns.packages ++ [package] } := by
  unfold addPackage
  rw [← package?_eq_none_iff, ← Option.not_isSome_iff_eq_none]
  split
  · rename_i taken
    simp [taken]
  · rename_i free
    simp [free, eq_comm]

theorem addPackages_eq_ok_iff {packages : List Package}
    (distinct : (ns.packages.map (·.path)).Nodup) :
    packages.foldlM addPackage ns = .ok next ↔
      ((ns.packages ++ packages).map (·.path)).Nodup ∧
        next = { ns with packages := ns.packages ++ packages } := by
  induction packages generalizing ns with
  | nil =>
      rw [List.append_nil, List.foldlM_nil]
      constructor
      · intro same
        cases same
        exact ⟨distinct, rfl⟩
      · rintro ⟨_, rfl⟩
        rfl
  | cons package rest ih =>
      have grown : ns.packages ++ package :: rest = ns.packages ++ [package] ++ rest := by simp
      rw [grown, List.foldlM_cons]
      constructor
      · intro added
        obtain ⟨middle, first, later⟩ := bind_eq_ok added
        obtain ⟨fresh, rfl⟩ := addPackage_eq_ok_iff.mp first
        refine (ih ?_).mp later
        rw [List.map_append, List.nodup_append]
        refine ⟨distinct, List.nodup_singleton _, ?_⟩
        intro path known other same equal
        rw [List.map_singleton, List.mem_singleton] at same
        exact fresh (same ▸ equal ▸ known)
      · rintro ⟨apart, rfl⟩
        rw [List.map_append] at apart
        have front := apart.of_append_left
        have fresh : package.path ∉ ns.packages.map (·.path) := by
          rw [List.map_append, List.nodup_append] at front
          intro known
          exact front.2.2 _ known _ (List.mem_singleton_self _) rfl
        rw [addPackage_eq_ok_iff.mpr ⟨fresh, rfl⟩]
        exact (ih front).mpr ⟨by rwa [List.map_append], rfl⟩

theorem addDependency_frame (path : String) :
    ∃ all, ns.addDependency path = { ns with dependencies := all } ∧
      ∀ other, other ∈ all ↔ other ∈ ns.dependencies ∨ other = path := by
  unfold addDependency
  split
  · rename_i known
    refine ⟨ns.dependencies, rfl, fun other => ?_⟩
    constructor
    · exact .inl
    · rintro (old | rfl)
      · exact old
      · exact known
  · refine ⟨ns.dependencies ++ [path], rfl, fun other => ?_⟩
    rw [List.mem_append, List.mem_singleton]

theorem addDependencies_frame (paths : List String) :
    ∃ all, paths.foldl addDependency ns = { ns with dependencies := all } ∧
      ∀ path, path ∈ all ↔ path ∈ ns.dependencies ∨ path ∈ paths := by
  induction paths generalizing ns with
  | nil => exact ⟨ns.dependencies, rfl, by simp⟩
  | cons first rest ih =>
      obtain ⟨some, added, inSome⟩ := ns.addDependency_frame first
      obtain ⟨all, same, inAll⟩ := @ih { ns with dependencies := some }
      refine ⟨all, by rw [List.foldl_cons, added, same], fun path => ?_⟩
      rw [inAll, inSome, List.mem_cons, or_assoc]

structure Gathers (ns : Namespace) (files : List NamespaceFile) (next : Namespace) : Prop where
  module : next.module = ns.module
  outputPackage : next.outputPackage = ns.outputPackage
  packages : next.packages = ns.packages ++ describedPackages files
  dependencies : ∀ path, path ∈ next.dependencies ↔
    path ∈ ns.dependencies ∨ path ∈ listedDependencies files
  distinct : (next.packages.map (·.path)).Nodup

theorem addFile_gathers {file : NamespaceFile} (distinct : (ns.packages.map (·.path)).Nodup)
    (added : ns.addFile file = .ok next) : ns.Gathers [file] next := by
  obtain ⟨all, same, members⟩ := ns.addDependencies_frame file.metadata.dependencies
  unfold addFile at added
  rw [same] at added
  obtain ⟨apart, rfl⟩ :=
    (@addPackages_eq_ok_iff { ns with dependencies := all } _ _ distinct).mp added
  exact {
    module := rfl
    outputPackage := rfl
    packages := by simp [describedPackages]
    dependencies := by simpa [listedDependencies] using members
    distinct := apart }

theorem addFile_ok {file : NamespaceFile}
    (distinct : ((ns.packages ++ file.packages).map (·.path)).Nodup) :
    ∃ next, ns.addFile file = .ok next := by
  obtain ⟨all, same, _⟩ := ns.addDependencies_frame file.metadata.dependencies
  have before : (ns.packages.map (·.path)).Nodup := by
    rw [List.map_append] at distinct
    exact distinct.of_append_left
  unfold addFile
  rw [same]
  exact ⟨_, (@addPackages_eq_ok_iff { ns with dependencies := all } _ _ before).mpr
    ⟨distinct, rfl⟩⟩

theorem Gathers.trans {middle : Namespace} {file : NamespaceFile} {files : List NamespaceFile}
    (first : ns.Gathers [file] middle) (later : middle.Gathers files next) :
    ns.Gathers (file :: files) next where
  module := later.module.trans first.module
  outputPackage := later.outputPackage.trans first.outputPackage
  packages := by
    rw [later.packages, first.packages]
    simp [describedPackages]
  dependencies path := by
    rw [later.dependencies, first.dependencies]
    simp [listedDependencies, or_assoc]
  distinct := later.distinct

theorem addFiles_gathers {files : List NamespaceFile}
    (distinct : (ns.packages.map (·.path)).Nodup)
    (added : files.foldlM addFile ns = .ok next) : ns.Gathers files next := by
  induction files generalizing ns with
  | nil =>
      cases added
      exact ⟨rfl, rfl, by simp [describedPackages], by simp [listedDependencies], distinct⟩
  | cons file rest ih =>
      rw [List.foldlM_cons] at added
      obtain ⟨middle, first, later⟩ := bind_eq_ok added
      have gathers := addFile_gathers distinct first
      exact gathers.trans (ih gathers.distinct later)

theorem addFiles_ok {files : List NamespaceFile}
    (distinct : ((ns.packages ++ describedPackages files).map (·.path)).Nodup) :
    ∃ next, files.foldlM addFile ns = .ok next := by
  induction files generalizing ns with
  | nil => exact ⟨ns, rfl⟩
  | cons file rest ih =>
      have split : ns.packages ++ describedPackages (file :: rest) =
          ns.packages ++ file.packages ++ describedPackages rest := by
        simp [describedPackages]
      rw [split] at distinct
      have front : ((ns.packages ++ file.packages).map (·.path)).Nodup := by
        rw [List.map_append] at distinct
        exact distinct.of_append_left
      have before : (ns.packages.map (·.path)).Nodup := by
        rw [List.map_append] at front
        exact front.of_append_left
      obtain ⟨middle, first⟩ := addFile_ok front
      have gathered := (addFile_gathers before first).packages
      have same : middle.packages = ns.packages ++ file.packages := by
        simpa [describedPackages] using gathered
      obtain ⟨next, later⟩ := @ih middle (by rwa [same])
      exact ⟨next, by rw [List.foldlM_cons, first]; exact later⟩

theorem ofFiles_gathers {root : NamespaceFile} {others : List NamespaceFile}
    (merged : ofFiles (root :: others) = .ok ns) :
    Gathers { module := root.metadata.module, outputPackage := root.metadata.package }
      (root :: others) ns :=
  addFiles_gathers List.nodup_nil merged

theorem ofFiles_distinct {files : List NamespaceFile} (merged : ofFiles files = .ok ns) :
    (ns.packages.map (·.path)).Nodup := by
  cases files with
  | nil => cases merged
  | cons root others => exact (ofFiles_gathers merged).distinct

/-- Files can be merged if there are any and none describes a package that is described before. -/
theorem ofFiles_ok_iff {files : List NamespaceFile} : (∃ ns, ofFiles files = .ok ns) ↔
    files ≠ [] ∧ ((describedPackages files).map (·.path)).Nodup := by
  cases files with
  | nil =>
      constructor
      · rintro ⟨ns, merged⟩
        cases merged
      · rintro ⟨some, _⟩
        exact absurd rfl some
  | cons root others =>
      constructor
      · rintro ⟨ns, merged⟩
        have distinct := ofFiles_distinct merged
        rw [(ofFiles_gathers merged).packages] at distinct
        exact ⟨List.cons_ne_nil _ _, distinct⟩
      · rintro ⟨_, distinct⟩
        exact addFiles_ok distinct

/-- Two namespaces hold the same packages and list the same dependencies, in any order. -/
structure SameContent (ns other : Namespace) : Prop where
  packages : ∀ package, package ∈ other.packages ↔ package ∈ ns.packages
  dependencies : ∀ path, path ∈ other.dependencies ↔ path ∈ ns.dependencies

theorem ofFiles_sameContent {files others : List NamespaceFile} {other : Namespace}
    (permuted : files.Perm others) (merged : ofFiles files = .ok ns)
    (merged' : ofFiles others = .ok other) : ns.SameContent other := by
  match files, others with
  | [], _ => cases merged
  | _, [] => cases merged'
  | root :: rest, root' :: rest' =>
      have gathers := ofFiles_gathers merged
      have gathers' := ofFiles_gathers merged'
      constructor
      · intro package
        rw [gathers.packages, gathers'.packages]
        exact (permuted.symm.flatMap_right (·.packages)).mem_iff
      · intro path
        rw [gathers.dependencies, gathers'.dependencies]
        exact or_congr Iff.rfl (permuted.symm.flatMap_right (·.metadata.dependencies)).mem_iff

/-- Every question that a run can ask has the same answer in both namespaces. -/
structure Alike (ns other : Namespace) : Prop where
  lookup : ∀ requested, other.lookup requested = ns.lookup requested
  declaration : ∀ q, other.declaration? q = ns.declaration? q
  paths : ns.SamePaths other

theorem SameContent.isDependency_eq {other : Namespace} (same : ns.SameContent other)
    (path : String) : other.isDependency path = ns.isDependency path := by
  rw [Bool.eq_iff_iff, isDependency_iff, isDependency_iff]
  simp only [same.dependencies]

theorem SameContent.alike {other : Namespace} (same : ns.SameContent other)
    (distinct : (ns.packages.map (·.path)).Nodup)
    (distinct' : (other.packages.map (·.path)).Nodup) : ns.Alike other := by
  have packages : ∀ path, other.package? path = ns.package? path := by
    intro path
    ext package
    rw [package?_eq_some_iff distinct, package?_eq_some_iff distinct', same.packages]
  refine ⟨?_, ?_, ?_, ?_⟩
  · intro requested
    simp only [lookup, packages]
  · intro q
    rw [declaration?, declaration?, packages]
  · intro path
    rw [packageName, packageName, packages]
  · intro path
    rw [classify, classify, same.isDependency_eq]

theorem Alike.synthesize_eq {other : Namespace} (alike : ns.Alike other) (limit : Nat)
    (names : List String) : synthesize limit other names = synthesize limit ns names := by
  have closed : ns.Closed fun _ => True :=
    ⟨fun _ _ _ _ _ _ => trivial, fun _ _ _ _ _ _ _ _ => trivial⟩
  exact synthesize_congr closed (fun q _ => alike.declaration q)
    (fun requested _ => alike.lookup requested) (fun _ _ _ _ => trivial) alike.paths limit

end Namespace

/-- The order of files does not matter. They can be merged in one order if they can in another,
which is if there are any and no package is described twice; the namespaces then hold the same
packages and dependencies, answer every question alike, and so have the same replicas, or fail to
have them in the same way, whichever file says what the module is. -/
theorem synthesize_permuted {files others : List NamespaceFile} (permuted : files.Perm others) :
    ((∃ ns, Namespace.ofFiles files = .ok ns) ↔ ∃ other, Namespace.ofFiles others = .ok other) ∧
    ((∃ ns, Namespace.ofFiles files = .ok ns) ↔
      files ≠ [] ∧ ((describedPackages files).map (·.path)).Nodup) ∧
    ∀ ns other, Namespace.ofFiles files = .ok ns → Namespace.ofFiles others = .ok other →
      ns.SameContent other ∧ ns.Alike other ∧
        ∀ limit names, synthesize limit other names = synthesize limit ns names := by
  have paths : ((describedPackages files).map (·.path)).Perm
      ((describedPackages others).map (·.path)) :=
    (permuted.flatMap_right (·.packages)).map _
  refine ⟨?_, Namespace.ofFiles_ok_iff, ?_⟩
  · rw [Namespace.ofFiles_ok_iff, Namespace.ofFiles_ok_iff, paths.nodup_iff, ne_eq, ne_eq,
      ← List.isEmpty_iff, ← List.isEmpty_iff, permuted.isEmpty_eq]
  · intro ns other merged merged'
    have same := Namespace.ofFiles_sameContent permuted merged merged'
    have alike :=
      same.alike (Namespace.ofFiles_distinct merged) (Namespace.ofFiles_distinct merged')
    exact ⟨same, alike, alike.synthesize_eq⟩

def geometryFiles : List NamespaceFile := [
  { metadata := { module := "geo", package := some "shapes", dependencies := ["set"] }
    packages := geometry.packages },
  { metadata := { module := "set", dependencies := ["hash", "set"] }
    packages := [
      { path := "set"
        types := [
          { name := "Set"
            params := [⟨"T", .basic "comparable"⟩]
            underlying := .map (.param "T") (.struct []) }] }] }]

theorem geometryFiles_permuted : geometryFiles.Perm geometryFiles.reverse ∧
    ∃ ns other tree, Namespace.ofFiles geometryFiles = .ok ns ∧
      Namespace.ofFiles geometryFiles.reverse = .ok other ∧
      ns.module ≠ other.module ∧ synthesize 20 ns ["geo.Shape"] = .ok tree ∧
      synthesize 20 other ["geo.Shape"] = .ok tree := by
  refine ⟨geometryFiles.reverse_perm.symm, _, _, _, rfl, rfl, by decide, rfl, ?_⟩
  have alike := (synthesize_permuted geometryFiles.reverse_perm.symm).2.2
  exact (alike _ _ rfl rfl).2.2 20 ["geo.Shape"]

end Replica
