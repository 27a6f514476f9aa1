import Mathlib.Data.List.Induction
import Replica.Proofs.ByteOrder
import Replica.Proofs.Imports

/-!
What an import block is, in terms of the paths recorded for it: which entries it has, in which
order, and the name each package goes by.
-/

namespace Replica

def recorded (paths : List String) : List String :=
  paths.foldl (fun kept path => insertPath path kept) []

theorem recorded_concat (paths : List String) (path : String) :
    recorded (paths ++ [path]) = insertPath path (recorded paths) := by
  rw [recorded, List.foldl_concat, recorded]

theorem mem_recorded {path : String} {paths : List String} :
    path ∈ recorded paths ↔ path ∈ paths := by
  induction paths using List.reverseRecOn with
  | nil => exact Iff.rfl
  | append_singleton paths last ih =>
      rw [recorded_concat, mem_insertPath, ih, List.mem_append, List.mem_singleton, or_comm]

theorem increasing_recorded (paths : List String) : (recorded paths).Pairwise (· < ·) := by
  induction paths using List.reverseRecOn with
  | nil => exact List.Pairwise.nil
  | append_singleton paths last ih =>
      rw [recorded_concat]
      exact pairwise_insertPath ih

theorem recorded_eq_of_mem_iff {paths others : List String}
    (same : ∀ path, path ∈ paths ↔ path ∈ others) : recorded paths = recorded others := by
  apply eq_of_increasing (increasing_recorded paths) (increasing_recorded others)
  intro path
  rw [mem_recorded, mem_recorded, same]

/-- The alias of a package when those in `taken` are given: its name if that is free, and otherwise
its name with the least positive number that makes it free, which is where a search upwards ends. -/
def IsAlias (taken : List String) (name localName : String) : Prop :=
  (name ∉ taken → localName = name) ∧
    (name ∈ taken → ∃ k > 0, localName = name ++ toString k ∧ name ++ toString k ∉ taken ∧
      ∀ j > 0, j < k → name ++ toString j ∈ taken)

def Import.Before (first second : Import) : Prop :=
  first.group = .firstParty ∧ second.group = .dependency ∨
    first.group = second.group ∧ bytes first.path < bytes second.path

/-- The entries are an import block of the paths. -/
structure IsImportBlock (source : PackageSource) (paths : List String) (entries : List Import) :
    Prop where
  once : (entries.map (·.path)).Nodup
  complete : ∀ path, path ∈ entries.map (·.path) ↔ path ∈ paths
  grouped : ∀ entry ∈ entries, entry.group = source.classify entry.path
  ordered : entries.Pairwise Import.Before
  distinct : (entries.map (·.localName)).Nodup
  least : ∀ (earlier : List Import) (entry : Import) (later : List Import),
    entries = earlier ++ entry :: later →
      IsAlias (earlier.map (·.localName)) (source.packageName entry.path) entry.localName
  explicit : ∀ entry ∈ entries,
    entry.explicit = true ↔ entry.localName ≠ source.packageName entry.path

theorem suffixed_mem_of_lt_freeSuffix {taken : List String} {name : String} {j : Nat}
    (below : j < freeSuffix taken name) : suffixed name j ∈ taken := by
  rw [freeSuffix] at below
  cases found : (List.range (taken.length + 1)).find? (suffixed name · ∉ taken) with
  | none =>
      rw [found] at below
      exact absurd below (Nat.not_lt_zero j)
  | some k =>
      rw [found] at below
      simpa using (List.find?_range_eq_some.mp found).2.2 j below

theorem isAlias_suffixed_freeSuffix (taken : List String) (name : String) :
    IsAlias taken name (suffixed name (freeSuffix taken name)) := by
  have free := suffixed_freeSuffix taken name
  have least {j : Nat} := @suffixed_mem_of_lt_freeSuffix taken name j
  have positive {k : Nat} (more : k > 0) : suffixed name k = name ++ toString k :=
    if_neg (Nat.ne_of_gt more)
  constructor
  · intro unused
    cases found : freeSuffix taken name with
    | zero => rfl
    | succ k =>
        have used : suffixed name 0 ∈ taken := least (found ▸ Nat.succ_pos k)
        exact absurd used unused
  · intro used
    have more : freeSuffix taken name > 0 := by
      apply Nat.pos_of_ne_zero
      intro none
      rw [none] at free
      exact free used
    refine ⟨freeSuffix taken name, more, positive more, positive more ▸ free, ?_⟩
    intro j pos below
    exact positive pos ▸ least below

def importEntry (source : PackageSource) (taken : List String) (path : String) : Import :=
  let suffix := freeSuffix taken (source.packageName path)
  ⟨path, suffixed (source.packageName path) suffix, suffix != 0, source.classify path⟩

theorem assignAliases_cons (source : PackageSource) (taken : List String) (path : String)
    (rest : List String) :
    assignAliases source taken (path :: rest) = importEntry source taken path ::
      assignAliases source (taken ++ [(importEntry source taken path).localName]) rest := rfl

theorem entry_of_assignAliases {source : PackageSource} {taken paths : List String}
    {earlier later : List Import} {entry : Import}
    (split : assignAliases source taken paths = earlier ++ entry :: later) :
    entry = importEntry source (taken ++ earlier.map (·.localName)) entry.path := by
  induction paths generalizing taken earlier with
  | nil => exact absurd split.symm (List.append_ne_nil_of_right_ne_nil _ (List.cons_ne_nil _ _))
  | cons path rest ih =>
      rw [assignAliases_cons] at split
      cases earlier with
      | nil =>
          rcases List.cons.inj split with ⟨rfl, _⟩
          rw [List.map_nil, List.append_nil]
          rfl
      | cons first others =>
          rcases List.cons.inj split with ⟨rfl, tail⟩
          have made := ih tail
          rw [List.append_assoc] at made
          exact made

theorem explicit_importEntry {source : PackageSource} {taken : List String} {path : String} :
    (importEntry source taken path).explicit = true ↔
      (importEntry source taken path).localName ≠ source.packageName path := by
  rw [importEntry, bne_iff_ne]
  exact (suffixed_injective (source.packageName path)).ne_iff.symm

def PackageSource.Before (source : PackageSource) (path other : String) : Prop :=
  source.classify path = .firstParty ∧ source.classify other = .dependency ∨
    source.classify path = source.classify other ∧ bytes path < bytes other

theorem PackageSource.Before.asymm {source : PackageSource} {path other : String}
    (before : source.Before path other) : ¬ source.Before other path := by
  intro after
  rcases before with ⟨first, second⟩ | ⟨same, below⟩
  · rcases after with ⟨other, _⟩ | ⟨same, _⟩
    · exact absurd (second.symm.trans other) (by decide)
    · exact absurd (first.symm.trans (same.symm.trans second)) (by decide)
  · rcases after with ⟨first, second⟩ | ⟨_, above⟩
    · exact absurd (first.symm.trans (same.symm.trans second)) (by decide)
    · exact absurd (List.lt_trans below above) (List.lt_irrefl _)

theorem pairwise_before_iff {source : PackageSource} {entries : List Import}
    (grouped : ∀ entry ∈ entries, entry.group = source.classify entry.path) :
    entries.Pairwise Import.Before ↔ (entries.map (·.path)).Pairwise source.Before := by
  rw [List.pairwise_map]
  apply List.Pairwise.iff_of_mem
  intro first second member member'
  rw [Import.Before, grouped first member, grouped second member', PackageSource.Before]

theorem ordered_importBlock {source : PackageSource} {paths : List String}
    (increasing : paths.Pairwise (· < ·)) :
    ((importBlock source paths).map (·.path)).Pairwise source.Before := by
  have within (group : ImportGroup) :
      (paths.filter (source.classify · = group)).Pairwise source.Before := by
    apply (increasing.filter _).imp_of_mem
    intro path other member member' below
    have here := of_decide_eq_true (List.mem_filter.mp member).2
    have there := of_decide_eq_true (List.mem_filter.mp member').2
    exact .inr ⟨here.trans there.symm, bytes_lt_bytes.mpr below⟩
  rw [importBlock, paths_assignAliases, List.pairwise_append]
  refine ⟨within .firstParty, within .dependency, ?_⟩
  intro path member other member'
  have here := of_decide_eq_true (List.mem_filter.mp member).2
  have there := of_decide_eq_true (List.mem_filter.mp member').2
  exact .inl ⟨here, there⟩

theorem isImportBlock_importBlock (source : PackageSource) (paths : List String) :
    IsImportBlock source paths (importBlock source (recorded paths)) := by
  have perm := paths_importBlock_perm source (recorded paths)
  have made {earlier later : List Import} {entry : Import}
      (split : importBlock source (recorded paths) = earlier ++ entry :: later) :
      entry = importEntry source (earlier.map (·.localName)) entry.path :=
    entry_of_assignAliases split
  have grouped : ∀ entry ∈ importBlock source (recorded paths),
      entry.group = source.classify entry.path := by
    intro entry member
    obtain ⟨earlier, later, split⟩ := List.append_of_mem member
    exact congrArg Import.group (made split)
  have ordered := (pairwise_before_iff grouped).mpr
    (ordered_importBlock (increasing_recorded paths))
  have distinct : ((importBlock source (recorded paths)).map (·.localName)).Nodup :=
    (aliases_assignAliases source [] _).1
  refine ⟨?_, ?_, grouped, ordered, distinct, ?_, ?_⟩
  · exact perm.nodup_iff.mpr (nodup_of_increasing (increasing_recorded paths))
  · intro path
    rw [perm.mem_iff, mem_recorded]
  · intro earlier entry later split
    rw [made split]
    exact isAlias_suffixed_freeSuffix (earlier.map (·.localName)) _
  · intro entry member
    obtain ⟨earlier, later, split⟩ := List.append_of_mem member
    rw [made split]
    exact explicit_importEntry

theorem IsAlias.unique {taken : List String} {name first second : String}
    (given : IsAlias taken name first) (given' : IsAlias taken name second) : first = second := by
  cases Decidable.em (name ∈ taken) with
  | inr free => rw [given.1 free, given'.1 free]
  | inl used =>
      rcases given.2 used with ⟨k, pos, rfl, free, least⟩
      rcases given'.2 used with ⟨k', pos', rfl, free', least'⟩
      rcases Nat.lt_trichotomy k k' with below | rfl | above
      · exact absurd (least' k pos below) free
      · rfl
      · exact absurd (least k' pos' above) free'

section

variable {source : PackageSource} {paths : List String} {entries others : List Import}

theorem IsImportBlock.paths_eq (block : IsImportBlock source paths entries)
    (block' : IsImportBlock source paths others) :
    entries.map (·.path) = others.map (·.path) := by
  have perm : (entries.map (·.path)).Perm (others.map (·.path)) := by
    apply (List.perm_ext_iff_of_nodup block.once block'.once).mpr
    intro path
    rw [block.complete, block'.complete]
  apply perm.eq_of_pairwise _ ((pairwise_before_iff block.grouped).mp block.ordered)
    ((pairwise_before_iff block'.grouped).mp block'.ordered)
  intro path other _ _ before after
  exact absurd after before.asymm

theorem IsImportBlock.next_eq (block : IsImportBlock source paths entries)
    (block' : IsImportBlock source paths others) {earlier later later' : List Import}
    {entry other : Import} (split : entries = earlier ++ entry :: later)
    (split' : others = earlier ++ other :: later') (path : entry.path = other.path) :
    entry = other := by
  have member : entry ∈ entries := split ▸ List.mem_append_right _ List.mem_cons_self
  have member' : other ∈ others := split' ▸ List.mem_append_right _ List.mem_cons_self
  have localName : entry.localName = other.localName := by
    apply (block.least earlier entry later split).unique
    rw [path]
    exact block'.least earlier other later' split'
  have explicit : entry.explicit = other.explicit := by
    rw [Bool.eq_iff_iff, block.explicit entry member, block'.explicit other member', localName,
      path]
  have group : entry.group = other.group := by
    rw [block.grouped entry member, block'.grouped other member', path]
  cases entry
  cases other
  rw [Import.mk.injEq]
  exact ⟨path, localName, explicit, group⟩

theorem IsImportBlock.unique (block : IsImportBlock source paths entries)
    (block' : IsImportBlock source paths others) : entries = others := by
  have rest (later : List Import) : ∀ earlier later', entries = earlier ++ later →
      others = earlier ++ later' → later.map (·.path) = later'.map (·.path) → later = later' := by
    induction later with
    | nil =>
        intro earlier later' _ _ same
        exact (List.map_eq_nil_iff.mp same.symm).symm
    | cons entry later ih =>
        intro earlier later' split split' same
        cases later' with
        | nil => exact absurd same (List.cons_ne_nil _ _)
        | cons other later' =>
            rcases List.cons.inj same with ⟨path, others⟩
            have agree := block.next_eq block' split split' path
            rw [← agree, List.append_cons] at split'
            rw [List.append_cons] at split
            rw [agree, ih (earlier ++ [entry]) later' split split' others]
  exact rest entries [] others rfl rfl (block.paths_eq block')

end

/-- Recorded paths have an import block, and it depends on nothing but the set of them. -/
theorem importBlock_canonical (source : PackageSource) (paths : List String) :
    IsImportBlock source paths (importBlock source (recorded paths)) ∧
      (∀ entries, IsImportBlock source paths entries →
        entries = importBlock source (recorded paths)) ∧
      ∀ others, (∀ path, path ∈ others ↔ path ∈ paths) →
        importBlock source (recorded others) = importBlock source (recorded paths) := by
  have block := isImportBlock_importBlock source paths
  refine ⟨block, fun entries block' => block'.unique block, ?_⟩
  intro others same
  rw [recorded_eq_of_mem_iff same]

def cachesNamespace : Namespace where
  module := "example.com/app"
  dependencies := ["zapto.org/cache", "github.com/other"]
  packages := [⟨"example.com/app/text", some "strings", []⟩]

def cachesPaths : List String :=
  ["zapto.org/cache/cache1", "strings", "zapto.org/cache", "github.com/other/cache", "strings",
    "example.com/app/text"]

def cachesImports : List Import :=
  [⟨"example.com/app/text", "strings", false, .firstParty⟩,
    ⟨"strings", "strings1", true, .firstParty⟩,
    ⟨"github.com/other/cache", "cache", false, .dependency⟩,
    ⟨"zapto.org/cache", "cache1", true, .dependency⟩,
    ⟨"zapto.org/cache/cache1", "cache11", true, .dependency⟩]

theorem importBlock_caches_canonical :
    IsImportBlock cachesNamespace cachesPaths cachesImports ∧
      importBlock cachesNamespace (recorded cachesPaths.reverse) = cachesImports := by
  have entries : importBlock cachesNamespace (recorded cachesPaths) = cachesImports := by
    decide +kernel
  rcases importBlock_canonical cachesNamespace cachesPaths with ⟨block, _, canonical⟩
  rw [← entries]
  exact ⟨block, canonical cachesPaths.reverse fun _ => List.mem_reverse⟩

end Replica
