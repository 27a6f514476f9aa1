import Mathlib.Data.List.Nodup
import Mathlib.Data.List.Perm.Basic
import Replica.Imports

/-!
The paths of an import block: increasing, each once, and every one with an entry under an alias of
its own.
-/

namespace Replica

theorem mem_insertPath {path other : String} {paths : List String} :
    other ∈ insertPath path paths ↔ other = path ∨ other ∈ paths := by
  induction paths with
  | nil => rw [insertPath, List.mem_cons]
  | cons first rest ih =>
      rw [insertPath]
      split
      · rw [List.mem_cons]
      · split
        · rename_i same
          subst same
          constructor
          · exact .inr
          · intro given
            rcases given with rfl | member
            · exact List.mem_cons_self
            · exact member
        · rw [List.mem_cons, List.mem_cons, ih]
          exact or_left_comm

theorem pairwise_insertPath {path : String} {paths : List String}
    (increasing : paths.Pairwise (· < ·)) : (insertPath path paths).Pairwise (· < ·) := by
  induction paths with
  | nil => exact List.pairwise_singleton _ _
  | cons first rest ih =>
      rcases List.pairwise_cons.mp increasing with ⟨least, others⟩
      rw [insertPath]
      split
      · rename_i below
        refine List.pairwise_cons.mpr ⟨?_, increasing⟩
        intro other member
        rcases List.mem_cons.mp member with rfl | later
        · exact below
        · exact String.lt_trans below (least other later)
      · rename_i notBelow
        split
        · exact increasing
        · rename_i distinct
          refine List.pairwise_cons.mpr ⟨?_, ih others⟩
          intro other member
          rcases mem_insertPath.mp member with rfl | later
          · have le : first ≤ other := String.not_lt.mp notBelow
            exact Std.lt_of_le_of_ne le (Ne.symm distinct)
          · exact least other later

theorem nodup_of_increasing {paths : List String} (increasing : paths.Pairwise (· < ·)) :
    paths.Nodup := by
  apply increasing.imp
  intro path other below same
  rw [same] at below
  exact String.lt_irrefl _ below

theorem eq_of_increasing {paths others : List String} (increasing : paths.Pairwise (· < ·))
    (increasing' : others.Pairwise (· < ·)) (same : ∀ path, path ∈ paths ↔ path ∈ others) :
    paths = others := by
  have perm : paths.Perm others :=
    (List.perm_ext_iff_of_nodup (nodup_of_increasing increasing)
      (nodup_of_increasing increasing')).mpr same
  apply perm.eq_of_pairwise _ increasing increasing'
  intro path other _ _ below above
  exact absurd (String.lt_trans below above) (String.lt_irrefl path)

theorem paths_assignAliases (source : PackageSource) (taken : List String) (paths : List String) :
    (assignAliases source taken paths).map (·.path) = paths := by
  induction paths generalizing taken with
  | nil => rfl
  | cons path rest ih =>
      rw [assignAliases, List.map_cons, ih]

theorem toList_suffixed_succ (name : String) (k : Nat) :
    (suffixed name (k + 1)).toList = name.toList ++ Nat.toDigits 10 (k + 1) := by
  rw [suffixed, if_neg (Nat.succ_ne_zero k), String.toList_append, Nat.toString_eq_repr,
    Nat.toList_repr]

theorem suffixed_injective (name : String) : Function.Injective (suffixed name) := by
  have longer : ∀ k, suffixed name 0 ≠ suffixed name (k + 1) := by
    intro k same
    have lists := congrArg String.toList same
    rw [toList_suffixed_succ] at lists
    exact Nat.toDigits_ne_nil (List.append_right_eq_self.mp lists.symm)
  intro j k same
  cases j with
  | zero =>
      cases k with
      | zero => rfl
      | succ k => exact absurd same (longer k)
  | succ j =>
      cases k with
      | zero => exact absurd same.symm (longer j)
      | succ k =>
          have lists := congrArg String.toList same
          rw [toList_suffixed_succ, toList_suffixed_succ] at lists
          have digits := List.append_cancel_left lists
          have numbers := congrArg (Nat.ofDigitChars 10 · 0) digits
          simpa using numbers

theorem suffixed_freeSuffix (taken : List String) (name : String) :
    suffixed name (freeSuffix taken name) ∉ taken := by
  cases found : (List.range (taken.length + 1)).find? (suffixed name · ∉ taken) with
  | some k =>
      rw [freeSuffix, found]
      simpa using List.find?_some found
  | none =>
      have all : (List.range (taken.length + 1)).map (suffixed name) ⊆ taken := by
        intro other member
        obtain ⟨k, inside, rfl⟩ := List.mem_map.mp member
        simpa using List.find?_eq_none.mp found k inside
      have distinct : ((List.range (taken.length + 1)).map (suffixed name)).Nodup :=
        List.nodup_range.map (suffixed_injective name)
      -- There would be more names taken than there are.
      have crowded := (List.subperm_of_subset distinct all).length_le
      rw [List.length_map, List.length_range] at crowded
      omega

theorem aliases_assignAliases (source : PackageSource) (taken paths : List String) :
    ((assignAliases source taken paths).map (·.localName)).Nodup ∧
      ∀ entry ∈ assignAliases source taken paths, entry.localName ∉ taken := by
  induction paths generalizing taken with
  | nil => exact ⟨List.nodup_nil, fun entry member => absurd member List.not_mem_nil⟩
  | cons path rest ih =>
      rw [assignAliases]
      have free := suffixed_freeSuffix taken (source.packageName path)
      generalize suffixed (source.packageName path) (freeSuffix taken (source.packageName path)) =
        localName at free ⊢
      obtain ⟨distinct, apart⟩ := ih (taken ++ [localName])
      constructor
      · apply List.nodup_cons.mpr ⟨_, distinct⟩
        intro given
        obtain ⟨entry, member, same⟩ := List.mem_map.mp given
        exact apart entry member (List.mem_append_right _ (List.mem_singleton.mpr same))
      · intro entry member
        rcases List.mem_cons.mp member with rfl | later
        · exact free
        · exact fun given => apart entry later (List.mem_append_left _ given)

theorem alias_of_mem_assignAliases {source : PackageSource} {taken paths : List String}
    {entry : Import} (member : entry ∈ assignAliases source taken paths) :
    ∃ k, entry.localName = suffixed (source.packageName entry.path) k := by
  induction paths generalizing taken with
  | nil => exact absurd member List.not_mem_nil
  | cons path rest ih =>
      rcases List.mem_cons.mp member with rfl | later
      · exact ⟨_, rfl⟩
      · exact ih later

theorem not_underscore_mem_suffixed {name : String} (k : Nat) (plain : '_' ∉ name.toList) :
    '_' ∉ (suffixed name k).toList := by
  cases k with
  | zero => exact plain
  | succ k =>
      rw [toList_suffixed_succ, List.mem_append, not_or]
      exact ⟨plain, Nat.underscore_not_in_toDigits⟩

theorem paths_importBlock_perm (source : PackageSource) (paths : List String) :
    ((importBlock source paths).map (·.path)).Perm paths := by
  have complement : paths.filter (source.classify · = .dependency) =
      paths.filter (fun path => !decide (source.classify path = .firstParty)) := by
    refine List.filter_congr fun path _ => ?_
    cases source.classify path <;> rfl
  rw [importBlock, paths_assignAliases, complement]
  exact List.filter_append_perm _ _

end Replica
