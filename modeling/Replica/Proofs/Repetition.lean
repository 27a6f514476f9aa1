import Mathlib.Data.List.Nodup

/-!
Lists with their repetitions left out. The first occurrence of each element stays where it is, so
what comes first in a list with some property comes first in the list without repetitions. Where
nothing comes twice, it does not matter what comes first.
-/

namespace Replica

variable {α : Type} [DecidableEq α]

theorem eraseDups_concat_of_mem {log : List α} {a : α} (known : a ∈ log) :
    (log ++ [a]).eraseDups = log.eraseDups := by
  have nothing : [a].removeAll log = [] := by simp [List.removeAll, known]
  rw [List.eraseDups_append, nothing]
  exact List.append_nil _

theorem eraseDups_concat_of_not_mem {log : List α} {a : α} (fresh : a ∉ log) :
    (log ++ [a]).eraseDups = log.eraseDups ++ [a] := by
  have itself : [a].removeAll log = [a] := by simp [List.removeAll, fresh]
  rw [List.eraseDups_append, itself]
  rfl

theorem eraseDups_filter (keep : α → Bool) (as : List α) :
    (as.filter keep).eraseDups = as.eraseDups.filter keep := by
  match as with
  | [] => rfl
  | a :: rest =>
      -- The repetitions of `a` are left out before going on, so the recursion is on the length.
      have shorter : (rest.filter fun b => !b == a).length < (a :: rest).length :=
        Nat.lt_succ_of_le (List.length_filter_le _ rest)
      have later := eraseDups_filter keep (rest.filter fun b => !b == a)
      have swap : (rest.filter keep).filter (fun b => !b == a) =
          (rest.filter fun b => !b == a).filter keep := by
        simp only [List.filter_filter, Bool.and_comm]
      cases kept : keep a with
      | true =>
          rw [List.filter_cons_of_pos kept, List.eraseDups_cons, List.eraseDups_cons,
            List.filter_cons_of_pos kept, swap, later]
      | false =>
          have dropped : (rest.filter keep).filter (fun b => !b == a) = rest.filter keep := by
            refine List.filter_eq_self.mpr fun b member => ?_
            have other : b ≠ a := by
              intro same
              subst same
              rw [(List.mem_filter.mp member).2] at kept
              cases kept
            simpa using other
          have absent : ¬ keep a = true := by simp [kept]
          rw [List.filter_cons_of_neg absent, List.eraseDups_cons,
            List.filter_cons_of_neg absent, ← later, ← swap, dropped]
termination_by as.length
decreasing_by exact shorter

theorem nodup_eraseDups (as : List α) : as.eraseDups.Nodup := by
  match as with
  | [] => exact List.nodup_nil
  | a :: rest =>
      have shorter : (rest.filter fun b => !b == a).length < (a :: rest).length :=
        Nat.lt_succ_of_le (List.length_filter_le _ rest)
      rw [List.eraseDups_cons, List.nodup_cons]
      refine ⟨?_, nodup_eraseDups _⟩
      simp [List.mem_eraseDups]
termination_by as.length
decreasing_by exact shorter

theorem eraseDups_of_nodup {as : List α} (distinct : as.Nodup) :
    as.eraseDups = as := by
  induction as with
  | nil => rfl
  | cons a rest ih =>
      rcases List.nodup_cons.mp distinct with ⟨absent, others⟩
      have kept : (rest.filter fun b => !b == a) = rest := by
        refine List.filter_eq_self.mpr fun b member => ?_
        have other : b ≠ a := fun same => absent (same ▸ member)
        simpa using other
      rw [List.eraseDups_cons, kept, ih others]

theorem find?_eraseDups (p : α → Bool) (as : List α) : as.eraseDups.find? p = as.find? p := by
  match as with
  | [] => rfl
  | a :: rest =>
      have shorter : (rest.filter fun b => !b == a).length < (a :: rest).length :=
        Nat.lt_succ_of_le (List.length_filter_le _ rest)
      have later := find?_eraseDups p (rest.filter fun b => !b == a)
      rw [List.eraseDups_cons]
      cases found : p a with
      | true => rw [List.find?_cons_of_pos found, List.find?_cons_of_pos found]
      | false =>
          have absent : ¬ p a = true := by simp [found]
          have same : (fun b => !b == a && p b) = p := by
            funext b
            by_cases same : b = a
            · simp [same, found]
            · simp [same]
          rw [List.find?_cons_of_neg absent, List.find?_cons_of_neg absent, later,
            List.find?_filter]
          simp only [Bool.decide_and, Bool.decide_eq_true, same]
termination_by as.length
decreasing_by exact shorter

theorem eraseDups_append_left {as bs : List α} (same : as.eraseDups = bs.eraseDups) (cs : List α) :
    (as ++ cs).eraseDups = (bs ++ cs).eraseDups := by
  have members : ∀ a, a ∈ as ↔ a ∈ bs := by
    intro a
    rw [← List.mem_eraseDups, same, List.mem_eraseDups]
  have removed : cs.removeAll as = cs.removeAll bs := by
    refine List.filter_congr fun c _ => ?_
    simp [members c]
  rw [List.eraseDups_append, List.eraseDups_append, same, removed]

theorem eraseDups_append_right {as bs : List α} (same : as.eraseDups = bs.eraseDups)
    (front : List α) : (front ++ as).eraseDups = (front ++ bs).eraseDups := by
  have removed : (as.removeAll front).eraseDups = (bs.removeAll front).eraseDups := by
    unfold List.removeAll
    rw [eraseDups_filter, eraseDups_filter, same]
  rw [List.eraseDups_append, List.eraseDups_append, removed]

theorem find?_of_nodup {β : Type} {key : β → α} {bs : List β} {b : β} {k : α}
    (distinct : (bs.map key).Nodup) (member : b ∈ bs) (keyed : key b = k) :
    bs.find? (key · == k) = some b := by
  have found : (bs.find? (key · == k)).isSome = true :=
    List.find?_isSome.mpr ⟨b, member, by simpa using keyed⟩
  obtain ⟨first, isFirst⟩ := Option.isSome_iff_exists.mp found
  have listed : first ∈ bs := List.mem_of_find?_eq_some isFirst
  have same : key first = k := by simpa using List.find?_some isFirst
  rw [isFirst, List.inj_on_of_nodup_map distinct listed member (same.trans keyed.symm)]

end Replica
