/-!
How many elements of a list are still to be seen: the measure of searches that visit each element
once.
-/

namespace Replica

variable {α : Type} [DecidableEq α]

def unseen (all seen : List α) : Nat :=
  (all.filter (· ∉ seen)).length

theorem unseen_cons (b : α) (rest seen : List α) :
    unseen (b :: rest) seen = unseen rest seen + if b ∈ seen then 0 else 1 := by
  by_cases known : b ∈ seen
  · rw [unseen, List.filter_cons_of_neg (by simpa using known), if_pos known]
    rfl
  · rw [unseen, List.filter_cons_of_pos (by simpa using known), if_neg known]
    rfl

theorem unseen_extend_le (all seen : List α) (a : α) :
    unseen all (a :: seen) ≤ unseen all seen := by
  induction all with
  | nil => exact Nat.le_refl _
  | cons b rest ih =>
    rw [unseen_cons, unseen_cons]
    by_cases known : b ∈ seen
    · rw [if_pos known, if_pos (List.mem_cons_of_mem a known)]
      exact ih
    · rw [if_neg known]
      by_cases same : b ∈ a :: seen
      · rw [if_pos same]
        exact Nat.le_succ_of_le ih
      · rw [if_neg same]
        exact Nat.succ_le_succ ih

theorem unseen_extend_lt {all seen : List α} {a : α} (present : a ∈ all) (fresh : a ∉ seen) :
    unseen all (a :: seen) < unseen all seen := by
  induction all with
  | nil => exact absurd present List.not_mem_nil
  | cons b rest ih =>
    rw [unseen_cons, unseen_cons]
    rcases List.mem_cons.mp present with same | inRest
    · subst same
      rw [if_pos List.mem_cons_self, if_neg fresh]
      exact Nat.lt_succ_of_le (unseen_extend_le rest seen a)
    · have smaller := ih inRest
      by_cases known : b ∈ seen
      · rw [if_pos known, if_pos (List.mem_cons_of_mem a known)]
        exact smaller
      · rw [if_neg known]
        have le_one : (if b ∈ a :: seen then 0 else 1) ≤ 1 := by split <;> decide
        exact Nat.add_lt_add_of_lt_of_le smaller le_one

end Replica
