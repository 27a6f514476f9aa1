import Replica.Proofs.Repetition
import Replica.Worklist

/-!
The worklist as a queue in which every declaration stands once: what was ever pushed is a log with
its repetitions left out, and leaves the queue in that order.
-/

namespace Replica

namespace Worklist

/-- `taken` has left the queue, and only of these may anything be visited. -/
structure Consistent (w : Worklist) (taken : List QualName) : Prop where
  known : w.known = taken ++ w.queue
  visited : ∀ name ∈ w.visited, name ∈ taken.map QualName.flat
  names : (w.known.map QualName.flat).Nodup

theorem consistent_empty : Consistent {} [] :=
  ⟨rfl, fun _ member => absurd member List.not_mem_nil, List.nodup_nil⟩

variable {w w' : Worklist} {q : QualName} {taken log : List QualName}

theorem push_eq_ok (pushed : w.push q = .ok w') :
    (q ∈ w.known ∧ w' = w) ∨
    ((∀ p ∈ w.known, p.flat ≠ q.flat) ∧
      w' = { w with queue := w.queue ++ [q], known := w.known ++ [q] }) := by
  unfold push at pushed
  split at pushed
  · rename_i missing
    cases pushed
    refine .inr ⟨?_, rfl⟩
    intro p member same
    exact List.find?_eq_none.mp missing p member (by simpa using same)
  · rename_i first found
    split at pushed
    · rename_i same
      cases pushed
      subst same
      exact .inl ⟨List.mem_of_find?_eq_some found, rfl⟩
    · cases pushed

theorem push_eq_error {e : NameCollision} (pushed : w.push q = .error e) :
    e.first ∈ w.known ∧ e.second = q ∧ e.first.flat = q.flat ∧ e.first ≠ q := by
  unfold push at pushed
  split at pushed
  · cases pushed
  · rename_i first found
    split at pushed
    · cases pushed
    · rename_i other
      cases pushed
      exact ⟨List.mem_of_find?_eq_some found, rfl, by simpa using List.find?_some found, other⟩

theorem known_push (pushed : w.push q = .ok w') (logged : w.known = log.eraseDups) :
    w'.known = (log ++ [q]).eraseDups := by
  rcases push_eq_ok pushed with ⟨known, rfl⟩ | ⟨fresh, rfl⟩
  · rw [logged, List.mem_eraseDups] at known
    rw [eraseDups_concat_of_mem known, logged]
  · have absent : q ∉ log := by
      intro member
      rw [← List.mem_eraseDups, ← logged] at member
      exact fresh q member rfl
    rw [eraseDups_concat_of_not_mem absent, ← logged]

theorem known_pushAll {qs : List QualName} (pushed : w.pushAll qs = .ok w')
    (logged : w.known = log.eraseDups) : w'.known = (log ++ qs).eraseDups := by
  induction qs generalizing w log with
  | nil =>
      cases pushed
      rw [List.append_nil, logged]
  | cons q rest ih =>
      rw [pushAll] at pushed
      split at pushed
      · rename_i next first
        rw [ih pushed (known_push first logged), List.append_assoc]
        rfl
      · cases pushed

theorem mem_known_pushAll {p : QualName} {qs : List QualName} (pushed : w.pushAll qs = .ok w') :
    p ∈ w'.known ↔ p ∈ w.known ∨ p ∈ qs := by
  induction qs generalizing w with
  | nil =>
      cases pushed
      simp
  | cons q rest ih =>
      rw [pushAll] at pushed
      split at pushed
      · rename_i next first
        have here : p ∈ next.known ↔ p ∈ w.known ∨ p = q := by
          rcases push_eq_ok first with ⟨known, rfl⟩ | ⟨_, rfl⟩
          · constructor
            · exact .inl
            · rintro (member | rfl)
              · exact member
              · exact known
          · simp
        rw [ih pushed, here, List.mem_cons, or_assoc]
      · cases pushed

theorem Consistent.push (consistent : w.Consistent taken) (pushed : w.push q = .ok w') :
    w'.Consistent taken := by
  rcases push_eq_ok pushed with ⟨_, rfl⟩ | ⟨fresh, rfl⟩
  · exact consistent
  · refine ⟨?_, consistent.visited, ?_⟩
    · simp only [consistent.known, List.append_assoc]
    · have apart : ∀ name ∈ w.known.map QualName.flat, ∀ name' ∈ [q.flat], name ≠ name' := by
        intro name member name' last
        rcases List.mem_map.mp member with ⟨p, known, rfl⟩
        rw [List.mem_singleton.mp last]
        exact fresh p known
      rw [List.map_append, List.nodup_append]
      exact ⟨consistent.names, List.nodup_singleton _, apart⟩

theorem Consistent.pushAll {qs : List QualName} (consistent : w.Consistent taken)
    (pushed : w.pushAll qs = .ok w') : w'.Consistent taken := by
  induction qs generalizing w with
  | nil =>
      cases pushed
      exact consistent
  | cons q rest ih =>
      rw [Worklist.pushAll] at pushed
      split at pushed
      · rename_i next first
        exact ih (consistent.push first) pushed
      · cases pushed

section

variable {inside : QualName → Prop}
  (injective : ∀ p q, inside p → inside q → p.flat = q.flat → p = q)

include injective

theorem push_ok (known : ∀ p ∈ w.known, inside p) (fits : inside q) :
    ∃ w', w.push q = .ok w' ∧ ∀ p ∈ w'.known, inside p := by
  cases pushed : w.push q with
  | error e =>
      obtain ⟨earlier, _, same, other⟩ := push_eq_error pushed
      exact absurd (injective _ _ (known e.first earlier) fits same) other
  | ok w' =>
      refine ⟨w', rfl, ?_⟩
      intro p member
      rcases push_eq_ok pushed with ⟨_, rfl⟩ | ⟨_, rfl⟩
      · exact known p member
      · rcases List.mem_append.mp member with earlier | last
        · exact known p earlier
        · rw [List.mem_singleton.mp last]
          exact fits

theorem pushAll_ok {qs : List QualName} (known : ∀ p ∈ w.known, inside p)
    (fits : ∀ q ∈ qs, inside q) : ∃ w', w.pushAll qs = .ok w' := by
  induction qs generalizing w with
  | nil => exact ⟨w, rfl⟩
  | cons q rest ih =>
      obtain ⟨next, pushed, known'⟩ := push_ok injective known (fits q List.mem_cons_self)
      obtain ⟨final, later⟩ := ih known' fun r member => fits r (List.mem_cons_of_mem _ member)
      refine ⟨final, ?_⟩
      rw [pushAll, pushed]
      exact later

end

theorem Consistent.queue_fresh (consistent : w.Consistent taken) :
    w.queue.dropWhile (·.flat ∈ w.visited) = w.queue := by
  have names := consistent.names
  rw [consistent.known, List.map_append, List.nodup_append] at names
  cases queue : w.queue with
  | nil => rfl
  | cons q rest =>
      have fresh : q.flat ∉ w.visited := by
        intro visited
        refine names.2.2 _ (consistent.visited _ visited) q.flat ?_ rfl
        rw [queue]
        exact List.mem_cons_self
      rw [List.dropWhile_cons_of_neg (by simpa using fresh)]

theorem Consistent.pop_some (consistent : w.Consistent taken) (popped : w.pop = (some q, w')) :
    w'.known = w.known ∧ q ∈ w.known ∧ w'.Consistent (taken ++ [q]) := by
  rw [Worklist.pop, consistent.queue_fresh] at popped
  split at popped
  · cases popped
  · rename_i next rest queue
    cases popped
    have known := consistent.known
    rw [queue] at known
    refine ⟨rfl, ?_, ?_, ?_, consistent.names⟩
    · rw [known]
      exact List.mem_append_right _ List.mem_cons_self
    · rw [known, List.append_assoc]
      rfl
    · intro name visited
      rw [List.map_append]
      exact List.mem_append_left _ (consistent.visited name visited)

theorem Consistent.pop_none (consistent : w.Consistent taken) (drained : w.pop.1 = none) :
    w.known = taken := by
  rw [Worklist.pop, consistent.queue_fresh] at drained
  split at drained
  · rename_i queue
    rw [consistent.known, queue, List.append_nil]
  · cases drained

theorem Consistent.markVisited (consistent : w.Consistent taken) (done : q ∈ taken) :
    (w.markVisited q.flat).Consistent taken := by
  unfold Worklist.markVisited
  split
  · exact consistent
  · refine ⟨consistent.known, ?_, consistent.names⟩
    intro name visited
    rcases List.mem_append.mp visited with earlier | last
    · exact consistent.visited name earlier
    · rw [List.mem_singleton.mp last]
      exact List.mem_map.mpr ⟨q, done, rfl⟩

theorem known_markVisited (name : String) : (w.markVisited name).known = w.known := by
  unfold Worklist.markVisited
  split <;> rfl

end Worklist

end Replica
