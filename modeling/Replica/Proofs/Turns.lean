import Mathlib.Data.List.Basic
import Mathlib.Data.List.Induction
import Mathlib.Data.List.Nodup
import Mathlib.Data.List.TakeWhile
import Replica.Proofs.Worklist
import Replica.Ty.Basic

/-!
A worklist over time. Whatever is asked of it in whatever order, its answers follow from what was
asked and answered before: declarations get their turns in the order in which they were first
pushed, each once, and those whose names are marked by then are passed over.
-/

namespace Replica

/-- What can be asked of a worklist. A declaration is pushed because of a reference to it, which may
have type arguments. -/
inductive WorklistOperation where
  | push (q : QualName) (args : List Ty)
  | pop
  | markVisited (name : String)

inductive WorklistAnswer where
  | named (name : String)
  | refused (e : NameCollision)
  | popped (next : Option QualName)
  | marked

abbrev WorklistHistory := List (WorklistOperation × WorklistAnswer)

namespace Worklist

def perform (w : Worklist) : WorklistOperation → Worklist × WorklistAnswer
  | .push q _ =>
    match w.push q with
    | .ok w' => (w', .named q.flat)
    | .error e => (w, .refused e)
  | .pop => (w.pop.2, .popped w.pop.1)
  | .markVisited name => (w.markVisited name, .marked)

def next (stage : Worklist × WorklistHistory) (op : WorklistOperation) :
    Worklist × WorklistHistory :=
  ((stage.1.perform op).1, stage.2 ++ [(op, (stage.1.perform op).2)])

def after (ops : List WorklistOperation) : Worklist × WorklistHistory :=
  ops.foldl next ({}, [])

end Worklist

namespace WorklistHistory

def accepted (past : WorklistHistory) : List QualName :=
  past.filterMap fun
    | (.push q _, .named _) => some q
    | _ => none

/-- The same, each at its first place. -/
def order (past : WorklistHistory) : List QualName :=
  past.accepted.eraseDups

def served (past : WorklistHistory) : List QualName :=
  past.filterMap fun
    | (.pop, .popped next) => next
    | _ => none

def marked (past : WorklistHistory) : List String :=
  past.filterMap fun
    | (.markVisited name, _) => some name
    | _ => none

/-- A pop that is answered with `next` gets to `q`: it comes to the end of what was pushed, or
stops at `q` or behind it. -/
structure GetsTo (past : WorklistHistory) (next : Option QualName) (q : QualName) : Prop where
  pushed : q ∈ past.order
  reached : ∀ last ∈ next, past.order.idxOf q ≤ past.order.idxOf last

def TurnCame (past : WorklistHistory) (q : QualName) : Prop :=
  ∃ (before : WorklistHistory) (next : Option QualName) (later : WorklistHistory),
    past = before ++ (.pop, .popped next) :: later ∧ before.GetsTo next q

/-- What is marked when its turn comes does not come out of the worklist then or later, and all else
does. -/
def SkipsMarked (past : WorklistHistory) : Prop :=
  ∀ (before : WorklistHistory) (next : Option QualName) (later : WorklistHistory),
    past = before ++ (.pop, .popped next) :: later → ∀ q, before.GetsTo next q →
      ¬ before.TurnCame q → (q ∈ past.served ↔ q.flat ∉ before.marked)

variable {past : WorklistHistory} {event : WorklistOperation × WorklistAnswer} {q : QualName}

theorem mem_order : q ∈ past.order ↔ q ∈ past.accepted :=
  List.mem_eraseDups

theorem TurnCame.pushed (came : past.TurnCame q) : q ∈ past.order := by
  obtain ⟨before, next, later, rfl, gets⟩ := came
  have pushed := mem_order.mp gets.pushed
  rw [mem_order, accepted, List.filterMap_append]
  exact List.mem_append_left _ pushed

theorem concat_eq_iff {cut : WorklistOperation × WorklistAnswer} {before later : WorklistHistory} :
    past ++ [event] = before ++ cut :: later ↔
      (before = past ∧ cut = event ∧ later = []) ∨
      ∃ rest, later = rest ++ [event] ∧ past = before ++ cut :: rest := by
  constructor
  · intro same
    rcases List.eq_nil_or_concat' later with rfl | ⟨rest, last, rfl⟩
    · obtain ⟨rfl, events⟩ := List.append_inj' same rfl
      cases events
      exact .inl ⟨rfl, rfl, rfl⟩
    · rw [← List.cons_append, ← List.append_assoc] at same
      obtain ⟨rfl, events⟩ := List.append_inj' same rfl
      cases events
      exact .inr ⟨rest, rfl, rfl⟩
  · rintro (⟨rfl, rfl, rfl⟩ | ⟨rest, rfl, rfl⟩)
    · rfl
    · simp

theorem turnCame_concat : TurnCame (past ++ [event]) q ↔
    past.TurnCame q ∨ ∃ next, event = (.pop, .popped next) ∧ past.GetsTo next q := by
  constructor
  · rintro ⟨before, next, later, same, gets⟩
    rcases concat_eq_iff.mp same with ⟨rfl, event, rfl⟩ | ⟨rest, rfl, rfl⟩
    · exact .inr ⟨next, event.symm, gets⟩
    · exact .inl ⟨before, next, rest, rfl, gets⟩
  · rintro (⟨before, next, rest, rfl, gets⟩ | ⟨next, rfl, gets⟩)
    · exact ⟨before, next, rest ++ [event], by simp, gets⟩
    · exact ⟨past, next, [], rfl, gets⟩

theorem SkipsMarked.concat (skips : past.SkipsMarked)
    (old : ∀ q, past.TurnCame q → (q ∈ served (past ++ [event]) ↔ q ∈ past.served))
    (new : ∀ next, event = (.pop, .popped next) → ∀ q, past.GetsTo next q → ¬ past.TurnCame q →
      (q ∈ served (past ++ [event]) ↔ q.flat ∉ past.marked)) :
    SkipsMarked (past ++ [event]) := by
  intro before next later same q gets waits
  rcases concat_eq_iff.mp same with ⟨rfl, isEvent, rfl⟩ | ⟨rest, rfl, rfl⟩
  · exact new next isEvent.symm q gets waits
  · rw [old q ⟨before, next, rest, rfl, gets⟩]
    exact skips before next rest rfl q gets waits

theorem served_concat (event : WorklistOperation × WorklistAnswer) :
    served (past ++ [event]) = past.served ++ served [event] :=
  List.filterMap_append

theorem marked_concat (event : WorklistOperation × WorklistAnswer) :
    marked (past ++ [event]) = past.marked ++ marked [event] :=
  List.filterMap_append

theorem order_concat (event : WorklistOperation × WorklistAnswer) :
    order (past ++ [event]) = (past.accepted ++ accepted [event]).eraseDups :=
  congrArg List.eraseDups List.filterMap_append

theorem order_concat_of_silent (silent : accepted [event] = []) :
    order (past ++ [event]) = past.order := by
  rw [order_concat, silent, List.append_nil, order]

theorem idxOf_le_iff {α : Type} [DecidableEq α] {front back : List α} {a b : α}
    (distinct : (front ++ b :: back).Nodup) :
    (front ++ b :: back).idxOf a ≤ (front ++ b :: back).idxOf b ↔ a ∈ front ∨ a = b := by
  have absent : b ∉ front := by
    intro inside
    exact List.disjoint_of_nodup_append distinct inside List.mem_cons_self
  rw [List.idxOf_append_of_notMem absent, List.idxOf_cons_self]
  by_cases inFront : a ∈ front
  · have place := List.idxOf_lt_length_of_mem inFront
    rw [List.idxOf_append_of_mem inFront]
    exact iff_of_true (by omega) (.inl inFront)
  · rw [List.idxOf_append_of_notMem inFront]
    by_cases same : a = b
    · rw [same, List.idxOf_cons_self]
      exact iff_of_true (Nat.le_refl _) (.inr rfl)
    · rw [List.idxOf_cons_ne back (Ne.symm same)]
      exact iff_of_false (by omega) (by simp [inFront, same])

theorem getsTo_none : past.GetsTo none q ↔ q ∈ past.order :=
  ⟨fun gets => gets.pushed, fun pushed => ⟨pushed, nofun⟩⟩

theorem getsTo_some {front back : List QualName} {last : QualName}
    (cut : past.order = front ++ last :: back) :
    past.GetsTo (some last) q ↔ q ∈ front ∨ q = last := by
  have distinct : (front ++ last :: back).Nodup := cut ▸ nodup_eraseDups _
  constructor
  · intro gets
    have reached := gets.reached last rfl
    rw [cut] at reached
    exact (idxOf_le_iff distinct).mp reached
  · intro early
    have pushed : q ∈ front ++ last :: back := by
      rcases early with inFront | rfl
      · exact List.mem_append_left _ inFront
      · exact List.mem_append_right _ List.mem_cons_self
    refine ⟨cut ▸ pushed, ?_⟩
    rintro _ ⟨⟩
    rw [cut]
    exact (idxOf_le_iff distinct).mpr early

end WorklistHistory

open WorklistHistory

namespace Worklist

/-- How the answers of a worklist follow from its history. -/
structure Serves (w : Worklist) (past : WorklistHistory) : Prop where
  refuses : ∀ q args e, (w.perform (.push q args)).2 = .refused e ↔
    e.second = q ∧ e.first ∈ past.accepted ∧ e.first.flat = q.flat ∧ e.first ≠ q
  refused : ∀ q args e, (w.perform (.push q args)).2 = .refused e →
    (w.perform (.push q args)).1 = w
  accepts : ∀ q args, (∀ p ∈ past.accepted, p.flat = q.flat → p = q) →
    (w.perform (.push q args)).2 = .named q.flat
  repeats : ∀ q args, q ∈ past.accepted → w.perform (.push q args) = (w, .named q.flat)
  known : ∀ q name, w.knownName? q = some name ↔ q ∈ past.accepted ∧ name = q.flat
  pops : ∀ q, (w.perform .pop).2 = .popped (some q) ↔
    (q ∈ past.order ∧ ¬ past.TurnCame q ∧ q.flat ∉ past.marked) ∧
      ∀ p ∈ past.order, past.order.idxOf p < past.order.idxOf q →
        past.TurnCame p ∨ p.flat ∈ past.marked
  ends : (w.perform .pop).2 = .popped none ↔
    ∀ p ∈ past.order, past.TurnCame p ∨ p.flat ∈ past.marked
  inOrder : past.served.Sublist past.order
  once : past.served.Nodup
  turns : ∀ q ∈ past.served, past.TurnCame q
  skips : past.SkipsMarked

/-- The worklist has the history: what is known was pushed, and what is in the queue waits for its
turn. -/
structure Follows (w : Worklist) (past : WorklistHistory) : Prop where
  known : w.known = past.order
  names : (w.known.map QualName.flat).Nodup
  visited : ∀ name, name ∈ w.visited ↔ name ∈ past.marked
  turns : ∃ taken, w.known = taken ++ w.queue ∧ past.served.Sublist taken ∧
    (∀ q ∈ taken, past.TurnCame q) ∧ ∀ q ∈ w.queue, ¬ past.TurnCame q
  skips : past.SkipsMarked

variable {w : Worklist} {past : WorklistHistory} {q : QualName}

theorem pop_cases (w : Worklist) :
    (w.pop = (none, { w with queue := [] }) ∧ ∀ p ∈ w.queue, p.flat ∈ w.visited) ∨
    ∃ passed q rest, w.pop = (some q, { w with queue := rest }) ∧ w.queue = passed ++ q :: rest ∧
      (∀ p ∈ passed, p.flat ∈ w.visited) ∧ q.flat ∉ w.visited := by
  have cut := List.takeWhile_append_dropWhile (p := fun q => decide (q.flat ∈ w.visited))
    (l := w.queue)
  unfold pop
  split
  · rename_i all
    refine .inl ⟨rfl, fun p member => ?_⟩
    rw [List.dropWhile_eq_nil_iff] at all
    simpa using all p member
  · rename_i q rest found
    have free : q.flat ∉ w.visited := by
      have first := List.head?_dropWhile_not (fun q => decide (q.flat ∈ w.visited)) w.queue
      rw [found] at first
      simpa using first
    rw [found] at cut
    refine .inr ⟨_, q, rest, rfl, cut.symm, fun p member => ?_, free⟩
    simpa using List.mem_takeWhile_imp member

section

variable (follows : w.Follows past)

include follows

theorem Follows.extend {w' : Worklist} {event : WorklistOperation × WorklistAnswer}
    (added : List QualName) (unmoved : ∀ next, event ≠ (.pop, .popped next))
    (silent : served [event] = []) (known : w'.known = w.known ++ added)
    (queue : w'.queue = w.queue ++ added) (ordered : order (past ++ [event]) = past.order ++ added)
    (names : (w'.known.map QualName.flat).Nodup)
    (visited : ∀ name, name ∈ w'.visited ↔ name ∈ marked (past ++ [event])) :
    w'.Follows (past ++ [event]) := by
  have still : ∀ q, TurnCame (past ++ [event]) q ↔ past.TurnCame q := by
    intro q
    rw [turnCame_concat, or_iff_left]
    rintro ⟨next, same, _⟩
    exact unmoved next same
  have kept : served (past ++ [event]) = past.served := by
    rw [served_concat, silent, List.append_nil]
  refine ⟨?_, names, visited, ?_, ?_⟩
  · rw [known, ordered, follows.known]
  · obtain ⟨taken, split, out, came, wait⟩ := follows.turns
    refine ⟨taken, ?_, kept ▸ out, fun q member => (still q).mpr (came q member), ?_⟩
    · rw [known, queue, split, List.append_assoc]
    · intro q member
      rw [still]
      rcases List.mem_append.mp (queue ▸ member) with earlier | last
      · exact wait q earlier
      · intro turn
        have distinct := names.of_map
        rw [known, follows.known] at distinct
        exact List.disjoint_of_nodup_append distinct turn.pushed last
  · refine follows.skips.concat (fun q _ => by rw [kept]) ?_
    intro next same
    exact absurd same (unmoved next)

theorem Follows.keep {w' : Worklist} {event : WorklistOperation × WorklistAnswer}
    (unmoved : ∀ next, event ≠ (.pop, .popped next)) (silent : served [event] = [])
    (ordered : order (past ++ [event]) = past.order) (known : w'.known = w.known)
    (queue : w'.queue = w.queue)
    (visited : ∀ name, name ∈ w'.visited ↔ name ∈ marked (past ++ [event])) :
    w'.Follows (past ++ [event]) := by
  refine follows.extend [] unmoved silent ?_ ?_ ?_ ?_ visited
  · rw [known, List.append_nil]
  · rw [queue, List.append_nil]
  · rw [ordered, List.append_nil]
  · rw [known]
    exact follows.names

theorem Follows.push (q : QualName) (args : List Ty) :
    (w.perform (.push q args)).1.Follows
      (past ++ [(WorklistOperation.push q args, (w.perform (.push q args)).2)]) := by
  have marks : ∀ answer name, name ∈ w.visited ↔
      name ∈ marked (past ++ [(WorklistOperation.push q args, answer)]) := by
    intro answer name
    rw [marked_concat, follows.visited]
    exact (List.mem_append.trans (or_iff_left List.not_mem_nil)).symm
  rw [perform]
  split
  · rename_i w' pushed
    rcases push_eq_ok pushed with ⟨known, rfl⟩ | ⟨fresh, rfl⟩
    · have again : q ∈ past.accepted := mem_order.mp (follows.known ▸ known)
      refine follows.keep nofun rfl ?_ rfl rfl (marks _)
      rw [order_concat]
      exact eraseDups_concat_of_mem again
    · have unknown : q ∉ past.accepted := by
        intro before
        exact fresh q (follows.known ▸ mem_order.mpr before) rfl
      refine follows.extend [q] nofun rfl rfl rfl ?_ ?_ (marks _)
      · rw [order_concat]
        exact eraseDups_concat_of_not_mem unknown
      · rw [List.map_append, List.nodup_append]
        refine ⟨follows.names, List.nodup_singleton _, ?_⟩
        intro name listed name' last
        obtain ⟨p, member, rfl⟩ := List.mem_map.mp listed
        rw [List.mem_singleton.mp last]
        exact fresh p member
  · exact follows.keep nofun rfl (order_concat_of_silent rfl) rfl rfl (marks _)

theorem Follows.markVisited (name : String) :
    (w.markVisited name).Follows
      (past ++ [(WorklistOperation.markVisited name, WorklistAnswer.marked)]) := by
  have queue : (w.markVisited name).queue = w.queue := by
    unfold Worklist.markVisited
    split <;> rfl
  refine follows.keep nofun rfl (order_concat_of_silent rfl) (known_markVisited name) queue ?_
  intro other
  have marks : marked (past ++ [(WorklistOperation.markVisited name, WorklistAnswer.marked)]) =
      past.marked ++ [name] := marked_concat _
  rw [marks, List.mem_append, List.mem_singleton, ← follows.visited]
  unfold Worklist.markVisited
  split
  · rename_i visited
    constructor
    · exact .inl
    · rintro (earlier | rfl)
      · exact earlier
      · exact visited
  · rw [List.mem_append, List.mem_singleton]

theorem Follows.mem_queue : q ∈ w.queue ↔ q ∈ past.order ∧ ¬ past.TurnCame q := by
  obtain ⟨taken, split, _, came, wait⟩ := follows.turns
  rw [← follows.known, split, List.mem_append]
  constructor
  · intro queued
    exact ⟨.inr queued, wait q queued⟩
  · rintro ⟨early | queued, waits⟩
    · exact absurd (came q early) waits
    · exact queued

theorem Follows.came_of_served (served : q ∈ past.served) : past.TurnCame q := by
  obtain ⟨taken, _, out, came, _⟩ := follows.turns
  exact came q (out.subset served)

omit follows in
theorem popped_event (past : WorklistHistory) (next : Option QualName)
    {event : WorklistOperation × WorklistAnswer} (popped : event = (.pop, .popped next)) :
    order (past ++ [event]) = past.order ∧ marked (past ++ [event]) = past.marked ∧
    served (past ++ [event]) = past.served ++ next.toList ∧
    ∀ q, TurnCame (past ++ [event]) q ↔ past.TurnCame q ∨ past.GetsTo next q := by
  subst popped
  refine ⟨order_concat_of_silent rfl, ?_, ?_, fun q => ?_⟩
  · rw [marked_concat]
    exact List.append_nil _
  · rw [served_concat]
    cases next <;> rfl
  · rw [turnCame_concat]
    refine or_congr_right ⟨?_, fun gets => ⟨next, rfl, gets⟩⟩
    rintro ⟨_, same, gets⟩
    cases same
    exact gets

theorem Follows.pop_none (all : ∀ p ∈ w.queue, p.flat ∈ w.visited) :
    Follows { w with queue := [] }
      (past ++ [(WorklistOperation.pop, WorklistAnswer.popped none)]) := by
  obtain ⟨order, marks, kept, turns⟩ := popped_event past none rfl
  obtain ⟨taken, split, out, _, _⟩ := follows.turns
  refine ⟨follows.known.trans order.symm, follows.names, marks ▸ follows.visited,
    ⟨past.order, ?_, ?_, ?_, nofun⟩, follows.skips.concat ?_ ?_⟩
  · rw [follows.known, List.append_nil]
  · rw [kept, Option.toList_none, List.append_nil, ← follows.known, split]
    exact out.trans (List.sublist_append_left _ _)
  · intro q pushed
    exact (turns q).mpr (.inr (getsTo_none.mpr pushed))
  · intro q _
    rw [kept, Option.toList_none, List.append_nil]
  · rintro _ ⟨⟩ q gets waits
    rw [kept, Option.toList_none, List.append_nil]
    refine iff_of_false (fun served => waits (follows.came_of_served served)) ?_
    rw [not_not, ← follows.visited]
    exact all q (follows.mem_queue.mpr ⟨gets.pushed, waits⟩)

theorem Follows.pop_some {passed rest : List QualName} (queue : w.queue = passed ++ q :: rest)
    (visited : ∀ p ∈ passed, p.flat ∈ w.visited) (free : q.flat ∉ w.visited) :
    Follows { w with queue := rest }
      (past ++ [(WorklistOperation.pop, WorklistAnswer.popped (some q))]) := by
  obtain ⟨order, marks, kept, turns⟩ := popped_event past (some q) rfl
  obtain ⟨taken, split, out, came, _⟩ := follows.turns
  have cut : past.order = (taken ++ passed) ++ q :: rest := by
    rw [← follows.known, split, queue, List.append_assoc]
  have waiting : ∀ p ∈ passed ++ q :: rest, ¬ past.TurnCame p := by
    intro p member
    exact (follows.mem_queue.mp (queue ▸ member)).2
  refine ⟨follows.known.trans order.symm, follows.names, marks ▸ follows.visited,
    ⟨taken ++ passed ++ [q], ?_, ?_, ?_, ?_⟩, follows.skips.concat ?_ ?_⟩
  · rw [follows.known, cut, List.append_assoc (taken ++ passed)]
    rfl
  · rw [kept]
    exact (out.trans (List.sublist_append_left _ _)).append (List.Sublist.refl _)
  · intro p member
    rw [turns, getsTo_some cut]
    rw [List.mem_append, List.mem_singleton] at member
    exact .inr member
  · intro p later turn
    have distinct : ((taken ++ passed) ++ q :: rest).Nodup := cut ▸ nodup_eraseDups _
    obtain ⟨_, others, apart⟩ := List.nodup_append.mp distinct
    rcases (turns p).mp turn with earlier | gets
    · exact waiting p (List.mem_append_right _ (List.mem_cons_of_mem _ later)) earlier
    · rcases (getsTo_some cut).mp gets with inFront | rfl
      · exact apart p inFront p (List.mem_cons_of_mem _ later) rfl
      · exact (List.nodup_cons.mp others).1 later
  · intro p turn
    rw [kept, Option.toList_some, List.mem_append, List.mem_singleton]
    refine ⟨?_, .inl⟩
    rintro (served | rfl)
    · exact served
    · exact absurd turn (waiting p (List.mem_append_right _ List.mem_cons_self))
  · rintro _ ⟨⟩ p gets waits
    rw [kept, Option.toList_some, List.mem_append, List.mem_singleton, ← follows.visited]
    have unserved : p ∉ past.served := fun served => waits (follows.came_of_served served)
    rw [or_iff_right unserved]
    rcases (getsTo_some cut).mp gets with inFront | rfl
    · -- What stands before `q` and waits was at the front of the queue.
      have front : p ∈ passed :=
        (List.mem_append.mp inFront).resolve_left fun early => waits (came p early)
      refine iff_of_false ?_ (not_not.mpr (visited p front))
      rintro rfl
      exact free (visited p front)
    · exact iff_of_true rfl free

theorem Follows.pop :
    w.pop.2.Follows (past ++ [(WorklistOperation.pop, WorklistAnswer.popped w.pop.1)]) := by
  rcases w.pop_cases with ⟨popped, all⟩ | ⟨passed, q, rest, popped, queue, visited, free⟩
  · rw [popped]
    exact follows.pop_none all
  · rw [popped]
    exact follows.pop_some queue visited free

theorem Follows.next (op : WorklistOperation) :
    (Worklist.next (w, past) op).1.Follows (Worklist.next (w, past) op).2 := by
  cases op with
  | push q args => exact follows.push q args
  | pop => exact follows.pop
  | markVisited name => exact follows.markVisited name

end

theorem follows_after (ops : List WorklistOperation) : (after ops).1.Follows (after ops).2 := by
  induction ops using List.reverseRecOn with
  | nil =>
      have unmoved : SkipsMarked [] := fun before _ _ same => by simp at same
      exact ⟨rfl, List.nodup_nil, fun _ => Iff.rfl, ⟨[], rfl, .slnil, nofun, nofun⟩, unmoved⟩
  | append_singleton ops op ih =>
      rw [after, List.foldl_concat]
      exact ih.next op

section

variable (follows : w.Follows past)

include follows

theorem Follows.find_known {p : QualName} (pushed : p ∈ past.accepted) (same : p.flat = q.flat) :
    w.known.find? (·.flat == q.flat) = some p := by
  have known : p ∈ w.known := follows.known ▸ mem_order.mpr pushed
  exact find?_of_nodup follows.names known same

theorem Follows.refused_iff {args : List Ty} {e : NameCollision} :
    (w.perform (.push q args)).2 = .refused e ↔
      e.second = q ∧ e.first ∈ past.accepted ∧ e.first.flat = q.flat ∧ e.first ≠ q := by
  constructor
  · intro answered
    rw [perform] at answered
    split at answered
    · cases answered
    · rename_i e' pushed
      cases answered
      obtain ⟨known, second, same, other⟩ := push_eq_error pushed
      exact ⟨second, mem_order.mp (follows.known ▸ known), same, other⟩
  · obtain ⟨first, second⟩ := e
    rintro ⟨rfl, pushed, same, other⟩
    have found := follows.find_known pushed same
    have collides : w.push second = .error ⟨first, second⟩ := by
      rw [Worklist.push, found]
      exact if_neg other
    rw [perform, collides]

theorem Follows.push_accepted {args : List Ty} (pushed : q ∈ past.accepted) :
    w.perform (.push q args) = (w, .named q.flat) := by
  have again : w.push q = .ok w := by
    rw [Worklist.push, follows.find_known pushed rfl]
    exact if_pos rfl
  rw [perform, again]

theorem Follows.popped_iff : (w.perform .pop).2 = .popped (some q) ↔
    (q ∈ past.order ∧ ¬ past.TurnCame q ∧ q.flat ∉ past.marked) ∧
      ∀ p ∈ past.order, past.order.idxOf p < past.order.idxOf q →
        past.TurnCame p ∨ p.flat ∈ past.marked := by
  obtain ⟨taken, split, _, came, _⟩ := follows.turns
  rw [perform, WorklistAnswer.popped.injEq, ← and_assoc, ← follows.mem_queue, ← follows.visited]
  rcases w.pop_cases with ⟨popped, all⟩ | ⟨passed, first, rest, popped, queue, visited, free⟩
  · rw [popped]
    refine iff_of_false nofun ?_
    rintro ⟨⟨queued, unmarked⟩, _⟩
    exact unmarked (all q queued)
  · have cut : past.order = (taken ++ passed) ++ first :: rest := by
      rw [← follows.known, split, queue, List.append_assoc]
    have distinct : ((taken ++ passed) ++ first :: rest).Nodup := cut ▸ nodup_eraseDups _
    have queued : first ∈ w.queue :=
      queue ▸ List.mem_append_right _ List.mem_cons_self
    rw [popped, Option.some.injEq]
    constructor
    · rintro rfl
      refine ⟨⟨queued, free⟩, fun p _ before => ?_⟩
      rw [cut] at before
      rcases (idxOf_le_iff distinct).mp (Nat.le_of_lt before) with inFront | rfl
      · rw [← follows.visited]
        exact (List.mem_append.mp inFront).imp (came p) (visited p)
      · exact absurd before (Nat.lt_irrefl _)
    · rintro ⟨⟨waits, unmarked⟩, nothing⟩
      rw [queue] at waits
      rcases List.mem_append.mp waits with inFront | later
      · exact absurd (visited q inFront) unmarked
      · -- Otherwise what is free at the front of the queue would come before `q`.
        by_contra other
        have behind : q ∈ rest := (List.mem_cons.mp later).resolve_left (Ne.symm other)
        have before : past.order.idxOf first < past.order.idxOf q := by
          rw [cut, ← Nat.not_le, idxOf_le_iff distinct, not_or]
          refine ⟨fun inFront => ?_, Ne.symm other⟩
          exact List.disjoint_of_nodup_append distinct inFront later
        obtain ⟨pushed, waiting⟩ := follows.mem_queue.mp queued
        rcases nothing first pushed before with turn | mark
        · exact waiting turn
        · exact free ((follows.visited _).mpr mark)

theorem Follows.popped_none_iff : (w.perform .pop).2 = .popped none ↔
    ∀ p ∈ past.order, past.TurnCame p ∨ p.flat ∈ past.marked := by
  rw [perform, WorklistAnswer.popped.injEq]
  rcases w.pop_cases with ⟨popped, all⟩ | ⟨passed, first, rest, popped, queue, visited, free⟩
  · rw [popped]
    refine iff_of_true rfl fun p pushed => ?_
    by_cases turn : past.TurnCame p
    · exact .inl turn
    · rw [← follows.visited]
      exact .inr (all p (follows.mem_queue.mpr ⟨pushed, turn⟩))
  · have queued : first ∈ w.queue :=
      queue ▸ List.mem_append_right _ List.mem_cons_self
    obtain ⟨pushed, waiting⟩ := follows.mem_queue.mp queued
    rw [popped]
    refine iff_of_false nofun fun nothing => ?_
    rcases nothing first pushed with turn | mark
    · exact waiting turn
    · exact free ((follows.visited _).mpr mark)

theorem Follows.knownName?_iff {name : String} :
    w.knownName? q = some name ↔ q ∈ past.accepted ∧ name = q.flat := by
  have known : q ∈ w.known ↔ q ∈ past.accepted := by rw [follows.known, mem_order]
  rw [knownName?, ← known]
  split
  · rename_i pushed
    rw [Option.some.injEq, and_iff_right pushed, eq_comm]
  · rename_i unknown
    exact iff_of_false nofun fun given => unknown given.1

theorem Follows.serves : w.Serves past where
  refuses _ _ _ := follows.refused_iff
  refused q args e answered := by
    rw [perform] at answered ⊢
    split at answered
    · cases answered
    · rfl
  accepts q args free := by
    rw [perform]
    split
    · rfl
    · rename_i e pushed
      obtain ⟨known, _, same, other⟩ := push_eq_error pushed
      exact absurd (free e.first (mem_order.mp (follows.known ▸ known)) same) other
  repeats _ _ := follows.push_accepted
  known _ _ := follows.knownName?_iff
  pops _ := follows.popped_iff
  ends := follows.popped_none_iff
  inOrder := by
    obtain ⟨taken, split, out, _, _⟩ := follows.turns
    rw [← follows.known, split]
    exact out.trans (List.sublist_append_left _ _)
  once := by
    obtain ⟨taken, split, out, _, _⟩ := follows.turns
    have distinct := follows.names.of_map
    rw [split] at distinct
    exact (List.nodup_append.mp distinct).1.sublist out
  turns _ := follows.came_of_served
  skips := follows.skips

end

/-- Whatever has been done with a worklist, it refuses just what flattens like another declaration
that was pushed, pushes and finds again what was pushed, and gives each declaration its turn once
and in order. -/
theorem serves_in_turn (ops : List WorklistOperation) : (after ops).1.Serves (after ops).2 :=
  (follows_after ops).serves

def visits : List WorklistOperation :=
  [.markVisited "a_C", .push ⟨"a", "C"⟩ [], .push ⟨"b", "D"⟩ [.basic "int"], .pop,
    .markVisited "b_D", .push ⟨"b", "D"⟩ [], .pop]

theorem visits_serves_in_turn : (after visits).2.accepted = [⟨"a", "C"⟩, ⟨"b", "D"⟩, ⟨"b", "D"⟩] ∧
    (after visits).2.served = [⟨"b", "D"⟩] ∧ (after visits).1.Serves (after visits).2 :=
  ⟨rfl, rfl, serves_in_turn visits⟩

end Worklist

end Replica
