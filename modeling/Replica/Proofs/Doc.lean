import Replica.Doc.Basic

/-!
What readers get from lists, records and tagged values of which the parts are read.
-/

namespace Replica

variable {σ α β : Type} {rules : ScalarRules σ} {most levels : Nat} {doc : Doc σ} {a : α}
  {entries : List (String × Doc σ)} {name : String} {read : Reader σ α}

/-- `read` gets `a` from `doc` with at most `most` levels, if they are as many as `doc` has. -/
def ReadsAs (most : Nat) (read : Reader σ α) (doc : Doc σ) (a : α) : Prop :=
  ∀ levels ≤ most, doc.depth ≤ levels → read levels doc = some a

namespace Doc

theorem depth_pos (doc : Doc σ) : 0 < doc.depth := by
  cases doc <;> exact Nat.succ_pos _

theorem depth_le_depthAll {docs : List (Doc σ)} (member : doc ∈ docs) :
    doc.depth ≤ depthAll docs := by
  induction docs with
  | nil => exact absurd member List.not_mem_nil
  | cons first rest ih =>
      rw [depthAll]
      rcases List.mem_cons.mp member with rfl | later
      · exact Nat.le_max_left _ _
      · exact Nat.le_trans (ih later) (Nat.le_max_right _ _)

theorem depth_le_depthEntries {entry : String × Doc σ} (member : entry ∈ entries) :
    entry.2.depth ≤ depthEntries entries := by
  induction entries with
  | nil => exact absurd member List.not_mem_nil
  | cons first rest ih =>
      rw [depthEntries]
      rcases List.mem_cons.mp member with rfl | later
      · exact Nat.le_max_left _ _
      · exact Nat.le_trans (ih later) (Nat.le_max_right _ _)

end Doc

theorem mapM_reads {item : Reader σ β} {write : β → Doc σ} {items : List β}
    (each : ∀ b ∈ items, ReadsAs most item (write b) b) (within : levels ≤ most)
    (deep : ∀ b ∈ items, (write b).depth ≤ levels) :
    (items.map write).mapM (item levels) = some items := by
  induction items with
  | nil => rfl
  | cons b rest ih =>
      rw [List.forall_mem_cons] at each deep
      rw [List.map_cons, List.mapM_cons, each.1 levels within deep.1, ih each.2 deep.2]
      rfl

theorem list_reads {item : Reader σ β} {write : β → Doc σ} {items : List β}
    (each : ∀ b ∈ items, ReadsAs most item (write b) b) :
    ReadsAs most (Reader.list rules item) (.list (items.map write)) items := by
  intro levels within deep
  cases levels with
  | zero => exact absurd deep (Nat.not_succ_le_zero _)
  | succ levels =>
      refine mapM_reads each (Nat.le_of_succ_le within) fun b member => ?_
      exact Nat.le_trans (Doc.depth_le_depthAll (List.mem_map_of_mem member))
        (Nat.le_of_succ_le_succ deep)

theorem record_reads {names : List String} {next : Record σ → Option α}
    (known : ∀ key ∈ entries.map (·.1), key ∈ names) (distinct : (entries.map (·.1)).Nodup)
    (fields : ∀ levels ≤ most, (∀ entry ∈ entries, entry.2.depth ≤ levels) →
      next { levels, entries } = some a) :
    ReadsAs most (fun levels doc => (Reader.fields rules names levels doc).bind next)
      (.object entries) a := by
  intro levels within deep
  cases levels with
  | zero => exact absurd deep (Nat.not_succ_le_zero _)
  | succ levels =>
      have all : entries.filter (fun entry => names.contains entry.1) = entries := by
        apply List.filter_eq_self.mpr
        intro entry member
        exact List.contains_iff_mem.mpr (known entry.1 (List.mem_map_of_mem member))
      have opened : Reader.fields rules names (levels + 1) (.object entries) =
          some { levels, entries } := by
        simp only [Reader.fields, all, if_pos distinct]
      have within : levels ≤ most := Nat.le_of_succ_le within
      show (Reader.fields rules names (levels + 1) (.object entries)).bind next = some a
      rw [opened]
      refine fields levels within fun entry member => ?_
      exact Nat.le_trans (Doc.depth_le_depthEntries member) (Nat.le_of_succ_le_succ deep)

theorem mem_of_lookup (found : entries.lookup name = some doc) : (name, doc) ∈ entries := by
  obtain ⟨before, after, rfl, _⟩ := List.lookup_eq_some_iff.mp found
  exact List.mem_append_right _ List.mem_cons_self

theorem Record.required_eq (reads : ReadsAs most read doc a)
    (found : entries.lookup name = some doc) (within : levels ≤ most)
    (deep : ∀ entry ∈ entries, entry.2.depth ≤ levels) :
    Record.required { levels, entries } name read = some a := by
  rw [Record.required, found]
  exact reads levels within (deep _ (mem_of_lookup found))

theorem Record.optional_eq {default : α} (reads : ReadsAs most read doc a)
    (found : entries.lookup name = some doc) (within : levels ≤ most)
    (deep : ∀ entry ∈ entries, entry.2.depth ≤ levels) :
    Record.optional { levels, entries } name default read = some a := by
  rw [Record.optional, found]
  exact reads levels within (deep _ (mem_of_lookup found))

theorem Record.optional_absent {default : α} (absent : entries.lookup name = none) :
    Record.optional { levels, entries } name default read = some default := by
  rw [Record.optional, absent]

end Replica
