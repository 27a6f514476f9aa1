import Mathlib.Data.List.Forall2
import Replica.Proofs.Repetition
import Replica.Synthesis

/-!
The roots of a run: what the requested names stand for, each once, in the order of the requests.
-/

namespace Replica

theorem lookup_eq_ok_iff {ns : Namespace} {requested : String} {root : QualName} :
    ns.lookup requested = .ok root ↔ Namespace.splitRoot? requested = some root ∧
      root.isPublic = true ∧ ∃ decl fields, ns.declaration? root = some decl ∧
        decl.underlying = .struct fields := by
  constructor
  · intro found
    unfold Namespace.lookup at found
    split at found
    · cases found
    · rename_i named
      split at found
      · cases found
      · rename_i notInternal
        split at found
        · cases found
        · rename_i exported
          split at found
          · cases found
          · rename_i package listed
            split at found
            · cases found
            · rename_i decl declared
              split at found
              · rename_i fields same
                cases found
                refine ⟨named, ?_, decl, fields, ?_, same⟩
                · simp only [QualName.isPublic, Bool.and_eq_true, Bool.not_eq_true']
                  exact ⟨by simpa using exported, by simpa using notInternal⟩
                · rw [Namespace.declaration?, listed]
                  exact declared
              · cases found
  · intro given
    obtain ⟨named, exported, decl, fields, declared, same⟩ := given
    obtain ⟨package, listed, looked⟩ := Option.bind_eq_some_iff.mp declared
    simp only [QualName.isPublic, Bool.and_eq_true, Bool.not_eq_true'] at exported
    simp [Namespace.lookup, named, exported, listed, looked, same]

theorem lookup_eq_ok {ns : Namespace} {requested : String} {root : QualName}
    (found : ns.lookup requested = .ok root) :
    root.isPublic = true ∧ ∃ decl fields, ns.declaration? root = some decl ∧
      decl.underlying = .struct fields :=
  (lookup_eq_ok_iff.mp found).2

theorem resolveRoots_eq_ok {ns : Namespace} {names : List String} {roots : List QualName}
    (resolved : resolveRoots ns names = .ok roots) :
    ∃ all, List.Forall₂ (fun name root => ns.lookup name = .ok root) names all ∧
      roots = all.eraseDups := by
  induction names generalizing roots with
  | nil =>
      cases resolved
      exact ⟨[], .nil, rfl⟩
  | cons name names ih =>
      rw [resolveRoots] at resolved
      cases found : ns.lookup name with
      | error e =>
          rw [found] at resolved
          cases resolved
      | ok root =>
          cases others : resolveRoots ns names with
          | error e =>
              rw [found, others] at resolved
              cases resolved
          | ok later =>
              rw [found, others] at resolved
              cases resolved
              rcases ih others with ⟨all, each, rfl⟩
              refine ⟨root :: all, .cons found each, ?_⟩
              rw [List.eraseDups_cons, eraseDups_filter]
              congr 1
              exact List.filter_congr fun other _ => by rw [beq_eq_decide, decide_not]

theorem mem_resolveRoots {ns : Namespace} {names : List String} {roots : List QualName}
    (resolved : resolveRoots ns names = .ok roots) {root : QualName} (member : root ∈ roots) :
    ∃ name ∈ names, ns.lookup name = .ok root := by
  rcases resolveRoots_eq_ok resolved with ⟨all, each, rfl⟩
  rw [List.mem_eraseDups] at member
  clear resolved
  induction each with
  | nil => exact absurd member List.not_mem_nil
  | cons found _ ih =>
      rcases List.mem_cons.mp member with rfl | later
      · exact ⟨_, List.mem_cons_self, found⟩
      · rcases ih later with ⟨name, asked, found'⟩
        exact ⟨name, List.mem_cons_of_mem _ asked, found'⟩

theorem resolveRoots_ok {ns : Namespace} {names : List String}
    (found : ∀ name ∈ names, ∃ root, ns.lookup name = .ok root) :
    ∃ roots, resolveRoots ns names = .ok roots := by
  induction names with
  | nil => exact ⟨[], rfl⟩
  | cons name rest ih =>
      obtain ⟨root, here⟩ := found name List.mem_cons_self
      obtain ⟨roots, later⟩ := ih fun other member => found other (List.mem_cons_of_mem _ member)
      refine ⟨root :: roots.filter (· ≠ root), ?_⟩
      rw [resolveRoots, here, later]
      rfl

theorem resolveRoots_append {ns : Namespace} {names others : List String}
    {roots more : List QualName} (first : resolveRoots ns names = .ok roots)
    (second : resolveRoots ns others = .ok more) :
    resolveRoots ns (names ++ others) = .ok (roots ++ more.filter (· ∉ roots)) := by
  induction names generalizing roots with
  | nil =>
      cases first
      simpa using second
  | cons name rest ih =>
      rw [resolveRoots] at first
      cases found : ns.lookup name with
      | error e =>
          rw [found] at first
          cases first
      | ok root =>
          cases resolved : resolveRoots ns rest with
          | error e =>
              rw [found, resolved] at first
              cases first
          | ok later =>
              rw [found, resolved] at first
              cases first
              rw [List.cons_append, resolveRoots, found, ih resolved]
              have kept : (more.filter (· ∉ later)).filter (· ≠ root) =
                  more.filter (· ∉ root :: later.filter (· ≠ root)) := by
                rw [List.filter_filter]
                apply List.filter_congr
                intro q _
                by_cases same : q = root <;> simp [same]
              change Except.ok (root :: (later ++ _).filter _) = _
              rw [List.filter_append, kept]
              rfl

section

variable {ns : Namespace} {names : List String} {roots : List QualName}
  (resolved : resolveRoots ns names = .ok roots)

include resolved

theorem mem_resolveRoots_iff {root : QualName} :
    root ∈ roots ↔ ∃ name ∈ names, ns.lookup name = .ok root := by
  constructor
  · exact mem_resolveRoots resolved
  · rintro ⟨name, asked, found⟩
    obtain ⟨all, each, rfl⟩ := resolveRoots_eq_ok resolved
    rw [List.mem_eraseDups]
    clear resolved
    induction each with
    | nil => exact absurd asked List.not_mem_nil
    | cons first _ ih =>
        rcases List.mem_cons.mp asked with rfl | later
        · rw [first] at found
          cases found
          exact List.mem_cons_self
        · exact List.mem_cons_of_mem _ (ih later)

theorem lookup_ok_of_resolveRoots : ∀ name ∈ names, ∃ root, ns.lookup name = .ok root := by
  obtain ⟨all, each, rfl⟩ := resolveRoots_eq_ok resolved
  clear resolved
  induction each with
  | nil => exact fun name member => absurd member List.not_mem_nil
  | @cons name root _ _ found _ ih => exact List.forall_mem_cons.mpr ⟨⟨root, found⟩, ih⟩

theorem nodup_of_resolveRoots : roots.Nodup := by
  obtain ⟨all, _, rfl⟩ := resolveRoots_eq_ok resolved
  exact nodup_eraseDups all

theorem isPublic_of_resolveRoots : ∀ root ∈ roots, root.isPublic = true := by
  intro root member
  obtain ⟨name, _, found⟩ := mem_resolveRoots resolved member
  exact (lookup_eq_ok found).1

theorem declared_of_resolveRoots : ∀ root ∈ roots, ∃ decl, ns.declaration? root = some decl := by
  intro root member
  obtain ⟨name, _, found⟩ := mem_resolveRoots resolved member
  obtain ⟨_, decl, _, declared, _⟩ := lookup_eq_ok found
  exact ⟨decl, declared⟩

end

end Replica
