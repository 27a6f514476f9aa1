import Mathlib.Data.List.TakeWhile
import Replica.Proofs.Classification
import Replica.Proofs.Roots

/-!
Which names can be requested. A name is read as the path of a package, a dot and the name of a type,
perhaps with type arguments behind them. It stands for that type if this is a declared struct that
other packages may use; otherwise it is refused for the first of the conditions that fails.
-/

namespace Replica

/-- `base` is what a requested name says before its first bracket. -/
def IsBase (requested base : String) : Prop :=
  '[' ∉ base.toList ∧ (requested = base ∨ ∃ arguments, requested = base ++ "[" ++ arguments)

/-- `requested` is the name of the declaration `root`, with or without type arguments. -/
structure NamesRoot (requested : String) (root : QualName) : Prop where
  base : IsBase requested root.qualified
  lastDot : '.' ∉ root.name.toList
  slashless : '/' ∉ root.name.toList
  package : root.package ≠ ""
  name : root.name ≠ ""

def Package.Declares (p : Package) (decl : TypeDecl) : Prop :=
  ∃ before after, p.types = before ++ decl :: after ∧ ∀ other ∈ before, other.name ≠ decl.name

namespace Namespace

/-- The requested name stands for `root`. -/
structure Accepts (ns : Namespace) (requested : String) (root : QualName) : Prop where
  named : NamesRoot requested root
  outside : "internal" ∉ Path.segments root.package
  exported : isExported root.name = true
  declared : ∃ package decl fields, ns.package? root.package = some package ∧
    package.Declares decl ∧ decl.name = root.name ∧ decl.underlying = .struct fields

/-- The requested name is refused: the conditions before the one that fails hold. -/
inductive Refuses (ns : Namespace) (requested : String) : LookupError → Prop
  | unqualified (unnamed : ∀ root, ¬ NamesRoot requested root) :
      Refuses ns requested (.unqualified requested)
  | internal {root : QualName} (named : NamesRoot requested root)
      (inside : "internal" ∈ Path.segments root.package) :
      Refuses ns requested (.internal requested)
  | unexported {root : QualName} (named : NamesRoot requested root)
      (outside : "internal" ∉ Path.segments root.package)
      (hidden : isExported root.name = false) : Refuses ns requested (.unexported requested)
  | unknownNamespace {root : QualName} (named : NamesRoot requested root)
      (outside : "internal" ∉ Path.segments root.package) (exported : isExported root.name = true)
      (absent : ns.package? root.package = none) :
      Refuses ns requested (.unknownNamespace root.package requested)
  | unknownType {root : QualName} {package : Package} (named : NamesRoot requested root)
      (outside : "internal" ∉ Path.segments root.package) (exported : isExported root.name = true)
      (listed : ns.package? root.package = some package)
      (undeclared : ∀ decl ∈ package.types, decl.name ≠ root.name) :
      Refuses ns requested (.unknownType requested)
  | notComposite {root : QualName} {package : Package} {decl : TypeDecl}
      (named : NamesRoot requested root) (outside : "internal" ∉ Path.segments root.package)
      (exported : isExported root.name = true)
      (listed : ns.package? root.package = some package) (declared : package.Declares decl)
      (same : decl.name = root.name) (other : ∀ fields, decl.underlying ≠ .struct fields) :
      Refuses ns requested (.notComposite requested decl.underlying.kindName)

/-- A declared struct that other packages may use, whose qualified name says where the path of its
package ends. -/
structure Requestable (ns : Namespace) (root : QualName) : Prop where
  declared : ∃ decl fields, ns.declaration? root = some decl ∧ decl.underlying = .struct fields
  isPublic : root.isPublic = true
  package : root.package ≠ ""
  unbracketed : '[' ∉ root.package.toList ∧ '[' ∉ root.name.toList
  lastDot : '.' ∉ root.name.toList
  slashless : '/' ∉ root.name.toList

end Namespace

theorem IsBase.takeWhile_eq {requested base : String} (isBase : IsBase requested base) :
    requested.toList.takeWhile (· != '[') = base.toList := by
  obtain ⟨clear, ends⟩ := isBase
  have kept : ∀ c ∈ base.toList, (c != '[') = true := by
    intro c listed
    simpa using ne_of_mem_of_not_mem listed clear
  rcases ends with rfl | ⟨arguments, rfl⟩
  · exact List.takeWhile_eq_self_iff.mpr kept
  · rw [String.toList_append, String.toList_append, List.append_assoc,
      List.takeWhile_append_of_pos kept]
    simp

theorem isBase_takeWhile (requested : String) :
    IsBase requested (String.ofList (requested.toList.takeWhile (· != '['))) := by
  have whole := requested.toList.takeWhile_append_dropWhile (p := (· != '['))
  refine ⟨fun listed => ?_, ?_⟩
  · rw [String.toList_ofList] at listed
    have passes := List.all_eq_true.mp (List.all_takeWhile (l := requested.toList)) _ listed
    simp at passes
  · cases dropped : requested.toList.dropWhile (· != '[') with
    | nil =>
        rw [dropped, List.append_nil] at whole
        exact .inl (by rw [whole, String.ofList_toList])
    | cons c arguments =>
        have bracket : c = '[' := by
          have stops := List.head_dropWhile_not (· != '[') (l := requested.toList)
            (by simp [dropped])
          simpa [dropped] using stops
        subst bracket
        rw [dropped] at whole
        refine .inr ⟨String.ofList arguments, ?_⟩
        rw [← String.toList_inj]
        simp [whole]

theorem QualName.toList_qualified (q : QualName) :
    q.qualified.toList = q.package.toList ++ '.' :: q.name.toList := by
  simp [qualified]

theorem NamesRoot.splitRoot? {requested : String} {root : QualName}
    (named : NamesRoot requested root) : Namespace.splitRoot? requested = some root := by
  rw [Namespace.splitRoot?, named.base.takeWhile_eq, QualName.toList_qualified,
    Text.splitAtLast?_append _ named.lastDot]
  simp [named.package, named.name, named.slashless]

theorem splitRoot?_eq_some_iff {requested : String} {root : QualName} :
    Namespace.splitRoot? requested = some root ↔ NamesRoot requested root := by
  refine ⟨fun found => ?_, NamesRoot.splitRoot?⟩
  have base := isBase_takeWhile requested
  unfold Namespace.splitRoot? at found
  split at found
  · cases found
  · rename_i path name split
    obtain ⟨dotted, lastDot⟩ := Text.splitAtLast?_eq_some_iff.mp split
    split_ifs at found with lacking
    cases found
    simp only [Bool.or_eq_true, List.isEmpty_iff, List.contains_iff_mem, not_or] at lacking
    obtain ⟨⟨somePath, someName⟩, slashless⟩ := lacking
    have qualified : String.ofList (requested.toList.takeWhile (· != '[')) =
        QualName.qualified ⟨String.ofList path, String.ofList name⟩ := by
      rw [← String.toList_inj, QualName.toList_qualified, dotted]
      simp
    exact ⟨qualified ▸ base, by simpa using lastDot, by simpa using slashless,
      by simpa using somePath, by simpa using someName⟩

theorem Package.lookup_eq_some_iff {p : Package} {name : String} {decl : TypeDecl} :
    p.lookup name = some decl ↔ p.Declares decl ∧ decl.name = name := by
  rw [Package.lookup, List.find?_eq_some_iff_append, Package.Declares]
  constructor
  · rintro ⟨same, before, after, split, earlier⟩
    rw [beq_iff_eq] at same
    refine ⟨⟨before, after, split, fun other listed => ?_⟩, same⟩
    simpa [same] using earlier other listed
  · rintro ⟨⟨before, after, split, earlier⟩, rfl⟩
    refine ⟨beq_self_eq_true _, before, after, split, fun other listed => ?_⟩
    simpa using earlier other listed

theorem Package.lookup_eq_none_iff {p : Package} {name : String} :
    p.lookup name = none ↔ ∀ decl ∈ p.types, decl.name ≠ name := by
  simp [Package.lookup]

section

variable {ns : Namespace} {requested : String} {root : QualName} {e : LookupError}

theorem Namespace.Accepts.lookup (accepted : ns.Accepts requested root) :
    ns.lookup requested = .ok root := by
  obtain ⟨package, decl, fields, listed, declares, same, struct⟩ := accepted.declared
  have outside := isInternal_eq_false_iff.mpr accepted.outside
  have found : package.lookup root.name = some decl :=
    Package.lookup_eq_some_iff.mpr ⟨declares, same⟩
  simp [Namespace.lookup, accepted.named.splitRoot?, outside, accepted.exported, listed, found,
    struct]

theorem Namespace.Refuses.lookup (refused : ns.Refuses requested e) :
    ns.lookup requested = .error e := by
  cases refused with
  | unqualified unnamed =>
      have none : Namespace.splitRoot? requested = none := by
        rw [Option.eq_none_iff_forall_ne_some]
        intro root found
        exact unnamed root (splitRoot?_eq_some_iff.mp found)
      simp [Namespace.lookup, none]
  | internal named inside =>
      simp [Namespace.lookup, named.splitRoot?, isInternal_iff.mpr inside]
  | unexported named outside hidden =>
      rw [← isInternal_eq_false_iff] at outside
      simp [Namespace.lookup, named.splitRoot?, outside, hidden]
  | unknownNamespace named outside exported absent =>
      rw [← isInternal_eq_false_iff] at outside
      simp [Namespace.lookup, named.splitRoot?, outside, exported, absent]
  | unknownType named outside exported listed undeclared =>
      rw [← isInternal_eq_false_iff] at outside
      have none := Package.lookup_eq_none_iff.mpr undeclared
      simp [Namespace.lookup, named.splitRoot?, outside, exported, listed, none]
  | notComposite named outside exported listed declares same other =>
      rw [← isInternal_eq_false_iff] at outside
      have found := Package.lookup_eq_some_iff.mpr ⟨declares, same⟩
      simp [Namespace.lookup, named.splitRoot?, outside, exported, listed, found]

theorem lookup_answers (ns : Namespace) (requested : String) :
    (∃ root, ns.lookup requested = .ok root ∧ ns.Accepts requested root) ∨
      ∃ e, ns.lookup requested = .error e ∧ ns.Refuses requested e := by
  have refused : ∀ {e : LookupError}, ns.Refuses requested e →
      ∃ e, ns.lookup requested = .error e ∧ ns.Refuses requested e :=
    fun refused => ⟨_, refused.lookup, refused⟩
  -- The conditions are tried in the order in which names are refused.
  by_cases unnamed : ∀ root, ¬ NamesRoot requested root
  · exact .inr (refused (.unqualified unnamed))
  obtain ⟨root, named⟩ := Classical.not_forall_not.mp unnamed
  by_cases inside : "internal" ∈ Path.segments root.package
  · exact .inr (refused (.internal named inside))
  cases exported : isExported root.name with
  | false => exact .inr (refused (.unexported named inside exported))
  | true =>
    cases listed : ns.package? root.package with
    | none => exact .inr (refused (.unknownNamespace named inside exported listed))
    | some package =>
      cases found : package.lookup root.name with
      | none =>
        have undeclared := Package.lookup_eq_none_iff.mp found
        exact .inr (refused (.unknownType named inside exported listed undeclared))
      | some decl =>
        obtain ⟨declares, same⟩ := Package.lookup_eq_some_iff.mp found
        by_cases struct : ∃ fields, decl.underlying = .struct fields
        · obtain ⟨fields, struct⟩ := struct
          have accepted : ns.Accepts requested root :=
            ⟨named, inside, exported, package, decl, fields, listed, declares, same, struct⟩
          exact .inl ⟨root, accepted.lookup, accepted⟩
        · have other := not_exists.mp struct
          exact .inr (refused (.notComposite named inside exported listed declares same other))

theorem lookup_accepts_iff : ns.lookup requested = .ok root ↔ ns.Accepts requested root := by
  refine ⟨fun found => ?_, Namespace.Accepts.lookup⟩
  rcases lookup_answers ns requested with ⟨root', found', accepted⟩ | ⟨e, failed, _⟩
  · rw [found] at found'
    cases found'
    exact accepted
  · rw [found] at failed
    cases failed

theorem lookup_refuses_iff : ns.lookup requested = .error e ↔ ns.Refuses requested e := by
  refine ⟨fun failed => ?_, Namespace.Refuses.lookup⟩
  rcases lookup_answers ns requested with ⟨root, found, _⟩ | ⟨e', failed', refused⟩
  · rw [failed] at found
    cases found
  · rw [failed] at failed'
    cases failed'
    exact refused

theorem Namespace.Requestable.accepts (requestable : ns.Requestable root)
    (base : IsBase requested root.qualified) : ns.Accepts requested root := by
  obtain ⟨decl, fields, declared, struct⟩ := requestable.declared
  obtain ⟨package, listed, found⟩ := Option.bind_eq_some_iff.mp declared
  obtain ⟨declares, same⟩ := Package.lookup_eq_some_iff.mp found
  have isPublic := requestable.isPublic
  rw [QualName.isPublic, Bool.and_eq_true, Bool.not_eq_true'] at isPublic
  have name : root.name ≠ "" := by
    intro empty
    rw [empty] at isPublic
    cases isPublic.1
  exact ⟨⟨base, requestable.lastDot, requestable.slashless, requestable.package, name⟩,
    isInternal_eq_false_iff.mp isPublic.2, isPublic.1, package, decl, fields, listed, declares,
    same, struct⟩

end

/-- A lookup accepts the names of the structs that other packages may use, and refuses any other
name for the first condition that fails. Type arguments behind a name make no difference. -/
theorem lookup_exact (ns : Namespace) :
    (∀ requested root, ns.lookup requested = .ok root ↔ ns.Accepts requested root) ∧
    (∀ requested root, ns.lookup requested = .ok root →
      root.isPublic = true ∧ IsBase requested root.qualified) ∧
    (∀ requested e, ns.lookup requested = .error e ↔ ns.Refuses requested e) ∧
    ∀ root, ns.Requestable root → ns.lookup root.qualified = .ok root ∧
      ∀ arguments, ns.lookup (root.qualified ++ "[" ++ arguments) = .ok root := by
  refine ⟨fun _ _ => lookup_accepts_iff, fun requested root found => ?_,
    fun _ _ => lookup_refuses_iff, fun root requestable => ?_⟩
  · exact ⟨(lookup_eq_ok found).1, (lookup_accepts_iff.mp found).named.base⟩
  · have clear : '[' ∉ root.qualified.toList := by
      simp [QualName.toList_qualified, requestable.unbracketed]
    exact ⟨(requestable.accepts ⟨clear, .inl rfl⟩).lookup,
      fun arguments => (requestable.accepts ⟨clear, .inr ⟨arguments, rfl⟩⟩).lookup⟩

def queues : Namespace where
  module := "example.com/app.v2"
  packages := [
    { path := "example.com/app.v2"
      types := [
        { name := "Queue"
          params := [⟨"T", .basic "any"⟩]
          underlying := .struct [⟨"items", .slice (.param "T")⟩] },
        { name := "Queue", underlying := .basic "int" }] }]

theorem queues_requestable : queues.Requestable ⟨"example.com/app.v2", "Queue"⟩ where
  declared := ⟨_, _, rfl, rfl⟩
  isPublic := by decide
  package := by decide
  unbracketed := by decide
  lastDot := by decide
  slashless := by decide

theorem queues_lookup_exact : queues.Requestable ⟨"example.com/app.v2", "Queue"⟩ ∧
    queues.lookup "example.com/app.v2.Queue[[]a/b.C]" = .ok ⟨"example.com/app.v2", "Queue"⟩ ∧
    queues.Accepts "example.com/app.v2.Queue" ⟨"example.com/app.v2", "Queue"⟩ := by
  obtain ⟨accepts, _, _, requestable⟩ := lookup_exact queues
  obtain ⟨plain, applied⟩ := requestable _ queues_requestable
  exact ⟨queues_requestable, applied "[]a/b.C]", (accepts _ _).mp plain⟩

end Replica
