import Replica.Proofs.Part

/-!
The search for recursive types answers exactly whether a type reaches its own declaration: it finds
no way that is not there, and it misses none although it descends into each declaration once only.
-/

namespace Replica

/-- The declaration `q` is named, here or at any depth, possibly in the arguments of another. -/
inductive Ty.Names (q : QualName) : Ty → Prop where
  | here (args : List Ty) : Names q (.named q args)
  | inside {t u : Ty} (child : u ∈ t.children) (names : Names q u) : Names q t

/-- The type that `outer` is declared as names `inner`. -/
def Namespace.Names (ns : Namespace) (outer inner : QualName) : Prop :=
  ∃ decl, ns.declaration? outer = some decl ∧ decl.underlying.Names inner

variable {ns : Namespace} {subject : String} {expanded : List String} {stack : List QualName}
  {base q r : QualName} {args : List Ty}

theorem Ty.mem_refs_iff_names {t : Ty} : q ∈ t.refs ↔ t.Names q := by
  constructor
  · intro member
    induction t using Ty.induct with
    | step t ih =>
        rcases mem_refs_iff.mp member with ⟨args, rfl⟩ | ⟨u, child, inside⟩
        · exact .here args
        · exact .inside child (ih u child inside)
  · intro names
    induction names with
    | here args => exact mem_refs_iff.mpr (.inl ⟨args, rfl⟩)
    | inside child _ ih => exact mem_refs_of_child child ih

theorem mem_refsAll_iff : q ∈ Ty.refsAll args ↔ ∃ arg ∈ args, arg.Names q := by
  rw [Ty.refsAll_eq, List.mem_flatMap]
  exact exists_congr fun arg => and_congr_right fun _ => Ty.mem_refs_iff_names

theorem refers_iff_names : Refers ns q r ↔ ns.Names q r :=
  exists_congr fun _ => and_congr_right fun _ => Ty.mem_refs_iff_names

theorem mem_references_iff : r ∈ ns.references q ↔ Refers ns q r := by
  rw [Namespace.references, Refers]
  cases ns.declaration? q with
  | none => simp
  | some decl => simp

theorem exists_path_of_reaches (found : reaches ns subject expanded stack = true) :
    ∃ q ∈ stack, ∃ r, Relation.ReflTransGen (Refers ns) q r ∧ r.qualified = subject := by
  -- Descending into a declaration puts a step before every way from what it names.
  have descend : ∀ {next : QualName} {rest : List QualName},
      (∃ q ∈ ns.references next ++ rest, ∃ r, Relation.ReflTransGen (Refers ns) q r ∧
        r.qualified = subject) →
      ∃ q ∈ next :: rest, ∃ r, Relation.ReflTransGen (Refers ns) q r ∧ r.qualified = subject := by
    rintro next rest ⟨q, member, r, path, same⟩
    rcases List.mem_append.mp member with inner | outer
    · exact ⟨next, List.mem_cons_self, r, .head (mem_references_iff.mp inner) path, same⟩
    · exact ⟨q, List.mem_cons_of_mem _ outer, r, path, same⟩
  induction expanded, stack using reaches.induct ns subject with
  | case1 expanded =>
      rw [reaches] at found
      cases found
  | case2 expanded next rest hit => exact ⟨next, List.mem_cons_self, next, .refl, hit⟩
  | case3 expanded next rest other known ih =>
      rw [reaches_cons, if_neg other, if_pos known] at found
      obtain ⟨q, member, way⟩ := ih found
      exact ⟨q, List.mem_cons_of_mem _ member, way⟩
  | case4 expanded next rest other fresh undeclared ih =>
      have none : ns.references next = [] := by rw [Namespace.references, undeclared]
      rw [reaches_cons, if_neg other, if_neg fresh, none, List.nil_append] at found
      exact descend (by simpa only [none, List.nil_append] using ih found)
  | case5 expanded next rest other fresh decl declared ih =>
      have named : ns.references next = decl.underlying.refs := by
        rw [Namespace.references, declared]
      rw [reaches_cons, if_neg other, if_neg fresh, named] at found
      exact descend (by simpa only [named] using ih found)

theorem plain_of_path (plainNames : ns.PlainNames) (plain : q.Plain)
    (path : Relation.ReflTransGen (Refers ns) q r) : r.Plain := by
  induction path with
  | refl => exact plain
  | tail _ refers _ => exact refers.plain plainNames

/-- What the subject names counts as expanded from the start. -/
theorem closedUpTo_start (plain : base.Plain)
    (listed : ∀ r ∈ ns.references base, r ∈ stack) :
    ClosedUpTo ns base.qualified [base.qualified] stack := by
  intro p plain' known r refers
  have same : p = base := QualName.qualified_inj plain' plain (List.mem_singleton.mp known)
  subst same
  exact .inl (listed r (mem_references_iff.mpr refers))

/-- Where no name of a type has a dot, a named type is recursive if its own declaration can be
reached from what its arguments and its underlying type name, in no step or in several, and only
then. -/
theorem isRecursive_iff (plainNames : ns.PlainNames)
    (plain : ∀ q, (Ty.named base args).Names q → q.Plain) :
    isRecursive ns (.named base args) = true ↔
      ∃ q, ((∃ arg ∈ args, arg.Names q) ∨ ns.Names base q) ∧
        Relation.ReflTransGen ns.Names q base := by
  have steps : Refers ns = ns.Names := funext₂ fun _ _ => propext refers_iff_names
  have search : isRecursive ns (.named base args) =
      reaches ns base.qualified [base.qualified] (Ty.refsAll args ++ ns.references base) := rfl
  have starts : ∀ q, q ∈ Ty.refsAll args ++ ns.references base ↔
      (∃ arg ∈ args, arg.Names q) ∨ ns.Names base q := by
    intro q
    rw [List.mem_append, mem_refsAll_iff, mem_references_iff, refers_iff_names]
  have plainBase : base.Plain := plain base (.here args)
  have plainStart : ∀ q ∈ Ty.refsAll args ++ ns.references base, q.Plain := by
    intro q member
    rcases (starts q).mp member with ⟨arg, given, names⟩ | names
    · exact plain q (.inside given names)
    · exact (refers_iff_names.mpr names).plain plainNames
  rw [search]
  constructor
  · intro found
    obtain ⟨q, member, r, path, same⟩ := exists_path_of_reaches found
    have reached : r = base := QualName.qualified_inj
      (plain_of_path plainNames (plainStart q member) path) plainBase same
    subst reached
    exact ⟨q, (starts q).mp member, steps ▸ path⟩
  · rintro ⟨q, start, path⟩
    have member := (starts q).mpr start
    have closed : ClosedUpTo ns base.qualified [base.qualified]
        (Ty.refsAll args ++ ns.references base) :=
      closedUpTo_start plainBase fun r => List.mem_append_right _
    -- A search that misses has covered all that can be reached, and the subject is not among it.
    by_contra missed
    exact ne_subject_of_reaches_false plainNames (Bool.eq_false_iff.mpr missed) plainStart closed
      (plainStart q member) (.inl member) (steps ▸ path) rfl

def holders : Namespace where
  module := "lib"
  packages := [
    { path := "lib"
      types := [
        { name := "box"
          params := [⟨"T", .basic "any"⟩]
          underlying := .struct [⟨"value", .param "T"⟩] },
        { name := "holder"
          underlying := .struct [
            ⟨"plain", .named ⟨"lib", "box"⟩ [.basic "int"]⟩,
            ⟨"back", .named ⟨"lib", "box"⟩ [.pointer (.named ⟨"lib", "holder"⟩ [])]⟩] }] }]

theorem holders_plain {q : QualName} (member : q.name ∈ ["box", "holder"]) : q.Plain := by
  have dotless : ∀ name ∈ ["box", "holder"], '.' ∉ name.toList := by decide
  exact dotless q.name member

theorem holders_plainNames : holders.PlainNames := by
  intro q decl declared
  obtain ⟨package, listed, _, inside, name⟩ := Namespace.mem_of_declaration declared
  cases List.mem_singleton.mp listed
  rcases List.mem_pair.mp inside with rfl | rfl
  · exact ⟨holders_plain (by simp [← name]), nofun⟩
  · refine ⟨holders_plain (by simp [← name]), fun r member => ?_⟩
    have names : r ∈ [⟨"lib", "box"⟩, ⟨"lib", "holder"⟩, (⟨"lib", "box"⟩ : QualName)] := member
    simp only [List.mem_cons, List.not_mem_nil, or_false] at names
    rcases names with rfl | rfl | rfl <;> exact holders_plain (by simp)

theorem holders_isRecursive : holders.PlainNames ∧
    isRecursive holders (.named ⟨"lib", "box"⟩ [.pointer (.named ⟨"lib", "holder"⟩ [])]) = true ∧
    isRecursive holders (.named ⟨"lib", "box"⟩ [.basic "int"]) = false := by
  refine ⟨holders_plainNames, ?_, ?_⟩
  · refine (isRecursive_iff holders_plainNames ?_).mpr ⟨⟨"lib", "holder"⟩, .inl ?_, ?_⟩
    · intro q names
      have member : q ∈ [⟨"lib", "holder"⟩, (⟨"lib", "box"⟩ : QualName)] :=
        Ty.mem_refs_iff_names.mpr names
      rcases List.mem_pair.mp member with rfl | rfl <;> exact holders_plain (by simp)
    · exact ⟨_, List.mem_cons_self, .inside List.mem_cons_self (.here [])⟩
    · exact .single ⟨_, rfl, .inside List.mem_cons_self (.here _)⟩
  · rw [Bool.eq_false_iff, Ne, isRecursive_iff holders_plainNames]
    · rintro ⟨q, ⟨arg, given, names⟩ | ⟨decl, declared, names⟩, _⟩
      · cases List.mem_singleton.mp given
        exact absurd (Ty.mem_refs_iff_names.mpr names) List.not_mem_nil
      · cases declared
        exact absurd (Ty.mem_refs_iff_names.mpr names) List.not_mem_nil
    · intro q names
      have member : q ∈ [(⟨"lib", "box"⟩ : QualName)] := Ty.mem_refs_iff_names.mpr names
      cases List.mem_singleton.mp member
      exact holders_plain (by simp)

end Replica
