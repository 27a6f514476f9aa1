import Replica.Proofs.Name
import Replica.Proofs.Run.Replication
import Replica.Proofs.Spelling.Referent
import Replica.Proofs.WellFormed

/-!
What the identifiers in a declaration are taken for. What stands in the place of a private name is
spelled without type parameters in scope, but it is read where the type parameters of a declaration
are, so a type parameter may capture an identifier that is meant for another type.
-/

namespace Replica

variable {ns : Namespace} {roots : List QualName} {history : List Need} {final : Run} {decl : Decl}
  {source : TypeDecl} {t u : Ty} {e : Expr} {name : String} {r : Referent}

/-- The declaration writes `e` where its source has the type `t`, inside of such a type or in the
place of a private name. -/
inductive Decl.Writes (decl : Decl) (ns : Namespace) (source : TypeDecl) : Ty → Expr → Prop where
  | part {t : Ty} {e : Expr} (part : (t, e) ∈ source.types.zip decl.exprs) :
      Writes decl ns source t e
  | inside {t u : Ty} {e f : Expr} (outer : Writes decl ns source t e)
      (part : (u, f) ∈ t.children.zip e.parts) : Writes decl ns source u f
  | inPlace {q : QualName} {inner : TypeDecl} {e : Expr}
      (outer : Writes decl ns source (.named q []) e) (simple : PrivateSimple ns q inner)
      (unnamed : ¬ NeedsName ns q inner.underlying) : Writes decl ns source inner.underlying e

inductive TypeDecl.WritesOut (source : TypeDecl) (ns : Namespace) : Ty → Prop where
  | part {t : Ty} (part : t ∈ source.types) : WritesOut source ns t
  | inside {t u : Ty} (outer : WritesOut source ns t) (demanding : t.Demanding ns)
      (child : u ∈ t.children) : WritesOut source ns u
  | inPlace {q : QualName} {inner : TypeDecl} (outer : WritesOut source ns (.named q []))
      (simple : PrivateSimple ns q inner) (unnamed : ¬ NeedsName ns q inner.underlying) :
      WritesOut source ns inner.underlying

section

variable {replica : QualName → Nat → Prop} {origin : QualName} {needs : List Need}
  (spelled : SpelledDecl ns replica origin source needs decl)

include spelled

theorem SpelledDecl.writes_spelled (writes : decl.Writes ns source t e) :
    ∃ scope own, (∀ param ∈ scope, param ∈ source.paramNames) ∧
      Spelled ns replica scope t own e := by
  induction writes with
  | part part =>
      obtain ⟨own, inner, _⟩ := spelled.part part
      exact ⟨_, own, fun _ => id, inner⟩
  | inside outer part ih =>
      obtain ⟨scope, _, bound, whole⟩ := ih
      obtain ⟨own, inner, _⟩ := whole.part part
      exact ⟨scope, own, bound, inner⟩
  | inPlace outer simple unnamed ih =>
      obtain ⟨_, own, _, whole⟩ := ih
      have inner := whole.of_not_needsName simple unnamed
      exact ⟨[], own, fun _ member => absurd member List.not_mem_nil, inner⟩

theorem SpelledDecl.lengths : source.types.length = decl.exprs.length := by
  obtain ⟨gs, _, types, _, exprs⟩ := spelled.glosses
  rw [← types, ← exprs, List.length_map, List.length_map]

theorem SpelledDecl.writesOut_iff : source.WritesOut ns t ↔ ∃ e, decl.Writes ns source t e := by
  constructor
  · intro writesOut
    induction writesOut with
    | part part =>
        obtain ⟨e, pair⟩ := exists_zip_of_mem part spelled.lengths
        exact ⟨e, .part pair⟩
    | inside outer demanding child ih =>
        obtain ⟨e, writes⟩ := ih
        obtain ⟨_, _, _, whole⟩ := spelled.writes_spelled writes
        obtain ⟨f, pair⟩ := whole.exists_part demanding child
        exact ⟨f, .inside writes pair⟩
    | inPlace outer simple unnamed ih =>
        obtain ⟨e, writes⟩ := ih
        exact ⟨e, .inPlace writes simple unnamed⟩
  · rintro ⟨e, writes⟩
    induction writes with
    | part part => exact .part (List.of_mem_zip part).1
    | inside outer part ih =>
        obtain ⟨_, _, _, whole⟩ := spelled.writes_spelled outer
        exact .inside ih (whole.demanding part) (List.of_mem_zip part).1
    | inPlace outer simple unnamed ih => exact .inPlace ih simple unnamed

theorem SpelledDecl.writes_inside {f : Expr} (writes : decl.Writes ns source t e)
    (part : f ∈ e.parts) : ∃ u, decl.Writes ns source u f := by
  obtain ⟨_, _, _, whole⟩ := spelled.writes_spelled writes
  -- Where `e` stands in the place of private names, its parts are those of the last one.
  obtain ⟨u, outer, lengths | ⟨_, none⟩⟩ := whole.aligned (p := (decl.Writes ns source · e))
    (fun _ _ outer simple unnamed => outer.inPlace simple unnamed) writes
  · obtain ⟨v, pair⟩ := exists_zip_of_mem_right part lengths
    exact ⟨v, .inside outer pair⟩
  · rw [none] at part
    exact absurd part List.not_mem_nil

theorem SpelledDecl.writes_of_uses (writes : decl.Writes ns source t e) (uses : e.Uses name) :
    ∃ u f, decl.Writes ns source u f ∧ f.ident? = some name := by
  induction uses generalizing t with
  | here => exact ⟨t, _, writes, rfl⟩
  | inside child uses ih =>
      obtain ⟨_, _, _, whole⟩ := spelled.writes_spelled writes
      rcases whole.part_or_head child with part | ⟨leaf, head⟩
      · obtain ⟨u, inner⟩ := spelled.writes_inside writes part
        exact ih inner
      · cases uses with
        | here => exact ⟨t, _, writes, head _ rfl⟩
        | inside deeper _ => exact absurd deeper (by rw [leaf]; exact List.not_mem_nil)

omit spelled in
theorem Decl.Writes.uses (writes : decl.Writes ns source t e) (uses : e.Uses name) :
    ∃ whole ∈ decl.exprs, whole.Uses name := by
  induction writes with
  | part part => exact ⟨_, (List.of_mem_zip part).2, uses⟩
  | inside outer part ih =>
      exact ih (.inside (Expr.mem_children_of_mem_parts (List.of_mem_zip part).2) uses)
  | inPlace outer simple unnamed ih => exact ih uses

theorem SpelledDecl.uses_iff : (∃ e ∈ decl.exprs, e.Uses name) ↔
    ∃ t e, decl.Writes ns source t e ∧ e.ident? = some name := by
  constructor
  · rintro ⟨e, listed, uses⟩
    obtain ⟨t, pair⟩ := exists_zip_of_mem_right listed spelled.lengths
    exact spelled.writes_of_uses (.part pair) uses
  · rintro ⟨t, e, writes, written⟩
    exact writes.uses (Expr.uses_of_ident? written)

theorem SpelledDecl.writes_denotes (writes : decl.Writes ns source t e)
    (written : e.ident? = some name) : ∃ r, t.Denotes ns r ∧ r.ident = name ∧
      r.InScope replica source.paramNames ∧ ∀ param, r = .param param → t = .param param := by
  obtain ⟨scope, own, bound, inner⟩ := spelled.writes_spelled writes
  obtain ⟨r, denotes, ident, inScope, direct⟩ := inner.denotes written
  refine ⟨r, denotes, ident, ?_, direct⟩
  cases r with
  | param param => exact bound param inScope
  | _ => exact inScope

theorem SpelledDecl.written_as (writesOut : source.WritesOut ns t) (denotes : t.Denotes ns r) :
    ∃ e, decl.Writes ns source t e ∧ e.ident? = some r.ident ∧
      r.InScope replica source.paramNames ∧ ∀ param, r = .param param → t = .param param := by
  obtain ⟨e, writes⟩ := spelled.writesOut_iff.mp writesOut
  obtain ⟨_, _, _, inner⟩ := spelled.writes_spelled writes
  have written := inner.ident?_eq denotes
  obtain ⟨r', denotes', _, inScope⟩ := spelled.writes_denotes writes written
  cases denotes.unique denotes'
  exact ⟨e, writes, written, inScope⟩

end

/-- A type parameter of the declaration is called `name`, and so is a type that is written out in it
and is not a type parameter. -/
def Decl.Captures (decl : Decl) (ns : Namespace) (source : TypeDecl) (name : String) : Prop :=
  name ∈ decl.params.map (·.name) ∧ ∃ t e, decl.Writes ns source t e ∧ e.ident? = some name ∧
    ∀ param, t ≠ .param param

/-- The same of the source, in which what is written out is called by what it denotes. -/
def TypeDecl.Captures (source : TypeDecl) (ns : Namespace) (name : String) : Prop :=
  name ∈ source.paramNames ∧ ∃ t r, source.WritesOut ns t ∧ t.Denotes ns r ∧ r.ident = name ∧
    ∀ param, t ≠ .param param

theorem SpelledDecl.captures_iff {replica : QualName → Nat → Prop} {origin : QualName}
    {needs : List Need} (spelled : SpelledDecl ns replica origin source needs decl) :
    decl.Captures ns source name ↔ source.Captures ns name := by
  rw [Decl.Captures, TypeDecl.Captures, spelled.paramNames]
  apply and_congr_right
  intro _
  constructor
  · rintro ⟨t, e, writes, written, other⟩
    obtain ⟨r, denotes, ident, _⟩ := spelled.writes_denotes writes written
    exact ⟨t, r, spelled.writesOut_iff.mpr ⟨e, writes⟩, denotes, ident, other⟩
  · rintro ⟨t, r, writesOut, denotes, rfl, other⟩
    obtain ⟨e, writes, written, _⟩ := spelled.written_as writesOut denotes
    exact ⟨t, e, writes, written, other⟩

def NotAmong (names : List String) : Ty → Prop
  | .basic name => name ∉ names
  | _ => True

/-- The declaration itself mentions no predeclared type under the name of a type parameter. -/
def TypeDecl.Unambiguous (source : TypeDecl) : Prop :=
  ∀ t ∈ source.types, Ty.Every (NotAmong source.paramNames) t

def TypeDecl.Inlines (source : TypeDecl) (ns : Namespace) : Prop :=
  ∃ q inner, source.WritesOut ns (.named q []) ∧ PrivateSimple ns q inner ∧
    ¬ NeedsName ns q inner.underlying

theorem TypeDecl.WritesOut.every {p : Ty → Prop} (every : ∀ t ∈ source.types, Ty.Every p t)
    (writesOut : source.WritesOut ns t) : Ty.Every p t ∨ source.Inlines ns := by
  induction writesOut with
  | part part => exact .inl (every _ part)
  | inside outer demanding child ih => exact ih.imp_left fun whole => whole.child child
  | inPlace outer simple unnamed ih => exact .inr ⟨_, _, outer, simple, unnamed⟩

theorem SpelledDecl.captures_foreign {replica : QualName → Nat → Prop} {origin : QualName}
    {needs : List Need} (spelled : SpelledDecl ns replica origin source needs decl)
    (unambiguous : source.Unambiguous) (captures : source.Captures ns name) :
    name = "any" ∨ (∃ q n, replica q n ∧ name = q.flat) ∨ source.Inlines ns := by
  obtain ⟨param, t, r, writesOut, denotes, rfl, other⟩ := captures
  obtain ⟨_, _, _, inScope, _⟩ := spelled.written_as writesOut denotes
  rcases writesOut.every unambiguous with own | inlines
  · cases denotes with
    | basic name => exact absurd param own.here
    | param name => exact absurd rfl (other name)
    | any => exact .inl rfl
    | applied | outlined =>
        obtain ⟨n, named⟩ := inScope
        exact .inr (.inl ⟨_, n, named, rfl⟩)
    | inlined simple unnamed => exact .inr (.inr ⟨_, _, writesOut, simple, unnamed⟩)
  · exact .inr (.inr inlines)

/-- Identifiers in a declaration are looked up among its type parameters, then in the file and then
among the predeclared types. -/
def Tree.resolve (tree : Tree) (decl : Decl) (name : String) : Referent :=
  if name ∈ decl.params.map (·.name) then .param name
  else
    match tree.decl? name with
    | some other => .replica other.origin
    | none => .predeclared name

def Tree.Resolves (tree : Tree) (ns : Namespace) (decl : Decl) (source : TypeDecl) : Prop :=
  ∀ t e name, decl.Writes ns source t e → e.ident? = some name →
    t.Denotes ns (tree.resolve decl name)

/-- A predeclared type is written out that has the name of a declaration. -/
def Tree.Hides (tree : Tree) (ns : Namespace) (source : TypeDecl) (name : String) : Prop :=
  (∃ t, source.WritesOut ns t ∧ t.Denotes ns (.predeclared name)) ∧
    ∃ other ∈ tree.decls, other.name = name

namespace Tree

variable {tree : Tree}

theorem resolve_eq_param (bound : name ∈ decl.params.map (·.name)) :
    tree.resolve decl name = .param name := if_pos bound

theorem resolve_eq_replica {q : QualName} {n : Nat} (distinct : (tree.decls.map (·.name)).Nodup)
    (declares : tree.Declares q n) (free : q.flat ∉ decl.params.map (·.name)) :
    tree.resolve decl q.flat = .replica q := by
  obtain ⟨other, member, rfl, named, _⟩ := declares
  rw [resolve, if_neg free, decl?, find?_of_nodup distinct member named]

theorem resolve_eq_predeclared (free : name ∉ decl.params.map (·.name))
    (missing : ∀ other ∈ tree.decls, other.name ≠ name) :
    tree.resolve decl name = .predeclared name := by
  have none : tree.decl? name = none := by
    apply List.find?_eq_none.mpr
    intro other member
    simpa using missing other member
  rw [resolve, if_neg free, none]

theorem resolve_ne_predeclared {other : Decl} (member : other ∈ tree.decls)
    (named : other.name = name) : tree.resolve decl name ≠ .predeclared name := by
  intro same
  rw [resolve] at same
  split at same
  · cases same
  · split at same
    · cases same
    · rename_i missing
      exact absurd named (by simpa using List.find?_eq_none.mp missing other member)

end Tree

theorem SpelledDecl.resolves_iff {tree : Tree} {origin : QualName} {needs : List Need}
    (spelled : SpelledDecl ns tree.Declares origin source needs decl)
    (distinct : (tree.decls.map (·.name)).Nodup) : tree.Resolves ns decl source ↔
      (∀ name, ¬ source.Captures ns name) ∧ ∀ name, ¬ tree.Hides ns source name := by
  have params := spelled.paramNames
  constructor
  · intro resolves
    constructor
    · rintro name ⟨bound, t, r, writesOut, denotes, rfl, other⟩
      obtain ⟨e, writes, written, _, direct⟩ := spelled.written_as writesOut denotes
      have taken := resolves t e _ writes written
      rw [Tree.resolve_eq_param (params ▸ bound)] at taken
      exact other _ (direct _ (denotes.unique taken))
    · rintro name ⟨⟨t, writesOut, denotes⟩, other, member, named⟩
      obtain ⟨e, writes, written, _⟩ := spelled.written_as writesOut denotes
      have taken := resolves t e _ writes written
      exact Tree.resolve_ne_predeclared member named (taken.unique denotes)
  · rintro ⟨free, shown⟩ t e name writes written
    have writesOut := spelled.writesOut_iff.mpr ⟨e, writes⟩
    obtain ⟨r, denotes, rfl, inScope, direct⟩ := spelled.writes_denotes writes written
    -- A name that is bound and stands for anything but the parameter would be captured.
    have unbound : (∀ param, r ≠ .param param) → r.ident ∉ decl.params.map (·.name) := by
      intro other bound
      rw [params] at bound
      refine free r.ident ⟨bound, t, r, writesOut, denotes, rfl, ?_⟩
      rintro param rfl
      exact other param (denotes.unique (.param param))
    cases r with
    | param param =>
        rw [Tree.resolve_eq_param (params ▸ inScope)]
        exact denotes
    | replica q =>
        obtain ⟨n, declares⟩ := inScope
        have unbound : q.flat ∉ decl.params.map (·.name) := unbound fun _ same => by cases same
        rw [Referent.ident, Tree.resolve_eq_replica distinct declares unbound]
        exact denotes
    | predeclared name =>
        have unbound : name ∉ decl.params.map (·.name) := unbound fun _ same => by cases same
        have missing : ∀ other ∈ tree.decls, other.name ≠ name :=
          fun other member named => shown name ⟨⟨t, writesOut, denotes⟩, other, member, named⟩
        rw [Referent.ident, Tree.resolve_eq_predeclared unbound missing]
        exact denotes

/-- The identifiers of a declaration and what they are taken for. -/
structure Tree.Scopes (tree : Tree) (ns : Namespace) (decl : Decl) (source : TypeDecl) : Prop where
  uses : ∀ name, (∃ e ∈ decl.exprs, e.Uses name) ↔
    ∃ t e, decl.Writes ns source t e ∧ e.ident? = some name
  captures : ∀ name, decl.Captures ns source name ↔ source.Captures ns name
  foreign : source.Unambiguous → ∀ name, source.Captures ns name →
    name = "any" ∨ (∃ q n, tree.Declares q n ∧ name = q.flat) ∨ source.Inlines ns
  resolves : tree.Resolves ns decl source ↔
    (∀ name, ¬ source.Captures ns name) ∧ ∀ name, ¬ tree.Hides ns source name
  hides : ∀ name, tree.Hides ns source name → '_' ∈ name.toList

theorem Completed.scopes (completed : Completed ns roots history final)
    (member : decl ∈ final.decls) : ∃ source, ns.declaration? decl.origin = some source ∧
      (final.tree ns roots).Scopes ns decl source := by
  obtain ⟨source, needs, declared, spelled⟩ := completed.spelledDecl member
  refine ⟨source, declared, ?_, ?_, ?_, ?_, ?_⟩
  · exact fun name => spelled.uses_iff
  · exact fun name => spelled.captures_iff
  · exact fun unambiguous name => spelled.captures_foreign unambiguous
  · exact spelled.resolves_iff completed.names_nodup
  · rintro name ⟨_, other, listed, rfl⟩
    rw [completed.sound.queueing.named other listed]
    exact other.origin.underscore_mem_flat

/-- Identifiers are captured exactly where the source says so. In a declaration that does not use
the name of a type parameter for a predeclared type, captured identifiers are `any`, names of
replicas, or come from what a private name is declared to be. -/
theorem synthesize_scopes {limit : Nat} {names : List String} {tree : Tree}
    (ended : synthesize limit ns names = .ok tree) : ∀ decl ∈ tree.decls, ∃ source,
      ns.declaration? decl.origin = some source ∧ tree.Scopes ns decl source := by
  obtain ⟨roots, history, final, _, _, completed, rfl⟩ := synthesize_completed ended
  exact fun decl member => completed.scopes member

def boxSource : TypeDecl where
  name := "Box"
  params := [⟨"string", .basic "any"⟩]
  underlying := .struct [⟨"key", .named ⟨"lib", "code"⟩ []⟩, ⟨"value", .param "string"⟩]

def boxes : Namespace where
  module := "lib"
  packages := [
    { path := "lib"
      types := [boxSource, { name := "code", underlying := .basic "string" }] }]

def box : QualName := ⟨"lib", "Box"⟩

def boxDecl : Decl where
  name := "lib_Box"
  origin := box
  params := [⟨"string", .ident "any"⟩]
  body := .struct [⟨"key", .ident "string", 0⟩, ⟨"value", .ident "string", 1⟩]

def boxesTree : Tree where
  imports := [⟨"lib", "lib", false, .firstParty⟩, ⟨"unsafe", "unsafe", false, .firstParty⟩]
  decls := [boxDecl]
  conversions := [
    { name := "make_lib_Box"
      params := [⟨"string", .ident "any"⟩]
      source := .pointer (.applied (.qualified box) [.ident "string"])
      target := .pointer (.applied (.ident "lib_Box") [.ident "string"]) }]
  stubs := []

theorem box_spelled : spellDecl 20 boxes box boxSource = ⟨[], .ok boxDecl⟩ := by
  have key : spellWith 20 boxes (spellInline 20 boxes 20) ["string"] (.named ⟨"lib", "code"⟩ []) =
      ⟨[], .ok (.ident "string")⟩ := spellWith_of_basic ⟨rfl, rfl, rfl⟩ rfl
  simp only [boxSource, spellDecl, spellConstraints, spellBody, spellMembers, spellMembersWith,
    TypeDecl.paramNames, List.map_cons, List.map_nil, key]
  rfl

theorem boxes_drained : Run.drain boxes 20 20
    { context := { worklist := { queue := [box], known := [box] } } } =
    .ok { context := { worklist := { known := [box], visited := ["lib_Box"] } }
          decls := [boxDecl] } := by
  have popped : Worklist.pop { queue := [box], known := [box] } = (some box, { known := [box] }) :=
    rfl
  have found : boxes.declaration? box = some boxSource := rfl
  unfold Run.drain
  simp only [popped, found, box_spelled]
  rfl

theorem boxes_ends : synthesize 20 boxes ["lib.Box"] = .ok boxesTree := by
  have resolved : resolveRoots boxes ["lib.Box"] = .ok [box] := rfl
  have pushed : Worklist.pushAll {} [box] = .ok { queue := [box], known := [box] } := rfl
  rw [synthesize_of_pushed (List.cons_ne_nil _ _) resolved pushed, boxes_drained]
  rfl

theorem boxes_scopes : synthesize 20 boxes ["lib.Box"] = .ok boxesTree ∧
    ∀ decl ∈ boxesTree.decls, ∃ source, boxes.declaration? decl.origin = some source ∧
      boxesTree.Scopes boxes decl source :=
  ⟨boxes_ends, synthesize_scopes boxes_ends⟩

theorem boxDecl_writes : boxDecl.Writes boxes boxSource (.basic "string") (.ident "string") := by
  have simple : PrivateSimple boxes ⟨"lib", "code"⟩ ⟨"code", [], .basic "string"⟩ := ⟨rfl, rfl, rfl⟩
  have acyclic : isRecursive boxes (.named ⟨"lib", "code"⟩ []) = false :=
    isRecursive_of_refs_eq_nil simple.2.1 rfl
  have key : boxDecl.Writes boxes boxSource (.named ⟨"lib", "code"⟩ []) (.ident "string") :=
    .part (List.mem_cons_of_mem _ List.mem_cons_self)
  refine key.inPlace simple fun needsName => ?_
  have recursive : isRecursive boxes (.named ⟨"lib", "code"⟩ []) = true := needsName
  rw [acyclic] at recursive
  cases recursive

theorem boxes_unambiguous {q : QualName} {source : TypeDecl}
    (declared : boxes.declaration? q = some source) : source.Unambiguous := by
  have leaf : ∀ {names : List String} {t : Ty}, t.children = [] → NotAmong names t →
      Ty.Every (NotAmong names) t := by
    intro names t none here
    exact ⟨here, fun u child => absurd child (by rw [none]; exact List.not_mem_nil)⟩
  obtain ⟨package, listed, _, inside, _⟩ := Namespace.mem_of_declaration declared
  cases List.mem_singleton.mp listed
  intro t member
  rcases List.mem_pair.mp inside with rfl | rfl
  · change t ∈ [_, _, _] at member
    simp only [List.mem_cons, List.not_mem_nil, or_false] at member
    rcases member with rfl | rfl | rfl
    · exact leaf rfl (show "any" ∉ ["string"] by decide)
    · exact leaf rfl trivial
    · exact leaf rfl trivial
  · cases List.mem_singleton.mp member
    exact leaf rfl List.not_mem_nil

/-- No declaration mentions a predeclared type under the name of its type parameter, but what `code`
stands for is written as the type parameter of a box. -/
theorem boxes_captured :
    (∀ q source, boxes.declaration? q = some source → source.Unambiguous) ∧
    ∃ tree, synthesize 20 boxes ["lib.Box"] = .ok tree ∧
      ∃ decl ∈ tree.decls, ∃ source, boxes.declaration? decl.origin = some source ∧
        decl.Captures boxes source "string" ∧ ¬ tree.Resolves boxes decl source := by
  refine ⟨fun q source => boxes_unambiguous, boxesTree, boxes_ends, boxDecl, List.mem_cons_self,
    boxSource, rfl, ?_, ?_⟩
  · exact ⟨List.mem_cons_self, _, _, boxDecl_writes, rfl, fun param same => by cases same⟩
  · intro resolves
    have taken := resolves _ _ "string" boxDecl_writes rfl
    rw [Tree.resolve_eq_param List.mem_cons_self] at taken
    cases taken

end Replica
