import Replica.Proofs.Run.Capture

/-!
Which types have values of which others in them, as fields, as elements of arrays or directly, and
not behind a pointer, a slice, a map, a function or an interface. Replicas contain each other only
as the types that they replicate do, unless a predeclared type is called like a replica.
-/

namespace Replica

/-- A value of the first type has one of the second in it. -/
inductive Ty.Contains : Ty → Ty → Prop where
  | itself (t : Ty) : Contains t t
  | element {len : UInt64} {elem part : Ty} (inner : Contains elem part) :
      Contains (.array len elem) part
  | field {fields : List (Field Ty)} {field : Field Ty} {part : Ty} (member : field ∈ fields)
      (inner : Contains field.type part) : Contains (.struct fields) part

/-- Values of the type have values in them that the identifier is written for. -/
inductive Expr.Contains : Expr → String → Prop where
  | ident (name : String) : Contains (.ident name) name
  | generic {base : Expr} {args : List Expr} {name : String} (inner : Contains base name) :
      Contains (.applied base args) name
  | element {len : UInt64} {elem : Expr} {name : String} (inner : Contains elem name) :
      Contains (.array len elem) name
  | field {members : List (Member Expr)} {m : Member Expr} {name : String} (listed : m ∈ members)
      (inner : Contains m.type name) : Contains (.struct members) name

/-- Values of `outer` have values of `inner` in them, both being declared types. -/
def Namespace.Contains (ns : Namespace) (outer inner : QualName) : Prop :=
  ∃ decl args, ns.declaration? outer = some decl ∧ decl.underlying.Contains (.named inner args)

/-- The same of two declarations of a tree, when identifiers are looked up in the scope of the first
of them. -/
def Tree.Contains (tree : Tree) (outer inner : Decl) : Prop :=
  outer ∈ tree.decls ∧ inner ∈ tree.decls ∧
    ∃ name, outer.body.type.Contains name ∧ tree.resolve outer name = .replica inner.origin

/-- A value of the first type has one of the second in it when the private names that get no replica
are written out. -/
inductive Ty.LaysOut (ns : Namespace) : Ty → Ty → Prop where
  | itself (t : Ty) : LaysOut ns t t
  | element {len : UInt64} {elem part : Ty} (inner : LaysOut ns elem part) :
      LaysOut ns (.array len elem) part
  | field {fields : List (Field Ty)} {field : Field Ty} {part : Ty} (member : field ∈ fields)
      (inner : LaysOut ns field.type part) : LaysOut ns (.struct fields) part
  | inPlace {q : QualName} {decl : TypeDecl} {part : Ty} (simple : PrivateSimple ns q decl)
      (unnamed : ¬ NeedsName ns q decl.underlying) (inner : LaysOut ns decl.underlying part) :
      LaysOut ns (.named q []) part

def Namespace.LaysOut (ns : Namespace) (outer : QualName) (part : Ty) : Prop :=
  ∃ decl, ns.declaration? outer = some decl ∧ decl.underlying.LaysOut ns part

variable {ns : Namespace} {replica : QualName → Nat → Prop} {scope : List String} {t : Ty}
  {needs : List Need} {e : Expr} {name : String} {p q : QualName} {args : List Ty}
  {roots : List QualName} {history : List Need} {final : Run} {outer inner : Decl}

theorem Ty.LaysOut.chain (laysOut : t.LaysOut ns (.named q args)) :
    ∃ first args', t.Contains (.named first args') ∧
      Relation.ReflTransGen ns.Contains first q := by
  generalize same : Ty.named q args = part at laysOut
  induction laysOut with
  | itself t =>
      subst same
      exact ⟨q, args, .itself _, .refl⟩
  | element _ ih =>
      obtain ⟨first, args', contains, path⟩ := ih same
      exact ⟨first, args', .element contains, path⟩
  | field member _ ih =>
      obtain ⟨first, args', contains, path⟩ := ih same
      exact ⟨first, args', .field member contains, path⟩
  | @inPlace base decl _ simple _ _ ih =>
      obtain ⟨first, args', contains, path⟩ := ih same
      exact ⟨base, [], .itself _, .head ⟨decl, args', simple.2.1, contains⟩ path⟩

theorem Namespace.LaysOut.chain (laysOut : ns.LaysOut p (.named q args)) :
    Relation.TransGen ns.Contains p q := by
  obtain ⟨decl, declared, laysOut⟩ := laysOut
  obtain ⟨first, args', contains, path⟩ := laysOut.chain
  exact .head' ⟨decl, args', declared, contains⟩ path

theorem Ty.LaysOut.every {p : Ty → Prop} {part : Ty} (laysOut : t.LaysOut ns part)
    (declared : ∀ q decl, ns.declaration? q = some decl → Ty.Every p decl.underlying)
    (every : Ty.Every p t) : Ty.Every p part := by
  induction laysOut with
  | itself => exact every
  | element _ ih => exact ih (every.child List.mem_cons_self)
  | field member _ ih => exact ih (every.child (List.mem_map_of_mem member))
  | inPlace simple _ _ ih => exact ih (declared _ _ simple.2.1)

/-- What an identifier can be written for at a place that values of a type have in them: a
predeclared type, a type parameter, an interface that asks for nothing, or a type that has a
replica. -/
inductive Ty.Gives (ns : Namespace) (replica : QualName → Nat → Prop) (scope : List String) (t : Ty)
    (name : String) : Prop where
  | basic (laysOut : t.LaysOut ns (.basic name))
  | param (bound : name ∈ scope)
  | any (same : name = "any")
  | replica {q : QualName} {args : List Ty} {n : Nat} (laysOut : t.LaysOut ns (.named q args))
      (flat : name = q.flat) (declared : replica q n)

theorem Ty.Gives.outside {u : Ty} (gives : u.Gives ns replica scope name)
    (wider : ∀ part, u.LaysOut ns part → t.LaysOut ns part) : t.Gives ns replica scope name := by
  cases gives with
  | basic laysOut => exact .basic (wider _ laysOut)
  | param bound => exact .param bound
  | any same => exact .any same
  | replica laysOut flat declared => exact .replica (wider _ laysOut) flat declared

theorem Ty.Gives.closed (gives : t.Gives ns replica [] name) : t.Gives ns replica scope name := by
  cases gives with
  | basic laysOut => exact .basic laysOut
  | param bound => exact absurd bound List.not_mem_nil
  | any same => exact .any same
  | replica laysOut flat declared => exact .replica laysOut flat declared

theorem Spelled.contains (spelled : Spelled ns replica scope t needs e)
    (contains : e.Contains name) : t.Gives ns replica scope name := by
  induction spelled with
  | basic =>
      cases contains
      exact .basic (.itself _)
  | param bound =>
      cases contains
      exact .param bound
  | array _ ih =>
      cases contains with
      | element inner => exact (ih inner).outside fun _ => .element
  | @struct scope fields _ ih =>
      cases contains with
      | field listed inner =>
          have types := List.mem_map_of_mem (f := (·.type)) listed
          rw [glossedMembers_types, List.map_map] at types
          obtain ⟨f, member, same⟩ := List.mem_map.mp types
          rw [← same] at inner
          have place : Field.map Gloss.type f ∈ fields.map (Field.map Gloss.type) :=
            List.mem_map_of_mem member
          exact (ih f member inner).outside fun _ => .field place
  | any =>
      cases contains
      exact .any rfl
  | replicaInstance _ _ _ _ named =>
      cases contains with
      | generic inner =>
          cases inner
          exact .replica (.itself _) rfl named
  | outlined _ _ named =>
      cases contains
      exact .replica (.itself _) rfl named
  | inlined simple unnamed _ ih =>
      exact ((ih contains).outside fun _ => .inPlace simple unnamed).closed
  | undeclared | publicInstance =>
      cases contains with
      | generic inner => cases inner
  | _ => cases contains

theorem SpelledBody.contains {body : Body} (spelled : SpelledBody ns replica scope t needs body)
    (contains : body.type.Contains name) : t.Gives ns replica scope name := by
  cases spelled with
  | struct inner => exact (Spelled.struct inner).contains contains
  | interface closed inner => cases contains
  | defined noStruct noInterface inner => exact inner.contains contains

theorem Tree.of_resolve_eq_replica {tree : Tree} (taken : tree.resolve outer name = .replica q) :
    name ∉ outer.params.map (·.name) ∧
      ∃ other ∈ tree.decls, other.name = name ∧ other.origin = q := by
  rw [resolve] at taken
  split at taken
  · cases taken
  · rename_i free
    split at taken
    · rename_i other found
      cases taken
      have called : other.name = name := by simpa using List.find?_some found
      exact ⟨free, other, List.mem_of_find?_eq_some found, called, rfl⟩
    · cases taken

theorem Completed.contains (completed : Completed ns roots history final)
    (contains : (final.tree ns roots).Contains outer inner) :
    (∃ args, ns.LaysOut outer.origin (.named inner.origin args)) ∨
      ns.LaysOut outer.origin (.basic inner.name) := by
  have named := completed.sound.queueing.named
  obtain ⟨member, member', name, contains, taken⟩ := contains
  obtain ⟨free, other, listed, rfl, same⟩ := Tree.of_resolve_eq_replica taken
  have called : other.name = inner.name := by rw [named other listed, same, named inner member']
  obtain ⟨source, needs, declared, spelled⟩ := completed.spelledDecl member
  obtain ⟨_, _, _, _, _, body, _⟩ := spelled.spelled
  cases body.contains contains with
  | basic laysOut => exact .inr ⟨source, declared, called ▸ laysOut⟩
  | param bound => exact absurd (spelled.paramNames ▸ bound) free
  | any any =>
      have underscore := other.origin.underscore_mem_flat
      rw [← named other listed, any] at underscore
      exact absurd underscore (by decide)
  | replica laysOut flat declares =>
      obtain ⟨decl, inside, rfl, name, _⟩ := declares
      -- Names tell the declarations of a tree apart.
      have twice : decl = other := List.inj_on_of_nodup_map completed.names_nodup inside listed
        (name.trans flat.symm)
      rw [twice, same] at laysOut
      exact .inl ⟨_, source, declared, laysOut⟩

def Namespace.PlainBasics (ns : Namespace) : Prop :=
  ∀ q decl, ns.declaration? q = some decl →
    decl.underlying.Every fun t => ∀ name, t = .basic name → '_' ∉ name.toList

/-- The declarations of a tree contain each other only as what they replicate, with private types
written out, does; or a predeclared type is written where it is taken for a declaration. -/
structure Tree.ContainsLike (tree : Tree) (ns : Namespace) : Prop where
  edges : ∀ outer inner, tree.Contains outer inner →
    (∃ args, ns.LaysOut outer.origin (.named inner.origin args)) ∨
      ns.LaysOut outer.origin (.basic inner.name)
  /-- A cycle of declarations, which is a path from one to itself, comes from a cycle of types. -/
  paths : ∀ first last, Relation.TransGen (fun outer inner => tree.Contains outer inner ∧
      ¬ ns.LaysOut outer.origin (.basic inner.name)) first last →
    Relation.TransGen ns.Contains first.origin last.origin
  finite : (∀ q, ¬ Relation.TransGen ns.Contains q q) →
    (∀ outer inner, tree.Contains outer inner → ¬ ns.LaysOut outer.origin (.basic inner.name)) →
    ∀ decl, ¬ Relation.TransGen tree.Contains decl decl
  plain : ns.PlainBasics → ∀ outer inner, tree.Contains outer inner →
    ¬ ns.LaysOut outer.origin (.basic inner.name)

/-- Where no predeclared type is called like a replica, replicas that contain themselves come from
types that do. -/
theorem synthesize_contains {limit : Nat} {names : List String} {tree : Tree}
    (ended : synthesize limit ns names = .ok tree) : tree.ContainsLike ns := by
  obtain ⟨roots, history, final, _, _, completed, rfl⟩ := synthesize_completed ended
  have paths : ∀ first last, Relation.TransGen (fun outer inner =>
      (final.tree ns roots).Contains outer inner ∧
        ¬ ns.LaysOut outer.origin (.basic inner.name)) first last →
      Relation.TransGen ns.Contains first.origin last.origin := by
    intro first last path
    refine path.lift' (·.origin) fun outer inner edge => ?_
    obtain ⟨args, laysOut⟩ := (completed.contains edge.1).resolve_right edge.2
    exact laysOut.chain
  refine ⟨fun outer inner => completed.contains, paths, ?_, ?_⟩
  · intro acyclic apart decl cycle
    refine acyclic decl.origin (paths decl decl ?_)
    exact cycle.lift id fun outer inner edge => ⟨edge, apart outer inner edge⟩
  · rintro plain outer inner contains ⟨source, declared, laysOut⟩
    have underscore := inner.origin.underscore_mem_flat
    rw [← completed.sound.queueing.named inner contains.2.1] at underscore
    exact (laysOut.every plain (plain _ _ declared)).here _ rfl underscore

def rack : QualName := ⟨"lib", "Rack"⟩

def row : QualName := ⟨"lib", "row"⟩

def tray : QualName := ⟨"lib", "tray"⟩

def rackSource : TypeDecl where
  name := "Rack"
  underlying := .struct [⟨"lower", .named row []⟩, ⟨"upper", .pointer (.named row [])⟩]

def racks : Namespace where
  module := "lib"
  packages := [
    { path := "lib"
      types := [
        rackSource,
        { name := "row", underlying := .array 2 (.named tray []) },
        { name := "tray", underlying := .struct [⟨"key", .basic "string"⟩] }] }]

def rackDecl : Decl where
  name := "lib_Rack"
  origin := rack
  body := .struct [⟨"lower", .array 2 (.ident "lib_tray"), 0⟩,
    ⟨"upper", .pointer (.array 2 (.ident "lib_tray")), 1⟩]

def trayDecl : Decl where
  name := "lib_tray"
  origin := tray
  body := .struct [⟨"key", .ident "string", 0⟩]

def racksTree : Tree where
  imports := [⟨"lib", "lib", false, .firstParty⟩, ⟨"unsafe", "unsafe", false, .firstParty⟩]
  decls := [rackDecl, trayDecl]
  conversions := [
    { name := "make_lib_Rack"
      source := .pointer (.qualified rack)
      target := .pointer (.ident "lib_Rack") }]
  stubs := []

theorem row_acyclic : isRecursive racks (.named row []) = false := by
  have leaf : reaches racks row.qualified [tray.qualified, row.qualified] [] = false := by
    rw [reaches]
  have inner : reaches racks row.qualified [row.qualified] [tray] = false := by
    rw [reaches]
    exact leaf
  exact inner

-- The search for recursion does not reduce, so the run is taken apart up to where it is made.
theorem row_spelled : spellWith 20 racks (spellInline 20 racks 20) [] (.named row []) =
    ⟨[.replica tray], .ok (.array 2 (.ident "lib_tray"))⟩ := by
  change spellPrivate 20 racks (spellInline 20 racks 20) row (.array 2 (.named tray [])) = _
  simp only [spellPrivate, row_acyclic]
  rfl

theorem rack_spelled :
    spellDecl 20 racks rack rackSource = ⟨[.replica tray, .replica tray], .ok rackDecl⟩ := by
  have upper : spellWith 20 racks (spellInline 20 racks 20) [] (.pointer (.named row [])) =
      ⟨[.replica tray], .ok (.pointer (.array 2 (.ident "lib_tray")))⟩ := by
    rw [spellWith, row_spelled]
    rfl
  simp only [rackSource, spellDecl, spellConstraints, spellBody, spellMembers, spellMembersWith,
    TypeDecl.paramNames, List.map_nil, row_spelled, upper]
  rfl

theorem racks_drained : Run.drain racks 20 20
    { context := { worklist := { queue := [rack], known := [rack] } } } =
    .ok { context := { worklist := { known := [rack, tray], visited := ["lib_Rack", "lib_tray"] } }
          decls := [rackDecl, trayDecl] } := by
  have popped : Worklist.pop { queue := [rack], known := [rack] } =
      (some rack, { known := [rack] }) := rfl
  have found : racks.declaration? rack = some rackSource := rfl
  unfold Run.drain
  simp only [popped, found, rack_spelled]
  rfl

theorem racks_end : synthesize 20 racks ["lib.Rack"] = .ok racksTree := by
  have resolved : resolveRoots racks ["lib.Rack"] = .ok [rack] := rfl
  have pushed : Worklist.pushAll {} [rack] = .ok { queue := [rack], known := [rack] } := rfl
  rw [synthesize_of_pushed (List.cons_ne_nil _ _) resolved pushed, racks_drained]
  rfl

theorem racks_contains {outer inner : QualName} (contains : racks.Contains outer inner) :
    outer = rack ∧ inner = row ∨ outer = row ∧ inner = tray := by
  obtain ⟨decl, args, declared, contains⟩ := contains
  obtain ⟨package, listed, path, inside, name⟩ := Namespace.mem_of_declaration declared
  cases List.mem_singleton.mp listed
  have called : ∀ name, decl.name = name → outer = ⟨"lib", name⟩ := by
    rintro _ rfl
    rw [name]
    exact congrArg (QualName.mk · outer.name) path.symm
  simp only [List.mem_cons, List.not_mem_nil, or_false] at inside
  rcases inside with rfl | rfl | rfl
  · refine .inl ⟨called _ rfl, ?_⟩
    cases contains with
    | field member part =>
        rcases List.mem_pair.mp member with rfl | rfl
        · cases part
          rfl
        · cases part
  · refine .inr ⟨called _ rfl, ?_⟩
    cases contains with
    | element part =>
        cases part
        rfl
  · cases contains with
    | field member part =>
        cases List.mem_singleton.mp member
        cases part

theorem racks_acyclic (q : QualName) : ¬ Relation.TransGen racks.Contains q q := by
  let height : QualName → Nat := fun q => if q = rack then 2 else if q = row then 1 else 0
  have falls : ∀ {p q}, Relation.TransGen racks.Contains p q → height q < height p := by
    intro p q path
    have step : ∀ {p q}, racks.Contains p q → height q < height p := by
      intro p q contains
      rcases racks_contains contains with ⟨rfl, rfl⟩ | ⟨rfl, rfl⟩
      · decide
      · decide
    induction path with
    | single contains => exact step contains
    | tail _ contains ih => exact Nat.lt_trans (step contains) ih
  exact fun cycle => absurd (falls cycle) (Nat.lt_irrefl _)

theorem racks_plainBasics : racks.PlainBasics := by
  intro q decl declared
  obtain ⟨package, listed, _, inside, _⟩ := Namespace.mem_of_declaration declared
  cases List.mem_singleton.mp listed
  simp only [List.mem_cons, List.not_mem_nil, or_false] at inside
  rcases inside with rfl | rfl | rfl
  · refine ⟨nofun, fun u child => ?_⟩
    rcases List.mem_pair.mp child with rfl | rfl
    · exact ⟨nofun, nofun⟩
    · exact ⟨nofun, fun v inner => List.mem_singleton.mp inner ▸ ⟨nofun, nofun⟩⟩
  · exact ⟨nofun, fun u child => List.mem_singleton.mp child ▸ ⟨nofun, nofun⟩⟩
  · refine ⟨nofun, fun u child => List.mem_singleton.mp child ▸ ⟨?_, nofun⟩⟩
    rintro name same
    cases same
    decide

theorem racks_contain : synthesize 20 racks ["lib.Rack"] = .ok racksTree ∧
    racksTree.Contains rackDecl trayDecl ∧
    ∀ decl, ¬ Relation.TransGen racksTree.Contains decl decl := by
  have like := synthesize_contains racks_end
  refine ⟨racks_end, ?_, like.finite racks_acyclic (like.plain racks_plainBasics)⟩
  exact ⟨List.mem_cons_self, List.mem_cons_of_mem _ List.mem_cons_self, "lib_tray",
    .field List.mem_cons_self (.element (.ident _)), rfl⟩

def misnamed : Namespace where
  module := "lib"
  packages := [
    { path := "lib"
      types := [{ name := "Rack", underlying := .struct [⟨"next", .basic "lib_Rack"⟩] }] }]

def misnamedTree : Tree where
  imports := racksTree.imports
  decls := [
    { name := "lib_Rack"
      origin := rack
      body := .struct [⟨"next", .ident "lib_Rack", 0⟩] }]
  conversions := racksTree.conversions
  stubs := []

theorem misnamed_ends : synthesize 20 misnamed ["lib.Rack"] = .ok misnamedTree := by
  with_unfolding_all rfl

/-- No type has a declared type in it, but the replica has itself in it. -/
theorem misnamed_contains : ∃ tree, synthesize 20 misnamed ["lib.Rack"] = .ok tree ∧
    (∀ outer inner, ¬ misnamed.Contains outer inner) ∧ ∃ decl, tree.Contains decl decl := by
  refine ⟨misnamedTree, misnamed_ends, ?_, _, List.mem_cons_self, List.mem_cons_self, "lib_Rack",
    .field List.mem_cons_self (.ident _), rfl⟩
  rintro outer inner ⟨decl, args, declared, contains⟩
  obtain ⟨package, listed, _, inside, _⟩ := Namespace.mem_of_declaration declared
  cases List.mem_singleton.mp listed
  cases List.mem_singleton.mp inside
  cases contains with
  | field member inner =>
      cases List.mem_singleton.mp member
      cases inner

end Replica
