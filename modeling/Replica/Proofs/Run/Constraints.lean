import Replica.Proofs.Run.Stubs
import Replica.Proofs.Spelling.Referent

/-!
What replicas do for the constraints of the instances they are arguments of. A private argument that
has a replica gets every method that its constraint asks for. The receiver of a method is a pointer
or a value as the first obligation that demands it has it, so a type that is met through a pointer
first may lack the method as a value.
-/

namespace Replica

variable {ns : Namespace} {roots : List QualName} {history : List Need} {final : Run} {t : Ty}
  {e : Expr}

/-- The tree writes `e` where the source has the type `t`: in a declaration, in a method that an
obligation demanded first, inside of such a type or in the place of a private name. -/
inductive Tree.Writes (tree : Tree) (ns : Namespace) (history : List Need) : Ty → Expr → Prop where
  | decl {decl : Decl} {source : TypeDecl} {t : Ty} {e : Expr} (member : decl ∈ tree.decls)
      (declared : ns.declaration? decl.origin = some source)
      (part : (t, e) ∈ source.types.zip decl.exprs) : Writes tree ns history t e
  | stub {stub : Stub} {owed : Obligation} {receiver : Receiver} {m : Method Ty} {t : Ty} {e : Expr}
      (member : stub ∈ tree.stubs) (first : FirstDemand ns (obligationsOf history) stub.key owed)
      (demands : owed.Demands ns receiver m) (named : m.name = stub.method)
      (part : (t, e) ∈ m.signature.types.zip stub.exprs) : Writes tree ns history t e
  | inside {t u : Ty} {e f : Expr} (outer : Writes tree ns history t e)
      (part : (u, f) ∈ t.children.zip e.parts) : Writes tree ns history u f
  | inPlace {q : QualName} {decl : TypeDecl} {e : Expr}
      (outer : Writes tree ns history (.named q []) e) (simple : PrivateSimple ns q decl)
      (unnamed : ¬ NeedsName ns q decl.underlying) : Writes tree ns history decl.underlying e

theorem Obligation.Demands.unique {owed : Obligation} {receiver receiver' : Receiver}
    {m m' : Method Ty} (first : owed.Demands ns receiver m) (second : owed.Demands ns receiver' m')
    (same : m.name = m'.name) : m = m' := by
  obtain ⟨methods, has, asked⟩ := first.asked
  obtain ⟨methods', has', asked'⟩ := second.asked
  cases has.unique has'
  exact has.eq_of_name asked asked' same

namespace Completed

variable (completed : Completed ns roots history final)
  (exported : ∀ root ∈ roots, root.isPublic = true)

include completed exported

theorem writes_spelled (writes : (final.tree ns roots).Writes ns history t e) :
    ∃ scope, SpelledWithin ns anyReplica scope history t e := by
  induction writes with
  | @decl decl source t e member declared part =>
      obtain ⟨source', needs, declared', spelled, within⟩ :=
        completed.sound.written.decls decl member
      cases declared.symm.trans declared'
      exact ⟨_, (spelled.part part).mono within⟩
  | @stub stub owed receiver m t e member first demands named part =>
      obtain ⟨owed', receiver', m', limit, needs, signature, first', demands', spelled, within,
        rfl⟩ := completed.stubs_first exported member
      cases first.unique first'
      cases demands.unique demands' named
      exact ⟨[], ((spellSignature_spelled receiver' demands'.closed spelled).part part).mono within⟩
  | inside outer part ih =>
      obtain ⟨scope, needs, spelled, within⟩ := ih
      exact ⟨scope, (spelled.part part).mono within⟩
  | @inPlace q decl e outer simple unnamed ih =>
      obtain ⟨scope, needs, spelled, within⟩ := ih
      exact ⟨[], needs, spelled.of_not_needsName simple unnamed, within⟩

end Completed

/-- The argument at `place` of an instance is the type of `receiver`, which is private, declared as
`source` without type parameters and no interface. Its constraint asks for `methods`. -/
structure Constrained (ns : Namespace) (base : QualName) (args : List Ty) (place : Nat)
    (receiver : Receiver) (source : TypeDecl) (methods : List (Method Ty)) : Prop where
  simple : PrivateSimple ns receiver.origin source
  able : ∀ shape, source.underlying ≠ .interface shape
  demanding : methods ≠ []
  constraint : ∃ decl constraint shape, ns.declaration? base = some decl ∧
    (decl.constraints args)[place]? = some (constraint, receiver.type) ∧
    interfaceOf? ns constraint = some shape ∧ HasMethodSet ns shape methods

/-- An instance that is written as `e` has a replica at `place`, which has all of `methods` but
those that mention a type parameter. -/
structure Tree.Serves (tree : Tree) (e : Expr) (place : Nat) (receiver : Receiver)
    (methods : List (Method Ty)) : Prop where
  written : ∃ head exprs, e = .applied head exprs ∧ exprs[place]? = some receiver.expr
  declared : tree.Declares receiver.origin 0
  stubbed : ∀ m ∈ methods, Ty.mentionsParamSignature m.signature = false →
    (receiver.origin.flat, m.name) ∈ tree.stubs.map Stub.key

theorem getElem?_of_constraints {decl : TypeDecl} {args : List Ty} {place : Nat}
    {constraint arg : Ty} (given : (decl.constraints args)[place]? = some (constraint, arg)) :
    args[place]? = some arg := by
  simp only [TypeDecl.constraints, List.getElem?_map, Option.map_eq_some_iff, Prod.mk.injEq,
    List.getElem?_zip_eq_some] at given
  obtain ⟨pair, ⟨_, found⟩, _, rfl⟩ := given
  exact found

namespace Completed

variable (completed : Completed ns roots history final)
  (exported : ∀ root ∈ roots, root.isPublic = true) {base : QualName} {args : List Ty} {place : Nat}
  {receiver : Receiver} {source : TypeDecl} {methods : List (Method Ty)}

include completed exported

theorem recorded (writes : (final.tree ns roots).Writes ns history (.named base args) e)
    (constrained : Constrained ns base args place receiver source methods) :
    ∃ shape, ⟨shape, receiver.type⟩ ∈ obligationsOf history ∧ HasMethodSet ns shape methods := by
  obtain ⟨decl, constraint, shape, declared, given, stands, has⟩ := constrained.constraint
  have pair := List.mem_of_getElem? given
  have some : args ≠ [] := List.ne_nil_of_mem (mem_constraints pair).1
  obtain ⟨scope, needs, spelled, within⟩ := completed.writes_spelled exported writes
  obtain ⟨_, _, _, _, instances⟩ := spelled.applied some
  obtain ⟨owed, owes, needed⟩ := instances decl declared
  have member := owes.mem pair stands has constrained.demanding
  exact ⟨shape, mem_obligationsOf.mpr (within _ (needed _ member)), has⟩

theorem serves (writes : (final.tree ns roots).Writes ns history (.named base args) e)
    (constrained : Constrained ns base args place receiver source methods)
    (named : NeedsName ns receiver.origin source.underlying) :
    (final.tree ns roots).Serves e place receiver methods := by
  have simple := constrained.simple
  have able : TakesMethods ns receiver.origin := ⟨source, simple, named, constrained.able⟩
  obtain ⟨shape, recorded, has⟩ := completed.recorded exported writes constrained
  obtain ⟨_, constraint, _, _, given, _, _⟩ := constrained.constraint
  have argument := getElem?_of_constraints given
  have some : args ≠ [] := List.ne_nil_of_mem (List.mem_of_getElem? argument)
  obtain ⟨scope, needs, spelled, within⟩ := completed.writes_spelled exported writes
  obtain ⟨head, exprs, rfl, lengths, _⟩ := spelled.applied some
  obtain ⟨inArgs, _⟩ := List.getElem?_eq_some_iff.mp argument
  have found : exprs[place]? = Option.some exprs[place] := List.getElem?_eq_getElem (by omega)
  have part : (receiver.type, exprs[place]) ∈ args.zip exprs := by
    apply List.mem_of_getElem?
    exact List.getElem?_zip_eq_some.mpr ⟨argument, found⟩
  obtain ⟨own, inner, ownWithin⟩ := spelled.part part
  -- The argument has a name of its own, so it is written as its replica.
  obtain ⟨rfl, written⟩ := inner.of_takesMethods able
  have needed : Need.replica receiver.origin ∈ history :=
    within _ (ownWithin _ (List.mem_singleton_self _))
  refine ⟨⟨head, exprs, rfl, by rw [found, written]⟩, ?_, ?_⟩
  · have declares := completed.refers receiver.origin source needed simple.2.1
    rwa [simple.2.2] at declares
  · intro m asked closed
    have receives : Obligation.receiver? ⟨shape, receiver.type⟩ = Option.some receiver :=
      receiver_eq_some_iff.mpr ⟨rfl, simple.1⟩
    exact completed.mem_stubs exported recorded
      (Obligation.Demands.demandsStub ⟨receives, able, closed, methods, has, asked⟩)

theorem needsName_of_declares (simple : PrivateSimple ns receiver.origin source)
    (declares : (final.tree ns roots).Declares receiver.origin 0) :
    NeedsName ns receiver.origin source.underlying := by
  obtain ⟨_, _, steps⟩ := completed.ran
  obtain ⟨decl, member, same, _⟩ := declares
  have needed := (completed.outlined_iff exported simple.1).mp
    (List.mem_map.mpr ⟨decl, member, same⟩)
  cases steps.grounded _ needed with
  | replica _ declared named =>
      cases simple.2.1.symm.trans declared
      exact named.resolve_left (not_not.mpr simple.2.2)

end Completed

/-- A constrained argument goes on satisfying its constraint exactly if it has a name of its own:
if it is a struct or recursive. -/
theorem synthesize_serves {limit : Nat} {names : List String} {tree : Tree}
    (ended : synthesize limit ns names = .ok tree) : ∃ roots history final,
      resolveRoots ns names = .ok roots ∧ Completed ns roots history final ∧
      tree = final.tree ns roots ∧
      ∀ base args e place receiver source methods, tree.Writes ns history (.named base args) e →
        Constrained ns base args place receiver source methods →
        (tree.Serves e place receiver methods ↔ NeedsName ns receiver.origin source.underlying) := by
  obtain ⟨roots, history, final, _, resolved, completed, rfl⟩ := synthesize_completed ended
  have exported := isPublic_of_resolveRoots resolved
  refine ⟨roots, history, final, resolved, completed, rfl, ?_⟩
  intro base args e place receiver source methods writes constrained
  constructor
  · exact fun serves => completed.needsName_of_declares exported constrained.simple serves.declared
  · exact completed.serves exported writes constrained

def library (fields : List (Field Ty)) : Namespace where
  module := "lib"
  packages := [
    { path := "lib"
      types := [
        { name := "Shelf", underlying := .struct fields },
        { name := "book", underlying := .struct [⟨"title", .basic "string"⟩] },
        { name := "code", underlying := .basic "int" },
        { name := "Sorted"
          params := [⟨"T", .interface stringer⟩]
          underlying := .struct [⟨"items", .slice (.param "T")⟩] }] }]

def shelf : QualName := ⟨"lib", "Shelf"⟩

def sorted : QualName := ⟨"lib", "Sorted"⟩

def book : Receiver := ⟨⟨"lib", "book"⟩, false⟩

def code : Receiver := ⟨⟨"lib", "code"⟩, false⟩

theorem hasMethodSet_stringer (ns : Namespace) : HasMethodSet ns stringer stringer.methods :=
  ⟨1, rfl⟩

theorem sorted_constrained {fields : List (Field Ty)} {receiver : Receiver} {source : TypeDecl}
    (simple : PrivateSimple (library fields) receiver.origin source)
    (able : ∀ shape, source.underlying ≠ .interface shape) :
    Constrained (library fields) sorted [receiver.type] 0 receiver source stringer.methods where
  simple := simple
  able := able
  demanding := List.cons_ne_nil _ _
  constraint := ⟨_, _, stringer, rfl, rfl, rfl, hasMethodSet_stringer _⟩

theorem book_constrained (fields : List (Field Ty)) : ∃ source,
    Constrained (library fields) sorted [book.type] 0 book source stringer.methods ∧
    NeedsName (library fields) book.origin source.underlying :=
  ⟨_, sorted_constrained ⟨rfl, rfl, rfl⟩ (fun _ same => by cases same), trivial⟩

theorem code_constrained (fields : List (Field Ty)) : ∃ source,
    Constrained (library fields) sorted [code.type] 0 code source stringer.methods :=
  ⟨_, sorted_constrained ⟨rfl, rfl, rfl⟩ fun _ same => by cases same⟩

def books : Namespace :=
  library [⟨"ByRef", .named sorted [.pointer book.type]⟩, ⟨"ByValue", .named sorted [book.type]⟩]

def booksTree : Tree where
  imports := [⟨"lib", "lib", false, .firstParty⟩, ⟨"unsafe", "unsafe", false, .firstParty⟩]
  decls := [
    { name := "lib_Shelf"
      origin := shelf
      body := .struct [
        ⟨"ByRef", .applied (.qualified sorted) [.pointer (.ident "lib_book")], 0⟩,
        ⟨"ByValue", .applied (.qualified sorted) [.ident "lib_book"], 1⟩] },
    { name := "lib_book"
      origin := book.origin
      body := .struct [⟨"title", .ident "string", 0⟩] }]
  conversions := [
    { name := "make_lib_Shelf"
      source := .pointer (.qualified shelf)
      target := .pointer (.ident "lib_Shelf") }]
  stubs := [⟨"lib_book", true, "String", { results := [⟨"_", .ident "string"⟩] }⟩]

theorem books_ends : synthesize 20 books ["lib.Shelf"] = .ok booksTree := by
  with_unfolding_all rfl

theorem booksTree_writes (history : List Need) : booksTree.Writes books history
    (.named sorted [book.type]) (.applied (.qualified sorted) [.ident "lib_book"]) :=
  .decl List.mem_cons_self rfl (List.mem_cons_of_mem _ List.mem_cons_self)

theorem books_served : ∃ tree, synthesize 20 books ["lib.Shelf"] = .ok tree ∧
    tree.Serves (.applied (.qualified sorted) [.ident "lib_book"]) 0 book stringer.methods := by
  obtain ⟨roots, history, final, _, _, _, serves⟩ := synthesize_serves books_ends
  obtain ⟨source, constrained, named⟩ := book_constrained _
  exact ⟨booksTree, books_ends,
    (serves _ _ _ _ _ _ _ (booksTree_writes history) constrained).mpr named⟩

def codes : Namespace := library [⟨"Codes", .named sorted [code.type]⟩]

def codesTree : Tree where
  imports := [⟨"lib", "lib", false, .firstParty⟩, ⟨"unsafe", "unsafe", false, .firstParty⟩]
  decls := [
    { name := "lib_Shelf"
      origin := shelf
      body := .struct [⟨"Codes", .applied (.qualified sorted) [.ident "int"], 0⟩] }]
  conversions := [
    { name := "make_lib_Shelf"
      source := .pointer (.qualified shelf)
      target := .pointer (.ident "lib_Shelf") }]
  stubs := []

-- The search for recursion does not reduce, so the run is taken apart up to where it is made.
theorem code_spelled (fields : List (Field Ty)) (scope : List String) (depth : Nat) :
    spellWith 20 (library fields) (spellInline 20 (library fields) (depth + 1)) scope code.type =
      ⟨[], .ok (.ident "int")⟩ :=
  spellWith_of_basic ⟨rfl, rfl, rfl⟩ rfl

theorem sorted_spelled {fields : List (Field Ty)} {inline : Ty → Spelling Expr}
    {scope : List String} {arg : Ty} {expr : Expr}
    (spelled : spellWith 20 (library fields) inline scope arg = ⟨[], .ok expr⟩) :
    spellWith 20 (library fields) inline scope (.named sorted [arg]) =
      ⟨[.package "lib", .obligation ⟨stringer, arg⟩],
        .ok (.applied (.qualified sorted) [expr])⟩ := by
  change spellInstance 20 (library fields) sorted [arg] (spellAllWith _ _ _ _ [arg]) = _
  simp only [spellAllWith, spelled]
  rfl

theorem codes_drained : Run.drain codes 20 20
    { context := { worklist := { queue := [shelf], known := [shelf] } } } =
    .ok { context := {
            worklist := { known := [shelf], visited := ["lib_Shelf"] }
            imports := ["lib"]
            obligations := [⟨stringer, code.type⟩] }
          decls := codesTree.decls } := by
  have popped : Worklist.pop { queue := [shelf], known := [shelf] } =
      (some shelf, { known := [shelf] }) := rfl
  have found : codes.declaration? shelf =
      some { name := "Shelf", underlying := .struct [⟨"Codes", .named sorted [code.type]⟩] } := rfl
  have field : spellWith 20 codes (spellInline 20 codes 20) [] (.named sorted [code.type]) = _ :=
    sorted_spelled (code_spelled _ [] 19)
  unfold Run.drain
  simp only [popped, found, spellDecl, spellConstraints, spellBody, spellMembers, spellMembersWith,
    spellParamsWith, TypeDecl.paramNames, List.map_nil, field]
  rfl

theorem codes_ends : synthesize 20 codes ["lib.Shelf"] = .ok codesTree := by
  have resolved : resolveRoots codes ["lib.Shelf"] = .ok [shelf] := rfl
  have pushed : Worklist.pushAll {} [shelf] = .ok { queue := [shelf], known := [shelf] } := rfl
  rw [synthesize_of_pushed (List.cons_ne_nil _ _) resolved pushed, codes_drained]
  rfl

/-- A private type that is not a struct may be written as what it is declared to be, which does not
have the methods that its constraint asks for. -/
theorem codes_not_served : ∃ tree, synthesize 20 codes ["lib.Shelf"] = .ok tree ∧
    ∀ history, ¬ ∀ base args e place receiver source methods,
      tree.Writes codes history (.named base args) e →
      Constrained codes base args place receiver source methods →
      tree.Serves e place receiver methods := by
  refine ⟨codesTree, codes_ends, fun history served => ?_⟩
  have writes : codesTree.Writes codes history (.named sorted [code.type])
      (.applied (.qualified sorted) [.ident "int"]) :=
    .decl List.mem_cons_self rfl List.mem_cons_self
  obtain ⟨source, constrained⟩ := code_constrained _
  obtain ⟨decl, member, isCode, _⟩ := (served _ _ _ _ _ _ _ writes constrained).declared
  cases List.mem_singleton.mp member
  exact absurd isCode (by decide)

/-- Methods that are asked of a type itself are there for values of the type, not only for pointers
to it. -/
def Tree.Adequate (tree : Tree) (ns : Namespace) (history : List Need) : Prop :=
  ∀ owed ∈ obligationsOf history, ∀ origin methods, owed.argument = .named origin [] →
    HasMethodSet ns owed.constraint methods → ∀ m ∈ methods, ∀ stub ∈ tree.stubs,
    stub.key = (origin.flat, m.name) → stub.pointerReceiver = false

theorem Receiver.type_eq_named {receiver : Receiver} {origin : QualName}
    (same : receiver.type = .named origin []) : receiver.pointer = false := by
  unfold Receiver.type at same
  split at same
  · cases same
  · rename_i value
    simpa using value

/-- A method that is asked of a type itself is never demanded by a pointer to the type first. -/
def ValuesFirst (ns : Namespace) (history : List Need) : Prop :=
  ∀ owed ∈ obligationsOf history, ∀ origin methods, owed.argument = .named origin [] →
    HasMethodSet ns owed.constraint methods → ∀ m ∈ methods, ∀ first,
    FirstDemand ns (obligationsOf history) (origin.flat, m.name) first →
    ∃ other, first.argument = .named other []

-- The receiver of a stub is that of the obligation that demands the stub first.
theorem Completed.adequate_iff (completed : Completed ns roots history final)
    (exported : ∀ root ∈ roots, root.isPublic = true) :
    (final.tree ns roots).Adequate ns history ↔ ValuesFirst ns history := by
  have receiver_type : ∀ {owed receiver m}, Obligation.Demands ns owed receiver m →
      owed.argument = receiver.type := fun demands => (receiver_eq_some_iff.mp demands.receives).1
  constructor
  · intro adequate owed recorded origin methods same has m asked first demand
    obtain ⟨stub, member, key⟩ :=
      List.mem_map.mp (completed.mem_stubs exported demand.mem demand.1)
    have value := adequate owed recorded origin methods same has m asked stub member key
    obtain ⟨owed', receiver, m', _, _, _, demand', demands, _, _, rfl⟩ :=
      completed.stubs_first exported member
    rw [key] at demand'
    cases demand.unique demand'
    have value : receiver.pointer = false := value
    exact ⟨receiver.origin, by rw [receiver_type demands, Receiver.type, value]; rfl⟩
  · intro firsts owed recorded origin methods same has m asked stub member key
    obtain ⟨first, receiver, m', _, _, _, demand, demands, _, _, rfl⟩ :=
      completed.stubs_first exported member
    rw [key] at demand
    obtain ⟨other, argument⟩ := firsts owed recorded origin methods same has m asked first demand
    exact Receiver.type_eq_named ((receiver_type demands).symm.trans argument)

/-- The methods asked of types themselves are there exactly if no pointer to a type comes first. -/
theorem synthesize_adequate_iff {limit : Nat} {names : List String} {tree : Tree}
    (ended : synthesize limit ns names = .ok tree) : ∃ roots history final,
      resolveRoots ns names = .ok roots ∧ Completed ns roots history final ∧
      tree = final.tree ns roots ∧ (tree.Adequate ns history ↔ ValuesFirst ns history) := by
  obtain ⟨roots, history, final, _, resolved, completed, rfl⟩ := synthesize_completed ended
  exact ⟨roots, history, final, resolved, completed, rfl,
    completed.adequate_iff (isPublic_of_resolveRoots resolved)⟩

theorem geometry_adequate_iff : ∃ tree, synthesize 20 geometry ["geo.Shape"] = .ok tree ∧
    ∃ roots history final, resolveRoots geometry ["geo.Shape"] = .ok roots ∧
      Completed geometry roots history final ∧ tree = final.tree geometry roots ∧
      (tree.Adequate geometry history ↔ ValuesFirst geometry history) := by
  obtain ⟨tree, ended⟩ := geometry_ends
  exact ⟨tree, ended, synthesize_adequate_iff ended⟩

/-- Books are met by reference first, so values of their type lack the method. -/
theorem books_inadequate : ∃ tree, synthesize 20 books ["lib.Shelf"] = .ok tree ∧
    ∀ roots history final, resolveRoots books ["lib.Shelf"] = .ok roots →
      Completed books roots history final → tree = final.tree books roots →
      ¬ tree.Adequate books history := by
  refine ⟨booksTree, books_ends, fun roots history final resolved completed same adequate => ?_⟩
  have writes := booksTree_writes history
  obtain ⟨source, constrained, _⟩ := book_constrained _
  rw [same] at writes
  obtain ⟨shape, recorded, has⟩ :=
    completed.recorded (isPublic_of_resolveRoots resolved) writes constrained
  have value := adequate _ recorded book.origin _ rfl has _ (List.mem_singleton_self _) _
    (List.mem_singleton_self _) rfl
  cases value

end Replica
