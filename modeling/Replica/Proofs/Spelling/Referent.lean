import Replica.Proofs.Recursion
import Replica.Proofs.Spelling.Parts

/-!
What the identifiers in a spelling stand for. A type that is written as an identifier, with or
without arguments, denotes a type parameter, a replica or a predeclared type, and which of these it
is depends on the source only.
-/

namespace Replica

/-- A type parameter of the declaration at hand, the replica of a private type, or a type of the
language. -/
inductive Referent where
  | param (name : String)
  | replica (origin : QualName)
  | predeclared (name : String)
  deriving DecidableEq

def Referent.ident : Referent → String
  | .param name => name
  | .replica origin => origin.flat
  | .predeclared name => name

def Expr.ident? : Expr → Option String
  | .ident name => some name
  | .applied (.ident name) _ => some name
  | _ => none

/-- `t` is written as an identifier, which the source uses for `r`. -/
inductive Ty.Denotes (ns : Namespace) : Ty → Referent → Prop where
  | basic (name : String) : Denotes ns (.basic name) (.predeclared name)
  | param (name : String) : Denotes ns (.param name) (.param name)
  | any {shape : Interface Ty} (undemanding : HasMethodSet ns shape []) :
      Denotes ns (.interface shape) (.predeclared "any")
  | applied {base : QualName} {args : List Ty} (some : args ≠ []) (hidden : base.isPublic = false) :
      Denotes ns (.named base args) (.replica base)
  | outlined {base : QualName} {decl : TypeDecl} (simple : PrivateSimple ns base decl)
      (needsName : NeedsName ns base decl.underlying) : Denotes ns (.named base []) (.replica base)
  | inlined {base : QualName} {decl : TypeDecl} {r : Referent} (simple : PrivateSimple ns base decl)
      (unnamed : ¬ NeedsName ns base decl.underlying) (inner : Denotes ns decl.underlying r) :
      Denotes ns (.named base []) r

def Referent.InScope (replica : QualName → Nat → Prop) (scope : List String) : Referent → Prop
  | .param name => name ∈ scope
  | .replica origin => ∃ n, replica origin n
  | .predeclared _ => True

variable {ns : Namespace} {replica : QualName → Nat → Prop} {scope : List String} {t u : Ty}
  {needs : List Need} {e : Expr} {r r' : Referent}

theorem Ty.Denotes.unique (first : t.Denotes ns r) (second : t.Denotes ns r') : r = r' := by
  induction first with
  | basic name | param name | any undemanding =>
      cases second
      rfl
  | applied some hidden =>
      cases second with
      | applied => rfl
      | outlined | inlined => exact absurd rfl some
  | outlined simple needsName =>
      cases second with
      | applied | outlined => rfl
      | inlined simple' unnamed =>
          rw [simple'.unique simple] at unnamed
          exact absurd needsName unnamed
  | inlined simple unnamed inner ih =>
      cases second with
      | applied some => exact absurd rfl some
      | outlined simple' needsName =>
          rw [simple'.unique simple] at needsName
          exact absurd needsName unnamed
      | inlined simple' _ inner' =>
          rw [simple'.unique simple] at inner'
          exact ih inner'

theorem Spelled.denotes {name : String} (spelled : Spelled ns replica scope t needs e)
    (written : e.ident? = some name) : ∃ r, t.Denotes ns r ∧ r.ident = name ∧
      r.InScope replica scope ∧ ∀ param, r = .param param → t = .param param := by
  induction spelled with
  | basic =>
      cases written
      exact ⟨_, .basic _, rfl, trivial, fun _ same => by cases same⟩
  | param bound =>
      cases written
      exact ⟨_, .param _, rfl, bound, fun _ same => by cases same; rfl⟩
  | any undemanding =>
      cases written
      exact ⟨_, .any undemanding, rfl, trivial, fun _ same => by cases same⟩
  | replicaInstance some hidden declared arity named inner owes =>
      cases written
      exact ⟨_, .applied (by simpa using some) hidden, rfl, ⟨_, named⟩, fun _ same => by cases same⟩
  | outlined simple needsName named =>
      cases written
      exact ⟨_, .outlined simple needsName, rfl, ⟨_, named⟩, fun _ same => by cases same⟩
  | inlined simple unnamed inner ih =>
      obtain ⟨r, denotes, ident, inScope, _⟩ := ih written
      refine ⟨r, .inlined simple unnamed denotes, ident, ?_⟩
      -- No type parameter is in scope in the place of a private name.
      cases r with
      | param param => exact absurd inScope List.not_mem_nil
      | replica origin => exact ⟨inScope, fun _ same => by cases same⟩
      | predeclared name => exact ⟨trivial, fun _ same => by cases same⟩
  | _ => cases written

theorem Spelled.ident?_eq (spelled : Spelled ns replica scope t needs e)
    (denotes : t.Denotes ns r) : e.ident? = some r.ident := by
  induction denotes generalizing scope needs e with
  | basic name | param name =>
      cases spelled
      rfl
  | any undemanding =>
      generalize same : Ty.interface _ = t at spelled
      cases spelled with
      | any => rfl
      | interface demanding =>
          cases same
          exact absurd undemanding demanding
      | _ => cases same
  | applied some hidden =>
      generalize same : Ty.named _ _ = t at spelled
      cases spelled with
      | replicaInstance =>
          cases same
          rfl
      | undeclared _ exported | publicInstance _ exported =>
          cases same
          rw [exported] at hidden
          cases hidden
      | qualified | outlined | inlined =>
          cases same
          exact absurd rfl some
      | _ => cases same
  | outlined simple needsName =>
      obtain ⟨_, rfl⟩ := spelled.of_needsName simple needsName
      rfl
  | inlined simple unnamed inner ih => exact ih (spelled.of_not_needsName simple unnamed)

def Ty.Demanding (ns : Namespace) (t : Ty) : Prop :=
  ∀ shape, t = .interface shape → ¬ HasMethodSet ns shape []

theorem exists_zip_of_mem {α β : Type} {as : List α} {bs : List β} {a : α} (member : a ∈ as)
    (lengths : as.length = bs.length) : ∃ b, (a, b) ∈ as.zip bs := by
  have first := List.map_fst_zip (Nat.le_of_eq lengths)
  rw [← first] at member
  obtain ⟨⟨_, b⟩, inside, rfl⟩ := List.mem_map.mp member
  exact ⟨b, inside⟩

theorem exists_zip_of_mem_right {α β : Type} {as : List α} {bs : List β} {b : β} (member : b ∈ bs)
    (lengths : as.length = bs.length) : ∃ a, (a, b) ∈ as.zip bs := by
  have second := List.map_snd_zip (Nat.le_of_eq lengths.symm)
  rw [← second] at member
  obtain ⟨⟨a, _⟩, inside, rfl⟩ := List.mem_map.mp member
  exact ⟨a, inside⟩

theorem Spelled.demanding {f : Expr} (spelled : Spelled ns replica scope t needs e)
    (part : (u, f) ∈ t.children.zip e.parts) : t.Demanding ns := by
  rintro shape rfl undemanding
  have written := spelled.ident?_eq (.any undemanding)
  cases spelled with
  | any => exact absurd part (by simp [Expr.parts, Expr.children])
  | interface => cases written

/-- A spelling has as many parts as its type, or as a type in the place of a private name, unless it
is that of an interface that asks for nothing. `p` holds of types that are written as `e`. -/
theorem Spelled.aligned {p : Ty → Prop} (spelled : Spelled ns replica scope t needs e)
    (inPlace : ∀ q decl, p (.named q []) → PrivateSimple ns q decl →
      ¬ NeedsName ns q decl.underlying → p decl.underlying) (written : p t) :
    ∃ u, p u ∧ (u.children.length = e.parts.length ∨ ¬ u.Demanding ns ∧ e.parts = []) := by
  induction spelled with
  | basic | param | pointer | slice | map | array | qualified | outlined =>
      exact ⟨_, written, .inl rfl⟩
  | undeclared | publicInstance | replicaInstance =>
      exact ⟨_, written, .inl (by simp [Ty.children, Expr.parts])⟩
  | @struct _ fields inner =>
      refine ⟨_, written, .inl ?_⟩
      change _ = ((glossedMembers fields).map (·.type)).length
      rw [glossedMembers_types]
      simp [Ty.children]
  | @func _ s closed inner =>
      refine ⟨_, written, .inl ?_⟩
      change (Signature.map _ s).types.length = (Signature.map _ s).types.length
      rw [Signature.types_map, Signature.types_map, List.length_map, List.length_map]
  | any undemanding => exact ⟨_, written, .inr ⟨fun demanding => demanding _ rfl undemanding, rfl⟩⟩
  | @interface _ shape _ closed inner =>
      refine ⟨_, written, .inl ?_⟩
      change (Interface.map _ shape).types.length = (List.flatMap _ _).length
      rw [Interface.types_map, Interface.elements_types, Interface.types_map, List.length_map,
        List.length_map]
  | inlined simple unnamed inner ih => exact ih (inPlace _ _ written simple unnamed)

theorem Spelled.exists_part (spelled : Spelled ns replica scope t needs e)
    (demanding : t.Demanding ns) (child : u ∈ t.children) :
    ∃ f, (u, f) ∈ t.children.zip e.parts := by
  -- Private names without arguments are not made of anything.
  have composite : ∀ q, .named q [] ≠ t := by
    rintro q rfl
    exact List.not_mem_nil child
  obtain ⟨_, rfl, lengths | ⟨other, _⟩⟩ :=
    spelled.aligned (p := (· = t)) (fun q _ same => absurd same (composite q)) rfl
  · exact exists_zip_of_mem child lengths
  · exact absurd demanding other

inductive Expr.Uses (name : String) : Expr → Prop where
  | here : Uses name (.ident name)
  | inside {e inner : Expr} (child : inner ∈ e.children) (uses : Uses name inner) : Uses name e

theorem Expr.uses_of_ident? {name : String} (written : e.ident? = some name) : e.Uses name := by
  cases e with
  | ident other =>
      cases written
      exact .here
  | applied head args =>
      cases head with
      | ident other =>
          cases written
          exact .inside List.mem_cons_self .here
      | _ => cases written
  | _ => cases written

theorem Expr.mem_children_of_mem_parts {f : Expr} (part : f ∈ e.parts) : f ∈ e.children := by
  cases e with
  | applied head args => exact List.mem_cons_of_mem _ part
  | _ => exact part

theorem Spelled.head {head : Expr} {args : List Expr}
    (spelled : Spelled ns replica scope t needs (.applied head args)) :
    (∃ q, head = .qualified q) ∨ ∃ name, head = .ident name := by
  generalize same : Expr.applied head args = e at spelled
  induction spelled with
  | undeclared | publicInstance =>
      cases same
      exact .inl ⟨_, rfl⟩
  | replicaInstance =>
      cases same
      exact .inr ⟨_, rfl⟩
  | inlined simple unnamed inner ih => exact ih same
  | _ => cases same

theorem Spelled.part_or_head {f : Expr} (spelled : Spelled ns replica scope t needs e)
    (child : f ∈ e.children) :
    f ∈ e.parts ∨ f.children = [] ∧ ∀ name, f = .ident name → e.ident? = some name := by
  cases e with
  | applied head args =>
      rcases List.mem_cons.mp child with rfl | argument
      · right
        obtain ⟨q, rfl⟩ | ⟨name, rfl⟩ := spelled.head
        · exact ⟨rfl, fun _ same => by cases same⟩
        · exact ⟨rfl, fun _ same => by cases same; rfl⟩
      · exact .inl argument
  | _ => exact .inl child

theorem spellWith_of_basic {limit depth : Nat} {q : QualName} {decl : TypeDecl} {name : String}
    (simple : PrivateSimple ns q decl) (basic : decl.underlying = .basic name) :
    spellWith limit ns (spellInline limit ns (depth + 1)) scope (.named q []) =
      ⟨[], .ok (.ident name)⟩ := by
  obtain ⟨hidden, declared, noParams⟩ := simple
  have noRefs : decl.underlying.refs = [] := by rw [basic, Ty.refs]
  have acyclic := isRecursive_of_refs_eq_nil declared noRefs
  have notGeneric : decl.isGeneric = false := by rw [TypeDecl.isGeneric, noParams]; rfl
  rw [spellWith, spellAllWith, spellNamed, declared]
  simp only [List.isEmpty_nil, Bool.not_true, Bool.false_or, Option.any_some, notGeneric,
    Bool.false_eq_true, if_false, hidden, spellPrivate, basic, acyclic]
  rw [spellInline, spellWith]
  rfl

end Replica
