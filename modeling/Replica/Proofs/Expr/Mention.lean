import Replica.Expr.Basic
import Replica.Proofs.Ty.Children

/-!
The exported types that written expressions, declarations and whole trees mention.
-/

namespace Replica

def Element.types {α : Type} : Element α → List α
  | .embedded type => [type]
  | .method _ signature => signature.types

namespace Expr

def children : Expr → List Expr
  | .ident _ => []
  | .qualified _ => []
  | .applied base args => base :: args
  | .pointer elem => [elem]
  | .map key value => [key, value]
  | .array _ elem => [elem]
  | .slice elem => [elem]
  | .struct members => members.map (·.type)
  | .func signature => signature.types
  | .interface elements => elements.flatMap Element.types

/-- `q` is named as a type of its package, here or at any depth. -/
inductive Mentions (q : QualName) : Expr → Prop where
  | here : Mentions q (.qualified q)
  | inside {e inner : Expr} (child : inner ∈ e.children) (mentions : Mentions q inner) :
      Mentions q e

theorem mentions_qualified {q r : QualName} : (qualified r).Mentions q ↔ q = r := by
  constructor
  · intro mentions
    cases mentions with
    | here => rfl
    | inside child _ => exact absurd child List.not_mem_nil
  · intro same
    subst same
    exact .here

theorem mentions_iff {e : Expr} {q : QualName} (other : ∀ r, e ≠ .qualified r) :
    e.Mentions q ↔ ∃ inner ∈ e.children, inner.Mentions q := by
  constructor
  · intro mentions
    cases mentions with
    | here => exact absurd rfl (other q)
    | inside child mentions => exact ⟨_, child, mentions⟩
  · intro given
    rcases given with ⟨inner, child, mentions⟩
    exact .inside child mentions

end Expr

def MentionedIn (es : List Expr) (q : QualName) : Prop := ∃ e ∈ es, e.Mentions q

theorem mentionedIn_append {es fs : List Expr} {q : QualName} :
    MentionedIn (es ++ fs) q ↔ MentionedIn es q ∨ MentionedIn fs q := by
  simp only [MentionedIn, List.mem_append, or_and_right, exists_or]

theorem mentionedIn_flatMap {α : Type} {f : α → List Expr} {as : List α} {q : QualName} :
    MentionedIn (as.flatMap f) q ↔ ∃ a ∈ as, MentionedIn (f a) q := by
  constructor
  · intro given
    rcases given with ⟨e, member, mentions⟩
    rcases List.mem_flatMap.mp member with ⟨a, inside, here⟩
    exact ⟨a, inside, e, here, mentions⟩
  · intro given
    rcases given with ⟨a, inside, e, here, mentions⟩
    exact ⟨e, List.mem_flatMap.mpr ⟨a, inside, here⟩, mentions⟩

def Body.type : Body → Expr
  | .struct members => .struct members
  | .interface elements => .interface elements
  | .defined type => type

def Body.exprs : Body → List Expr
  | .struct members => members.map (·.type)
  | .interface elements => elements.flatMap Element.types
  | .defined type => [type]

def Decl.exprs (decl : Decl) : List Expr :=
  decl.params.map (·.type) ++ decl.body.exprs

def Conversion.exprs (c : Conversion) : List Expr :=
  c.params.map (·.type) ++ [c.source, c.target]

def Stub.exprs (stub : Stub) : List Expr := stub.signature.types

def Tree.exprs (tree : Tree) : List Expr :=
  tree.decls.flatMap Decl.exprs ++ tree.conversions.flatMap Conversion.exprs ++
    tree.stubs.flatMap Stub.exprs

def Tree.Mentions (tree : Tree) (q : QualName) : Prop := MentionedIn tree.exprs q

end Replica
