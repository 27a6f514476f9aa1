import Replica.Expr.Layout
import Replica.Proofs.Expr.Mention

/-!
Written expressions without the places of their struct fields, which text does not show.
-/

namespace Replica

variable {α β : Type}

def Element.map (f : α → β) : Element α → Element β
  | .embedded type => .embedded (f type)
  | .method name signature => .method name (signature.map f)

theorem Element.types_map (f : α → β) (element : Element α) :
    (element.map f).types = element.types.map f := by
  cases element with
  | embedded type => rfl
  | method name signature => exact Signature.types_map f signature

namespace Expr

theorem sizeOf_child_lt {e inner : Expr} (child : inner ∈ e.children) :
    sizeOf inner < sizeOf e := by
  cases e with
  | ident name => exact absurd child List.not_mem_nil
  | qualified q => exact absurd child List.not_mem_nil
  | applied base args =>
      simp only [applied.sizeOf_spec]
      rcases List.mem_cons.mp child with rfl | arg
      · omega
      · have bound := List.sizeOf_lt_of_mem arg
        omega
  | map key value =>
      simp only [map.sizeOf_spec]
      rcases List.mem_pair.mp child with rfl | rfl
      · omega
      · omega
  | struct members =>
      obtain ⟨⟨name, type, position⟩, inside, rfl⟩ := List.mem_map.mp child
      have bound := List.sizeOf_lt_of_mem inside
      simp only [Member.mk.sizeOf_spec, struct.sizeOf_spec] at bound ⊢
      omega
  | func signature =>
      have bound := sizeOf_signature_lt child
      simp only [func.sizeOf_spec]
      omega
  | interface elements =>
      obtain ⟨element, member, inside⟩ := List.mem_flatMap.mp child
      have outer := List.sizeOf_lt_of_mem member
      simp only [interface.sizeOf_spec]
      cases element with
      | embedded type =>
          rw [List.mem_singleton.mp inside]
          simp only [Element.embedded.sizeOf_spec] at outer
          omega
      | method name signature =>
          have bound := sizeOf_signature_lt inside
          simp only [Element.method.sizeOf_spec] at outer
          omega
  | pointer elem | array len elem | slice elem =>
      rw [List.mem_singleton.mp child]
      simp only [pointer.sizeOf_spec, array.sizeOf_spec, slice.sizeOf_spec]
      omega

theorem induct {motive : Expr → Prop}
    (step : ∀ e, (∀ inner ∈ e.children, motive inner) → motive e) (e : Expr) : motive e :=
  step e fun inner child =>
    have : sizeOf inner < sizeOf e := sizeOf_child_lt child
    induct step inner
termination_by sizeOf e

inductive Every (p : Expr → Prop) : Expr → Prop where
  | intro {e : Expr} (here : p e) (below : ∀ inner ∈ e.children, Every p inner) : Every p e

namespace Every

variable {p q : Expr → Prop} {e inner : Expr}

theorem here (every : Every p e) : p e := by
  cases every with
  | intro here _ => exact here

theorem child (every : Every p e) (child : inner ∈ e.children) : Every p inner := by
  cases every with
  | intro _ below => exact below inner child

theorem and (first : Every p e) (second : Every q e) : Every (fun e => p e ∧ q e) e := by
  induction first with
  | intro here _ ih =>
      exact ⟨⟨here, second.here⟩, fun inner child => ih inner child (second.child child)⟩

theorem qualified_iff {p : QualName → Prop} :
    Every (fun inner => ∀ r, inner = .qualified r → p r) e ↔ ∀ r, e.Mentions r → p r := by
  constructor
  · intro every r mentions
    induction mentions with
    | here => exact every.here r rfl
    | inside child _ ih => exact ih (every.child child)
  · intro mentioned
    induction e using Expr.induct with
    | step e ih =>
        refine ⟨?_, fun inner child => ih inner child fun r mentions =>
          mentioned r (.inside child mentions)⟩
        rintro r rfl
        exact mentioned r .here

end Every

mutual

/-- All struct fields are put in place zero. -/
def unplaced : Expr → Expr
  | .ident name => .ident name
  | .qualified q => .qualified q
  | .applied base args => .applied base.unplaced (unplacedAll args)
  | .pointer elem => .pointer elem.unplaced
  | .map key value => .map key.unplaced value.unplaced
  | .array len elem => .array len elem.unplaced
  | .slice elem => .slice elem.unplaced
  | .struct members => .struct (unplacedMembers members)
  | .func signature => .func (unplacedSignature signature)
  | .interface elements => .interface (unplacedElements elements)

def unplacedAll : List Expr → List Expr
  | [] => []
  | e :: es => e.unplaced :: unplacedAll es

def unplacedMembers : List (Member Expr) → List (Member Expr)
  | [] => []
  | ⟨name, type, _⟩ :: members => ⟨name, type.unplaced, 0⟩ :: unplacedMembers members

def unplacedFields : List (Field Expr) → List (Field Expr)
  | [] => []
  | ⟨name, type⟩ :: fields => ⟨name, type.unplaced⟩ :: unplacedFields fields

def unplacedSignature : Signature Expr → Signature Expr
  | ⟨params, results, variadic⟩ => ⟨unplacedFields params, unplacedFields results, variadic⟩

def unplacedElements : List (Element Expr) → List (Element Expr)
  | [] => []
  | .embedded type :: elements => .embedded type.unplaced :: unplacedElements elements
  | .method name signature :: elements =>
    .method name (unplacedSignature signature) :: unplacedElements elements

end

theorem unplacedAll_eq (es : List Expr) : unplacedAll es = es.map unplaced := by
  induction es with
  | nil => rfl
  | cons e rest ih => rw [unplacedAll, ih, List.map_cons]

theorem unplacedMembers_eq (members : List (Member Expr)) :
    unplacedMembers members = members.map fun m => ⟨m.name, m.type.unplaced, 0⟩ := by
  induction members with
  | nil => rfl
  | cons m rest ih => rw [unplacedMembers, ih, List.map_cons]

theorem unplacedFields_eq (fields : List (Field Expr)) :
    unplacedFields fields = fields.map (Field.map unplaced) := by
  induction fields with
  | nil => rfl
  | cons field rest ih =>
      rw [unplacedFields, ih, List.map_cons]
      rfl

theorem unplacedSignature_eq (s : Signature Expr) : unplacedSignature s = s.map unplaced := by
  rw [unplacedSignature, unplacedFields_eq, unplacedFields_eq, Signature.map]

theorem unplacedElements_eq (elements : List (Element Expr)) :
    unplacedElements elements = elements.map (Element.map unplaced) := by
  induction elements with
  | nil => rfl
  | cons element rest ih =>
      cases element with
      | embedded type =>
          rw [unplacedElements, ih, List.map_cons]
          rfl
      | method name signature =>
          rw [unplacedElements, unplacedSignature_eq, ih, List.map_cons]
          rfl

theorem children_unplaced (e : Expr) : e.unplaced.children = e.children.map unplaced := by
  cases e with
  | applied base args => rw [unplaced, unplacedAll_eq, children, children, List.map_cons]
  | struct members => simp [unplaced, unplacedMembers_eq, children]
  | func signature =>
      rw [unplaced, unplacedSignature_eq, children, Signature.types_map, children]
  | interface elements =>
      rw [unplaced, unplacedElements_eq, children, children, List.flatMap_map, List.map_flatMap]
      exact List.flatMap_congr fun element _ => element.types_map unplaced
  | _ => rfl

theorem Every.unplaced {p q : Expr → Prop} {e : Expr} (every : Every p e)
    (keep : ∀ e, p e → q e.unplaced) : Every q e.unplaced := by
  induction every with
  | @intro e here _ ih =>
      refine ⟨keep e here, fun inner child => ?_⟩
      rw [children_unplaced] at child
      obtain ⟨original, inside, rfl⟩ := List.mem_map.mp child
      exact ih original inside

variable (aliases : String → String)

def typeLayout (depth : Nat) (dotted : Bool) : Expr → String
  | .slice elem => (if dotted then "..." else "[]") ++ elem.layout aliases depth
  | other => other.layout aliases depth

theorem paramLayouts_cons (depth : Nat) (variadic : Bool) (name : String) (type : Expr)
    (params : List (Field Expr)) :
    paramLayouts aliases depth variadic (⟨name, type⟩ :: params) =
      (if name = "" then typeLayout aliases depth (variadic && params.isEmpty) type
        else name ++ " " ++ typeLayout aliases depth (variadic && params.isEmpty) type) ::
      paramLayouts aliases depth variadic params := by
  cases type <;> rfl

theorem typeLayout_unplaced {type : Expr} {depth : Nat} (dotted : Bool)
    (same : type.unplaced.layout aliases depth = type.layout aliases depth) :
    typeLayout aliases depth dotted type.unplaced = typeLayout aliases depth dotted type := by
  cases type with
  | slice elem =>
      have inner : elem.unplaced.layout aliases depth = elem.layout aliases depth := by
        simpa only [unplaced, layout, String.append_right_inj] using same
      rw [unplaced, typeLayout, typeLayout, inner]
  | _ => exact same

theorem resultsText_unplaced (results : List (Field Expr)) (texts : List String) :
    resultsText (unplacedFields results) texts = resultsText results texts := by
  have named : (unplacedFields results).any (·.name != "") = results.any (·.name != "") := by
    rw [unplacedFields_eq, List.any_map]
    rfl
  simp only [resultsText, named]

mutual

theorem layout_unplaced : ∀ (e : Expr) (depth : Nat),
    e.unplaced.layout aliases depth = e.layout aliases depth
  | .ident _, _ => rfl
  | .qualified _, _ => rfl
  | .applied base args, depth => by
      rw [unplaced, layout, layout, layout_unplaced base, layouts_unplaced args]
  | .pointer elem, depth => by rw [unplaced, layout, layout, layout_unplaced elem]
  | .map key value, depth => by
      rw [unplaced, layout, layout, layout_unplaced key, layout_unplaced value]
  | .array len elem, depth => by rw [unplaced, layout, layout, layout_unplaced elem]
  | .slice elem, depth => by rw [unplaced, layout, layout, layout_unplaced elem]
  | .struct members, depth => by rw [unplaced, layout, layout, rows_unplaced members]
  | .func signature, depth => by
      rw [unplaced, layout, layout, signatureLayout_unplaced signature]
  | .interface elements, depth => by
      rw [unplaced, layout, layout, elementLines_unplaced elements]

theorem layouts_unplaced : ∀ (es : List Expr) (depth : Nat),
    layouts aliases depth (unplacedAll es) = layouts aliases depth es
  | [], _ => rfl
  | e :: es, depth => by
      rw [unplacedAll, layouts, layouts, layout_unplaced e, layouts_unplaced es]

theorem rows_unplaced : ∀ (members : List (Member Expr)) (depth : Nat),
    rows aliases depth (unplacedMembers members) = rows aliases depth members
  | [], _ => rfl
  | ⟨_, type, _⟩ :: members, depth => by
      rw [unplacedMembers, rows, rows, layout_unplaced type, rows_unplaced members]

theorem paramLayouts_unplaced : ∀ (params : List (Field Expr)) (depth : Nat) (variadic : Bool),
    paramLayouts aliases depth variadic (unplacedFields params) =
      paramLayouts aliases depth variadic params
  | [], _, _ => rfl
  | ⟨_, type⟩ :: params, depth, variadic => by
      have last : (unplacedFields params).isEmpty = params.isEmpty := by
        rw [unplacedFields_eq, List.isEmpty_map]
      rw [unplacedFields, paramLayouts_cons, paramLayouts_cons, last,
        typeLayout_unplaced _ _ (layout_unplaced type depth), paramLayouts_unplaced params]

theorem signatureLayout_unplaced : ∀ (s : Signature Expr) (depth : Nat),
    signatureLayout aliases depth (unplacedSignature s) = signatureLayout aliases depth s
  | ⟨params, results, variadic⟩, depth => by
      rw [unplacedSignature, signatureLayout, signatureLayout, paramLayouts_unplaced params,
        paramLayouts_unplaced results, resultsText_unplaced]

theorem elementLines_unplaced : ∀ (elements : List (Element Expr)) (depth : Nat),
    elementLines aliases depth (unplacedElements elements) = elementLines aliases depth elements
  | [], _ => rfl
  | .embedded type :: elements, depth => by
      rw [unplacedElements, elementLines, elementLines, layout_unplaced type,
        elementLines_unplaced elements]
  | .method _ s :: elements, depth => by
      rw [unplacedElements, elementLines, elementLines, signatureLayout_unplaced s,
        elementLines_unplaced elements]

end

end Expr

end Replica
