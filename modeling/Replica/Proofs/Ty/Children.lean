import Mathlib.Data.List.Basic
import Replica.Ty.Reference
import Replica.Ty.Substitution

/-!
A type and the types it is made of. `Ty.children` lists them one level deep, whatever stands
between; induction over a type, and what replacing parameters does to it, go through that list.
-/

namespace Replica

variable {α β γ : Type}

def Field.map (f : α → β) (field : Field α) : Field β := ⟨field.name, f field.type⟩

namespace Signature

def map (f : α → β) (s : Signature α) : Signature β :=
  ⟨s.params.map (Field.map f), s.results.map (Field.map f), s.variadic⟩

def types (s : Signature α) : List α :=
  s.params.map (·.type) ++ s.results.map (·.type)

end Signature

def Method.map (f : α → β) (m : Method α) : Method β := ⟨m.name, m.signature.map f⟩

namespace Interface

def map (f : α → β) (shape : Interface α) : Interface β :=
  ⟨shape.embedded.map f, shape.methods.map (Method.map f)⟩

def types (shape : Interface α) : List α :=
  shape.embedded ++ shape.methods.flatMap (·.signature.types)

end Interface

theorem Signature.type_mem_types {s : Signature α} {p : Field α}
    (member : p ∈ s.params ++ s.results) : p.type ∈ s.types := by
  rw [types, ← List.map_append]
  exact List.mem_map_of_mem member

theorem fields_map_type (f : α → β) (fields : List (Field α)) :
    (fields.map (Field.map f)).map (·.type) = (fields.map (·.type)).map f := by
  simp [Function.comp_def, Field.map]

theorem Signature.types_map (f : α → β) (s : Signature α) : (s.map f).types = s.types.map f := by
  simp only [Signature.types, Signature.map, fields_map_type, List.map_append]

theorem Interface.types_map (f : α → β) (shape : Interface α) :
    (shape.map f).types = shape.types.map f := by
  have methods : (shape.methods.map (Method.map f)).flatMap (·.signature.types) =
      (shape.methods.flatMap (·.signature.types)).map f := by
    rw [List.flatMap_map, List.map_flatMap]
    exact List.flatMap_congr fun m _ => Signature.types_map f m.signature
  rw [Interface.types, Interface.types, List.map_append, ← methods]
  rfl

theorem Interface.mem_types_of_method {shape : Interface α} {m : Method α} {a : α}
    (member : m ∈ shape.methods) (inside : a ∈ m.signature.types) : a ∈ shape.types :=
  List.mem_append_right _ (List.mem_flatMap.mpr ⟨m, member, inside⟩)

theorem sizeOf_field_lt [SizeOf α] {fields : List (Field α)} {a : α}
    (member : a ∈ fields.map (·.type)) : sizeOf a < sizeOf fields := by
  rcases List.mem_map.mp member with ⟨field, inside, same⟩
  have bound := List.sizeOf_lt_of_mem inside
  cases field with
  | mk name type =>
      subst same
      simp only [Field.mk.sizeOf_spec] at bound ⊢
      omega

theorem sizeOf_signature_lt [SizeOf α] {s : Signature α} {a : α} (member : a ∈ s.types) :
    sizeOf a < sizeOf s := by
  cases s with
  | mk params results variadic =>
      simp only [Signature.mk.sizeOf_spec]
      rcases List.mem_append.mp member with inParams | inResults
      · have bound := sizeOf_field_lt inParams
        simp only at bound
        omega
      · have bound := sizeOf_field_lt inResults
        simp only at bound
        omega

namespace Ty

def children : Ty → List Ty
  | .basic _ => []
  | .param _ => []
  | .named _ args => args
  | .pointer elem => [elem]
  | .slice elem => [elem]
  | .map key value => [key, value]
  | .array _ elem => [elem]
  | .chan _ elem => [elem]
  | .struct fields => fields.map (·.type)
  | .interface shape => shape.types
  | .func signature => signature.types

/-- A type is a parameter, or all about parameters is said by its children. -/
theorem param_or_composite (t : Ty) : (∃ name, t = .param name) ∨ ∀ name, t ≠ .param name := by
  cases t with
  | param name => exact .inl ⟨name, rfl⟩
  | _ => exact .inr nofun

theorem sizeOf_interface_lt {shape : Interface Ty} {t : Ty} (member : t ∈ shape.types) :
    sizeOf t < sizeOf shape := by
  cases shape with
  | mk embedded methods =>
      simp only [Interface.mk.sizeOf_spec]
      rcases List.mem_append.mp member with inEmbedded | inMethods
      · have bound := List.sizeOf_lt_of_mem inEmbedded
        simp only at bound
        omega
      · rcases List.mem_flatMap.mp inMethods with ⟨⟨name, signature⟩, method, inside⟩
        have outer := List.sizeOf_lt_of_mem method
        have inner := sizeOf_signature_lt inside
        simp only [Method.mk.sizeOf_spec] at outer inner
        omega

theorem sizeOf_child_lt {t u : Ty} (child : u ∈ t.children) : sizeOf u < sizeOf t := by
  cases t with
  | basic name => exact absurd child List.not_mem_nil
  | param name => exact absurd child List.not_mem_nil
  | named base args =>
      have bound := List.sizeOf_lt_of_mem child
      simp only [named.sizeOf_spec, children] at bound ⊢
      omega
  | map key value =>
      simp only [children, List.mem_cons, List.not_mem_nil, or_false] at child
      rcases child with rfl | rfl
      · simp only [map.sizeOf_spec]
        omega
      · simp only [map.sizeOf_spec]
        omega
  | struct fields =>
      have bound := sizeOf_field_lt child
      simp only [struct.sizeOf_spec]
      omega
  | interface shape =>
      have bound := sizeOf_interface_lt child
      simp only [interface.sizeOf_spec]
      omega
  | func signature =>
      have bound := sizeOf_signature_lt child
      simp only [func.sizeOf_spec]
      omega
  | pointer elem | slice elem | array len elem | chan direction elem =>
      rw [List.mem_singleton.mp child]
      simp only [pointer.sizeOf_spec, slice.sizeOf_spec, array.sizeOf_spec, chan.sizeOf_spec]
      omega

theorem induct {motive : Ty → Prop}
    (step : ∀ t, (∀ u ∈ t.children, motive u) → motive t) (t : Ty) : motive t :=
  step t fun u child =>
    have : sizeOf u < sizeOf t := sizeOf_child_lt child
    induct step u
termination_by sizeOf t

inductive Every (p : Ty → Prop) : Ty → Prop where
  | intro {t : Ty} (here : p t) (below : ∀ u ∈ t.children, Every p u) : Every p t

theorem every_iff {p : Ty → Prop} {t : Ty} :
    Every p t ↔ p t ∧ ∀ u ∈ t.children, Every p u := by
  constructor
  · intro given
    rcases given with ⟨here, below⟩
    exact ⟨here, below⟩
  · intro given
    rcases given with ⟨here, below⟩
    exact ⟨here, below⟩

namespace Every

variable {p q : Ty → Prop} {t u : Ty}

theorem here (every : Every p t) : p t := (every_iff.mp every).1

theorem child (every : Every p t) (child : u ∈ t.children) : Every p u :=
  (every_iff.mp every).2 u child

theorem imp (every : Every p t) (weaken : ∀ u, p u → q u) : Every q t := by
  induction every with
  | intro here _ ih => exact ⟨weaken _ here, ih⟩

end Every

theorem refsAll_eq (ts : List Ty) : refsAll ts = ts.flatMap refs := by
  induction ts with
  | nil => rfl
  | cons t rest ih => rw [refsAll, ih, List.flatMap_cons]

theorem refsFields_eq (fields : List (Field Ty)) :
    refsFields fields = (fields.map (·.type)).flatMap refs := by
  induction fields with
  | nil => rfl
  | cons field rest ih => rw [refsFields, ih, List.map_cons, List.flatMap_cons]

theorem refsSignature_eq (s : Signature Ty) : refsSignature s = s.types.flatMap refs := by
  rw [refsSignature, refsFields_eq, refsFields_eq, Signature.types, List.flatMap_append]

theorem refsMethods_eq (methods : List (Method Ty)) :
    refsMethods methods = (methods.flatMap (·.signature.types)).flatMap refs := by
  induction methods with
  | nil => rfl
  | cons m rest ih =>
      rw [refsMethods, refsSignature_eq, ih, List.flatMap_cons, List.flatMap_append]

theorem refsInterface_eq (shape : Interface Ty) :
    refsInterface shape = shape.types.flatMap refs := by
  rw [refsInterface, refsAll_eq, refsMethods_eq, Interface.types, List.flatMap_append]

theorem mem_refs_named {q base : QualName} {args : List Ty} :
    q ∈ (Ty.named base args).refs ↔ (∃ u ∈ args, q ∈ u.refs) ∨ q = base := by
  rw [refs, refsAll_eq, List.mem_append, List.mem_flatMap, List.mem_singleton]

theorem mem_refs_iff {t : Ty} {q : QualName} :
    q ∈ t.refs ↔ (∃ args, t = .named q args) ∨ ∃ u ∈ t.children, q ∈ u.refs := by
  cases t with
  | named base args =>
      rw [mem_refs_named, or_comm, children]
      apply or_congr _ Iff.rfl
      constructor
      · intro same
        subst same
        exact ⟨args, rfl⟩
      · intro given
        rcases given with ⟨args', same⟩
        cases same
        rfl
  | struct fields => simp [refs, refsFields_eq, children]
  | interface shape => simp [refs, refsInterface_eq, children]
  | func signature => simp [refs, refsSignature_eq, children]
  | _ => simp [refs, children]

theorem mem_refs_of_child {t u : Ty} {q : QualName} (child : u ∈ t.children) (inside : q ∈ u.refs) :
    q ∈ t.refs :=
  mem_refs_iff.mpr (.inr ⟨u, child, inside⟩)

theorem Every.of_mem_refs {p : Ty → Prop} {t : Ty} (every : Every p t) {q : QualName}
    (member : q ∈ t.refs) : ∃ args, Every p (.named q args) := by
  induction every with
  | @intro t here below ih =>
      rcases mem_refs_iff.mp member with ⟨args, rfl⟩ | ⟨u, child, inside⟩
      · exact ⟨args, here, below⟩
      · exact ih u child inside

theorem Every.and {p q : Ty → Prop} {t : Ty} (first : Every p t) (second : Every q t) :
    Every (fun u => p u ∧ q u) t := by
  induction first with
  | intro here _ ih => exact ⟨⟨here, second.here⟩, fun u child => ih u child (second.child child)⟩

/-- What a declaration of a type writes out: its fields or elements, or else the type itself. -/
def members : Ty → List Ty
  | .struct fields => fields.map (·.type)
  | .interface shape => shape.types
  | other => [other]

theorem Every.of_mem_members {p : Ty → Prop} {t u : Ty} (every : Every p t)
    (member : u ∈ t.members) : Every p u := by
  cases t with
  | struct fields => exact every.child member
  | interface shape => exact every.child member
  | _ => exact List.mem_singleton.mp member ▸ every

variable (value : String → Option Ty)

theorem substAll_eq (ts : List Ty) : substAll value ts = ts.map (subst value) := by
  induction ts with
  | nil => rfl
  | cons t rest ih => rw [substAll, ih, List.map_cons]

theorem substFields_eq (fields : List (Field Ty)) :
    substFields value fields = fields.map (Field.map (subst value)) := by
  induction fields with
  | nil => rfl
  | cons field rest ih =>
      rw [substFields, ih, List.map_cons]
      rfl

theorem substSignature_eq (s : Signature Ty) : substSignature value s = s.map (subst value) := by
  rw [substSignature, substFields_eq, substFields_eq, Signature.map]

theorem substMethods_eq (methods : List (Method Ty)) :
    substMethods value methods = methods.map (Method.map (subst value)) := by
  induction methods with
  | nil => rfl
  | cons m rest ih =>
      rw [substMethods, substSignature_eq, ih, List.map_cons]
      rfl

theorem substInterface_eq (shape : Interface Ty) :
    substInterface value shape = shape.map (subst value) := by
  rw [substInterface, substAll_eq, substMethods_eq, Interface.map]

theorem children_subst {t : Ty} (composite : ∀ name, t ≠ .param name) :
    (t.subst value).children = t.children.map (subst value) := by
  cases t with
  | param name => exact absurd rfl (composite name)
  | named base args => exact substAll_eq value args
  | struct fields =>
      rw [subst, substFields_eq, children, fields_map_type, children]
  | interface shape =>
      rw [subst, substInterface_eq, children, Interface.types_map, children]
  | func signature =>
      rw [subst, substSignature_eq, children, Signature.types_map, children]
  | basic name => rfl
  | map key value' => rfl
  | pointer elem | slice elem | array len elem | chan direction elem => rfl

variable {value}

theorem Every.subst {p q : Ty → Prop} {t : Ty} (every : Every p t)
    (keep : ∀ u, p u → (∀ name, u ≠ .param name) → q (u.subst value))
    (replaced : ∀ name, p (.param name) → Every q ((Ty.param name).subst value)) :
    Every q (t.subst value) := by
  induction every with
  | @intro t here below ih =>
      rcases t.param_or_composite with ⟨name, rfl⟩ | composite
      · exact replaced name here
      · refine ⟨keep t here composite, ?_⟩
        intro u child
        rw [children_subst value composite] at child
        rcases List.mem_map.mp child with ⟨v, inside, rfl⟩
        exact ih v inside

theorem mentionsParamAll_eq (ts : List Ty) : mentionsParamAll ts = ts.any mentionsParam := by
  induction ts with
  | nil => rfl
  | cons t rest ih => rw [mentionsParamAll, ih, List.any_cons]

theorem mentionsParamFields_eq (fields : List (Field Ty)) :
    mentionsParamFields fields = (fields.map (·.type)).any mentionsParam := by
  induction fields with
  | nil => rfl
  | cons field rest ih => rw [mentionsParamFields, ih, List.map_cons, List.any_cons]

theorem mentionsParamSignature_eq (s : Signature Ty) :
    mentionsParamSignature s = s.types.any mentionsParam := by
  rw [mentionsParamSignature, mentionsParamFields_eq, mentionsParamFields_eq, Signature.types,
    List.any_append]

theorem mentionsParamMethods_eq (methods : List (Method Ty)) :
    mentionsParamMethods methods = (methods.flatMap (·.signature.types)).any mentionsParam := by
  induction methods with
  | nil => rfl
  | cons m rest ih =>
      rw [mentionsParamMethods, mentionsParamSignature_eq, ih, List.flatMap_cons, List.any_append]

theorem mentionsParamInterface_eq (shape : Interface Ty) :
    mentionsParamInterface shape = shape.types.any mentionsParam := by
  rw [mentionsParamInterface, mentionsParamAll_eq, mentionsParamMethods_eq, Interface.types,
    List.any_append]

theorem mentionsParam_iff_of_composite {t : Ty} (composite : ∀ name, t ≠ .param name) :
    t.mentionsParam = true ↔ ∃ u ∈ t.children, u.mentionsParam = true := by
  cases t with
  | param name => exact absurd rfl (composite name)
  | named base args => rw [mentionsParam, mentionsParamAll_eq, List.any_eq_true, children]
  | struct fields => rw [mentionsParam, mentionsParamFields_eq, List.any_eq_true, children]
  | interface shape => rw [mentionsParam, mentionsParamInterface_eq, List.any_eq_true, children]
  | func signature => rw [mentionsParam, mentionsParamSignature_eq, List.any_eq_true, children]
  | _ => simp [mentionsParam, children]

theorem mentionsParam_of_child {t u : Ty} (child : u ∈ t.children)
    (mentions : u.mentionsParam = true) : t.mentionsParam = true := by
  rcases t.param_or_composite with ⟨name, rfl⟩ | composite
  · exact absurd child List.not_mem_nil
  · exact (mentionsParam_iff_of_composite composite).mpr ⟨u, child, mentions⟩

end Ty

end Replica
