import Replica.Proofs.Ty.Children

/-!
Replacing parameters twice is replacing them once, by arguments in which parameters have been
replaced already. No order of parameters plays a part in it: what comes in for a parameter is not
looked at again, whatever it mentions.
-/

namespace Replica

variable {α β γ : Type}

theorem fields_map_map (f : α → β) (g : β → γ) (fields : List (Field α)) :
    (fields.map (Field.map f)).map (Field.map g) = fields.map (Field.map fun a => g (f a)) := by
  rw [List.map_map]
  rfl

theorem fields_map_congr {f g : α → β} {fields : List (Field α)}
    (same : ∀ a ∈ fields.map (·.type), f a = g a) :
    fields.map (Field.map f) = fields.map (Field.map g) := by
  refine List.map_congr_left fun field member => ?_
  rw [Field.map, Field.map, same _ (List.mem_map_of_mem member)]

namespace Signature

theorem map_map (f : α → β) (g : β → γ) (s : Signature α) :
    (s.map f).map g = s.map fun a => g (f a) := by
  simp only [map, fields_map_map]

theorem map_congr {f g : α → β} {s : Signature α} (same : ∀ a ∈ s.types, f a = g a) :
    s.map f = s.map g := by
  have params := fields_map_congr fun a member => same a (List.mem_append_left _ member)
  have results := fields_map_congr fun a member => same a (List.mem_append_right _ member)
  rw [map, map, params, results]

end Signature

namespace Interface

theorem map_map (f : α → β) (g : β → γ) (shape : Interface α) :
    (shape.map f).map g = shape.map fun a => g (f a) := by
  have methods : (shape.methods.map (Method.map f)).map (Method.map g) =
      shape.methods.map (Method.map fun a => g (f a)) := by
    rw [List.map_map]
    refine List.map_congr_left fun m _ => ?_
    simp only [Function.comp_apply, Method.map, Signature.map_map]
  simp only [map, List.map_map, Function.comp_def] at methods ⊢
  rw [methods]

theorem map_congr {f g : α → β} {shape : Interface α} (same : ∀ a ∈ shape.types, f a = g a) :
    shape.map f = shape.map g := by
  have embedded : shape.embedded.map f = shape.embedded.map g :=
    List.map_congr_left fun a member => same a (List.mem_append_left _ member)
  have methods : shape.methods.map (Method.map f) = shape.methods.map (Method.map g) := by
    refine List.map_congr_left fun m member => ?_
    rw [Method.map, Method.map,
      Signature.map_congr fun a inside => same a (mem_types_of_method member inside)]
  rw [map, map, embedded, methods]

end Interface

namespace Ty

def mapChildren (f : Ty → Ty) : Ty → Ty
  | .basic name => .basic name
  | .param name => .param name
  | .named base args => .named base (args.map f)
  | .pointer elem => .pointer (f elem)
  | .slice elem => .slice (f elem)
  | .map key value => .map (f key) (f value)
  | .array len elem => .array len (f elem)
  | .chan direction elem => .chan direction (f elem)
  | .struct fields => .struct (fields.map (Field.map f))
  | .interface shape => .interface (shape.map f)
  | .func signature => .func (signature.map f)

theorem mapChildren_mapChildren (f g : Ty → Ty) (t : Ty) :
    (t.mapChildren f).mapChildren g = t.mapChildren fun u => g (f u) := by
  cases t with
  | named base args => simp only [mapChildren, List.map_map, Function.comp_def]
  | struct fields => simp only [mapChildren, fields_map_map]
  | interface shape => simp only [mapChildren, Interface.map_map]
  | func signature => simp only [mapChildren, Signature.map_map]
  | _ => rfl

theorem mapChildren_congr {f g : Ty → Ty} {t : Ty} (same : ∀ u ∈ t.children, f u = g u) :
    t.mapChildren f = t.mapChildren g := by
  cases t with
  | basic name | param name => rfl
  | named base args =>
      have agree : args.map f = args.map g := List.map_congr_left same
      rw [mapChildren, mapChildren, agree]
  | map key value =>
      rw [mapChildren, mapChildren, same key List.mem_cons_self,
        same value (List.mem_cons_of_mem _ (List.mem_singleton_self value))]
  | struct fields => rw [mapChildren, mapChildren, fields_map_congr same]
  | interface shape => rw [mapChildren, mapChildren, Interface.map_congr same]
  | func signature => rw [mapChildren, mapChildren, Signature.map_congr same]
  | pointer elem | slice elem | array len elem | chan direction elem =>
      rw [mapChildren, mapChildren, same elem (List.mem_singleton_self elem)]

theorem mapChildren_ne_param {f : Ty → Ty} {t : Ty} (composite : ∀ name, t ≠ .param name)
    (name : String) : t.mapChildren f ≠ .param name := by
  cases t with
  | param other => exact absurd rfl (composite other)
  | _ => exact nofun

theorem subst_eq_mapChildren (value : String → Option Ty) {t : Ty}
    (composite : ∀ name, t ≠ .param name) : t.subst value = t.mapChildren (subst value) := by
  cases t with
  | param name => exact absurd rfl (composite name)
  | named base args => rw [subst, substAll_eq, mapChildren]
  | struct fields => rw [subst, substFields_eq, mapChildren]
  | interface shape => rw [subst, substInterface_eq, mapChildren]
  | func signature => rw [subst, substSignature_eq, mapChildren]
  | _ => rfl

inductive Occurs (name : String) : Ty → Prop where
  | here : Occurs name (.param name)
  | child {t u : Ty} (child : u ∈ t.children) (inside : Occurs name u) : Occurs name t

theorem occurs_param_iff {name other : String} : Occurs name (.param other) ↔ name = other := by
  constructor
  · intro occurs
    cases occurs with
    | here => rfl
    | child child => exact absurd child List.not_mem_nil
  · rintro rfl
    exact .here

theorem occurs_iff_of_composite {name : String} {t : Ty} (composite : ∀ name, t ≠ .param name) :
    t.Occurs name ↔ ∃ u ∈ t.children, u.Occurs name := by
  constructor
  · intro occurs
    cases occurs with
    | here => exact absurd rfl (composite name)
    | child child inside => exact ⟨_, child, inside⟩
  · rintro ⟨u, child, inside⟩
    exact .child child inside

theorem mentionsParam_iff (t : Ty) : t.mentionsParam = true ↔ ∃ name, t.Occurs name := by
  induction t using Ty.induct with
  | step t ih =>
      obtain ⟨name, rfl⟩ | composite := t.param_or_composite
      · exact iff_of_true rfl ⟨name, .here⟩
      · rw [mentionsParam_iff_of_composite composite]
        simp only [occurs_iff_of_composite composite]
        constructor
        · rintro ⟨u, child, mentions⟩
          obtain ⟨name, inside⟩ := (ih u child).mp mentions
          exact ⟨name, u, child, inside⟩
        · rintro ⟨name, u, child, inside⟩
          exact ⟨u, child, (ih u child).mpr ⟨name, inside⟩⟩

variable {value other : String → Option Ty} {t : Ty}

theorem subst_congr (same : ∀ name, t.Occurs name → value name = other name) :
    t.subst value = t.subst other := by
  induction t using Ty.induct with
  | step t ih =>
      obtain ⟨name, rfl⟩ | composite := t.param_or_composite
      · rw [subst, subst, same name .here]
      · rw [subst_eq_mapChildren value composite, subst_eq_mapChildren other composite]
        refine mapChildren_congr fun u child => ?_
        exact ih u child fun name inside => same name (.child child inside)

theorem subst_subst (value next : String → Option Ty) (t : Ty) :
    (t.subst value).subst next =
      t.subst fun name => some (((param name).subst value).subst next) := by
  induction t using Ty.induct with
  | step t ih =>
      obtain ⟨name, rfl⟩ | composite := t.param_or_composite
      · rfl
      · rw [subst_eq_mapChildren value composite,
          subst_eq_mapChildren next (mapChildren_ne_param composite), mapChildren_mapChildren,
          subst_eq_mapChildren _ composite]
        exact mapChildren_congr ih

theorem occurs_subst_iff {name : String} : (t.subst value).Occurs name ↔
    ∃ replaced, t.Occurs replaced ∧ ((value replaced).getD (.param replaced)).Occurs name := by
  induction t using Ty.induct with
  | step t ih =>
      obtain ⟨own, rfl⟩ | composite := t.param_or_composite
      · simp only [subst, occurs_param_iff, exists_eq_left]
      · have still : ∀ name, t.subst value ≠ .param name := by
          rw [subst_eq_mapChildren value composite]
          exact mapChildren_ne_param composite
        simp only [occurs_iff_of_composite composite, occurs_iff_of_composite still,
          children_subst value composite]
        constructor
        · rintro ⟨_, listed, inside⟩
          obtain ⟨u, child, rfl⟩ := List.mem_map.mp listed
          obtain ⟨replaced, occurs, inside⟩ := (ih u child).mp inside
          exact ⟨replaced, ⟨u, child, occurs⟩, inside⟩
        · rintro ⟨replaced, ⟨u, child, occurs⟩, inside⟩
          exact ⟨_, List.mem_map_of_mem child, (ih u child).mpr ⟨replaced, occurs, inside⟩⟩

theorem argument?_eq {params : List String} {name : String} (listed : name ∈ params)
    (args : List Ty) : argument? params args name = args[params.idxOf name]? := by
  induction params generalizing args with
  | nil => exact absurd listed List.not_mem_nil
  | cons param rest ih =>
      cases args with
      | nil => rfl
      | cons arg others =>
          rw [argument?]
          by_cases same : param = name
          · rw [if_pos same, List.idxOf_cons_eq rest same]
            rfl
          · have later : name ∈ rest := (List.mem_cons.mp listed).resolve_left (Ne.symm same)
            rw [if_neg same, ih later, List.idxOf_cons_ne rest same]
            rfl

theorem argument?_map (f : Ty → Ty) (params : List String) (args : List Ty) (name : String) :
    argument? params (args.map f) name = (argument? params args name).map f := by
  induction params generalizing args with
  | nil => rfl
  | cons param rest ih =>
      cases args with
      | nil => rfl
      | cons arg others =>
          rw [List.map_cons, argument?, argument?]
          split
          · rfl
          · exact ih others

section

variable {params : List String} {args : List Ty} (enough : params.length ≤ args.length)
  (listed : ∀ name, t.Occurs name → name ∈ params)

include enough listed

theorem exists_argument {name : String} (occurs : t.Occurs name) :
    ∃ arg, argument? params args name = some arg := by
  have place : params.idxOf name < args.length :=
    Nat.lt_of_lt_of_le (List.idxOf_lt_length_of_mem (listed name occurs)) enough
  exact ⟨_, (argument?_eq (listed name occurs) args).trans (List.getElem?_eq_getElem place)⟩

theorem substitute_substitute (later : List String) (given : List Ty) :
    (t.substitute params args).substitute later given =
      t.substitute params (args.map (substitute later given)) := by
  unfold substitute
  rw [subst_subst]
  refine subst_congr fun name occurs => ?_
  obtain ⟨arg, selected⟩ := exists_argument enough listed occurs
  rw [argument?_map, subst, selected]
  rfl

theorem mentionsParam_substitute : (t.substitute params args).mentionsParam = true ↔
    ∃ name, t.Occurs name ∧
      ∃ arg, args[params.idxOf name]? = some arg ∧ arg.mentionsParam = true := by
  rw [mentionsParam_iff]
  simp only [substitute, occurs_subst_iff]
  constructor
  · rintro ⟨name, replaced, occurs, inside⟩
    obtain ⟨arg, selected⟩ := exists_argument enough listed occurs
    refine ⟨replaced, occurs, arg, ?_, ?_⟩
    · rw [← argument?_eq (listed replaced occurs), selected]
    · rw [selected] at inside
      exact (mentionsParam_iff arg).mpr ⟨name, inside⟩
  · rintro ⟨replaced, occurs, arg, selected, mentions⟩
    obtain ⟨name, inside⟩ := (mentionsParam_iff arg).mp mentions
    refine ⟨name, replaced, occurs, ?_⟩
    rw [argument?_eq (listed replaced occurs), selected]
    exact inside

end

end Ty

def Signature.Occurs (name : String) (s : Signature Ty) : Prop :=
  ∃ t ∈ s.types, t.Occurs name

def Interface.Occurs (name : String) (shape : Interface Ty) : Prop :=
  ∃ t ∈ shape.types, t.Occurs name

/-- Where all parameters that occur are given arguments, to replace the parameters of the result is
to replace them in the arguments; and a parameter is mentioned afterwards just if it is mentioned in
an argument that was selected. -/
structure ReplacesTogether {α : Type} (occurs : String → α → Prop)
    (replace : List String → List Ty → α → α) (mentions : α → Bool) : Prop where
  composes : ∀ (a : α) (params : List String) (args : List Ty), params.length ≤ args.length →
    (∀ name, occurs name a → name ∈ params) → ∀ (later : List String) (given : List Ty),
      replace later given (replace params args a) =
        replace params (args.map (Ty.substitute later given)) a
  mentions : ∀ (a : α) (params : List String) (args : List Ty), params.length ≤ args.length →
    (∀ name, occurs name a → name ∈ params) → (mentions (replace params args a) = true ↔
      ∃ name, occurs name a ∧
        ∃ arg, args[params.idxOf name]? = some arg ∧ arg.mentionsParam = true)

theorem Ty.replacesTogether : ReplacesTogether Ty.Occurs Ty.substitute Ty.mentionsParam where
  composes _ _ _ enough listed later given := substitute_substitute enough listed later given
  mentions _ _ _ enough listed := mentionsParam_substitute enough listed

theorem Signature.occurs_iff {name : String} {s : Signature Ty} :
    s.Occurs name ↔ (Ty.func s).Occurs name := by
  have composite : ∀ name, Ty.func s ≠ .param name := nofun
  rw [Ty.occurs_iff_of_composite composite]
  rfl

theorem Interface.occurs_iff {name : String} {shape : Interface Ty} :
    shape.Occurs name ↔ (Ty.interface shape).Occurs name := by
  have composite : ∀ name, Ty.interface shape ≠ .param name := nofun
  rw [Ty.occurs_iff_of_composite composite]
  rfl

theorem Signature.replacesTogether : ReplacesTogether Signature.Occurs
    (fun params args => Ty.substSignature (Ty.argument? params args))
    Ty.mentionsParamSignature where
  composes s params args enough listed later given := by
    simp only [Signature.occurs_iff] at listed
    exact Ty.func.inj (Ty.substitute_substitute enough listed later given)
  mentions s params args enough listed := by
    simp only [Signature.occurs_iff] at listed ⊢
    exact Ty.mentionsParam_substitute enough listed

theorem Interface.replacesTogether : ReplacesTogether Interface.Occurs
    (fun params args => Ty.substInterface (Ty.argument? params args))
    Ty.mentionsParamInterface where
  composes shape params args enough listed later given := by
    simp only [Interface.occurs_iff] at listed
    exact Ty.interface.inj (Ty.substitute_substitute enough listed later given)
  mentions shape params args enough listed := by
    simp only [Interface.occurs_iff] at listed ⊢
    exact Ty.mentionsParam_substitute enough listed

/-- Replacing parameters is done all at once, whatever the arguments mention, and composes. -/
theorem substitute_composes : ReplacesTogether Ty.Occurs Ty.substitute Ty.mentionsParam ∧
    ReplacesTogether Signature.Occurs
      (fun params args => Ty.substSignature (Ty.argument? params args))
      Ty.mentionsParamSignature ∧
    ReplacesTogether Interface.Occurs
      (fun params args => Ty.substInterface (Ty.argument? params args))
      Ty.mentionsParamInterface :=
  ⟨Ty.replacesTogether, Signature.replacesTogether, Interface.replacesTogether⟩

theorem swap_composes :
    (∀ name, (Ty.map (.param "K") (.slice (.param "V"))).Occurs name → name ∈ ["K", "V"]) ∧
    ((Ty.map (.param "K") (.slice (.param "V"))).substitute ["K", "V"]
        [.param "V", .param "K", .basic "int"]).substitute ["K"] [.basic "string"] =
      (Ty.map (.param "K") (.slice (.param "V"))).substitute ["K", "V"]
        [.param "V", .basic "string", .basic "int"] ∧
    ((Ty.map (.param "K") (.slice (.param "V"))).substitute ["K", "V"]
        [.param "V", .basic "string", .basic "int"]).mentionsParam = true := by
  have listed : ∀ name, (Ty.map (.param "K") (.slice (.param "V"))).Occurs name →
      name ∈ ["K", "V"] := by
    intro name occurs
    simpa [Ty.occurs_iff_of_composite, Ty.children, Ty.occurs_param_iff] using occurs
  have enough : ["K", "V"].length ≤ [Ty.param "V", .basic "string", .basic "int"].length := by
    decide
  refine ⟨listed, substitute_composes.1.composes _ _ _ enough listed ["K"] [.basic "string"], ?_⟩
  exact (substitute_composes.1.mentions _ _ _ enough listed).mpr
    ⟨"K", .child List.mem_cons_self .here, .param "V", rfl, rfl⟩

end Replica
