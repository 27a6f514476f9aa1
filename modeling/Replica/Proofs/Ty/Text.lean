import Replica.MethodSet
import Replica.Proofs.Script
import Replica.Proofs.Ty.Opening

/-!
Go text tells types apart. What is written for a type can be read off from the front of any text
that goes on with a mark which ends it, and from the lists of fields and elements that are put
together from such texts.
-/

namespace Replica

namespace Ty

variable (alphabet : Alphabet) (isParam : String → Bool)

/-- Well-formed throughout, with basic types and type parameters told apart by their names. -/
def Proper : Ty → Prop :=
  Every fun t => t.WellNamed alphabet ∧ t.Sided isParam

def elem? : Ty → Option Ty
  | .slice elem => some elem
  | _ => none

theorem elem?_eq_some {t elem : Ty} (slice : t.elem? = some elem) : t = .slice elem := by
  cases t with
  | slice inner => exact congrArg Ty.slice (Option.some.inj slice)
  | _ => cases slice

def script : Script alphabet Ty where
  write t := t.text.toList
  Proper := Proper alphabet isParam
  elem? := elem?
  brackets slice := by rw [elem?_eq_some slice]; simp [text]
  begins proper := text_begins proper.here.1
  apart named mark proper ended := name_ne_text named mark proper.here.1 ended

def fieldChars (f : Field Ty) : List Char :=
  f.name.toList ++ ' ' :: f.type.text.toList

def elements (shape : Interface Ty) : List (Element Ty) :=
  shape.embedded.map .embedded ++ shape.methods.map fun m => .method m.name m.signature

theorem texts_eq (ts : List Ty) : (texts ts).map String.toList = ts.map (·.text.toList) := by
  induction ts with
  | nil => rfl
  | cons t rest ih => rw [texts, List.map_cons, ih, List.map_cons]

theorem argsText_eq (args : List Ty) :
    (argsText args).toList = (script alphabet isParam).argsChars args := by
  cases args with
  | nil => rfl
  | cons t ts => simp [argsText, Script.argsChars, script, String.toList_intercalate, texts_eq]

theorem fieldTexts_eq (fields : List (Field Ty)) :
    (fieldTexts fields).map String.toList = fields.map fieldChars := by
  induction fields with
  | nil => rfl
  | cons field rest ih =>
      rw [fieldTexts, List.map_cons, ih, List.map_cons, fieldChars, String.toList_append,
        String.toList_append, List.append_assoc]
      rfl

theorem paramTexts_eq (variadic : Bool) (params : List (Field Ty)) :
    (paramTexts variadic params).map String.toList =
      (markLast variadic params).map (script alphabet isParam).paramChars := by
  induction params with
  | nil => rfl
  | cons param rest ih =>
      obtain ⟨name, type⟩ := param
      rw [markLast, List.map_cons, ← ih]
      cases type with
      | slice elem =>
          cases last : variadic && rest.isEmpty <;>
            simp only [paramTexts, List.map_cons, Script.paramChars, Script.typeChars, script, elem?,
              last, if_true, Bool.false_eq_true, if_false] <;>
            split_ifs <;> simp [text]
      | _ =>
          simp only [paramTexts, List.map_cons, Script.paramChars, Script.typeChars, script, elem?]
          congr 1
          split_ifs <;> simp

theorem signatureText_eq (s : Signature Ty) :
    (signatureText s).toList = (script alphabet isParam).signatureChars s := by
  obtain ⟨params, results, variadic⟩ := s
  have behind : (resultText (results.map (·.name)) (paramTexts false results)).toList =
      (script alphabet isParam).resultChars results := by
    simp only [resultText, Script.resultChars, List.map_eq_nil_iff, List.isEmpty_iff]
    split_ifs <;> simp [String.toList_intercalate, paramTexts_eq alphabet isParam]
  rw [signatureText, String.toList_append, String.toList_append, String.toList_append, behind,
    String.toList_intercalate, paramTexts_eq alphabet isParam]
  simp [Script.signatureChars]

theorem elementTexts_eq (shape : Interface Ty) :
    (texts shape.embedded ++ methodTexts shape.methods).map String.toList =
      (elements shape).map (script alphabet isParam).elementChars := by
  have methods : (methodTexts shape.methods).map String.toList =
      (shape.methods.map fun m => Element.method m.name m.signature).map
        (script alphabet isParam).elementChars := by
    induction shape.methods with
    | nil => rfl
    | cons m rest ih =>
        rw [methodTexts, List.map_cons, ih, String.toList_append,
          signatureText_eq alphabet isParam]
        rfl
  rw [List.map_append, methods, texts_eq, elements, List.map_append, List.map_map, List.map_map]
  rfl

variable {alphabet isParam} {r s : List Char}

def IsReadable (alphabet : Alphabet) (isParam : String → Bool) (t : Ty) : Prop :=
  Readable (·.text.toList) (Proper alphabet isParam) t

theorem field_readable {f : Field Ty} (proper : (script alphabet isParam).ProperField f)
    (readable : IsReadable alphabet isParam f.type) :
    Readable fieldChars (script alphabet isParam).ProperField f := by
  intro g r s proper' ended ended' same
  simp only [fieldChars, List.append_assoc, List.cons_append] at same
  obtain ⟨names, rest⟩ := name_inj (by decide) proper.1 proper'.1 same
  obtain ⟨types, ends⟩ := readable g.type r s proper'.2 ended ended' rest
  exact ⟨congrArg₂ Field.mk names types, ends⟩

theorem field_begins {f : Field Ty} (proper : (script alphabet isParam).ProperField f) :
    ∃ c rest, fieldChars f = c :: rest ∧ c ∉ ends := by
  rcases proper.1 with unnamed | named
  · rw [fieldChars, unnamed]
    exact ⟨' ', _, rfl, by decide⟩
  · exact named.opens _

theorem mem_types_of_element {shape : Interface Ty} {e : Element Ty}
    (member : e ∈ elements shape) {t : Ty} (inside : t ∈ e.types) : t ∈ shape.types := by
  rcases List.mem_append.mp member with embedded | method
  · obtain ⟨u, known, rfl⟩ := List.mem_map.mp embedded
    exact List.mem_append_left _ (List.mem_singleton.mp inside ▸ known)
  · obtain ⟨m, known, rfl⟩ := List.mem_map.mp method
    exact Interface.mem_types_of_method known inside

theorem Proper.field {fields : List (Field Ty)} (proper : (Ty.struct fields).Proper alphabet isParam)
    {f : Field Ty} (member : f ∈ fields) : (script alphabet isParam).ProperField f :=
  ⟨proper.here.1 f member, proper.child (List.mem_map_of_mem member)⟩

theorem properSignature {f : Signature Ty} (named : f.WellNamed alphabet)
    (proper : ∀ t ∈ f.types, t.Proper alphabet isParam) :
    (script alphabet isParam).ProperSignature f where
  fields p member := ⟨named.names p member, proper p.type (Signature.type_mem_types member)⟩
  variadic marked := by
    obtain ⟨p, elem, final, slice⟩ := named.variadic marked
    exact ⟨p, elem, final, by rw [slice]; rfl⟩

theorem Proper.element {shape : Interface Ty}
    (proper : (Ty.interface shape).Proper alphabet isParam) {e : Element Ty}
    (member : e ∈ elements shape) : (script alphabet isParam).ProperElement e := by
  have types : ∀ t ∈ e.types, t.Proper alphabet isParam :=
    fun t inside => proper.child (mem_types_of_element member inside)
  rcases List.mem_append.mp member with embedded | method
  · obtain ⟨t, _, rfl⟩ := List.mem_map.mp embedded
    exact types t List.mem_cons_self
  · obtain ⟨m, known, rfl⟩ := List.mem_map.mp method
    obtain ⟨named, signature⟩ := proper.here.1 m known
    exact ⟨named, properSignature signature types⟩

theorem elements_inj {shape shape' : Interface Ty} (same : elements shape = elements shape') :
    shape = shape' := by
  let embedded? : Element Ty → Option Ty
    | .embedded type => some type
    | .method _ _ => none
  let method? : Element Ty → Option (Method Ty)
    | .embedded _ => none
    | .method name signature => some ⟨name, signature⟩
  have embedded := congrArg (List.filterMap embedded?) same
  have methods := congrArg (List.filterMap method?) same
  simp [elements, embedded?, method?] at embedded methods
  exact congrArg₂ Interface.mk embedded methods

theorem structTail_eq (fields : List (Field Ty)) : (Ty.struct fields).tail =
    '{' :: ([';', ' '].intercalate (fields.map fieldChars) ++ ['}']) := by
  simp [tail, String.toList_intercalate, fieldTexts_eq]

theorem interfaceTail_eq (alphabet : Alphabet) (isParam : String → Bool) (shape : Interface Ty) :
    (Ty.interface shape).tail = '{' :: ([';', ' '].intercalate
      ((elements shape).map (script alphabet isParam).elementChars) ++ ['}']) := by
  rw [← elementTexts_eq]
  simp [tail, String.toList_intercalate]

theorem fields_inj {fields fields' : List (Field Ty)}
    (proper : (Ty.struct fields).Proper alphabet isParam)
    (readable : ∀ f ∈ fields, IsReadable alphabet isParam f.type)
    (proper' : (Ty.struct fields').Proper alphabet isParam)
    (same : (Ty.struct fields).tail ++ r = (Ty.struct fields').tail ++ s) :
    fields = fields' ∧ r = s := by
  rw [structTail_eq, structTail_eq] at same
  simp only [List.cons_append, List.append_assoc, List.cons.injEq, true_and,
    List.nil_append] at same
  exact Readable.joined (by decide) (by decide) (by decide) (fun f proper => field_begins proper)
    (fun f member =>
      ⟨proper.field member, field_readable (proper.field member) (readable f member)⟩)
    (fun f member => proper'.field member) same

theorem interface_inj {shape shape' : Interface Ty}
    (proper : (Ty.interface shape).Proper alphabet isParam)
    (readable : ∀ t ∈ shape.types, IsReadable alphabet isParam t)
    (proper' : (Ty.interface shape').Proper alphabet isParam)
    (same : (Ty.interface shape).tail ++ r = (Ty.interface shape').tail ++ s) :
    shape = shape' ∧ r = s := by
  rw [interfaceTail_eq alphabet isParam, interfaceTail_eq alphabet isParam] at same
  simp only [List.cons_append, List.append_assoc, List.cons.injEq, true_and,
    List.nil_append] at same
  obtain ⟨elements, rest⟩ := Readable.joined (by decide) (by decide) (by decide)
    (fun e proper => Script.element_begins proper)
    (fun e member => ⟨proper.element member, Script.element_readable (proper.element member)
      fun t inside => readable t (mem_types_of_element member inside)⟩)
    (fun e member => proper'.element member) same
  exact ⟨elements_inj elements, rest⟩

theorem text_readable (t : Ty) (proper : t.Proper alphabet isParam) :
    IsReadable alphabet isParam t := by
  induction t using Ty.induct with
  | step t ih =>
  intro u r s proper' ended ended' same
  -- The first word and what follows it tell the kind, and with it the constructor.
  obtain ⟨words, tails⟩ := word_inj proper.here.1 proper'.here.1 ended ended' same
  have kinds : t.kindName = u.kindName := by
    rw [← kindOf_eq proper.here.1 proper.here.2 r, ← kindOf_eq proper'.here.1 proper'.here.2 s,
      words, tails]
  have child : ∀ v ∈ t.children, v.Proper alphabet isParam ∧ IsReadable alphabet isParam v :=
    fun v inside => ⟨proper.child inside, ih v inside (proper.child inside)⟩
  cases t with
  | basic name =>
      cases u with
      | basic name' => exact ⟨congrArg basic words, tails⟩
      | _ => simp [kindName] at kinds
  | param name =>
      cases u with
      | param name' => exact ⟨congrArg param words, tails⟩
      | _ => simp [kindName] at kinds
  | named base args =>
      cases u with
      | named base' args' =>
          rw [tail, tail, argsText_eq alphabet isParam, argsText_eq alphabet isParam] at tails
          obtain ⟨same, rest⟩ := Script.args_inj child (fun v inside => proper'.child inside) ended
            ended' tails
          have bases :=
            QualName.qualified_inj proper.here.1.2.dotless proper'.here.1.2.dotless words
          exact ⟨congrArg₂ named bases same, rest⟩
      | _ => simp [kindName] at kinds
  | pointer elem =>
      cases u with
      | pointer elem' =>
          obtain ⟨rfl, rest⟩ := (child elem List.mem_cons_self).2 elem' r s
            (proper'.child List.mem_cons_self) ended ended' (List.cons.inj tails).2
          exact ⟨rfl, rest⟩
      | _ => simp [kindName] at kinds
  | slice elem =>
      cases u with
      | slice elem' =>
          obtain ⟨rfl, rest⟩ := (child elem List.mem_cons_self).2 elem' r s
            (proper'.child List.mem_cons_self) ended ended'
            (List.cons.inj (List.cons.inj tails).2).2
          exact ⟨rfl, rest⟩
      | _ => simp [kindName] at kinds
  | map key val =>
      cases u with
      | map key' val' =>
          simp only [tail, List.cons_append, List.append_assoc, List.cons.injEq, true_and] at tails
          obtain ⟨rfl, vals⟩ := (child key List.mem_cons_self).2 key' _ _
            (proper'.child List.mem_cons_self) (ended_cons (by decide) _) (ended_cons (by decide) _)
            tails
          have inside : ∀ key val : Ty, val ∈ (Ty.map key val).children :=
            fun _ _ => List.mem_cons_of_mem _ List.mem_cons_self
          obtain ⟨rfl, rest⟩ := (child val (inside key val)).2 val' r s
            (proper'.child (inside key val')) ended ended' (List.cons.inj vals).2
          exact ⟨rfl, rest⟩
      | _ => simp [kindName] at kinds
  | array len elem =>
      cases u with
      | array len' elem' =>
          simp only [tail, List.cons_append, List.append_assoc, List.cons.injEq, true_and] at tails
          obtain ⟨rfl, elems⟩ := digits_inj tails
          obtain ⟨rfl, rest⟩ := (child elem List.mem_cons_self).2 elem' r s
            (proper'.child List.mem_cons_self) ended ended' elems
          exact ⟨rfl, rest⟩
      | _ => simp [kindName] at kinds
  | chan direction elem =>
      cases u with
      | chan direction' elem' =>
          have elems := fun written => (child elem List.mem_cons_self).2 elem' r s
            (proper'.child List.mem_cons_self) ended ended' written
          cases direction <;> cases direction' <;> simp [word, tail] at words tails <;>
            simpa using elems tails
      | _ => simp [kindName] at kinds
  | struct fields =>
      cases u with
      | struct fields' =>
          obtain ⟨rfl, rest⟩ := fields_inj proper
            (fun f member => (child f.type (List.mem_map_of_mem member)).2) proper' tails
          exact ⟨rfl, rest⟩
      | _ => simp [kindName] at kinds
  | interface shape =>
      cases u with
      | interface shape' =>
          obtain ⟨rfl, rest⟩ :=
            interface_inj proper (fun v inside => (child v inside).2) proper' tails
          exact ⟨rfl, rest⟩
      | _ => simp [kindName] at kinds
  | func signature =>
      cases u with
      | func signature' =>
          rw [tail, tail, signatureText_eq alphabet isParam, signatureText_eq alphabet isParam]
            at tails
          obtain ⟨rfl, rest⟩ := Script.signature_readable
            (properSignature proper.here.1 fun v inside => proper.child inside)
            (fun v inside => (child v inside).2) signature' r s
            (properSignature proper'.here.1 fun v inside => proper'.child inside) ended ended' tails
          exact ⟨rfl, rest⟩
      | _ => simp [kindName] at kinds

theorem Every.forall {ι : Type} {p : ι → Ty → Prop} {t : Ty} (every : ∀ i, Every (p i) t) :
    Every (fun v => ∀ i, p i v) t := by
  induction t using Ty.induct with
  | step t ih =>
      exact ⟨fun i => (every i).here, fun u child => ih u child fun i => (every i).child child⟩

theorem proper_of_apart {t : Ty} (named : Every (WellNamed alphabet) t)
    (basic : ∀ name, isParam name = true → Every (· ≠ .basic name) t)
    (param : ∀ name, isParam name = false → Every (· ≠ .param name) t) :
    t.Proper alphabet isParam := by
  have sides : ∀ name, Every (fun v => (v = .basic name → isParam name = false) ∧
      (v = .param name → isParam name = true)) t := by
    intro name
    cases side : isParam name with
    | true =>
        exact (basic name side).imp fun v other => ⟨fun same => absurd same other, fun _ => rfl⟩
    | false =>
        exact (param name side).imp fun v other => ⟨fun _ => rfl, fun same => absurd same other⟩
  refine named.and ((Every.forall sides).imp fun v side => ?_)
  cases v with
  | basic name => exact (side name).1 rfl
  | param name => exact (side name).2 rfl
  | _ => trivial

/-- Well-formed types with the same text are the same type, if no name stands for a basic type in
one place and for a type parameter in another. So instantiations that interfaces embed are told
apart by their text. -/
theorem text_injective (alphabet : Alphabet) (t u : Ty) (named : Every (WellNamed alphabet) t)
    (named' : Every (WellNamed alphabet) u)
    (apart : ∀ name, Every (· ≠ .basic name) t ∧ Every (· ≠ .basic name) u ∨
      Every (· ≠ .param name) t ∧ Every (· ≠ .param name) u) :
    (t.text = u.text → t = u) ∧
      ∀ key, instantiation? t = some key → instantiation? u = some key → t = u := by
  classical
  -- A name is that of a type parameter if it stands for one anywhere in the two types.
  let isParam : String → Bool := fun name =>
    decide ¬(Every (· ≠ .param name) t ∧ Every (· ≠ .param name) u)
  have basic : ∀ name, isParam name = true →
      Every (· ≠ .basic name) t ∧ Every (· ≠ .basic name) u :=
    fun name side => (apart name).resolve_right (of_decide_eq_true side)
  have param : ∀ name, isParam name = false →
      Every (· ≠ .param name) t ∧ Every (· ≠ .param name) u :=
    fun name side => not_not.mp (of_decide_eq_false side)
  have proper : t.Proper alphabet isParam := proper_of_apart named
    (fun name side => (basic name side).1) (fun name side => (param name side).1)
  have proper' : u.Proper alphabet isParam := proper_of_apart named'
    (fun name side => (basic name side).2) (fun name side => (param name side).2)
  have injective : t.text = u.text → t = u := by
    intro same
    exact (text_readable t proper u [] [] proper' ended_nil ended_nil
      (by simp only [same])).1
  refine ⟨injective, fun key first second => ?_⟩
  have keyed : ∀ {v : Ty}, instantiation? v = some key → v.text = key := by
    intro v key
    cases v with
    | named base args => exact Option.some.inj key
    | _ => cases key
  exact injective ((keyed first).trans (keyed second).symm)

def logging (variadic : Bool) : Ty :=
  .func { params := [⟨"", .basic "string"⟩, ⟨"values", .slice (.param "K")⟩], variadic }

def logger (variadic : Bool) : Ty :=
  .named ⟨"example.com/log-v2", "Logger"⟩ [logging variadic]

theorem every_logger {p : Ty → Prop} {variadic : Bool} (whole : p (logger variadic))
    (func : p (logging variadic)) (basic : p (.basic "string")) (slice : p (.slice (.param "K")))
    (param : p (.param "K")) : Every p (logger variadic) := by
  have level : Every p (.basic "string") := ⟨basic, nofun⟩
  have values : Every p (.slice (.param "K")) :=
    ⟨slice, fun u member => List.mem_singleton.mp member ▸ ⟨param, nofun⟩⟩
  have inner : Every p (logging variadic) := by
    refine ⟨func, fun u member => ?_⟩
    rcases List.mem_cons.mp member with rfl | other
    · exact level
    · exact List.mem_singleton.mp other ▸ values
  exact ⟨whole, fun u member => List.mem_singleton.mp member ▸ inner⟩

theorem logger_wellNamed (variadic : Bool) :
    Every (WellNamed Alphabet.ascii) (logger variadic) := by
  refine every_logger ⟨⟨by decide, List.all_eq_true.mp (by decide)⟩, by decide, by decide⟩
    ⟨?_, fun _ => ?_⟩ ⟨by decide, by decide⟩ trivial ⟨by decide, by decide⟩
  · intro p member
    rcases List.mem_cons.mp member with rfl | other
    · exact .inl rfl
    · exact List.mem_singleton.mp other ▸ .inr ⟨by decide, by decide⟩
  · exact ⟨_, _, rfl, rfl⟩

theorem logger_text_injective : (logger true).text ≠ (logger false).text ∧
    instantiation? (logger true) ≠ instantiation? (logger false) := by
  have apart : ∀ name,
      Every (· ≠ .basic name) (logger true) ∧ Every (· ≠ .basic name) (logger false) ∨
      Every (· ≠ .param name) (logger true) ∧ Every (· ≠ .param name) (logger false) := by
    intro name
    by_cases param : name = "K"
    · subst param
      exact .inl ⟨every_logger nofun nofun (by simp) nofun nofun,
        every_logger nofun nofun (by simp) nofun nofun⟩
    · have other : Ty.param "K" ≠ .param name := fun same => param (by cases same; rfl)
      exact .inr ⟨every_logger nofun nofun nofun nofun other,
        every_logger nofun nofun nofun nofun other⟩
  obtain ⟨texts, keys⟩ := text_injective Alphabet.ascii (logger true) (logger false)
    (logger_wellNamed true) (logger_wellNamed false) apart
  have different : logger true ≠ logger false := by simp [logger, logging]
  exact ⟨fun same => different (texts same), fun same => different (keys _ rfl same.symm)⟩

end Ty

end Replica
