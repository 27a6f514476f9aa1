import Replica.Proofs.Expr.Mention
import Replica.Proofs.Reading

/-!
How arguments, parameters, signatures and elements are written: alike for source types, on one line,
and for the type expressions of a file. What can be read off for types can be read off for all that
is put together from them.
-/

namespace Replica

variable {α : Type}

def markLast (variadic : Bool) : List (Field α) → List (Bool × Field α)
  | [] => []
  | p :: params => (variadic && params.isEmpty, p) :: markLast variadic params

theorem markLast_inj {variadic variadic' : Bool} {params params' : List (Field α)}
    (same : markLast variadic params = markLast variadic' params') :
    params = params' ∧ (params ≠ [] → variadic = variadic') := by
  induction params generalizing params' with
  | nil =>
      cases params' with
      | nil => exact ⟨rfl, fun some => absurd rfl some⟩
      | cons p' rest' => cases same
  | cons p rest ih =>
      cases params' with
      | nil => cases same
      | cons p' rest' =>
          obtain ⟨heads, tails⟩ := List.cons.inj same
          obtain ⟨rfl, flags⟩ := ih tails
          obtain ⟨marked, rfl⟩ := Prod.mk.inj heads
          refine ⟨rfl, fun _ => ?_⟩
          cases rest with
          | nil => simpa using marked
          | cons q rest => exact flags (List.cons_ne_nil q rest)

theorem mem_markLast {variadic : Bool} {params : List (Field α)} {p : Bool × Field α}
    (member : p ∈ markLast variadic params) :
    p.2 ∈ params ∧ (p.1 = true → variadic = true ∧ params.getLast? = some p.2) := by
  induction params with
  | nil => cases member
  | cons q rest ih =>
      rcases List.mem_cons.mp member with rfl | later
      · refine ⟨List.mem_cons_self, fun last => ?_⟩
        rw [Bool.and_eq_true, List.isEmpty_iff] at last
        obtain ⟨variadic, rfl⟩ := last
        exact ⟨variadic, rfl⟩
      · obtain ⟨inside, last⟩ := ih later
        refine ⟨List.mem_cons_of_mem _ inside, fun marked => ?_⟩
        obtain ⟨variadic, final⟩ := last marked
        exact ⟨variadic, by rw [List.getLast?_cons, final]; rfl⟩

/-- How types are written, or what else stands in their places. -/
structure Script (alphabet : Alphabet) (α : Type) where
  write : α → List Char
  Proper : α → Prop
  /-- The elements of a slice. -/
  elem? : α → Option α
  brackets : ∀ {a elem}, elem? a = some elem → write a = '[' :: ']' :: write elem
  /-- No text begins as what stands before or around types. -/
  begins : ∀ {a}, Proper a → ∃ c rest, write a = c :: rest ∧ c ∉ around
  /-- A name before a space or a parenthesis is not the text of a type. -/
  apart : ∀ {a name c rest r}, alphabet.IsName name → c ∈ [' ', '('] → Proper a → Ended r →
    name.toList ++ c :: rest ≠ write a ++ r

namespace Script

variable {alphabet : Alphabet} (script : Script alphabet α)

def argsChars : List α → List Char
  | [] => []
  | arg :: args => '[' :: ([',', ' '].intercalate ((arg :: args).map script.write) ++ [']'])

def typeChars (dotted : Bool) (a : α) : List Char :=
  match dotted, script.elem? a with
  | true, some elem => '.' :: '.' :: '.' :: script.write elem
  | _, _ => script.write a

def paramChars (p : Bool × Field α) : List Char :=
  (if p.2.name = "" then [] else p.2.name.toList ++ [' ']) ++ script.typeChars p.1 p.2.type

def resultChars (results : List (Field α)) : List Char :=
  if results.isEmpty then []
  else if results.map (·.name) = [""] then
    ' ' :: [',', ' '].intercalate ((markLast false results).map script.paramChars)
  else
    ' ' :: '(' :: ([',', ' '].intercalate ((markLast false results).map script.paramChars) ++ [')'])

def signatureChars (s : Signature α) : List Char :=
  '(' :: ([',', ' '].intercalate ((markLast s.variadic s.params).map script.paramChars) ++
    ')' :: script.resultChars s.results)

def elementChars : Element α → List Char
  | .embedded type => script.write type
  | .method name signature => name.toList ++ script.signatureChars signature

def ProperField (f : Field α) : Prop :=
  (f.name = "" ∨ alphabet.IsName f.name) ∧ script.Proper f.type

def ProperParam (p : Bool × Field α) : Prop :=
  script.ProperField p.2 ∧ (p.1 = true → ∃ elem, script.elem? p.2.type = some elem)

structure ProperSignature (s : Signature α) : Prop where
  fields : ∀ p ∈ s.params ++ s.results, script.ProperField p
  variadic : s.variadic = true →
    ∃ p elem, s.params.getLast? = some p ∧ script.elem? p.type = some elem

def ProperElement : Element α → Prop
  | .embedded type => script.Proper type
  | .method name signature => alphabet.IsName name ∧ script.ProperSignature signature

def Reads (a : α) : Prop :=
  Readable script.write script.Proper a

variable {script} {a b : α} {r s : List Char}

theorem opens (proper : script.Proper a) : ∃ c rest, script.write a = c :: rest ∧ c ∉ ends := by
  obtain ⟨c, rest, written, other⟩ := script.begins proper
  exact ⟨c, rest, written, fun mark => other (List.mem_append_left _ mark)⟩

theorem not_begins {c : Char} (proper : script.Proper a) (mark : c ∈ around)
    (rest : List Char) : script.write a ++ r ≠ c :: rest := by
  obtain ⟨first, more, written, other⟩ := script.begins proper
  rw [written, List.cons_append]
  intro same
  exact other ((List.cons.inj same).1 ▸ mark)

theorem args_inj {args args' : List α}
    (readable : ∀ a ∈ args, script.Proper a ∧ script.Reads a)
    (proper : ∀ a ∈ args', script.Proper a) (ended : Ended r) (ended' : Ended s)
    (same : script.argsChars args ++ r = script.argsChars args' ++ s) : args = args' ∧ r = s := by
  have closed : ∀ {rest more : List Char}, Ended rest → rest ≠ '[' :: more := by
    rintro _ more ended rfl
    exact absurd (ended '[' rfl) (by decide)
  cases args with
  | nil =>
      cases args' with
      | nil => exact ⟨rfl, same⟩
      | cons arg' args' => exact absurd same (closed ended)
  | cons arg args =>
      cases args' with
      | nil => exact absurd same.symm (closed ended')
      | cons arg' args' =>
          simp only [argsChars, List.cons_append, List.append_assoc, List.cons.injEq, true_and,
            List.nil_append] at same
          exact Readable.joined (by decide) (by decide) (by decide) (fun a proper => opens proper)
            readable proper same

theorem typeChars_false (a : α) : script.typeChars false a = script.write a := rfl

theorem typeChars_cases {dotted : Bool}
    (slice : dotted = true → ∃ elem, script.elem? a = some elem) :
    (dotted = true ∧ ∃ elem, script.elem? a = some elem ∧
      script.typeChars dotted a = '.' :: '.' :: '.' :: script.write elem) ∨
    dotted = false ∧ script.typeChars dotted a = script.write a := by
  cases dotted with
  | true =>
      obtain ⟨elem, isSlice⟩ := slice rfl
      exact .inl ⟨rfl, elem, isSlice, by simp only [typeChars, isSlice]⟩
  | false => exact .inr ⟨rfl, rfl⟩

theorem typeChars_inj {dotted dotted' : Bool} (proper : script.Proper a)
    (slice : dotted = true → ∃ elem, script.elem? a = some elem) (readable : script.Reads a)
    (proper' : script.Proper b) (slice' : dotted' = true → ∃ elem, script.elem? b = some elem)
    (ended : Ended r) (ended' : Ended s)
    (same : script.typeChars dotted a ++ r = script.typeChars dotted' b ++ s) :
    dotted = dotted' ∧ a = b ∧ r = s := by
  rcases typeChars_cases slice with ⟨rfl, elem, isSlice, written⟩ | ⟨rfl, written⟩
  · rcases typeChars_cases slice' with ⟨rfl, elem', isSlice', written'⟩ | ⟨rfl, written'⟩
    · rw [written, written'] at same
      have brackets : script.write a ++ r = script.write b ++ s := by
        rw [script.brackets isSlice, script.brackets isSlice']
        simpa using same
      exact ⟨rfl, readable b r s proper' ended ended' brackets⟩
    · rw [written, written'] at same
      exact absurd same.symm (not_begins proper' (by decide) _)
  · rcases typeChars_cases slice' with ⟨rfl, elem', isSlice', written'⟩ | ⟨rfl, written'⟩
    · rw [written, written'] at same
      exact absurd same (not_begins proper (by decide) _)
    · rw [written, written'] at same
      exact ⟨rfl, readable b r s proper' ended ended' same⟩

theorem named_ne_typeChars {name : String} {dotted : Bool} {rest : List Char}
    (named : alphabet.IsName name) (proper : script.Proper a)
    (slice : dotted = true → ∃ elem, script.elem? a = some elem) (ended : Ended r) :
    name.toList ++ ' ' :: rest ≠ script.typeChars dotted a ++ r := by
  intro same
  rcases typeChars_cases slice with ⟨_, elem, _, written⟩ | ⟨_, written⟩
  · obtain ⟨c, more, split, other⟩ := named.begins (' ' :: rest)
    rw [split, written] at same
    exact absurd (by decide) ((List.cons.inj same).1 ▸ other)
  · rw [written] at same
    exact script.apart named (by decide) proper ended same

theorem param_readable {p : Bool × Field α} (proper : script.ProperParam p)
    (readable : script.Reads p.2.type) : Readable script.paramChars script.ProperParam p := by
  intro q r s proper' ended ended' same
  obtain ⟨dotted, name, type⟩ := p
  obtain ⟨dotted', name', type'⟩ := q
  obtain ⟨⟨named, whole⟩, slice⟩ := proper
  obtain ⟨⟨named', whole'⟩, slice'⟩ := proper'
  have types : script.typeChars dotted type ++ r = script.typeChars dotted' type' ++ s →
      name = name' → (dotted, Field.mk name type) = (dotted', Field.mk name' type') ∧ r = s := by
    rintro written rfl
    obtain ⟨rfl, rfl, rest⟩ := typeChars_inj whole slice readable whole' slice' ended ended' written
    exact ⟨rfl, rest⟩
  simp only [paramChars] at same
  rcases named with unnamed | named
  · rcases named' with unnamed' | named'
    · rw [if_pos unnamed, if_pos unnamed'] at same
      exact types same (unnamed.trans unnamed'.symm)
    · rw [if_pos unnamed, if_neg named'.ne_empty] at same
      simp only [List.nil_append, List.append_assoc, List.singleton_append] at same
      exact absurd same.symm (named_ne_typeChars named' whole slice ended)
  · rcases named' with unnamed' | named'
    · rw [if_neg named.ne_empty, if_pos unnamed'] at same
      simp only [List.nil_append, List.append_assoc, List.singleton_append] at same
      exact absurd same (named_ne_typeChars named whole' slice' ended')
    · rw [if_neg named.ne_empty, if_neg named'.ne_empty] at same
      simp only [List.append_assoc, List.singleton_append] at same
      obtain ⟨names, rest⟩ := name_inj (by decide) (.inr named) (.inr named') same
      exact types rest names

theorem param_begins {p : Bool × Field α} (proper : script.ProperParam p) :
    ∃ c rest, script.paramChars p = c :: rest ∧ c ∉ ends := by
  obtain ⟨⟨named | named, whole⟩, slice⟩ := proper
  · rw [paramChars, if_pos named, List.nil_append]
    rcases typeChars_cases slice with ⟨_, elem, _, written⟩ | ⟨_, written⟩
    · rw [written]
      exact ⟨_, _, rfl, by decide⟩
    · rw [written]
      exact opens whole
  · rw [paramChars, if_neg named.ne_empty, List.append_assoc]
    exact named.opens _

theorem params_inj {items others : List (Bool × Field α)}
    (proper : ∀ p ∈ items, script.ProperParam p) (readable : ∀ p ∈ items, script.Reads p.2.type)
    (proper' : ∀ p ∈ others, script.ProperParam p)
    (same : [',', ' '].intercalate (items.map script.paramChars) ++ ')' :: r =
      [',', ' '].intercalate (others.map script.paramChars) ++ ')' :: s) :
    items = others ∧ r = s :=
  Readable.joined (by decide) (by decide) (by decide) (fun _ proper => param_begins proper)
    (fun p member => ⟨proper p member, param_readable (proper p member) (readable p member)⟩)
    proper' same

theorem resultChars_cases (script : Script alphabet α) (results : List (Field α)) :
    results = [] ∧ script.resultChars results = [] ∨
    (∃ type, results = [⟨"", type⟩] ∧ script.resultChars results = ' ' :: script.write type) ∨
    script.resultChars results = ' ' :: '(' ::
      ([',', ' '].intercalate ((markLast false results).map script.paramChars) ++ [')']) := by
  rw [resultChars]
  split_ifs with none single
  · exact .inl ⟨List.isEmpty_iff.mp none, rfl⟩
  · obtain ⟨⟨name, type⟩, rfl, rfl⟩ := List.map_eq_singleton_iff.mp single
    refine .inr (.inl ⟨type, rfl, ?_⟩)
    simp [markLast, paramChars, typeChars_false]
  · exact .inr (.inr rfl)

theorem ProperField.result {results : List (Field α)}
    (proper : ∀ p ∈ results, script.ProperField p) {p : Bool × Field α}
    (member : p ∈ markLast false results) : script.ProperParam p := by
  obtain ⟨inside, last⟩ := mem_markLast member
  exact ⟨proper p.2 inside, fun marked => absurd (last marked).1 Bool.false_ne_true⟩

theorem results_inj {results results' : List (Field α)}
    (proper : ∀ p ∈ results, script.ProperField p)
    (readable : ∀ p ∈ results, script.Reads p.type)
    (proper' : ∀ p ∈ results', script.ProperField p) (ended : Ended r) (ended' : Ended s)
    (same : script.resultChars results ++ r = script.resultChars results' ++ s) :
    results = results' ∧ r = s := by
  have spaceless : ∀ {rest more : List Char}, Ended rest → rest ≠ ' ' :: more := by
    rintro _ more ended rfl
    exact absurd (ended ' ' rfl) (by decide)
  -- Nothing, a single type and a list in parentheses begin differently.
  rcases script.resultChars_cases results with
    ⟨rfl, written⟩ | ⟨type, rfl, written⟩ | written <;>
  rcases script.resultChars_cases results' with
    ⟨rfl, written'⟩ | ⟨type', rfl, written'⟩ | written' <;>
  simp only [written, written'] at same
  · exact ⟨rfl, same⟩
  · exact absurd same (spaceless ended)
  · exact absurd same (spaceless ended)
  · exact absurd same.symm (spaceless ended')
  · have plain := readable _ List.mem_cons_self
    obtain ⟨rfl, rest⟩ := plain type' r s (proper' _ List.mem_cons_self).2 ended ended'
      (List.cons.inj same).2
    exact ⟨rfl, rest⟩
  · have plain := (proper _ List.mem_cons_self).2
    exact absurd (List.cons.inj same).2 (not_begins plain (by decide) _)
  · exact absurd same.symm (spaceless ended')
  · have plain := (proper' _ List.mem_cons_self).2
    exact absurd (List.cons.inj same).2.symm (not_begins plain (by decide) _)
  · simp only [List.cons_append, List.append_assoc, List.cons.injEq, true_and,
      List.nil_append] at same
    obtain ⟨items, rest⟩ := params_inj (fun p member => ProperField.result proper member)
      (fun p member => readable p.2 (mem_markLast member).1)
      (fun p member => ProperField.result proper' member) same
    exact ⟨(markLast_inj items).1, rest⟩

namespace ProperSignature

variable {f g : Signature α}

theorem params (proper : script.ProperSignature f) :
    ∀ p ∈ markLast f.variadic f.params, script.ProperParam p := by
  intro p member
  obtain ⟨inside, last⟩ := mem_markLast member
  refine ⟨proper.fields p.2 (List.mem_append_left _ inside), fun marked => ?_⟩
  obtain ⟨variadic, final⟩ := last marked
  obtain ⟨q, elem, final', slice⟩ := proper.variadic variadic
  rw [final] at final'
  exact ⟨elem, Option.some.inj final' ▸ slice⟩

theorem params_ne_nil (proper : script.ProperSignature f) (variadic : f.variadic = true) :
    f.params ≠ [] := by
  intro none
  obtain ⟨p, elem, final, _⟩ := proper.variadic variadic
  rw [none] at final
  cases final

theorem variadic_eq (proper : script.ProperSignature f) (proper' : script.ProperSignature g)
    (same : f.params = g.params) (flags : f.params ≠ [] → f.variadic = g.variadic) :
    f.variadic = g.variadic := by
  by_cases none : f.params = []
  · have plain : f.variadic = false :=
      Bool.eq_false_iff.mpr fun variadic => proper.params_ne_nil variadic none
    have plain' : g.variadic = false :=
      Bool.eq_false_iff.mpr fun variadic => proper'.params_ne_nil variadic (same ▸ none)
    rw [plain, plain']
  · exact flags none

end ProperSignature

theorem signature_readable {f : Signature α} (proper : script.ProperSignature f)
    (readable : ∀ a ∈ f.types, script.Reads a) :
    Readable script.signatureChars script.ProperSignature f := by
  intro g r s proper' ended ended' same
  have readable' : ∀ p ∈ f.params ++ f.results, script.Reads p.type :=
    fun p member => readable p.type (Signature.type_mem_types member)
  simp only [signatureChars, List.cons_append, List.append_assoc, List.cons.injEq, true_and] at same
  obtain ⟨items, rest⟩ := params_inj proper.params
    (fun p member => readable' p.2 (List.mem_append_left _ (mem_markLast member).1))
    proper'.params same
  obtain ⟨params, flags⟩ := markLast_inj items
  obtain ⟨results, last⟩ := results_inj
    (fun p member => proper.fields p (List.mem_append_right _ member))
    (fun p member => readable' p (List.mem_append_right _ member))
    (fun p member => proper'.fields p (List.mem_append_right _ member)) ended ended' rest
  have variadic := proper.variadic_eq proper' params flags
  cases f
  cases g
  cases params
  cases results
  cases variadic
  exact ⟨rfl, last⟩

theorem element_readable {e : Element α} (proper : script.ProperElement e)
    (readable : ∀ a ∈ e.types, script.Reads a) :
    Readable script.elementChars script.ProperElement e := by
  intro e' r s proper' ended ended' same
  cases e with
  | embedded type =>
      cases e' with
      | embedded type' =>
          obtain ⟨rfl, rest⟩ := readable type List.mem_cons_self type' r s proper' ended ended' same
          exact ⟨rfl, rest⟩
      | method name signature =>
          simp only [elementChars, signatureChars, List.append_assoc, List.cons_append] at same
          exact absurd same.symm (script.apart proper'.1 (by decide) proper ended)
  | method name signature =>
      cases e' with
      | embedded type =>
          simp only [elementChars, signatureChars, List.append_assoc, List.cons_append] at same
          exact absurd same (script.apart proper.1 (by decide) proper' ended')
      | method name' signature' =>
          have written := same
          simp only [elementChars, signatureChars, List.append_assoc, List.cons_append] at written
          obtain ⟨rfl, _⟩ := name_inj (by decide) (.inr proper.1) (.inr proper'.1) written
          simp only [elementChars, List.append_assoc, List.append_cancel_left_eq] at same
          obtain ⟨rfl, rest⟩ :=
            signature_readable proper.2 readable signature' r s proper'.2 ended ended' same
          exact ⟨rfl, rest⟩

theorem element_begins {e : Element α} (proper : script.ProperElement e) :
    ∃ c rest, script.elementChars e = c :: rest ∧ c ∉ ends := by
  cases e with
  | embedded type => exact opens proper
  | method name signature => exact proper.1.opens _

end Script

end Replica
