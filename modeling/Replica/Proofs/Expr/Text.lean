import Replica.Proofs.Expr.Opening
import Replica.SourceFile

/-!
The text of a written expression determines it up to the places of its struct fields, whatever line
it begins on and however its fields are aligned.
-/

namespace Replica

namespace Expr

variable {alphabet : Alphabet} (table : Aliasing alphabet)

def elem? : Expr → Option Expr
  | .slice elem => some elem
  | _ => none

theorem elem?_eq_some {e elem : Expr} (slice : e.elem? = some elem) : e = .slice elem := by
  cases e with
  | slice inner => exact congrArg Expr.slice (Option.some.inj slice)
  | _ => cases slice

def script (depth : Nat) : Script alphabet Expr where
  write e := (e.layout table.aliases depth).toList
  Proper := Proper table
  elem? := elem?
  brackets slice := by rw [elem?_eq_some slice]; simp [layout]
  begins := layout_begins
  apart := name_ne_layout

theorem layouts_eq (aliases : String → String) (depth : Nat) (es : List Expr) :
    layouts aliases depth es = es.map (layout aliases depth) := by
  induction es with
  | nil => rfl
  | cons e rest ih => rw [layouts, ih, List.map_cons]

theorem rows_eq (aliases : String → String) (depth : Nat) (members : List (Member Expr)) :
    rows aliases depth members = members.map fun m => ⟨m.name, m.type.layout aliases depth⟩ := by
  induction members with
  | nil => rfl
  | cons m rest ih => rw [rows, ih, List.map_cons]

theorem argsLayout_eq (depth : Nat) (args : List Expr) :
    (if args = [] then [] else
      '[' :: ((", ".intercalate (layouts table.aliases depth args)).toList ++ [']'])) =
    (script table depth).argsChars args := by
  cases args with
  | nil => rfl
  | cons arg args =>
      rw [if_neg (List.cons_ne_nil arg args), layouts_eq, Script.argsChars]
      simp [script, String.toList_intercalate, Function.comp_def]

theorem typeLayout_eq (depth : Nat) (dotted : Bool) (type : Expr) :
    (typeLayout table.aliases depth dotted type).toList =
      (script table depth).typeChars dotted type := by
  cases type with
  | slice elem => cases dotted <;> simp [typeLayout, Script.typeChars, script, elem?, layout]
  | _ => cases dotted <;> rfl

theorem paramLayouts_eq (depth : Nat) (variadic : Bool) (params : List (Field Expr)) :
    (paramLayouts table.aliases depth variadic params).map String.toList =
      (markLast variadic params).map (script table depth).paramChars := by
  induction params with
  | nil => rfl
  | cons param rest ih =>
      obtain ⟨name, type⟩ := param
      rw [paramLayouts_cons, markLast, List.map_cons, List.map_cons, ih, Script.paramChars,
        ← typeLayout_eq]
      congr 1
      split_ifs <;> simp

theorem signatureLayout_eq (depth : Nat) (s : Signature Expr) :
    (signatureLayout table.aliases depth s).toList = (script table depth).signatureChars s := by
  obtain ⟨params, results, variadic⟩ := s
  have behind : (resultsText results (paramLayouts table.aliases depth false results)).toList =
      (script table depth).resultChars results := by
    rw [Script.resultChars, ← paramLayouts_eq]
    rcases results with _ | ⟨⟨name, type⟩, _ | ⟨⟨_, _⟩, _⟩⟩
    · rfl
    · rw [paramLayouts_cons]
      by_cases unnamed : name = "" <;> simp [resultsText, paramLayouts, unnamed]
    · rw [paramLayouts_cons, paramLayouts_cons]
      simp [resultsText, String.toList_intercalate]
  rw [signatureLayout, String.toList_append, String.toList_append, String.toList_append, behind,
    String.toList_intercalate, paramLayouts_eq]
  simp [Script.signatureChars]

theorem elementLines_eq (depth : Nat) (elements : List (Element Expr)) :
    (elementLines table.aliases depth elements).map String.toList =
      elements.map (script table depth).elementChars := by
  induction elements with
  | nil => rfl
  | cons element rest ih =>
      cases element with
      | embedded type =>
          rw [elementLines, List.map_cons, ih, List.map_cons]
          rfl
      | method name signature =>
          rw [elementLines, List.map_cons, ih, List.map_cons, String.toList_append,
            signatureLayout_eq]
          rfl

variable {table} {e f : Expr} {depth : Nat} {r s : List Char}

theorem properSignature {s : Signature Expr} (named : WellNamedSignature alphabet s)
    (proper : ∀ inner ∈ s.types, inner.Proper table) :
    (script table depth).ProperSignature s where
  fields p member := ⟨named.names p member, proper p.type (Signature.type_mem_types member)⟩
  variadic marked := by
    obtain ⟨p, elem, final, slice⟩ := named.variadic marked
    exact ⟨p, elem, final, by rw [slice]; rfl⟩

theorem Proper.member {members : List (Member Expr)} (proper : (Expr.struct members).Proper table)
    {m : Member Expr} (listed : m ∈ members) : (script table depth).ProperMember m where
  name := proper.here.1 m listed
  type := proper.child (List.mem_map_of_mem listed)
  position := proper.here.2 m listed

theorem Proper.element {elements : List (Element Expr)}
    (proper : (Expr.interface elements).Proper table) {element : Element Expr}
    (listed : element ∈ elements) : (script table depth).ProperElement element := by
  have named := proper.here.1 element listed
  have types : ∀ inner ∈ element.types, inner.Proper table :=
    fun inner inside => proper.child (List.mem_flatMap.mpr ⟨element, listed, inside⟩)
  cases element with
  | embedded type => exact types type List.mem_cons_self
  | method name signature => exact ⟨named.1, properSignature named.2 types⟩

theorem argsChars_begins (ended : Ended r) {args : List Expr} {c : Char}
    (first : ((script table depth).argsChars args ++ r).head? = some c) : c ∈ ends ++ ['['] := by
  cases args with
  | nil => exact List.mem_append_left _ (ended c first)
  | cons arg args => exact Option.some.inj first ▸ by decide

theorem head_inj {base base' : Expr} {args args' : List Expr} (head : base.ProperHead table)
    (head' : base'.ProperHead table) (ended : Ended r) (ended' : Ended s)
    (words : base.word table.aliases = base'.word table.aliases)
    (tails : base.tail table.aliases depth ++ ((script table depth).argsChars args ++ r) =
      base'.tail table.aliases depth ++ ((script table depth).argsChars args' ++ s)) :
    base = base' ∧ (script table depth).argsChars args ++ r =
      (script table depth).argsChars args' ++ s := by
  -- Only the name of a type in another package goes on with a dot.
  have undotted : ∀ {args : List Expr} {rest more : List Char}, Ended rest →
      (script table depth).argsChars args ++ rest ≠ '.' :: more := by
    intro args rest more ended same
    have dot : '.' ∈ ends ++ ['['] := argsChars_begins ended (by rw [same]; rfl)
    exact absurd dot (by decide)
  have stop : ∀ {args : List Expr} {rest : List Char}, Ended rest →
      ∀ c, ((script table depth).argsChars args ++ rest).head? = some c →
        alphabet.continues c = false := by
    intro args rest ended c first
    have within : ends ++ ['['] ⊆ marks := by decide
    exact Alphabet.continues_mark (within (argsChars_begins ended first))
  cases base with
  | ident name =>
      cases base' with
      | ident name' => exact ⟨congrArg ident words, tails⟩
      | qualified q' => exact absurd tails (undotted ended)
      | _ => cases head'
  | qualified q =>
      cases base' with
      | ident name' => exact absurd tails.symm (undotted ended')
      | qualified q' =>
          obtain ⟨names, rest⟩ := append_inj_of_stop head.2.continues head'.2.continues
            (stop ended) (stop ended') (List.cons.inj tails).2
          have packages := table.injective head.1 head'.1 words
          exact ⟨congrArg qualified (congrArg₂ QualName.mk packages
            (String.toList_injective names)), rest⟩
      | _ => cases head'
  | _ => cases head

theorem named_inj (proper : e.Proper table) (proper' : f.Proper table)
    (kind : e.kindName = "name") (kind' : f.kindName = "name")
    (readable : ∀ inner ∈ e.children, (script table depth).Reads inner) (ended : Ended r)
    (ended' : Ended s) (words : e.word table.aliases = f.word table.aliases)
    (tails : e.tail table.aliases depth ++ r = f.tail table.aliases depth ++ s) :
    e = f ∧ r = s := by
  obtain ⟨base, args, rfl, head, within⟩ := proper.exists_head kind
  obtain ⟨base', args', rfl, head', within'⟩ := proper'.exists_head kind'
  rw [word_apply, word_apply] at words
  rw [tail_apply, tail_apply, argsLayout_eq, argsLayout_eq, List.append_assoc,
    List.append_assoc] at tails
  obtain ⟨rfl, brackets⟩ := head_inj head head' ended ended' words tails
  obtain ⟨rfl, rest⟩ := Script.args_inj
    (fun arg member => ⟨proper.child (within arg member), readable arg (within arg member)⟩)
    (fun arg member => proper'.child (within' arg member)) ended ended' brackets
  exact ⟨rfl, rest⟩

theorem layout_readable (e : Expr) :
    ∀ depth, e.Proper table → (script table depth).Reads e := by
  induction e using Expr.induct with
  | step e ih =>
  intro depth proper f r s proper' ended ended' same
  -- The first word and what follows it tell the kind, and with it the constructor.
  obtain ⟨words, tails⟩ := word_inj proper proper' ended ended' same
  have kinds : e.kindName = f.kindName := by
    rw [← kindOf_eq proper r, ← kindOf_eq proper' s, words, tails]
  -- Fields and elements are written one level deeper than the rest, so every depth is needed.
  have reads : ∀ {inner depth}, inner ∈ e.children → (script table depth).Reads inner :=
    fun child => ih _ child _ (proper.child child)
  by_cases kind : e.kindName = "name"
  · exact named_inj proper proper' kind (kinds ▸ kind) (fun _ => reads) ended ended' words tails
  · cases e with
    | pointer elem =>
        cases f with
        | pointer elem' =>
            obtain ⟨rfl, rest⟩ := reads List.mem_cons_self elem' r s
              (proper'.child List.mem_cons_self) ended ended' (List.cons.inj tails).2
            exact ⟨rfl, rest⟩
        | _ => simp [kindName] at kinds
    | slice elem =>
        cases f with
        | slice elem' =>
            obtain ⟨rfl, rest⟩ := reads List.mem_cons_self elem' r s
              (proper'.child List.mem_cons_self) ended ended'
              (List.cons.inj (List.cons.inj tails).2).2
            exact ⟨rfl, rest⟩
        | _ => simp [kindName] at kinds
    | map key value =>
        cases f with
        | map key' value' =>
            simp only [tail, List.cons_append, List.append_assoc, List.cons.injEq, true_and]
              at tails
            obtain ⟨rfl, values⟩ := reads List.mem_cons_self key' _ _
              (proper'.child List.mem_cons_self) (ended_cons (by decide) _)
              (ended_cons (by decide) _) tails
            have inside : ∀ key value : Expr, value ∈ (Expr.map key value).children :=
              fun _ _ => List.mem_cons_of_mem _ List.mem_cons_self
            obtain ⟨rfl, rest⟩ := reads (inside key value) value' r s
              (proper'.child (inside key value')) ended ended' (List.cons.inj values).2
            exact ⟨rfl, rest⟩
        | _ => simp [kindName] at kinds
    | array len elem =>
        cases f with
        | array len' elem' =>
            simp only [tail, List.cons_append, List.append_assoc, List.cons.injEq, true_and]
              at tails
            obtain ⟨rfl, elems⟩ := digits_inj tails
            obtain ⟨rfl, rest⟩ := reads List.mem_cons_self elem' r s
              (proper'.child List.mem_cons_self) ended ended' elems
            exact ⟨rfl, rest⟩
        | _ => simp [kindName] at kinds
    | struct members =>
        cases f with
        | struct members' =>
            rw [tail, tail, rows_eq, rows_eq] at tails
            obtain ⟨rfl, rest⟩ := Script.members_inj (fun _ => rfl)
              (fun m listed => proper.member listed)
              (fun m listed => reads (List.mem_map_of_mem listed))
              (fun m listed => proper'.member listed) tails
            exact ⟨rfl, rest⟩
        | _ => simp [kindName] at kinds
    | func signature =>
        cases f with
        | func signature' =>
            rw [tail, tail, signatureLayout_eq, signatureLayout_eq] at tails
            obtain ⟨rfl, rest⟩ := Script.signature_readable
              (properSignature proper.here.1 fun _ => proper.child) (fun _ => reads) signature' r s
              (properSignature proper'.here.1 fun _ => proper'.child) ended ended' tails
            exact ⟨rfl, rest⟩
        | _ => simp [kindName] at kinds
    | interface elements =>
        cases f with
        | interface elements' =>
            rw [tail, tail, elementLines_eq, elementLines_eq] at tails
            obtain ⟨rfl, rest⟩ := Readable.block
              (fun element listed => Script.element_readable (proper.element listed)
                fun inner inside => reads (List.mem_flatMap.mpr ⟨element, listed, inside⟩))
              (fun element listed => proper'.element listed) tails
            exact ⟨rfl, rest⟩
        | _ => simp [kindName] at kinds
    | ident _ | qualified _ | applied _ _ => exact absurd rfl kind

theorem wellNamedSignature_unplaced {s : Signature Expr} (named : WellNamedSignature alphabet s) :
    WellNamedSignature alphabet (s.map unplaced) where
  names p member := by
    rw [Signature.map, ← List.map_append] at member
    obtain ⟨original, inside, rfl⟩ := List.mem_map.mp member
    exact named.names original inside
  variadic marked := by
    obtain ⟨p, elem, final, slice⟩ := named.variadic marked
    refine ⟨p.map unplaced, elem.unplaced, ?_, ?_⟩
    · rw [Signature.map, List.getLast?_map, final]
      rfl
    · rw [Field.map, slice, unplaced]

theorem wellNamed_unplaced {e : Expr} (named : e.WellNamed alphabet) :
    e.unplaced.WellNamed alphabet := by
  cases e with
  | applied base args =>
      obtain ⟨isHead, some⟩ := named
      rw [unplaced, unplacedAll_eq]
      refine ⟨?_, by simpa using some⟩
      cases base with
      | ident name => rfl
      | qualified q => rfl
      | _ => cases isHead
  | struct members =>
      rw [unplaced, unplacedMembers_eq]
      intro m listed
      obtain ⟨original, inside, rfl⟩ := List.mem_map.mp listed
      exact named original inside
  | func signature =>
      rw [unplaced, unplacedSignature_eq]
      exact wellNamedSignature_unplaced named
  | interface elements =>
      rw [unplaced, unplacedElements_eq]
      intro element listed
      obtain ⟨original, inside, rfl⟩ := List.mem_map.mp listed
      have here := named original inside
      cases original with
      | embedded type => trivial
      | method name signature => exact ⟨here.1, wellNamedSignature_unplaced here.2⟩
  | _ => exact named

theorem settled_unplaced {e : Expr} (known : ∀ q, e = .qualified q → table.Known q.package) :
    e.unplaced.Settled table := by
  cases e with
  | qualified q => exact known q rfl
  | struct members =>
      rw [unplaced, unplacedMembers_eq]
      intro m listed
      obtain ⟨original, _, rfl⟩ := List.mem_map.mp listed
      rfl
  | _ => trivial

theorem proper_unplaced {e : Expr} (named : Every (WellNamed alphabet) e)
    (known : ∀ q, e.Mentions q → table.Known q.package) : e.unplaced.Proper table :=
  (named.and (Every.qualified_iff.mpr known)).unplaced
    fun _ here => ⟨wellNamed_unplaced here.1, settled_unplaced here.2⟩

theorem unplaced_inj (named : Every (WellNamed alphabet) e) (named' : Every (WellNamed alphabet) f)
    (known : ∀ q, e.Mentions q ∨ f.Mentions q → table.Known q.package)
    (same : e.layout table.aliases depth = f.layout table.aliases depth) :
    e.unplaced = f.unplaced := by
  have proper := proper_unplaced named fun q mentions => known q (.inl mentions)
  have proper' := proper_unplaced named' fun q mentions => known q (.inr mentions)
  rw [← layout_unplaced table.aliases e, ← layout_unplaced table.aliases f] at same
  have texts : (script table depth).write e.unplaced ++ [] =
      (script table depth).write f.unplaced ++ [] := by
    rw [List.append_nil, List.append_nil]
    exact congrArg String.toList same
  exact (layout_readable _ depth proper _ [] [] proper' ended_nil ended_nil texts).1

end Expr

theorem Body.layout_eq (aliases : String → String) (body : Body) :
    body.layout aliases = body.type.layout aliases 0 := by
  cases body <;> rfl

/-- If no two packages that are mentioned go by the same name, well-formed expressions have the same
text on a line of some depth exactly if they differ only in the places of struct fields; so do the
types of two declarations. -/
theorem Expr.layout_injective (alphabet : Alphabet) (aliases : String → String) (e f : Expr)
    (named : Every (WellNamed alphabet) e) (named' : Every (WellNamed alphabet) f)
    (aliased : ∀ q, e.Mentions q ∨ f.Mentions q → alphabet.IsName (aliases q.package))
    (apart : ∀ p q, e.Mentions p ∨ f.Mentions p → e.Mentions q ∨ f.Mentions q →
      aliases p.package = aliases q.package → p.package = q.package) :
    (∀ depth, e.layout aliases depth = f.layout aliases depth ↔ e.unplaced = f.unplaced) ∧
      ∀ b c : Body, b.type = e → c.type = f →
        (b.layout aliases = c.layout aliases ↔ e.unplaced = f.unplaced) := by
  let table : Aliasing alphabet := {
    aliases
    Known := fun path => ∃ q, (e.Mentions q ∨ f.Mentions q) ∧ q.package = path
    isName := by
      rintro _ ⟨q, mentions, rfl⟩
      exact aliased q mentions
    injective := by
      rintro _ _ ⟨p, mentions, rfl⟩ ⟨q, mentions', rfl⟩ same
      exact apart p q mentions mentions' same }
  have texts : ∀ depth, e.layout aliases depth = f.layout aliases depth ↔
      e.unplaced = f.unplaced := by
    intro depth
    constructor
    · intro same
      have known : ∀ q, e.Mentions q ∨ f.Mentions q → table.Known q.package :=
        fun q mentions => ⟨q, mentions, rfl⟩
      exact unplaced_inj named named' known same
    · intro same
      rw [← layout_unplaced aliases e, same, layout_unplaced]
  refine ⟨texts, ?_⟩
  rintro b c rfl rfl
  rw [Body.layout_eq, Body.layout_eq]
  exact texts 0

namespace Expr

def recorder (variadic : Bool) (position : Nat) : Expr :=
  .struct [⟨"", .qualified ⟨"sync", "Mutex"⟩, position⟩,
    ⟨"log", .func { params := [⟨"", .ident "string"⟩, ⟨"values", .slice (.ident "K")⟩], variadic },
      position + 1⟩]

theorem every_recorder {p : Expr → Prop} {variadic : Bool} {position : Nat}
    (whole : p (recorder variadic position)) (lock : p (.qualified ⟨"sync", "Mutex"⟩))
    (log : p (.func {
      params := [⟨"", .ident "string"⟩, ⟨"values", .slice (.ident "K")⟩], variadic }))
    (string : p (.ident "string")) (slice : p (.slice (.ident "K"))) (param : p (.ident "K")) :
    Every p (recorder variadic position) := by
  have values : Every p (.slice (.ident "K")) :=
    ⟨slice, fun inner member => List.mem_singleton.mp member ▸ ⟨param, nofun⟩⟩
  refine ⟨whole, fun inner member => ?_⟩
  rcases List.mem_pair.mp member with rfl | rfl
  · exact ⟨lock, nofun⟩
  · refine ⟨log, fun inner member => ?_⟩
    rcases List.mem_pair.mp member with rfl | rfl
    · exact ⟨string, nofun⟩
    · exact values

theorem recorder_wellNamed (variadic : Bool) (position : Nat) :
    Every (WellNamed Alphabet.ascii) (recorder variadic position) := by
  have log : Alphabet.ascii.IsName "log" := ⟨by decide, by decide⟩
  have values : Alphabet.ascii.IsName "values" := ⟨by decide, by decide⟩
  refine every_recorder ?_ ⟨by decide, by decide⟩ ⟨?_, fun _ => ⟨_, _, rfl, rfl⟩⟩
    ⟨by decide, by decide⟩ trivial ⟨by decide, by decide⟩
  · intro m listed
    rcases List.mem_pair.mp listed with rfl | rfl
    · exact .inl rfl
    · exact .inr log
  · intro p member
    rcases List.mem_pair.mp member with rfl | rfl
    · exact .inl rfl
    · exact .inr values

theorem recorder_mentions {variadic : Bool} {position : Nat} :
    ∀ q, (recorder variadic position).Mentions q → q = ⟨"sync", "Mutex"⟩ := by
  refine Every.qualified_iff.mp (every_recorder nofun ?_ nofun nofun nofun nofun)
  rintro r same
  cases same
  rfl

theorem recorder_layout_injective :
    (∀ depth, (recorder true 0).layout id depth ≠ (recorder false 0).layout id depth) ∧
      ∀ depth, (recorder true 0).layout id depth = (recorder true 1).layout id depth := by
  have injective : ∀ variadic position, _ := fun variadic position =>
    (layout_injective Alphabet.ascii id (recorder true 0) (recorder variadic position)
      (recorder_wellNamed _ _) (recorder_wellNamed _ _)
      (by
        rintro q (mentions | mentions) <;> rw [recorder_mentions q mentions] <;>
          exact ⟨by decide, by decide⟩)
      (fun p q _ _ same => same)).1
  refine ⟨fun depth same => ?_, fun depth => (injective true 1 depth).mpr rfl⟩
  have alike := (injective false 0 depth).mp same
  simp [recorder, unplaced, unplacedMembers, unplacedSignature] at alike

end Expr

end Replica
