import Replica.Proofs.Context
import Replica.Proofs.Embedding
import Replica.Proofs.Name
import Replica.Proofs.Spelling.Spelled

/-!
Which interfaces become `any`. Main statement: those in which the search for methods finds none. An
interface that demands nothing is among them. The others embed themselves, or something that the
search passes over: predeclared names such as `error`, types that are not declared, and types whose
declarations name an interface that has demands.
-/

namespace Replica

variable {ns : Namespace} {scope : List String} {shape inner : Interface Ty} {t u e : Ty}
  {rest : List Demand}

/-- An interface without methods all of whose elements demand nothing, or a type that is declared to
be one. Declarations are followed to where they end. -/
inductive Ty.DemandsNothing (ns : Namespace) : Ty → Prop where
  | interface {shape : Interface Ty} (noMethods : shape.methods = [])
      (embedded : ∀ e ∈ shape.embedded, e ≠ .basic "any" → Ty.DemandsNothing ns e) :
      Ty.DemandsNothing ns (.interface shape)
  | named {base : QualName} {args : List Ty} {decl : TypeDecl}
      (declared : ns.declaration? base = some decl)
      (underlying : Ty.DemandsNothing ns (decl.instantiate args)) :
      Ty.DemandsNothing ns (.named base args)

theorem interfaceOf?_named {base : QualName} {args : List Ty} {decl : TypeDecl}
    (declared : ns.declaration? base = some decl) :
    interfaceOf? ns (.named base args) = some inner ↔ decl.instantiate args = .interface inner := by
  simp only [interfaceOf?, declared]
  split
  · rename_i own written
    rw [written, Option.some.injEq, Ty.interface.injEq]
  · rename_i other
    exact iff_of_false nofun (other inner)

theorem Ty.DemandsNothing.of_interfaceOf? (stands : interfaceOf? ns t = some inner)
    (nothing : Ty.DemandsNothing ns (.interface inner)) : Ty.DemandsNothing ns t := by
  cases t with
  | interface own =>
      cases stands
      exact nothing
  | named base args =>
      cases declared : ns.declaration? base with
      | none =>
          rw [interfaceOf?, declared] at stands
          cases stands
      | some decl =>
          refine .named declared ?_
          rw [(interfaceOf?_named declared).mp stands]
          exact nothing
  | _ => cases stands

theorem Ty.DemandsNothing.expands (nothing : Ty.DemandsNothing ns t) (step : Expands ns t u) :
    u = .basic "any" ∨ Ty.DemandsNothing ns u := by
  obtain ⟨shape, stands, member⟩ := step
  induction nothing with
  | interface _ embedded _ =>
      cases stands
      exact or_iff_not_imp_left.mpr (embedded u member)
  | named declared underlying ih =>
      apply ih
      rw [(interfaceOf?_named declared).mp stands]
      rfl

theorem not_expands_basic {name : String} : ¬ Expands ns (.basic name) u := by
  rintro ⟨shape, stands, _⟩
  cases stands

theorem Ty.DemandsNothing.reaches (nothing : Ty.DemandsNothing ns t)
    (path : Relation.TransGen (Expands ns) t u) : u = .basic "any" ∨ Ty.DemandsNothing ns u := by
  induction path with
  | single step => exact nothing.expands step
  | tail _ step ih =>
      rcases ih with rfl | nothing
      · exact absurd step not_expands_basic
      · exact nothing.expands step

/-- No descent through embeddings goes on for ever. -/
def EmbedsFinitely (ns : Namespace) : Ty → Prop :=
  Acc fun inner outer => Expands ns outer inner

theorem Ty.DemandsNothing.embedsFinitely (nothing : Ty.DemandsNothing ns t) :
    EmbedsFinitely ns t := by
  induction nothing with
  | interface _ embedded ih =>
      refine Acc.intro _ fun u step => ?_
      obtain ⟨shape, stands, member⟩ := step
      cases stands
      by_cases any : u = .basic "any"
      · subst any
        exact Acc.intro _ fun v step => absurd step not_expands_basic
      · exact ih u member any
  | named declared _ ih =>
      refine Acc.intro _ fun u step => ?_
      obtain ⟨shape, stands, member⟩ := step
      have same := (interfaceOf?_named declared).mp stands
      exact ih.inv ⟨shape, by rw [same, interfaceOf?], member⟩

theorem Ty.DemandsNothing.of_embedsFinitely (finite : EmbedsFinitely ns t)
    (other : t ≠ .basic "any")
    (told : ∀ u, Relation.ReflTransGen (Expands ns) t u →
      u = .basic "any" ∨ (interfaceOf? ns u).isSome ∨ Ty.DemandsNothing ns u)
    (silent : ∀ u inner, Relation.ReflTransGen (Expands ns) t u → interfaceOf? ns u = some inner →
      inner.methods = []) : Ty.DemandsNothing ns t := by
  induction finite with
  | intro t _ ih =>
      rcases told t .refl with any | resolved | nothing
      · exact absurd any other
      · obtain ⟨inner, stands⟩ := Option.isSome_iff_exists.mp resolved
        refine .of_interfaceOf? stands (.interface (silent t inner .refl stands) ?_)
        intro e member notAny
        have step : Expands ns t e := ⟨inner, stands, member⟩
        exact ih e step notAny (fun u path => told u (path.head step))
          fun u inner path => silent u inner (path.head step)
      · exact nothing

/-- The search finds nothing on the stack, whatever it has expanded before. -/
def Quiet (ns : Namespace) (stack : List Demand) : Prop :=
  ∀ expanded, Collects ns expanded stack []

theorem quiet_nil : Quiet ns [] := fun _ => .nil

theorem Quiet.cons (later : Quiet ns rest) (inner : Quiet ns (innerDemands ns e ++ rest)) :
    Quiet ns (.embedded e :: rest) := by
  intro expanded
  by_cases skipped : Skipped expanded e
  · exact .skip skipped (later expanded)
  · exact .expand skipped (inner _)

theorem Quiet.append_embedded {ts : List Ty} (later : Quiet ns rest)
    (each : ∀ e ∈ ts, ∀ rest, Quiet ns rest → Quiet ns (innerDemands ns e ++ rest)) :
    Quiet ns (ts.map .embedded ++ rest) := by
  induction ts with
  | nil => exact later
  | cons e others ih =>
      have tail := ih fun u member => each u (List.mem_cons_of_mem _ member)
      exact tail.cons (each e List.mem_cons_self _ tail)

theorem Ty.DemandsNothing.quiet (nothing : Ty.DemandsNothing ns t) (later : Quiet ns rest) :
    Quiet ns (innerDemands ns t ++ rest) := by
  induction nothing generalizing rest with
  | @interface shape noMethods _ ih =>
      have demands : innerDemands ns (.interface shape) = shape.embedded.map .embedded := by
        simp only [innerDemands, interfaceOf?, Interface.demands, noMethods, List.map_nil,
          List.append_nil]
      rw [demands]
      refine later.append_embedded fun e member rest quiet => ?_
      by_cases any : e = .basic "any"
      · subst any
        exact quiet
      · exact ih e member any quiet
  | @named base args decl declared _ ih =>
      cases stands : interfaceOf? ns (.named base args) with
      | none => rwa [innerDemands, stands]
      | some inner =>
          have same := ih later
          rw [(interfaceOf?_named declared).mp stands, innerDemands, interfaceOf?] at same
          rwa [innerDemands, stands]

theorem Ty.DemandsNothing.hasMethodSet (nothing : Ty.DemandsNothing ns (.interface shape)) :
    HasMethodSet ns shape [] := by
  have collects := nothing.quiet quiet_nil []
  rw [List.append_nil, innerDemands, interfaceOf?] at collects
  exact hasMethodSet_iff.mpr ⟨[], collects, rfl⟩

theorem hasMethodSet_nil_iff (apart : shape.TellsApart ns) :
    HasMethodSet ns shape [] ↔
      (∃ methods, HasMethodSet ns shape methods) ∧ ∀ m, ¬ shape.Declares ns m := by
  constructor
  · intro has
    exact ⟨⟨[], has⟩, fun m declared => List.not_mem_nil ((has.declares apart).2 m declared)⟩
  · rintro ⟨⟨methods, has⟩, silent⟩
    have none : methods = [] := by
      apply List.eq_nil_iff_forall_not_mem.mpr
      exact fun m member => silent m ((has.declares apart).1 m member)
    rwa [none] at has

theorem demandsNothing_iff (apart : shape.TellsApart ns) :
    Ty.DemandsNothing ns (.interface shape) ↔
      HasMethodSet ns shape [] ∧ EmbedsFinitely ns (.interface shape) ∧
        ∀ u, Relation.TransGen (Expands ns) (.interface shape) u →
          u = .basic "any" ∨ (interfaceOf? ns u).isSome ∨ Ty.DemandsNothing ns u := by
  constructor
  · intro nothing
    exact ⟨nothing.hasMethodSet, nothing.embedsFinitely,
      fun u path => (nothing.reaches path).imp_right .inr⟩
  · rintro ⟨has, finite, told⟩
    refine .of_embedsFinitely finite (by simp) (fun u path => ?_) fun u inner path stands => ?_
    · rcases Relation.reflTransGen_iff_eq_or_transGen.mp path with rfl | path
      · exact .inr (.inl rfl)
      · exact told u path
    · apply List.eq_nil_iff_forall_not_mem.mpr
      exact fun m member =>
        ((hasMethodSet_nil_iff apart).mp has).2 m ⟨u, inner, path, stands, member⟩

/-- `t` is an interface, or a private type without parameters that is declared as one. -/
inductive Ty.Holds (ns : Namespace) : Ty → Interface Ty → Prop where
  | anonymous {shape : Interface Ty} : Ty.Holds ns (.interface shape) shape
  | declared {base : QualName} {decl : TypeDecl} {shape : Interface Ty}
      (simple : PrivateSimple ns base decl) (underlying : decl.underlying = .interface shape) :
      Ty.Holds ns (.named base []) shape

/-- Spelling `t` for `owner` answers `any`. -/
def Context.Erases (c : Context) (ns : Namespace) (owner : String) (scope : List String) (t : Ty) :
    Prop :=
  ∃ limit, (c.settle owner (spell limit ns scope t)).2 = .ok (.ident "any")

theorem flat_ne_any (q : QualName) : q.flat ≠ "any" := by
  intro same
  have underscore := q.underscore_mem_flat
  rw [same] at underscore
  revert underscore
  decide

theorem Spelled.erased {replica : QualName → Nat → Prop} {needs : List Need} {expr : Expr}
    (spelled : Spelled ns replica scope t needs expr) (holds : t.Holds ns shape)
    (written : expr = .ident "any") : HasMethodSet ns shape [] := by
  induction spelled with
  | any undemanding =>
      cases holds
      exact undemanding
  | outlined => exact absurd (Expr.ident.inj written) (flat_ne_any _)
  | @inlined _ base decl _ _ simple _ inner ih =>
      cases holds with
      | @declared _ decl' _ simple' underlying =>
          have one : decl' = decl := Option.some.inj (simple'.2.1.symm.trans simple.2.1)
          rw [← one, underlying] at ih
          exact ih .anonymous written
  | basic | param => cases holds
  | _ => cases written

theorem Ty.Holds.hasMethodSet_of_erases {c : Context} {owner : String} (holds : t.Holds ns shape)
    (erases : c.Erases ns owner scope t) : HasMethodSet ns shape [] := by
  obtain ⟨limit, settled⟩ := erases
  have spelled := (Context.settle_eq_ok (Prod.ext rfl settled)).2
  exact (spell_spelled _ _ _ spelled).erased holds rfl

theorem Ty.Holds.spell_eq_any {limit : Nat} (holds : t.Holds ns shape)
    (found : methodSet limit ns shape = some []) :
    spell limit ns scope t = pure (.ident "any") := by
  cases holds with
  | anonymous => rw [spell, spellWith, found]
  | declared simple underlying =>
      obtain ⟨hidden, declared, noParams⟩ := simple
      simp [spell, spellWith, spellNamed, spellPrivate, declared, hidden, TypeDecl.isGeneric,
        noParams, underlying, found]

/-- An interface becomes `any` exactly if the search for its methods ends and no method is declared
in it or in what it embeds, as far as the search resolves that. It demands nothing exactly if it
becomes `any`, embedding comes to an end, and everything embedded on the way is `any`, stands for an
interface or demands nothing. -/
theorem erases_iff (holds : t.Holds ns shape) (apart : shape.TellsApart ns) (c : Context)
    (owner : String) (scope : List String) :
    (c.Erases ns owner scope t ↔
      (∃ methods, HasMethodSet ns shape methods) ∧ ∀ m, ¬ shape.Declares ns m) ∧
    (Ty.DemandsNothing ns (.interface shape) ↔
      c.Erases ns owner scope t ∧ EmbedsFinitely ns (.interface shape) ∧
        ∀ u, Relation.TransGen (Expands ns) (.interface shape) u →
          u = .basic "any" ∨ (interfaceOf? ns u).isSome ∨ Ty.DemandsNothing ns u) := by
  have erases : c.Erases ns owner scope t ↔ HasMethodSet ns shape [] := by
    refine ⟨holds.hasMethodSet_of_erases, fun ⟨limit, found⟩ => ⟨limit, ?_⟩⟩
    rw [holds.spell_eq_any found]
    rfl
  rw [erases]
  exact ⟨hasMethodSet_nil_iff apart, demandsNothing_iff apart⟩

/-- An interface that asks for what `error` asks for. -/
def errorShape : Interface Ty where
  embedded := [.basic "error"]

def unasking : Interface Ty where
  embedded := [.basic "any", .named ⟨"lib", "blank"⟩ []]

def failures : Namespace where
  module := "lib"
  packages := [
    { path := "lib"
      types := [
        { name := "Shelf"
          underlying := .struct [
            ⟨"last", .named ⟨"lib", "failure"⟩ []⟩, ⟨"rest", .interface unasking⟩] },
        { name := "failure", underlying := .interface errorShape },
        { name := "blank", underlying := .interface {} }] }]

theorem unasking_leadsTo (leads : unasking.LeadsTo failures t) :
    t = .interface unasking ∨ t = .basic "any" ∨ t = .named ⟨"lib", "blank"⟩ [] := by
  induction leads with
  | refl => exact .inl rfl
  | tail _ step ih =>
      obtain ⟨shape, stands, member⟩ := step
      rcases ih with rfl | rfl | rfl
      · cases stands
        exact .inr (List.mem_pair.mp member)
      · cases stands
      · cases stands
        exact absurd member List.not_mem_nil

theorem unasking_tellsApart : unasking.TellsApart failures := by
  intro t u key leads leads' found found'
  rcases unasking_leadsTo leads with rfl | rfl | rfl
  · cases found
  · cases found
  · rcases unasking_leadsTo leads' with rfl | rfl | rfl
    · cases found'
    · cases found'
    · rfl

theorem unasking_demandsNothing : Ty.DemandsNothing failures (.interface unasking) := by
  refine .interface rfl fun e member other => ?_
  rcases List.mem_pair.mp member with rfl | rfl
  · exact absurd rfl other
  · exact .named rfl (.interface rfl fun e member => absurd member List.not_mem_nil)

theorem unasking_erased : Ty.DemandsNothing failures (.interface unasking) ∧
    ({} : Context).Erases failures "lib.Shelf" [] (.interface unasking) := by
  have precise := erases_iff .anonymous unasking_tellsApart {} "lib.Shelf" []
  exact ⟨unasking_demandsNothing, (precise.2.mp unasking_demandsNothing).1⟩

/-- `failure` asks for the method of `error`, and `any` is written for it. -/
theorem failure_erased :
    (Ty.named ⟨"lib", "failure"⟩ []).Holds failures errorShape ∧
      ¬ Ty.DemandsNothing failures (.interface errorShape) ∧
      ({} : Context).Erases failures "lib.Shelf" [] (.named ⟨"lib", "failure"⟩ []) := by
  refine ⟨.declared ⟨by decide, rfl, rfl⟩ rfl, fun nothing => ?_, 10, rfl⟩
  cases nothing with
  | interface _ embedded => cases embedded (.basic "error") List.mem_cons_self (by simp)

end Replica
