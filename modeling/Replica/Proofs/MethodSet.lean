import Mathlib.Algebra.GroupWithZero.Nat
import Mathlib.Data.Set.Finite.Basic
import Mathlib.Logic.Relation
import Mathlib.Order.Filter.AtTopBot.Basic
import Replica.MethodSet
import Replica.Proofs.Ty.Children
import Replica.Unseen

/-!
Method sets as sets, whatever the number of steps it takes to collect them. An answer does not
change with the limit, there is one whenever embedding expands to finitely many instantiations, and
every method in it is written in an interface that embedding leads to.
-/

namespace Replica

open Filter

theorem demandedMethods_succ {ns : Namespace} {limit : Nat} {expanded : List String}
    {stack : List Demand} {methods : List (Method Ty)}
    (found : demandedMethods ns limit expanded stack = some methods) :
    demandedMethods ns (limit + 1) expanded stack = some methods := by
  induction limit generalizing expanded stack methods with
  | zero =>
      cases stack with
      | nil => exact found
      | cons demand rest => cases found
  | succ limit ih =>
      cases stack with
      | nil => exact found
      | cons demand rest =>
          cases demand with
          | method m =>
              rw [demandedMethods] at found ⊢
              rcases Option.map_eq_some_iff.mp found with ⟨others, inner, same⟩
              rw [ih inner, ← same]
              rfl
          | embedded type =>
              rw [demandedMethods] at found ⊢
              split at found
              · rename_i known
                rw [if_pos known]
                exact ih found
              · rename_i fresh
                rw [if_neg fresh]
                exact ih found

theorem methodSet_mono {ns : Namespace} {shape : Interface Ty} {methods : List (Method Ty)}
    {limit more : Nat} (le : limit ≤ more) (found : methodSet limit ns shape = some methods) :
    methodSet more ns shape = some methods := by
  induction more, le using Nat.le_induction with
  | base => exact found
  | succ more _ ih =>
      rcases Option.map_eq_some_iff.mp ih with ⟨all, collected, same⟩
      rw [methodSet, demandedMethods_succ collected, ← same]
      rfl

/-- `methods` is what an interface asks for, found within some number of steps. -/
def HasMethodSet (ns : Namespace) (shape : Interface Ty) (methods : List (Method Ty)) : Prop :=
  ∃ limit, methodSet limit ns shape = some methods

theorem HasMethodSet.unique {ns : Namespace} {shape : Interface Ty}
    {methods others : List (Method Ty)} (first : HasMethodSet ns shape methods)
    (second : HasMethodSet ns shape others) : methods = others := by
  rcases first with ⟨limit, found⟩
  rcases second with ⟨limit', found'⟩
  have left := methodSet_mono (Nat.le_max_left limit limit') found
  have right := methodSet_mono (Nat.le_max_right limit limit') found'
  exact Option.some.inj (left.symm.trans right)

theorem HasMethodSet.eventually {ns : Namespace} {shape : Interface Ty}
    {methods : List (Method Ty)} (has : HasMethodSet ns shape methods) :
    ∀ᶠ limit in atTop, methodSet limit ns shape = some methods := by
  rcases has with ⟨limit, found⟩
  exact eventually_atTop.mpr ⟨limit, fun _ le => methodSet_mono le found⟩

def Expands (ns : Namespace) (outer inner : Ty) : Prop :=
  ∃ shape, interfaceOf? ns outer = some shape ∧ inner ∈ shape.embedded

/-- Embedding leads from every type to finitely many others. -/
def Namespace.FiniteEmbedding (ns : Namespace) : Prop :=
  ∀ t, {u | Relation.ReflTransGen (Expands ns) t u}.Finite

noncomputable def Demand.weight : Demand → Nat
  | .embedded type => sizeOf type + 1
  | .method _ => 1

theorem sum_weight_embedded_lt (ts : List Ty) :
    ((ts.map Demand.embedded).map Demand.weight).sum < sizeOf ts := by
  induction ts with
  | nil => decide
  | cons t rest ih =>
      simp only [List.map_cons, List.sum_cons, Demand.weight, List.cons.sizeOf_spec]
      omega

theorem sum_weight_methods_lt (methods : List (Method Ty)) :
    ((methods.map Demand.method).map Demand.weight).sum < sizeOf methods := by
  induction methods with
  | nil => decide
  | cons m rest ih =>
      simp only [List.map_cons, List.sum_cons, Demand.weight, List.cons.sizeOf_spec]
      omega

theorem sum_weight_demands_lt (shape : Interface Ty) :
    (shape.demands.map Demand.weight).sum < (Demand.embedded (.interface shape)).weight := by
  have embedded := sum_weight_embedded_lt shape.embedded
  have methods := sum_weight_methods_lt shape.methods
  cases shape with
  | mk embeddedTypes ownMethods =>
      simp only [Interface.demands, List.map_append, List.sum_append, Demand.weight,
        Ty.interface.sizeOf_spec, Interface.mk.sizeOf_spec]
      simp only at embedded methods
      omega

theorem embedded_mem_demands {shape : Interface Ty} {t : Ty} :
    Demand.embedded t ∈ shape.demands ↔ t ∈ shape.embedded := by
  simp [Interface.demands]

theorem method_mem_demands {shape : Interface Ty} {m : Method Ty} :
    Demand.method m ∈ shape.demands ↔ m ∈ shape.methods := by
  simp [Interface.demands]

def innerDemands (ns : Namespace) (type : Ty) : List Demand :=
  match interfaceOf? ns type with
  | some shape => shape.demands
  | none => []

theorem mem_innerDemands {ns : Namespace} {t : Ty} {demand : Demand}
    (inner : demand ∈ innerDemands ns t) :
    ∃ shape, interfaceOf? ns t = some shape ∧ demand ∈ shape.demands := by
  rw [innerDemands] at inner
  split at inner
  · rename_i shape found
    exact ⟨shape, found, inner⟩
  · exact absurd inner List.not_mem_nil

theorem expands_of_mem_innerDemands {ns : Namespace} {t u : Ty}
    (member : Demand.embedded u ∈ innerDemands ns t) : Expands ns t u := by
  obtain ⟨shape, stands, demanded⟩ := mem_innerDemands member
  exact ⟨shape, stands, embedded_mem_demands.mp demanded⟩

theorem inside_expand {ns : Namespace} {inside : Ty → Prop} {e : Ty} {rest : List Demand}
    (closed : ∀ t u, inside t → Expands ns t u → inside u)
    (within : ∀ t, Demand.embedded t ∈ .embedded e :: rest → inside t) :
    ∀ t, Demand.embedded t ∈ innerDemands ns e ++ rest → inside t := by
  intro t member
  rcases List.mem_append.mp member with inner | outer
  · exact closed e t (within e List.mem_cons_self) (expands_of_mem_innerDemands inner)
  · exact within t (List.mem_cons_of_mem _ outer)

theorem sum_weight_innerDemands_lt {ns : Namespace} {t : Ty} (forgotten : instantiation? t = none) :
    ((innerDemands ns t).map Demand.weight).sum < (Demand.embedded t).weight := by
  have light : ∀ u : Ty, (([] : List Demand).map Demand.weight).sum < (Demand.embedded u).weight :=
    fun u => Nat.succ_pos _
  cases t with
  | interface shape => exact sum_weight_demands_lt shape
  | named base args => cases forgotten
  | _ => exact light _

section

variable {ns : Namespace} {expanded : List String} {stack rest : List Demand} {e t : Ty}
  {methods : List (Method Ty)} {limit : Nat}

def Skipped (expanded : List String) (t : Ty) : Prop :=
  ∃ key ∈ expanded, instantiation? t = some key

theorem any_expanded_iff :
    (instantiation? t).toList.any (· ∈ expanded) = true ↔ Skipped expanded t := by
  cases found : instantiation? t <;> simp [Skipped, found]

theorem demandedMethods_skip (skipped : Skipped expanded e) :
    demandedMethods ns (limit + 1) expanded (.embedded e :: rest) =
      demandedMethods ns limit expanded rest := by
  rw [demandedMethods, if_pos (any_expanded_iff.mpr skipped)]

theorem demandedMethods_expand (fresh : ¬ Skipped expanded e) :
    demandedMethods ns (limit + 1) expanded (.embedded e :: rest) =
      demandedMethods ns limit ((instantiation? e).toList ++ expanded)
        (innerDemands ns e ++ rest) := by
  rw [demandedMethods, if_neg fun known => fresh (any_expanded_iff.mp known)]
  rfl

inductive Collects (ns : Namespace) :
    List String → List Demand → List (Method Ty) → Prop where
  | nil {expanded : List String} : Collects ns expanded [] []
  | method {expanded : List String} {m : Method Ty} {rest : List Demand}
      {methods : List (Method Ty)} (later : Collects ns expanded rest methods) :
      Collects ns expanded (.method m :: rest) (m :: methods)
  | skip {expanded : List String} {e : Ty} {rest : List Demand} {methods : List (Method Ty)}
      (skipped : Skipped expanded e) (later : Collects ns expanded rest methods) :
      Collects ns expanded (.embedded e :: rest) methods
  | expand {expanded : List String} {e : Ty} {rest : List Demand} {methods : List (Method Ty)}
      (fresh : ¬ Skipped expanded e)
      (inner : Collects ns ((instantiation? e).toList ++ expanded) (innerDemands ns e ++ rest)
        methods) :
      Collects ns expanded (.embedded e :: rest) methods

theorem Collects.of_demandedMethods
    (found : demandedMethods ns limit expanded stack = some methods) :
    Collects ns expanded stack methods := by
  induction limit generalizing expanded stack methods with
  | zero =>
      cases stack with
      | nil =>
          cases found
          exact .nil
      | cons demand rest => cases found
  | succ limit ih =>
      cases stack with
      | nil =>
          cases found
          exact .nil
      | cons demand rest =>
          cases demand with
          | method m =>
              rw [demandedMethods] at found
              rcases Option.map_eq_some_iff.mp found with ⟨others, later, rfl⟩
              exact .method (ih later)
          | embedded e =>
              by_cases skipped : Skipped expanded e
              · rw [demandedMethods_skip skipped] at found
                exact .skip skipped (ih found)
              · rw [demandedMethods_expand skipped] at found
                exact .expand skipped (ih found)

theorem Collects.exists_limit (collects : Collects ns expanded stack methods) :
    ∃ limit, demandedMethods ns limit expanded stack = some methods := by
  induction collects with
  | nil => exact ⟨0, rfl⟩
  | method _ ih =>
      obtain ⟨limit, found⟩ := ih
      refine ⟨limit + 1, ?_⟩
      rw [demandedMethods, found]
      rfl
  | skip skipped _ ih =>
      obtain ⟨limit, found⟩ := ih
      exact ⟨limit + 1, by rw [demandedMethods_skip skipped, found]⟩
  | expand fresh _ ih =>
      obtain ⟨limit, found⟩ := ih
      exact ⟨limit + 1, by rw [demandedMethods_expand fresh, found]⟩

theorem hasMethodSet_iff {shape : Interface Ty} :
    HasMethodSet ns shape methods ↔
      ∃ all, Collects ns [] shape.demands all ∧ firstOfEachName all = methods := by
  constructor
  · rintro ⟨limit, found⟩
    obtain ⟨all, collected, same⟩ := Option.map_eq_some_iff.mp found
    exact ⟨all, .of_demandedMethods collected, same⟩
  · rintro ⟨all, collects, rfl⟩
    obtain ⟨limit, found⟩ := collects.exists_limit
    exact ⟨limit, by rw [methodSet, found, Option.map_some]⟩

end

/-- Collection ends on demands from a set that embedding does not leave and that has finitely many
instantiations: each is expanded once, and all else that is expanded gets lighter. -/
theorem exists_collects {ns : Namespace} {inside : Ty → Prop} {keys : List String}
    (closed : ∀ t u, inside t → Expands ns t u → inside u)
    (listed : ∀ t key, inside t → instantiation? t = some key → key ∈ keys)
    (expanded : List String) (stack : List Demand)
    (within : ∀ t, Demand.embedded t ∈ stack → inside t) :
    ∃ methods, Collects ns expanded stack methods := by
  match stack with
  | [] => exact ⟨[], .nil⟩
  | .method m :: rest =>
      have tail : ∀ t, Demand.embedded t ∈ rest → inside t :=
        fun t member => within t (List.mem_cons_of_mem _ member)
      obtain ⟨methods, later⟩ := exists_collects closed listed expanded rest tail
      exact ⟨m :: methods, .method later⟩
  | .embedded type :: rest =>
      have tail : ∀ t, Demand.embedded t ∈ rest → inside t :=
        fun t member => within t (List.mem_cons_of_mem _ member)
      have here : inside type := within type List.mem_cons_self
      by_cases skipped : Skipped expanded type
      · obtain ⟨methods, later⟩ := exists_collects closed listed expanded rest tail
        exact ⟨methods, .skip skipped later⟩
      · obtain ⟨methods, inner⟩ := exists_collects closed listed
          ((instantiation? type).toList ++ expanded) (innerDemands ns type ++ rest)
          (inside_expand closed within)
        exact ⟨methods, .expand skipped inner⟩
termination_by (unseen keys expanded, (stack.map Demand.weight).sum)
decreasing_by
  · apply Prod.Lex.right
    simp only [List.map_cons, List.sum_cons, Demand.weight]
    omega
  · apply Prod.Lex.right
    simp only [List.map_cons, List.sum_cons, Demand.weight]
    omega
  · cases remembered : instantiation? type with
    | none =>
        apply Prod.Lex.right
        have lighter : ((innerDemands ns type).map Demand.weight).sum <
            (Demand.embedded type).weight := sum_weight_innerDemands_lt remembered
        simp only [List.map_append, List.sum_append, List.map_cons, List.sum_cons]
        omega
    | some key =>
        have fresh : key ∉ expanded := fun known => skipped ⟨key, known, remembered⟩
        exact Prod.Lex.left _ _ (unseen_extend_lt (listed type key here remembered) fresh)

def Interface.LeadsTo (ns : Namespace) (shape : Interface Ty) (t : Ty) : Prop :=
  Relation.ReflTransGen (Expands ns) (.interface shape) t

theorem leadsTo_of_mem_demands {ns : Namespace} {shape : Interface Ty} {t : Ty}
    (member : Demand.embedded t ∈ shape.demands) : shape.LeadsTo ns t :=
  .single ⟨shape, rfl, embedded_mem_demands.mp member⟩

theorem leadsTo_closed {ns : Namespace} {shape : Interface Ty} (t u : Ty)
    (leads : shape.LeadsTo ns t) (step : Expands ns t u) : shape.LeadsTo ns u :=
  leads.tail step

theorem exists_instantiations {ns : Namespace} {shape : Interface Ty}
    (finite : {t | shape.LeadsTo ns t ∧ (instantiation? t).isSome}.Finite) :
    ∃ keys : List String, ∀ t key, shape.LeadsTo ns t → instantiation? t = some key →
      key ∈ keys := by
  refine ⟨finite.toFinset.toList.filterMap instantiation?, ?_⟩
  intro t key leads found
  have member : t ∈ finite.toFinset.toList := by simp [leads, found]
  exact List.mem_filterMap.mpr ⟨t, member, found⟩

theorem exists_hasMethodSet_of_finite {ns : Namespace} {shape : Interface Ty}
    (finite : {t | shape.LeadsTo ns t ∧ (instantiation? t).isSome}.Finite) :
    ∃ methods, HasMethodSet ns shape methods := by
  obtain ⟨keys, listed⟩ := exists_instantiations finite
  obtain ⟨all, collects⟩ := exists_collects leadsTo_closed listed [] shape.demands
    fun t => leadsTo_of_mem_demands
  exact ⟨firstOfEachName all, hasMethodSet_iff.mpr ⟨all, collects, rfl⟩⟩

theorem exists_hasMethodSet {ns : Namespace} (finite : ns.FiniteEmbedding) (shape : Interface Ty) :
    ∃ methods, HasMethodSet ns shape methods :=
  exists_hasMethodSet_of_finite ((finite (.interface shape)).subset fun _ given => given.1)

def Method.IsOwnIn (p : Ty → Prop) (m : Method Ty) : Prop :=
  ∃ shape : Interface Ty, m ∈ shape.methods ∧ Ty.Every p (.interface shape)

theorem mem_firstOfEachName {methods : List (Method Ty)} {m : Method Ty}
    (member : m ∈ firstOfEachName methods) : m ∈ methods := by
  induction methods with
  | nil => exact member
  | cons first rest ih =>
      rcases List.mem_cons.mp member with rfl | later
      · exact List.mem_cons_self
      · exact List.mem_cons_of_mem _ (ih (List.mem_filter.mp later).1)

theorem nodup_firstOfEachName (methods : List (Method Ty)) :
    ((firstOfEachName methods).map (·.name)).Nodup := by
  induction methods with
  | nil => exact List.nodup_nil
  | cons first rest ih =>
      refine List.nodup_cons.mpr ⟨?_, ih.sublist (List.filter_sublist.map _)⟩
      simp [List.mem_filter]

theorem HasMethodSet.eq_of_name {ns : Namespace} {shape : Interface Ty}
    {methods : List (Method Ty)} (has : HasMethodSet ns shape methods) {m m' : Method Ty}
    (asked : m ∈ methods) (asked' : m' ∈ methods) (same : m.name = m'.name) : m = m' := by
  obtain ⟨all, _, rfl⟩ := hasMethodSet_iff.mp has
  exact List.inj_on_of_nodup_map (nodup_firstOfEachName all) asked asked' same

def Demand.Within (p : Ty → Prop) : Demand → Prop
  | .embedded type => Ty.Every p type
  | .method m => m.IsOwnIn p

theorem within_of_mem_demands {p : Ty → Prop} {shape : Interface Ty} {demand : Demand}
    (every : Ty.Every p (.interface shape)) (member : demand ∈ shape.demands) :
    demand.Within p := by
  cases demand with
  | embedded t => exact every.child (List.mem_append_left _ (embedded_mem_demands.mp member))
  | method m => exact ⟨shape, method_mem_demands.mp member, every⟩

section

variable {ns : Namespace} {p : Ty → Prop}
  (inherit : ∀ t shape, Ty.Every p t → interfaceOf? ns t = some shape →
    Ty.Every p (.interface shape))

include inherit

theorem Collects.own {expanded : List String} {stack : List Demand} {methods : List (Method Ty)}
    (collects : Collects ns expanded stack methods) (within : ∀ demand ∈ stack, demand.Within p) :
    ∀ m ∈ methods, m.IsOwnIn p := by
  induction collects with
  | nil => exact fun m member => absurd member List.not_mem_nil
  | @method _ first rest _ _ ih =>
      intro m member
      rcases List.mem_cons.mp member with rfl | later
      · exact within (.method m) List.mem_cons_self
      · exact ih (fun demand inside => within demand (List.mem_cons_of_mem _ inside)) m later
  | skip _ _ ih => exact ih fun demand inside => within demand (List.mem_cons_of_mem _ inside)
  | @expand _ e rest _ _ _ ih =>
      apply ih
      intro demand member
      rcases List.mem_append.mp member with inner | outer
      · obtain ⟨shape, stands, demanded⟩ := mem_innerDemands inner
        exact within_of_mem_demands (inherit e shape (within _ List.mem_cons_self) stands) demanded
      · exact within demand (List.mem_cons_of_mem _ outer)

theorem HasMethodSet.own {shape : Interface Ty} {methods : List (Method Ty)}
    (has : HasMethodSet ns shape methods) (every : Ty.Every p (.interface shape)) :
    ∀ m ∈ methods, m.IsOwnIn p := by
  obtain ⟨all, collects, rfl⟩ := hasMethodSet_iff.mp has
  intro m member
  exact collects.own inherit (fun demand inside => within_of_mem_demands every inside) m
    (mem_firstOfEachName member)

end

end Replica
