import Replica.Proofs.MethodSet

/-!
Interfaces with all that they embed written out. The search for methods expands an instantiation
once only. Main statement: where Go text tells the instantiations apart, it finds a method for each
name that is declared anywhere on the way; and where nothing embeds itself it finds what comes first
when every embedding is written out again.
-/

namespace Replica

variable {ns : Namespace} {shape inner : Interface Ty} {e t u : Ty} {m : Method Ty}
  {methods : List (Method Ty)} {expanded : List String} {stack rest : List Demand} {depth : Nat}

theorem mem_names_firstOfEachName {name : String} :
    name ∈ (firstOfEachName methods).map (·.name) ↔ name ∈ methods.map (·.name) := by
  induction methods with
  | nil => rfl
  | cons first rest ih =>
      have kept : name ∈ ((firstOfEachName rest).filter (·.name != first.name)).map (·.name) ↔
          name ∈ (firstOfEachName rest).map (·.name) ∧ name ≠ first.name := by
        simp only [List.mem_map, List.mem_filter, bne_iff_ne]
        grind
      rw [firstOfEachName, List.map_cons, List.mem_cons, kept, ih, List.map_cons, List.mem_cons]
      tauto

theorem firstOfEachName_append (first second : List (Method Ty)) :
    firstOfEachName (first ++ second) = firstOfEachName first ++
      (firstOfEachName second).filter fun m => decide (m.name ∉ first.map (·.name)) := by
  induction first with
  | nil => simp [firstOfEachName]
  | cons m rest ih =>
      rw [List.cons_append, firstOfEachName, firstOfEachName, ih, List.filter_append,
        List.filter_filter, List.cons_append]
      congr 2
      apply List.filter_congr
      intro other _
      apply Bool.eq_iff_iff.mpr
      rw [Bool.and_eq_true, bne_iff_ne, decide_eq_true_iff, decide_eq_true_iff, List.map_cons,
        List.mem_cons, not_or]

def Preceded (before methods : List (Method Ty)) : Prop :=
  ∀ m ∈ methods, m.name ∈ before.map (·.name)

theorem Preceded.later {before : List (Method Ty)} (preceded : Preceded before methods)
    (more : List (Method Ty)) : Preceded (before ++ more) methods := by
  intro m member
  rw [List.map_append]
  exact List.mem_append_left _ (preceded m member)

theorem preceded_append (before : List (Method Ty)) : Preceded (before ++ methods) methods := by
  intro m member
  rw [List.map_append]
  exact List.mem_append_right _ (List.mem_map_of_mem member)

theorem firstOfEachName_append_of_preceded {first second : List (Method Ty)}
    (known : Preceded first second) :
    firstOfEachName (first ++ second) = firstOfEachName first := by
  have none : (firstOfEachName second).filter
      (fun m => decide (m.name ∉ first.map (·.name))) = [] := by
    apply List.filter_eq_nil_iff.mpr
    intro m member
    have named := known m (mem_firstOfEachName member)
    simpa using named
  rw [firstOfEachName_append, none, List.append_nil]

theorem firstOfEachName_append_left {first first' : List (Method Ty)}
    (same : firstOfEachName first = firstOfEachName first') (second : List (Method Ty)) :
    firstOfEachName (first ++ second) = firstOfEachName (first' ++ second) := by
  have names : ∀ name, name ∈ first.map (·.name) ↔ name ∈ first'.map (·.name) := by
    intro name
    rw [← mem_names_firstOfEachName, same, mem_names_firstOfEachName]
  rw [firstOfEachName_append, firstOfEachName_append, same]
  simp only [names]

/-- Go text tells the instantiations apart that embedding leads to. -/
def Interface.TellsApart (ns : Namespace) (shape : Interface Ty) : Prop :=
  ∀ t u key, shape.LeadsTo ns t → shape.LeadsTo ns u → instantiation? t = some key →
    instantiation? u = some key → t = u

/-- `m` is declared in the interface or in one that embedding leads to. -/
def Interface.Declares (ns : Namespace) (shape : Interface Ty) (m : Method Ty) : Prop :=
  ∃ t inner, shape.LeadsTo ns t ∧ interfaceOf? ns t = some inner ∧ m ∈ inner.methods

def LeadsAround (ns : Namespace) (expanded : List String) : Ty → Ty → Prop :=
  Relation.ReflTransGen fun outer inner => Expands ns outer inner ∧ ¬ Skipped expanded inner

/-- `m` is demanded as such, or by an element that is not skipped and that leads to it. -/
def Demand.Brings (ns : Namespace) (expanded : List String) (m : Method Ty) : Demand → Prop
  | .method own => m = own
  | .embedded e => ¬ Skipped expanded e ∧
      ∃ t inner, LeadsAround ns expanded e t ∧ interfaceOf? ns t = some inner ∧ m ∈ inner.methods

theorem skipped_cons_iff (e : Ty) : Skipped ((instantiation? e).toList ++ expanded) t ↔
    (∃ key, instantiation? e = some key ∧ instantiation? t = some key) ∨ Skipped expanded t := by
  cases instantiation? e <;> simp [Skipped]

theorem Skipped.mono {more : List String} (skipped : Skipped expanded t)
    (longer : ∀ key ∈ expanded, key ∈ more) : Skipped more t := by
  obtain ⟨key, known, found⟩ := skipped
  exact ⟨key, longer key known, found⟩

theorem LeadsAround.fewer {more : List String} (path : LeadsAround ns more t u)
    (longer : ∀ key ∈ expanded, key ∈ more) : LeadsAround ns expanded t u := by
  refine Relation.ReflTransGen.mono ?_ _ _ path
  exact fun outer inner step => ⟨step.1, fun skipped => step.2 (skipped.mono longer)⟩

theorem Demand.Brings.fewer {more : List String} {demand : Demand}
    (brings : demand.Brings ns more m) (longer : ∀ key ∈ expanded, key ∈ more) :
    demand.Brings ns expanded m := by
  cases demand with
  | method own => exact brings
  | embedded e =>
      obtain ⟨fresh, t, inner, path, stands, listed⟩ := brings
      exact ⟨fun skipped => fresh (skipped.mono longer), t, inner, path.fewer longer, stands,
        listed⟩

theorem mem_innerDemands_iff {demand : Demand} : demand ∈ innerDemands ns t ↔
    ∃ shape, interfaceOf? ns t = some shape ∧ demand ∈ shape.demands := by
  refine ⟨mem_innerDemands, ?_⟩
  rintro ⟨shape, stands, demanded⟩
  rw [innerDemands, stands]
  exact demanded

theorem exists_innerDemands_brings (path : LeadsAround ns expanded e t)
    (stands : interfaceOf? ns t = some inner) (listed : m ∈ inner.methods) :
    ∃ demand ∈ innerDemands ns e, demand.Brings ns expanded m := by
  rcases Relation.ReflTransGen.cases_head path with rfl | ⟨u, ⟨⟨shape, own, member⟩, fresh⟩, rest⟩
  · exact ⟨.method m, mem_innerDemands_iff.mpr ⟨inner, stands, method_mem_demands.mpr listed⟩, rfl⟩
  · refine ⟨.embedded u, mem_innerDemands_iff.mpr ⟨shape, own, embedded_mem_demands.mpr member⟩, ?_⟩
    exact ⟨fresh, t, inner, rest, stands, listed⟩

theorem Demand.Brings.of_innerDemands {demand : Demand} (member : demand ∈ innerDemands ns e)
    (brings : demand.Brings ns expanded m) :
    ∃ t inner, LeadsAround ns expanded e t ∧ interfaceOf? ns t = some inner ∧
      m ∈ inner.methods := by
  obtain ⟨shape, stands, demanded⟩ := mem_innerDemands member
  cases demand with
  | method own =>
      cases brings
      exact ⟨e, shape, .refl, stands, method_mem_demands.mp demanded⟩
  | embedded u =>
      obtain ⟨fresh, t, inner, path, stands', listed⟩ := brings
      have step : Expands ns e u := ⟨shape, stands, embedded_mem_demands.mp demanded⟩
      exact ⟨t, inner, .head ⟨step, fresh⟩ path, stands', listed⟩

section

variable {inside : Ty → Prop} (closed : ∀ t u, inside t → Expands ns t u → inside u)
  (apart : ∀ t u key, inside t → inside u → instantiation? t = some key →
    instantiation? u = some key → t = u)

include closed apart

theorem LeadsAround.restart (here : inside e) (within : inside t)
    (path : LeadsAround ns expanded t u) :
    LeadsAround ns ((instantiation? e).toList ++ expanded) t u ∨
      LeadsAround ns ((instantiation? e).toList ++ expanded) e u := by
  have both : inside u ∧ (LeadsAround ns ((instantiation? e).toList ++ expanded) t u ∨
      LeadsAround ns ((instantiation? e).toList ++ expanded) e u) := by
    induction path with
    | refl => exact ⟨within, .inl .refl⟩
    | @tail v w _ step ih =>
        have next : inside w := closed v w ih.1 step.1
        refine ⟨next, ?_⟩
        by_cases skipped : Skipped ((instantiation? e).toList ++ expanded) w
        · rcases (skipped_cons_iff e).mp skipped with ⟨key, found, found'⟩ | earlier
          · rw [← apart e w key here next found found']
            exact .inr .refl
          · exact absurd earlier step.2
        · exact ih.2.imp (·.tail ⟨step.1, skipped⟩) (·.tail ⟨step.1, skipped⟩)
  exact both.2

theorem brings_expand_iff {rest : List Demand} (here : inside e) (fresh : ¬ Skipped expanded e)
    (tail : ∀ u, Demand.embedded u ∈ rest → inside u) :
    (∃ demand ∈ innerDemands ns e ++ rest,
      demand.Brings ns ((instantiation? e).toList ++ expanded) m) ↔
    ∃ demand ∈ .embedded e :: rest, demand.Brings ns expanded m := by
  have longer : ∀ key ∈ expanded, key ∈ (instantiation? e).toList ++ expanded :=
    fun key => List.mem_append_right _
  constructor
  · rintro ⟨demand, member, brings⟩
    rcases List.mem_append.mp member with inner | outer
    · obtain ⟨t, inner, path, stands, listed⟩ := brings.of_innerDemands inner
      exact ⟨.embedded e, List.mem_cons_self, fresh, t, inner, path.fewer longer, stands, listed⟩
    · exact ⟨demand, List.mem_cons_of_mem _ outer, brings.fewer longer⟩
  · have expand : ∀ {t inner}, LeadsAround ns ((instantiation? e).toList ++ expanded) e t →
        interfaceOf? ns t = some inner → m ∈ inner.methods →
        ∃ demand ∈ innerDemands ns e ++ rest,
          demand.Brings ns ((instantiation? e).toList ++ expanded) m := by
      intro t inner path stands listed
      obtain ⟨demand, member, brings⟩ := exists_innerDemands_brings path stands listed
      exact ⟨demand, List.mem_append_left _ member, brings⟩
    rintro ⟨demand, member, brings⟩
    rcases List.mem_cons.mp member with rfl | outer
    · obtain ⟨_, t, inner, path, stands, listed⟩ := brings
      have around := (path.restart closed apart here here).elim id id
      exact expand around stands listed
    · cases demand with
      | method own => exact ⟨.method own, List.mem_append_right _ outer, brings⟩
      | embedded u =>
          obtain ⟨fresh', t, inner, path, stands, listed⟩ := brings
          have within : inside u := tail u outer
          rcases path.restart closed apart here within with around | again
          · by_cases skipped : Skipped ((instantiation? e).toList ++ expanded) u
            · -- Only `e` itself is skipped from now on that was not skipped before.
              rcases (skipped_cons_iff e).mp skipped with ⟨key, found, found'⟩ | earlier
              · rw [← apart e u key here within found found'] at around
                exact expand around stands listed
              · exact absurd earlier fresh'
            · refine ⟨.embedded u, List.mem_append_right _ outer, skipped, t, inner, around, ?_⟩
              exact ⟨stands, listed⟩
          · exact expand again stands listed

theorem Collects.mem_iff (collects : Collects ns expanded stack methods)
    (within : ∀ e, Demand.embedded e ∈ stack → inside e) :
    m ∈ methods ↔ ∃ demand ∈ stack, demand.Brings ns expanded m := by
  induction collects with
  | nil => simp
  | method _ ih =>
      have tail := ih fun e member => within e (List.mem_cons_of_mem _ member)
      rw [List.mem_cons, List.exists_mem_cons_iff, tail, Demand.Brings]
  | skip skipped _ ih =>
      rw [ih fun e member => within e (List.mem_cons_of_mem _ member), List.exists_mem_cons_iff]
      exact (or_iff_right fun brings => brings.1 skipped).symm
  | @expand _ e rest _ fresh _ ih =>
      have here : inside e := within e List.mem_cons_self
      have tail : ∀ u, Demand.embedded u ∈ rest → inside u :=
        fun u member => within u (List.mem_cons_of_mem _ member)
      rw [ih (inside_expand closed within), brings_expand_iff closed apart here fresh tail]

end

theorem HasMethodSet.names_nodup (has : HasMethodSet ns shape methods) :
    (methods.map (·.name)).Nodup := by
  obtain ⟨all, _, rfl⟩ := hasMethodSet_iff.mp has
  exact nodup_firstOfEachName all

theorem HasMethodSet.declares (has : HasMethodSet ns shape methods) (apart : shape.TellsApart ns) :
    (∀ m ∈ methods, shape.Declares ns m) ∧
      ∀ m, shape.Declares ns m → m.name ∈ methods.map (·.name) := by
  obtain ⟨all, collects, rfl⟩ := hasMethodSet_iff.mp has
  have declared : ∀ m, m ∈ all ↔ shape.Declares ns m := by
    intro m
    rw [collects.mem_iff leadsTo_closed apart fun t => leadsTo_of_mem_demands]
    constructor
    · rintro ⟨demand, member, brings⟩
      obtain ⟨t, inner, path, found⟩ := brings.of_innerDemands (e := .interface shape) member
      exact ⟨t, inner, Relation.ReflTransGen.mono (fun _ _ step => step.1) _ _ path, found⟩
    · rintro ⟨t, inner, leads, stands, listed⟩
      have around : LeadsAround ns [] (.interface shape) t :=
        Relation.ReflTransGen.mono (fun _ _ step => ⟨step, fun ⟨_, absent, _⟩ => nomatch absent⟩)
          _ _ leads
      exact exists_innerDemands_brings around stands listed
  refine ⟨fun m member => (declared m).mp (mem_firstOfEachName member), fun m declares => ?_⟩
  exact mem_names_firstOfEachName.mpr (List.mem_map_of_mem ((declared m).mpr declares))

/-- The methods of an interface with its embeddings written out, `depth` of them inside each other:
those of what is embedded, from left to right, and then its own. -/
def writtenOut (ns : Namespace) : (depth : Nat) → Interface Ty → List (Method Ty)
  | 0, shape => shape.methods
  | depth + 1, shape =>
    (shape.embedded.flatMap fun t => match interfaceOf? ns t with
      | some inner => writtenOut ns depth inner
      | none => []) ++ shape.methods

def Demand.writtenOut (ns : Namespace) (depth : Nat) : Demand → List (Method Ty)
  | .method m => [m]
  | .embedded t => match interfaceOf? ns t with
    | some inner => Replica.writtenOut ns depth inner
    | none => []

theorem writtenOut_succ (depth : Nat) (shape : Interface Ty) :
    writtenOut ns (depth + 1) shape = shape.demands.flatMap (Demand.writtenOut ns depth) := by
  have own : (shape.methods.map Demand.method).flatMap (Demand.writtenOut ns depth) =
      shape.methods := by
    rw [List.flatMap_map]
    exact List.flatMap_singleton' shape.methods
  rw [Interface.demands, List.flatMap_append, own, List.flatMap_map]
  rfl

/-- No more than `depth` elements are embedded inside each other. -/
def EmbedsWithin (ns : Namespace) : (depth : Nat) → Ty → Prop
  | 0, t => ∀ u, ¬ Expands ns t u
  | depth + 1, t => ∀ u, Expands ns t u → EmbedsWithin ns depth u

theorem EmbedsWithin.mono {depth more : Nat} (embeds : EmbedsWithin ns depth t)
    (le : depth ≤ more) : EmbedsWithin ns more t := by
  induction depth generalizing t more with
  | zero =>
      cases more with
      | zero => exact embeds
      | succ more => exact fun u step => absurd step (embeds u)
  | succ depth ih =>
      obtain ⟨more, rfl⟩ : ∃ rest, more = rest + 1 := ⟨more - 1, by omega⟩
      exact fun u step => ih (embeds u step) (by omega)

theorem EmbedsWithin.step {depth : Nat} (embeds : EmbedsWithin ns depth t)
    (step : Expands ns t u) : EmbedsWithin ns depth u := by
  cases depth with
  | zero => exact absurd step (embeds u)
  | succ depth => exact (embeds u step).mono (Nat.le_succ depth)

theorem writtenOut_eq {depth more : Nat} (stands : interfaceOf? ns t = some shape)
    (embeds : EmbedsWithin ns depth t) (le : depth ≤ more) :
    writtenOut ns more shape = writtenOut ns depth shape := by
  induction depth generalizing t shape more with
  | zero =>
      have none : shape.embedded = [] :=
        List.eq_nil_iff_forall_not_mem.mpr fun u member => embeds u ⟨shape, stands, member⟩
      cases more with
      | zero => rfl
      | succ more => simp only [writtenOut, none, List.flatMap_nil, List.nil_append]
  | succ depth ih =>
      obtain ⟨more, rfl⟩ : ∃ rest, more = rest + 1 := ⟨more - 1, by omega⟩
      rw [writtenOut, writtenOut]
      congr 1
      apply List.flatMap_congr
      intro u member
      split
      · rename_i inner stands'
        exact ih stands' (embeds u ⟨shape, stands, member⟩) (by omega)
      · rfl

theorem exists_common_depth {ts : List Ty} (each : ∀ t ∈ ts, ∃ depth, EmbedsWithin ns depth t) :
    ∃ depth, ∀ t ∈ ts, EmbedsWithin ns depth t := by
  induction ts with
  | nil => exact ⟨0, nofun⟩
  | cons t rest ih =>
      obtain ⟨first, here⟩ := each t List.mem_cons_self
      obtain ⟨others, later⟩ := ih fun u member => each u (List.mem_cons_of_mem _ member)
      refine ⟨max first others, fun u member => ?_⟩
      rcases List.mem_cons.mp member with rfl | inRest
      · exact here.mono (le_max_left _ _)
      · exact (later u inRest).mono (le_max_right _ _)

theorem Expands.sizeOf_lt (step : Expands ns t u) (forgotten : instantiation? t = none) :
    sizeOf u < sizeOf t := by
  obtain ⟨shape, stands, member⟩ := step
  cases t with
  | interface own =>
      cases stands
      exact Ty.sizeOf_child_lt (List.mem_append_left _ member)
  | named base args => cases forgotten
  | _ => cases stands

section

variable {inside : Ty → Prop} {keys : List String}
  (closed : ∀ t u, inside t → Expands ns t u → inside u)
  (listed : ∀ t key, inside t → instantiation? t = some key → key ∈ keys)
  (apart : ∀ t u key, inside t → inside u → instantiation? t = some key →
    instantiation? u = some key → t = u)
  (acyclic : ∀ t, inside t → ¬ Relation.TransGen (Expands ns) t t)

include closed listed apart acyclic

/-- Embedding goes no deeper than some depth. `path` holds what led to `t`; no instantiation in it
can be met again. -/
theorem exists_embedsWithin (path : List Ty) (t : Ty) (here : inside t)
    (led : ∀ p ∈ path, inside p ∧ Relation.TransGen (Expands ns) p t) :
    ∃ depth, EmbedsWithin ns depth t := by
  cases stands : interfaceOf? ns t with
  | none =>
      refine ⟨0, fun u step => ?_⟩
      obtain ⟨shape, stands', _⟩ := step
      rw [stands] at stands'
      cases stands'
  | some shape =>
      have each : ∀ u ∈ shape.embedded, ∃ depth, EmbedsWithin ns depth u := by
        intro u member
        have step : Expands ns t u := ⟨shape, stands, member⟩
        have led' : ∀ p ∈ path, inside p ∧ Relation.TransGen (Expands ns) p u :=
          fun p passed => ⟨(led p passed).1, (led p passed).2.tail step⟩
        -- A step meets an instantiation that is new on the path, or leads to a part of the type.
        cases remembered : instantiation? t with
        | none =>
            have smaller : sizeOf u < sizeOf t := step.sizeOf_lt remembered
            exact exists_embedsWithin path u (closed t u here step) led'
        | some key =>
            have fresh : key ∉ path.filterMap instantiation? := by
              intro member
              obtain ⟨p, passed, found⟩ := List.mem_filterMap.mp member
              have same := apart p t key (led p passed).1 here found remembered
              exact acyclic t here (same ▸ (led p passed).2)
            have fewer : unseen keys ((t :: path).filterMap instantiation?) <
                unseen keys (path.filterMap instantiation?) := by
              rw [List.filterMap_cons_some remembered]
              exact unseen_extend_lt (listed t key here remembered) fresh
            refine exists_embedsWithin (t :: path) u (closed t u here step) ?_
            intro p passed
            rcases List.mem_cons.mp passed with rfl | earlier
            · exact ⟨here, .single step⟩
            · exact led' p earlier
      obtain ⟨depth, below⟩ := exists_common_depth each
      refine ⟨depth + 1, fun u step => ?_⟩
      obtain ⟨shape', stands', member⟩ := step
      rw [stands] at stands'
      cases stands'
      exact below u member
termination_by (unseen keys (path.filterMap instantiation?), sizeOf t)

end

/-- Whatever is skipped on the way from an element of the stack has all its methods before that
element, in `before` or in what precedes it on the stack. -/
def Accounted (ns : Namespace) (depth : Nat) (expanded : List String) :
    List (Method Ty) → List Demand → Prop
  | _, [] => True
  | before, demand :: rest =>
    (∀ e u, demand = .embedded e → Relation.ReflTransGen (Expands ns) e u → Skipped expanded u →
      Preceded before (Demand.writtenOut ns depth (.embedded u))) ∧
    Accounted ns depth expanded (before ++ demand.writtenOut ns depth) rest

section

variable {depth : Nat} {before : List (Method Ty)} {rest : List Demand}

theorem accounted_nil : Accounted ns depth [] before stack := by
  induction stack generalizing before with
  | nil => trivial
  | cons demand rest ih => exact ⟨fun e u _ _ ⟨_, absent, _⟩ => absurd absent List.not_mem_nil, ih⟩

theorem accounted_append {first : List Demand} :
    Accounted ns depth expanded before (first ++ rest) ↔
      Accounted ns depth expanded before first ∧
        Accounted ns depth expanded (before ++ first.flatMap (Demand.writtenOut ns depth))
          rest := by
  induction first generalizing before with
  | nil => simp [Accounted]
  | cons demand others ih =>
      simp only [List.cons_append, Accounted, ih, List.flatMap_cons, List.append_assoc, and_assoc]

theorem Accounted.congr {before' : List (Method Ty)}
    (accounted : Accounted ns depth expanded before stack)
    (names : ∀ name, name ∈ before.map (·.name) → name ∈ before'.map (·.name)) :
    Accounted ns depth expanded before' stack := by
  induction stack generalizing before before' with
  | nil => trivial
  | cons demand rest ih =>
      refine ⟨fun e u same path skipped m member =>
        names _ (accounted.1 e u same path skipped m member), ih accounted.2 fun name member => ?_⟩
      rw [List.map_append, List.mem_append] at member ⊢
      exact member.imp_left (names name)

/-- What is skipped on the way from an element precedes all that stands for the element, unless it
is the element itself. -/
theorem accounted_of_reached {demands : List Demand}
    (covered : ∀ u, Relation.TransGen (Expands ns) e u → Skipped expanded u →
      Preceded before (Demand.writtenOut ns depth (.embedded u)))
    (reached : ∀ a, Demand.embedded a ∈ demands → Expands ns e a) :
    Accounted ns depth expanded before demands := by
  induction demands generalizing before with
  | nil => trivial
  | cons demand rest ih =>
      refine ⟨?_, ih (fun u path skipped => (covered u path skipped).later _) fun a member =>
        reached a (List.mem_cons_of_mem _ member)⟩
      rintro a u rfl path skipped
      exact covered u (.head' (reached a List.mem_cons_self) path) skipped

theorem inside_of_path {inside : Ty → Prop} (closed : ∀ t u, inside t → Expands ns t u → inside u)
    (here : inside t) (path : Relation.ReflTransGen (Expands ns) t u) : inside u := by
  induction path with
  | refl => exact here
  | tail _ step ih => exact closed _ _ ih step

section

variable {inside : Ty → Prop} (closed : ∀ t u, inside t → Expands ns t u → inside u)
  (apart : ∀ t u key, inside t → inside u → instantiation? t = some key →
    instantiation? u = some key → t = u)

include closed apart

theorem Accounted.remember (accounted : Accounted ns depth expanded before stack)
    (here : inside e) (within : ∀ a, Demand.embedded a ∈ stack → inside a)
    (come : Preceded before (Demand.writtenOut ns depth (.embedded e))) :
    Accounted ns depth ((instantiation? e).toList ++ expanded) before stack := by
  induction stack generalizing before with
  | nil => trivial
  | cons demand rest ih =>
      refine ⟨?_, ih accounted.2 (fun a member => within a (List.mem_cons_of_mem _ member))
        (come.later _)⟩
      rintro a u rfl path skipped
      have next : inside u := inside_of_path closed (within a List.mem_cons_self) path
      rcases (skipped_cons_iff e).mp skipped with ⟨key, found, found'⟩ | earlier
      · rw [← apart e u key here next found found']
        exact come
      · exact accounted.1 a u rfl path earlier

variable (acyclic : ∀ t, inside t → ¬ Relation.TransGen (Expands ns) t t)
  (whole : ∀ t, inside t → Demand.writtenOut ns depth (.embedded t) =
    (innerDemands ns t).flatMap (Demand.writtenOut ns depth))

include acyclic whole

theorem Accounted.expand (accounted : Accounted ns depth expanded before (.embedded e :: rest))
    (here : inside e) (within : ∀ a, Demand.embedded a ∈ rest → inside a) :
    Accounted ns depth ((instantiation? e).toList ++ expanded) before
      (innerDemands ns e ++ rest) := by
  rw [accounted_append, ← whole e here]
  refine ⟨accounted_of_reached (e := e) ?_ fun a => expands_of_mem_innerDemands,
    accounted.2.remember closed apart here within (preceded_append _)⟩
  intro u path skipped
  have next : inside u := inside_of_path closed here path.to_reflTransGen
  rcases (skipped_cons_iff e).mp skipped with ⟨key, found, found'⟩ | earlier
  · rw [← apart e u key here next found found'] at path
    exact absurd path (acyclic e here)
  · exact accounted.1 e u rfl path.to_reflTransGen earlier

theorem Collects.firstOfEachName_eq (collects : Collects ns expanded stack methods)
    (within : ∀ e, Demand.embedded e ∈ stack → inside e)
    (accounted : Accounted ns depth expanded before stack) :
    firstOfEachName (before ++ methods) =
      firstOfEachName (before ++ stack.flatMap (Demand.writtenOut ns depth)) := by
  induction collects generalizing before with
  | nil => rfl
  | method _ ih =>
      have tail := ih (fun e member => within e (List.mem_cons_of_mem _ member)) accounted.2
      rw [List.append_assoc, List.append_assoc] at tail
      exact tail
  | @skip _ e rest _ skipped _ ih =>
      have come := accounted.1 e e rfl .refl skipped
      -- What is skipped has come before, so that writing it out adds no name.
      have known : ∀ name,
          name ∈ (before ++ Demand.writtenOut ns depth (.embedded e)).map (·.name) →
          name ∈ before.map (·.name) := by
        intro name member
        rw [List.map_append, List.mem_append] at member
        refine member.elim id fun last => ?_
        obtain ⟨m, written, rfl⟩ := List.mem_map.mp last
        exact come m written
      have same := firstOfEachName_append_of_preceded come
      rw [ih (fun u member => within u (List.mem_cons_of_mem _ member)) (accounted.2.congr known),
        List.flatMap_cons, ← List.append_assoc]
      exact (firstOfEachName_append_left same _).symm
  | @expand _ e rest _ fresh _ ih =>
      have here : inside e := within e List.mem_cons_self
      have tail : ∀ u, Demand.embedded u ∈ rest → inside u :=
        fun u member => within u (List.mem_cons_of_mem _ member)
      have expanded := accounted.expand closed apart acyclic whole here tail
      rw [ih (inside_expand closed within) expanded, List.flatMap_cons, whole e here,
        List.flatMap_append]

end

end

theorem writtenOut_innerDemands (embeds : EmbedsWithin ns depth t) :
    Demand.writtenOut ns depth (.embedded t) =
      (innerDemands ns t).flatMap (Demand.writtenOut ns depth) := by
  cases stands : interfaceOf? ns t with
  | none => simp only [Demand.writtenOut, innerDemands, stands, List.flatMap_nil]
  | some inner =>
      simp only [Demand.writtenOut, innerDemands, stands]
      rw [← writtenOut_eq stands embeds (Nat.le_succ depth), writtenOut_succ]

theorem HasMethodSet.eq_writtenOut (has : HasMethodSet ns shape methods)
    (apart : shape.TellsApart ns)
    (acyclic : ∀ t, shape.LeadsTo ns t → ¬ Relation.TransGen (Expands ns) t t)
    (embeds : EmbedsWithin ns depth (.interface shape)) :
    methods = firstOfEachName (writtenOut ns depth shape) := by
  obtain ⟨all, collects, same⟩ := hasMethodSet_iff.mp has
  have below : ∀ t, shape.LeadsTo ns t → EmbedsWithin ns depth t := by
    intro t leads
    induction leads with
    | refl => exact embeds
    | tail _ step ih => exact ih.step step
  have first : firstOfEachName ([] ++ all) =
      firstOfEachName ([] ++ shape.demands.flatMap (Demand.writtenOut ns depth)) :=
    collects.firstOfEachName_eq leadsTo_closed apart acyclic
      (fun t leads => writtenOut_innerDemands (below t leads))
      (fun t => leadsTo_of_mem_demands) accounted_nil
  calc methods = firstOfEachName all := same.symm
    _ = firstOfEachName (shape.demands.flatMap (Demand.writtenOut ns depth)) := first
    _ = firstOfEachName (writtenOut ns (depth + 1) shape) := by rw [writtenOut_succ]
    _ = firstOfEachName (writtenOut ns depth shape) := by
      rw [writtenOut_eq rfl embeds (Nat.le_succ depth)]

/-- Where embedding leads from an interface to finitely many instantiations, told apart by their Go
text, the search for its methods ends. It finds one method for each name that is declared in the
interface or in what it embeds. If nothing embeds itself these are the first ones that are met when
everything is written out. -/
theorem methodSet_writesOut
    (finite : {t | shape.LeadsTo ns t ∧ (instantiation? t).isSome}.Finite)
    (apart : shape.TellsApart ns) :
    ∃ methods, (∃ bound, ∀ limit ≥ bound, methodSet limit ns shape = some methods) ∧
      (methods.map (·.name)).Nodup ∧ (∀ m ∈ methods, shape.Declares ns m) ∧
      (∀ name, name ∈ methods.map (·.name) ↔ ∃ m, shape.Declares ns m ∧ m.name = name) ∧
      ((∀ t, shape.LeadsTo ns t → ¬ Relation.TransGen (Expands ns) t t) →
        ∃ depth, ∀ more ≥ depth, methods = firstOfEachName (writtenOut ns more shape)) := by
  obtain ⟨methods, has⟩ := exists_hasMethodSet_of_finite finite
  obtain ⟨own, all⟩ := has.declares apart
  have ends : ∃ bound, ∀ limit ≥ bound, methodSet limit ns shape = some methods := by
    obtain ⟨bound, found⟩ := has
    exact ⟨bound, fun limit le => methodSet_mono le found⟩
  refine ⟨methods, ends, has.names_nodup, own, fun name => ⟨fun member => ?_, ?_⟩,
    fun acyclic => ?_⟩
  · obtain ⟨m, listed, rfl⟩ := List.mem_map.mp member
    exact ⟨m, own m listed, rfl⟩
  · rintro ⟨m, declared, rfl⟩
    exact all m declared
  · obtain ⟨keys, listed⟩ := exists_instantiations finite
    obtain ⟨depth, embeds⟩ := exists_embedsWithin leadsTo_closed listed apart acyclic []
      (.interface shape) .refl fun p passed => absurd passed List.not_mem_nil
    refine ⟨depth, fun more le => ?_⟩
    rw [writtenOut_eq rfl embeds le]
    exact has.eq_writtenOut apart acyclic embeds

def getter (name result : String) : Method Ty :=
  ⟨name, { results := [⟨"", .basic result⟩] }⟩

def duplexSource (elem : Ty) : Ty := .named ⟨"lib", "Source"⟩ [elem]

def duplexNamed : Ty := .named ⟨"lib", "Named"⟩ []

def duplexStream : Ty := .named ⟨"lib", "Stream"⟩ []

def duplexNamespace : Namespace where
  module := "lib"
  packages := [
    { path := "lib"
      types := [
        { name := "Source"
          params := [⟨"T", .basic "any"⟩]
          underlying := .interface { methods := [⟨"Next", { results := [⟨"", .param "T"⟩] }⟩] } },
        { name := "Named"
          underlying := .interface { methods := [getter "Name" "string"] } },
        { name := "Stream"
          underlying := .interface {
            embedded := [duplexSource (.basic "int"), duplexNamed]
            methods := [getter "Close" "error"] } }] }]

def duplex : Interface Ty where
  embedded := [duplexStream, duplexSource (.basic "int"), duplexSource (.basic "string")]
  methods := [getter "Name" "int", getter "Reset" "error"]

def duplexMethods : List (Method Ty) :=
  [getter "Next" "int", getter "Name" "string", getter "Close" "error", getter "Reset" "error"]

def duplexOrder : List Ty :=
  [.interface duplex, duplexStream, duplexSource (.basic "int"), duplexSource (.basic "string"),
    duplexNamed]

theorem duplexOrder_expands (member : t ∈ duplexOrder) (step : Expands duplexNamespace t u) :
    u ∈ duplexOrder ∧ duplexOrder.idxOf t < duplexOrder.idxOf u := by
  obtain ⟨shape, stands, inside⟩ := step
  have cases : t = .interface duplex ∨ t = duplexStream ∨ t = duplexSource (.basic "int") ∨
      t = duplexSource (.basic "string") ∨ t = duplexNamed := by simpa [duplexOrder] using member
  rcases cases with rfl | rfl | rfl | rfl | rfl
  · cases stands
    have listed : u = duplexStream ∨ u = duplexSource (.basic "int") ∨
        u = duplexSource (.basic "string") := by simpa [duplex] using inside
    rcases listed with rfl | rfl | rfl <;> decide +kernel
  · cases stands
    have listed : u = duplexSource (.basic "int") ∨ u = duplexNamed := List.mem_pair.mp inside
    rcases listed with rfl | rfl <;> decide +kernel
  all_goals
    cases stands
    exact absurd inside List.not_mem_nil

theorem duplex_leadsTo (leads : duplex.LeadsTo duplexNamespace t) : t ∈ duplexOrder :=
  inside_of_path (fun _ _ member step => (duplexOrder_expands member step).1) List.mem_cons_self
    leads

theorem duplex_acyclic (leads : duplex.LeadsTo duplexNamespace t) :
    ¬ Relation.TransGen (Expands duplexNamespace) t t := by
  have climbs : ∀ {u}, Relation.TransGen (Expands duplexNamespace) t u →
      u ∈ duplexOrder ∧ duplexOrder.idxOf t < duplexOrder.idxOf u := by
    intro u path
    induction path with
    | single step => exact duplexOrder_expands (duplex_leadsTo leads) step
    | tail _ step ih =>
        have next := duplexOrder_expands ih.1 step
        exact ⟨next.1, ih.2.trans next.2⟩
  exact fun cycle => absurd (climbs cycle).2 (lt_irrefl _)

theorem duplex_tellsApart : duplex.TellsApart duplexNamespace := by
  have distinct : ∀ t ∈ duplexOrder, ∀ u ∈ duplexOrder, (instantiation? t).isSome →
      instantiation? t = instantiation? u → t = u := by decide +kernel
  intro t u key leads leads' found found'
  exact distinct t (duplex_leadsTo leads) u (duplex_leadsTo leads') (by simp [found])
    (found.trans found'.symm)

theorem duplex_writesOut : ∃ depth, (∀ more ≥ depth,
      duplexMethods = firstOfEachName (writtenOut duplexNamespace more duplex)) ∧
    ∀ limit ≥ 20, methodSet limit duplexNamespace duplex = some duplexMethods := by
  have finite : {t | duplex.LeadsTo duplexNamespace t ∧ (instantiation? t).isSome}.Finite :=
    (List.finite_toSet duplexOrder).subset fun t given => duplex_leadsTo given.1
  obtain ⟨methods, ⟨bound, found⟩, _, _, _, first⟩ := methodSet_writesOut finite duplex_tellsApart
  have computed : methodSet 20 duplexNamespace duplex = some duplexMethods := rfl
  have same : methods = duplexMethods :=
    HasMethodSet.unique ⟨bound, found bound le_rfl⟩ ⟨20, computed⟩
  obtain ⟨depth, written⟩ := first fun t => duplex_acyclic
  exact ⟨depth, same ▸ written, fun limit le => methodSet_mono le computed⟩

end Replica
