import Replica.Proofs.Recursion
import Replica.Proofs.Spelling.Needs

/-!
Namespaces without mistakes: names are told apart, references are declared and given as many
arguments as they take, parameters are in scope, and nothing is used that cannot be spelled.

Such conditions are put on each node of a type. They pass on from declarations to the types that
come about by putting arguments in the places of parameters.
-/

namespace Replica

/-- What a reference to `base` with `args` has to meet. -/
structure Resolves (ns : Namespace) (base : QualName) (args : List Ty) : Prop where
  plain : base.Plain
  declared : base.isPublic = false → ∃ decl, ns.declaration? base = some decl
  arity : ∀ decl, ns.declaration? base = some decl → decl.params.length = args.length

/-- A node that can be spelled where the type parameters of `scope` may be named. -/
def Proper (ns : Namespace) (scope : List String) : Ty → Prop
  | .param name => name ∈ scope
  | .named base args => Resolves ns base args
  | .chan _ _ => False
  | .interface shape => ∀ m ∈ shape.methods, isOpenVariadic m.signature = false
  | .func signature => isOpenVariadic signature = false
  | _ => True

def NamesIn (allowed : List String) : Ty → Prop
  | .interface shape => ∀ m ∈ shape.methods, m.name ∈ allowed
  | _ => True

structure Namespace.WellFormed (ns : Namespace) : Prop where
  plain : ∀ q decl, ns.declaration? q = some decl → q.Plain
  underlying : ∀ q decl, ns.declaration? q = some decl →
    Ty.Every (Proper ns decl.paramNames) decl.underlying
  constraint : ∀ q decl, ns.declaration? q = some decl → ∀ param ∈ decl.params,
    Ty.Every (Proper ns decl.paramNames) param.type
  flat_injective : ∀ q r decl decl', ns.declaration? q = some decl →
    ns.declaration? r = some decl' → q.flat = r.flat → q = r
  finite : ns.FiniteEmbedding

variable {ns : Namespace} {scope : List String}

theorem Namespace.WellFormed.plainNames (wf : ns.WellFormed) : ns.PlainNames := by
  intro q decl declared
  refine ⟨wf.plain q decl declared, ?_⟩
  intro r member
  obtain ⟨args, proper⟩ := (wf.underlying q decl declared).of_mem_refs member
  exact proper.here.plain

theorem isSlice_subst (value : String → Option Ty) {t : Ty} (slice : t.isSlice = true) :
    (t.subst value).isSlice = true := by
  cases t with
  | slice elem => rfl
  | _ => cases slice

theorem isOpenVariadic_subst (value : String → Option Ty) {s : Signature Ty}
    (ended : isOpenVariadic s = false) : isOpenVariadic (s.map (Ty.subst value)) = false := by
  unfold isOpenVariadic at ended ⊢
  rw [Bool.and_eq_false_iff] at ended ⊢
  rcases ended with fixed | ended
  · exact .inl fixed
  · right
    rw [Bool.not_eq_false', Option.any_eq_true] at ended ⊢
    obtain ⟨last, isLast, slice⟩ := ended
    refine ⟨last.map (Ty.subst value), ?_, isSlice_subst value slice⟩
    rw [Signature.map, List.getLast?_map, isLast]
    rfl

theorem argument_eq_some {params : List String} {args : List Ty} {name : String}
    (arity : params.length = args.length) (member : name ∈ params) :
    ∃ arg ∈ args, Ty.argument? params args name = some arg := by
  induction params generalizing args with
  | nil => exact absurd member List.not_mem_nil
  | cons param rest ih =>
      cases args with
      | nil => cases arity
      | cons arg others =>
          rw [Ty.argument?]
          by_cases same : param = name
          · rw [if_pos same]
            exact ⟨arg, List.mem_cons_self, rfl⟩
          · rw [if_neg same]
            have later : name ∈ rest := by
              rcases List.mem_cons.mp member with rfl | later
              · exact absurd rfl same
              · exact later
            obtain ⟨found, inside, eq⟩ := ih (Nat.succ.inj arity) later
            exact ⟨found, List.mem_cons_of_mem _ inside, eq⟩

theorem argument_mem {params : List String} {args : List Ty} {name : String} {arg : Ty}
    (found : Ty.argument? params args name = some arg) : arg ∈ args := by
  induction params generalizing args with
  | nil => cases found
  | cons param rest ih =>
      cases args with
      | nil => cases found
      | cons first others =>
          rw [Ty.argument?] at found
          split at found
          · cases found
            exact List.mem_cons_self
          · exact List.mem_cons_of_mem _ (ih found)

theorem Proper.subst {inner : List String} {value : String → Option Ty} {t : Ty}
    (proper : Proper ns inner t) (composite : ∀ name, t ≠ .param name) :
    Proper ns scope (t.subst value) := by
  cases t with
  | param name => exact absurd rfl (composite name)
  | named base args =>
      have resolves : Resolves ns base args := proper
      refine ⟨resolves.plain, resolves.declared, fun decl declared => ?_⟩
      rw [Ty.substAll_eq, List.length_map]
      exact resolves.arity decl declared
  | chan direction elem => exact proper.elim
  | interface shape =>
      intro m member
      rw [Ty.substInterface_eq] at member
      obtain ⟨own, inside, rfl⟩ := List.mem_map.mp member
      exact isOpenVariadic_subst value (proper own inside)
  | func signature =>
      change isOpenVariadic (Ty.substSignature value signature) = false
      rw [Ty.substSignature_eq]
      exact isOpenVariadic_subst value proper
  | _ => trivial

theorem NamesIn.subst {allowed : List String} {value : String → Option Ty} {t : Ty}
    (names : NamesIn allowed t) (composite : ∀ name, t ≠ .param name) :
    NamesIn allowed (t.subst value) := by
  cases t with
  | param name => exact absurd rfl (composite name)
  | interface shape =>
      intro m member
      rw [Ty.substInterface_eq] at member
      obtain ⟨own, inside, rfl⟩ := List.mem_map.mp member
      exact names own inside
  | _ => trivial

theorem Namespace.WellFormed.inherited (wf : ns.WellFormed) : Inherited ns (Proper ns) where
  underlying := wf.underlying
  constraint := wf.constraint
  instantiate scope base args decl t every declared proper := by
    refine proper.subst (fun u here composite => here.subst composite) ?_
    intro name bound
    have arity : decl.paramNames.length = args.length := by
      rw [TypeDecl.paramNames, List.length_map]
      exact every.here.arity decl declared
    obtain ⟨arg, inside, found⟩ := argument_eq_some arity bound
    rw [Ty.subst, found]
    exact every.child inside
  closed scope t here closed := by
    cases t with
    | param name => cases closed
    | _ => exact here

theorem inherited_of_subst {p : Ty → Prop}
    (declared : ∀ q decl, ns.declaration? q = some decl →
      Ty.Every p decl.underlying ∧ ∀ param ∈ decl.params, Ty.Every p param.type)
    (params : ∀ name, p (.param name))
    (keep : ∀ value t, p t → (∀ name, t ≠ .param name) → p (t.subst value)) :
    Inherited ns (fun _ => p) where
  underlying q decl found := (declared q decl found).1
  constraint q decl found := (declared q decl found).2
  instantiate scope base args decl t every _ inner := by
    refine inner.subst (keep _) ?_
    intro name _
    rw [Ty.subst]
    cases found : Ty.argument? decl.paramNames args name with
    | none => exact ⟨params name, fun u child => absurd child List.not_mem_nil⟩
    | some arg => exact every.child (argument_mem found)
  closed scope t here _ := here

def Namespace.MethodNames (ns : Namespace) (allowed : List String) : Prop :=
  ∀ q decl, ns.declaration? q = some decl → Ty.Every (NamesIn allowed) decl.underlying ∧
    ∀ param ∈ decl.params, Ty.Every (NamesIn allowed) param.type

theorem Namespace.MethodNames.inherited {allowed : List String} (names : ns.MethodNames allowed) :
    Inherited ns (fun _ => NamesIn allowed) :=
  inherited_of_subst names (fun _ => trivial) fun _ _ => NamesIn.subst

theorem NamesIn.mono {allowed more : List String} (longer : ∀ name ∈ allowed, name ∈ more) {t : Ty}
    (names : NamesIn allowed t) : NamesIn more t := by
  cases t with
  | interface shape => exact fun m member => longer _ (names m member)
  | _ => trivial

theorem exists_namesIn_all (ts : List Ty) (each : ∀ t ∈ ts, ∃ allowed, Ty.Every (NamesIn allowed) t) :
    ∃ allowed, ∀ t ∈ ts, Ty.Every (NamesIn allowed) t := by
  induction ts with
  | nil => exact ⟨[], fun t member => absurd member List.not_mem_nil⟩
  | cons first rest ih =>
      obtain ⟨names, here⟩ := each first List.mem_cons_self
      obtain ⟨others, later⟩ := ih fun t member => each t (List.mem_cons_of_mem _ member)
      refine ⟨names ++ others, ?_⟩
      intro t member
      rcases List.mem_cons.mp member with rfl | inRest
      · exact here.imp fun u => NamesIn.mono fun name => List.mem_append_left _
      · exact (later t inRest).imp fun u => NamesIn.mono fun name => List.mem_append_right _

theorem exists_namesIn (t : Ty) : ∃ allowed, Ty.Every (NamesIn allowed) t := by
  induction t using Ty.induct with
  | step t ih =>
      obtain ⟨below, children⟩ := exists_namesIn_all t.children ih
      have own : ∃ names, NamesIn names t := by
        cases t with
        | interface shape =>
            exact ⟨shape.methods.map (·.name), fun m member => List.mem_map.mpr ⟨m, member, rfl⟩⟩
        | _ => exact ⟨[], trivial⟩
      obtain ⟨names, here⟩ := own
      refine ⟨names ++ below, here.mono fun name => List.mem_append_left _, ?_⟩
      intro u child
      exact (children u child).imp fun v => NamesIn.mono fun name => List.mem_append_right _

theorem Namespace.mem_of_declaration {q : QualName} {decl : TypeDecl}
    (declared : ns.declaration? q = some decl) :
    ∃ package ∈ ns.packages, package.path = q.package ∧ decl ∈ package.types ∧ decl.name = q.name := by
  obtain ⟨package, found, looked⟩ := Option.bind_eq_some_iff.mp declared
  refine ⟨package, List.mem_of_find?_eq_some found, ?_, List.mem_of_find?_eq_some looked, ?_⟩
  · simpa using List.find?_some found
  · simpa using List.find?_some looked

theorem Namespace.exists_methodNames (ns : Namespace) : ∃ allowed, ns.MethodNames allowed := by
  let written : TypeDecl → List Ty := fun decl => decl.underlying :: decl.params.map (·.type)
  obtain ⟨allowed, names⟩ := exists_namesIn_all
    (ns.packages.flatMap fun package => package.types.flatMap written) fun t _ => exists_namesIn t
  refine ⟨allowed, ?_⟩
  intro q decl declared
  obtain ⟨package, listed, _, inside, _⟩ := Namespace.mem_of_declaration declared
  have each : ∀ t ∈ written decl, Ty.Every (NamesIn allowed) t := by
    intro t member
    apply names
    exact List.mem_flatMap.mpr ⟨package, listed, List.mem_flatMap.mpr ⟨decl, inside, member⟩⟩
  constructor
  · exact each decl.underlying List.mem_cons_self
  · intro param member
    exact each param.type (List.mem_cons_of_mem _ (List.mem_map.mpr ⟨param, member, rfl⟩))

def Namespace.declaredTypes (ns : Namespace) : List QualName :=
  ns.packages.flatMap fun package => package.types.map fun decl => ⟨package.path, decl.name⟩

theorem Namespace.mem_declaredTypes {q : QualName} {decl : TypeDecl}
    (declared : ns.declaration? q = some decl) : q ∈ ns.declaredTypes := by
  obtain ⟨package, listed, path, inside, name⟩ := Namespace.mem_of_declaration declared
  apply List.mem_flatMap.mpr
  refine ⟨package, listed, List.mem_map.mpr ⟨decl, inside, ?_⟩⟩
  rw [path, name]

end Replica
