import Replica.Proofs.Run.Bounds
import Replica.Proofs.Run.Progress
import Replica.Proofs.Spelling.Part

/-!
What a run looks at. It begins at its roots and goes from names to their declarations, so that it
never sees a declaration that its roots do not lead to.
-/

namespace Replica

theorem bind_congr_ok {ε α β : Type} {result : Except ε α} {next next' : α → Except ε β}
    (same : ∀ a, result = .ok a → next a = next' a) : (result >>= next) = (result >>= next') := by
  cases result with
  | error e => rfl
  | ok a => exact same a rfl

namespace Namespace.PartOf

variable {within : QualName → Prop} {part ns : Namespace} (partOf : part.PartOf ns within)
  {roots : List QualName} {limit : Nat}

include partOf

theorem attachMethod_eq {s : Stage} (reached : Reached part roots s) {receiver : Receiver}
    {m : Method Ty} {rest : List (Receiver × Method Ty)} (due : s.due = (receiver, m) :: rest) :
    s.attachMethod limit ns receiver m = s.attachMethod limit part receiver m := by
  unfold Stubbing.attachMethod
  dsimp only
  split
  · rfl
  · obtain ⟨history, sound⟩ := reached.sound partOf.inherited
    have asked := sound.recorded.due receiver m (by rw [due]; exact List.mem_cons_self)
    obtain ⟨_, shape, inside, every⟩ := asked.own partOf.inherited sound.recorded.justified
    have types : ∀ t ∈ m.signature.types, Ty.Every (NamesWithin within) t :=
      fun t type => every.child (Interface.mem_types_of_method inside type)
    rw [partOf.spellSignature_eq types]

theorem attachMethods_eq {s : Stage} (reached : Reached part roots s) {receiver : Receiver}
    {methods : List (Method Ty)} (due : s.due = methods.map (receiver, ·)) :
    s.attachMethods limit ns receiver methods = s.attachMethods limit part receiver methods := by
  induction methods generalizing s with
  | nil => rfl
  | cons m rest ih =>
      rw [Stubbing.attachMethods, Stubbing.attachMethods, partOf.attachMethod_eq reached due]
      split
      · rename_i stubbing attached
        obtain ⟨needs, step⟩ := attachMethod_step due attached
        exact ih (reached.steps (.single step)) rfl
      · rfl

variable (rooted : ∀ root ∈ roots, ∃ decl, part.declaration? root = some decl)

include rooted

theorem known_within {s : Stage} (reached : Reached part roots s) {q : QualName}
    (known : q ∈ s.context.worklist.known) : within q := by
  obtain ⟨decl, declared⟩ := reached.declared rooted q known
  exact partOf.inside q decl declared

theorem drain_eq {steps : Nat} {run : Run} (reached : Reached part roots { toRun := run }) :
    Run.drain ns limit steps run = Run.drain part limit steps run := by
  induction steps generalizing run with
  | zero =>
      unfold Run.drain
      rfl
  | succ steps ih =>
      unfold Run.drain
      split
      · rfl
      · rename_i q worklist popped
        obtain ⟨history, sound⟩ := reached.sound partOf.inherited
        obtain ⟨_, known, _⟩ := sound.queueing.consistent.pop_some popped
        simp only [partOf.same q (partOf.known_within rooted reached known)]
        split
        · rfl
        · rename_i source declared
          rw [partOf.spellDecl_eq declared]
          split
          · rfl
          · rename_i context decl settled
            obtain ⟨absorbed, spelled⟩ := Context.settle_eq_ok settled
            have step :=
              Step.declare (s := { toRun := run }) ⟨rfl, rfl⟩ popped declared spelled absorbed
            exact ih (reached.steps (.single step))

theorem attach_eq {run : Run} {owed : Obligation} {rest : List Obligation}
    (reached : Reached part roots { toRun := run, batch := owed :: rest }) :
    run.attach limit ns owed = run.attach limit part owed := by
  unfold Stubbing.attach
  cases found : owed.receiver? with
  | none => rfl
  | some receiver =>
      by_cases known : receiver.origin ∈ run.context.worklist.known
      · obtain ⟨history, sound⟩ := reached.sound partOf.inherited
        have recorded := sound.recorded.batch owed List.mem_cons_self
        have every : Ty.Every (NamesWithin within) (.interface owed.constraint) := by
          cases sound.recorded.justified _ recorded with
          | obligation every _ => exact every
        simp only [partOf.declaresInterface_eq (partOf.known_within rooted reached known),
          partOf.methodSet_eq every]
        split
        · rfl
        · rename_i able
          split
          · rfl
          · rename_i methods demands
            simp only [Bool.or_eq_true, decide_eq_true_eq, not_or, not_not,
              Bool.not_eq_true] at able
            have owes : run.Owes part owed receiver := ⟨found, able.1, able.2⟩
            have step := Step.accept (s := { toRun := run, batch := owed :: rest }) rfl rfl owes
              ⟨limit, demands⟩
            exact partOf.attachMethods_eq (reached.steps (.single step)) rfl
      · simp [known]

theorem attachAll_eq {run : Run} {batch : List Obligation}
    (reached : Reached part roots { toRun := run, batch }) :
    Run.attachAll limit ns batch run = Run.attachAll limit part batch run := by
  induction batch generalizing run with
  | nil => rfl
  | cons owed rest ih =>
      rw [Run.attachAll, Run.attachAll, partOf.attach_eq rooted reached]
      split
      · rfl
      · rename_i stubbing attached
        obtain ⟨history, steps⟩ := attach_steps attached
        exact ih (reached.steps steps)

theorem fulfil_eq {rounds : Nat} {run : Run} (reached : Reached part roots { toRun := run })
    (drained : run.context.worklist.pop.1 = none) :
    Run.fulfil limit ns rounds run = Run.fulfil limit part rounds run := by
  induction rounds generalizing run with
  | zero =>
      unfold Run.fulfil
      rfl
  | succ rounds ih =>
      unfold Run.fulfil
      split
      · rfl
      · rename_i owed others owing
        have gather := @Step.gather part { toRun := run } ⟨rfl, rfl⟩ drained (by simp [owing])
        simp only [owing] at gather
        have began := reached.steps (.single gather)
        dsimp only
        rw [partOf.attachAll_eq rooted began]
        apply bind_congr_ok
        intro attached ended
        obtain ⟨_, attaching⟩ := attachAll_steps ended
        have middle := began.steps attaching
        rw [partOf.drain_eq rooted middle]
        apply bind_congr_ok
        intro declared ended
        obtain ⟨_, draining, drained'⟩ := drain_steps ended
        exact ih (middle.steps draining) drained'

end Namespace.PartOf

theorem resolveRoots_congr {ns other : Namespace} {names : List String}
    (same : ∀ name ∈ names, other.lookup name = ns.lookup name) :
    resolveRoots other names = resolveRoots ns names := by
  induction names with
  | nil => rfl
  | cons name rest ih =>
      rw [resolveRoots, resolveRoots, same name List.mem_cons_self,
        ih fun other member => same other (List.mem_cons_of_mem _ member)]

structure Namespace.SamePaths (ns other : Namespace) : Prop where
  packageName : ∀ path, other.packageName path = ns.packageName path
  classify : ∀ path, other.classify path = ns.classify path

theorem Namespace.SamePaths.packageSource_eq {ns other : Namespace} (same : ns.SamePaths other) :
    other.packageSource = ns.packageSource := by
  rw [packageSource, packageSource, funext same.packageName, funext same.classify]

theorem Namespace.SamePaths.importBlock_eq {ns other : Namespace} (same : ns.SamePaths other)
    (paths : List String) : importBlock other paths = importBlock ns paths := by
  rw [same.packageSource_eq]

/-- Namespaces that agree on a closed set of names give the same answer to requests for types from
that set. -/
theorem synthesize_congr {ns other : Namespace} {within : QualName → Prop} {names : List String}
    (closed : ns.Closed within)
    (same : ∀ q, within q → other.declaration? q = ns.declaration? q)
    (lookups : ∀ name ∈ names, other.lookup name = ns.lookup name)
    (rooted : ∀ name ∈ names, ∀ root, ns.lookup name = .ok root → within root)
    (paths : ns.SamePaths other) (limit : Nat) :
    synthesize limit other names = synthesize limit ns names := by
  by_cases none : names = []
  · rw [none]
    simp only [synthesize, List.isEmpty_nil, if_true]
  have resolves := resolveRoots_congr lookups
  cases resolved : resolveRoots ns names with
  | error e =>
      rw [synthesize_of_unresolved none resolved,
        synthesize_of_unresolved none (resolves.trans resolved)]
  | ok roots =>
      cases pushed : Worklist.pushAll {} roots with
      | error e =>
          rw [synthesize_of_collision none resolved pushed,
            synthesize_of_collision none (resolves.trans resolved) pushed]
      | ok worklist =>
          -- Both runs are the run of the part that the two namespaces have in common.
          have partOf := closed.partOf same
          have partOf' := closed.partOf fun q _ => rfl
          have declared : ∀ root ∈ roots, ∃ decl,
              (ns.restrict within).declaration? root = some decl := by
            intro root member
            obtain ⟨decl, found⟩ := declared_of_resolveRoots resolved root member
            obtain ⟨name, requested, looked⟩ := mem_resolveRoots resolved member
            exact ⟨decl, (ns.declaration?_restrict within).mpr
              ⟨rooted name requested root looked, found⟩⟩
          have reached : Reached (ns.restrict within) roots (.start worklist) :=
            ⟨worklist, [], pushed, .refl _⟩
          rw [synthesize_of_pushed none resolved pushed,
            synthesize_of_pushed none (resolves.trans resolved) pushed,
            partOf.drain_eq declared reached, partOf'.drain_eq declared reached]
          apply bind_congr_ok
          intro run ended
          obtain ⟨_, draining, drained⟩ := drain_steps ended
          have middle := reached.steps draining
          rw [partOf.fulfil_eq declared middle drained, partOf'.fulfil_eq declared middle drained]
          apply bind_congr_ok
          intro final _
          rw [paths.importBlock_eq]

namespace Namespace

/-- The names that requests lead to: the roots, and what is named in the type or in a constraint of
a declaration that they lead to. -/
inductive Relevant (ns : Namespace) (names : List String) : QualName → Prop where
  | root {name : String} {q : QualName} (requested : name ∈ names)
      (found : ns.lookup name = .ok q) : Relevant ns names q
  | underlying {q r : QualName} {decl : TypeDecl} (inside : Relevant ns names q)
      (declared : ns.declaration? q = some decl) (named : r ∈ decl.underlying.refs) :
      Relevant ns names r
  | constraint {q r : QualName} {decl : TypeDecl} {param : Field Ty} (inside : Relevant ns names q)
      (declared : ns.declaration? q = some decl) (listed : param ∈ decl.params)
      (named : r ∈ param.type.refs) : Relevant ns names r

variable {ns other : Namespace} {names : List String} {within : QualName → Prop} {q : QualName}

theorem closed_relevant (ns : Namespace) (names : List String) : ns.Closed (ns.Relevant names) where
  underlying _ _ inside declared _ := inside.underlying declared
  constraint _ _ inside declared _ listed _ := inside.constraint declared listed

theorem Relevant.least (relevant : ns.Relevant names q) (closed : ns.Closed within)
    (rooted : ∀ name ∈ names, ∀ root, ns.lookup name = .ok root → within root) : within q := by
  induction relevant with
  | root requested found => exact rooted _ requested _ found
  | underlying _ declared named ih => exact closed.underlying _ _ ih declared _ named
  | constraint _ declared listed named ih =>
      exact closed.constraint _ _ ih declared _ listed _ named

/-- From `names`, two namespaces look the same. -/
structure SameFrom (ns other : Namespace) (names : List String) : Prop where
  lookup : ∀ name ∈ names, other.lookup name = ns.lookup name
  declaration : ∀ q, ns.Relevant names q → other.declaration? q = ns.declaration? q
  paths : ns.SamePaths other

end Namespace

def Package.redeclare (package : Package) (path : String) (types : List TypeDecl) : Package :=
  if package.path = path then { package with types } else package

theorem Package.path_redeclare (package : Package) (path : String) (types : List TypeDecl) :
    (package.redeclare path types).path = package.path := by
  unfold redeclare
  split <;> rfl

namespace Namespace

/-- Declares `types` in the package at `path`, in place of what it had. A package that is missing is
added. -/
def redeclare (ns : Namespace) (path : String) (types : List TypeDecl) : Namespace :=
  { ns with packages :=
      if (ns.package? path).isSome then ns.packages.map (·.redeclare path types)
      else ns.packages ++ [{ path, types }] }

variable {ns other : Namespace} {names : List String}

theorem package?_redeclare (path : String) (types : List TypeDecl) (place : String) :
    (ns.redeclare path types).package? place =
      if place = path then some { (ns.package? path).getD { path } with types }
      else ns.package? place := by
  have mapped : (ns.packages.map (·.redeclare path types)).find? (·.path == place) =
      (ns.package? place).map (·.redeclare path types) := by
    rw [List.find?_map, package?]
    simp only [Function.comp_def, Package.path_redeclare]
  unfold redeclare
  cases found : ns.package? path with
  | none =>
      change (ns.packages ++ [({ path, types } : Package)]).find? (·.path == place) = _
      rw [List.find?_append, ← package?]
      split
      · rename_i same
        subst same
        rw [found]
        simp
      · rename_i different
        simp [Ne.symm different]
  | some package =>
      -- Only the first package at a path counts, and redeclaring leaves paths as they are.
      have here : package.path = path := by simpa using List.find?_some found
      change (ns.packages.map (·.redeclare path types)).find? (·.path == place) = _
      rw [mapped]
      split
      · rename_i same
        subst same
        rw [found, Option.map_some, Package.redeclare, if_pos here]
        rfl
      · rename_i different
        cases elsewhere : ns.package? place with
        | none => rfl
        | some found' =>
            have there : found'.path = place := by simpa using List.find?_some elsewhere
            rw [Option.map_some, Package.redeclare, if_neg (there ▸ different)]

theorem samePaths_redeclare (path : String) (types : List TypeDecl) :
    ns.SamePaths (ns.redeclare path types) where
  packageName place := by
    rw [packageName, packageName, package?_redeclare]
    by_cases same : place = path
    · subst same
      rw [if_pos rfl]
      cases ns.package? place with
      | none => rfl
      | some package => rfl
    · rw [if_neg same]
  classify place := rfl

theorem declaration?_redeclare (path : String) (types : List TypeDecl) (q : QualName) :
    (ns.redeclare path types).declaration? q =
      if q.package = path then types.find? (·.name == q.name) else ns.declaration? q := by
  rw [declaration?, package?_redeclare]
  split <;> rfl

/-- An edit that leaves relevant declarations alone is not seen, once all roots are found. -/
theorem sameFrom_redeclare {path : String} {types : List TypeDecl}
    (resolved : ∀ name ∈ names, ∃ root, ns.lookup name = .ok root)
    (kept : ∀ name, ns.Relevant names ⟨path, name⟩ →
      types.find? (·.name == name) = ns.declaration? ⟨path, name⟩) :
    ns.SameFrom (ns.redeclare path types) names := by
  have same : ∀ q, ns.Relevant names q →
      (ns.redeclare path types).declaration? q = ns.declaration? q := by
    intro q relevant
    rw [declaration?_redeclare]
    split
    · rename_i inPackage
      subst inPackage
      exact kept q.name relevant
    · rfl
  refine ⟨?_, same, samePaths_redeclare path types⟩
  intro name requested
  obtain ⟨root, found⟩ := resolved name requested
  rw [found]
  rw [lookup_eq_ok_iff] at found ⊢
  rw [same root (.root requested (lookup_eq_ok_iff.mpr found))]
  exact found

end Namespace

/-- The answer to a request is settled by the declarations that the roots lead to. Other namespaces
in which these are the same, and every path is known under the same name and of the same group, give
the same answer, tree or error; an edit of other declarations changes nothing. -/
theorem synthesize_local (limit : Nat) (ns : Namespace) (names : List String) :
    (∀ other, ns.SameFrom other names → synthesize limit other names = synthesize limit ns names) ∧
    ∀ path types, (∀ name ∈ names, ∃ root, ns.lookup name = .ok root) →
      (∀ name, ns.Relevant names ⟨path, name⟩ →
        types.find? (·.name == name) = ns.declaration? ⟨path, name⟩) →
      synthesize limit (ns.redeclare path types) names = synthesize limit ns names := by
  have congr : ∀ other, ns.SameFrom other names →
      synthesize limit other names = synthesize limit ns names := by
    intro other same
    exact synthesize_congr (ns.closed_relevant names) same.declaration same.lookup
      (fun name requested root found => .root requested found) same.paths limit
  refine ⟨congr, ?_⟩
  intro path types resolved kept
  exact congr _ (Namespace.sameFrom_redeclare resolved kept)

def sketchbook : Namespace :=
  geometry.redeclare "geo"
    ({ name := "Sketch", underlying := .struct [⟨"of", .named ⟨"geo", "Shape"⟩ []⟩] } ::
      geometry.packages.flatMap (·.types))

theorem geometry_relevant {q : QualName} (relevant : geometry.Relevant ["geo.Shape"] q) :
    q ∈ [⟨"geo", "Shape"⟩, ⟨"geo", "point"⟩, ⟨"geo", "cell"⟩, (⟨"set", "Set"⟩ : QualName)] := by
  apply relevant.least
  · constructor
    · intro q decl _ declared r named
      rcases geometry_declared declared with rfl | rfl | rfl
      · cases declared
        revert r
        decide
      · cases declared
        exact absurd named List.not_mem_nil
      · cases declared
        exact absurd named List.not_mem_nil
    · intro q decl _ declared param listed r named
      rcases geometry_declared declared with rfl | rfl | rfl
      · cases declared
        exact absurd listed List.not_mem_nil
      · cases declared
        exact absurd listed List.not_mem_nil
      · cases declared
        rw [List.mem_singleton.mp listed] at named
        exact absurd named List.not_mem_nil
  · intro name requested root found
    rw [List.mem_singleton.mp requested] at found
    cases found
    exact List.mem_cons_self

theorem geometry_local :
    synthesize 20 sketchbook ["geo.Shape"] = synthesize 20 geometry ["geo.Shape"] := by
  apply (synthesize_local 20 geometry ["geo.Shape"]).2
  · intro name requested
    rw [List.mem_singleton.mp requested]
    exact ⟨⟨"geo", "Shape"⟩, rfl⟩
  · intro name relevant
    have inside := geometry_relevant relevant
    simp only [List.mem_cons, QualName.mk.injEq, List.not_mem_nil, or_false] at inside
    rcases inside with ⟨_, rfl⟩ | ⟨_, rfl⟩ | ⟨_, rfl⟩ | ⟨other, _⟩
    · rfl
    · rfl
    · rfl
    · exact absurd other (by decide)

end Replica
