import Mathlib.Data.List.Forall2
import Replica.Proofs.Loading.Run

/-!
What a loader has kept when some of its calls have failed. A place counts as loaded from the moment
it was found, so a call that fails after that loses places: they count as loaded, their files are
not among the loaded ones, and no later call loads them.
-/

namespace Replica

/-- Requests one after the other, whatever comes of them, with what each call answers. -/
def Loader.attempts (parse : Parser) (fs : FileSystem) (includes : List String) (l : Loader) :
    List String → Loader × List (Except LoadError Unit)
  | [] => (l, [])
  | path :: paths =>
    let (next, answer) := l.load parse fs includes path
    let (last, answers) := next.attempts parse fs includes paths
    (last, answer :: answers)

/-- What lies at a place is a namespace file. -/
def FileSystem.HasFile (fs : FileSystem) (parse : Parser) (place : String) (file : NamespaceFile) :
    Prop :=
  ∃ path, fs.locate path = .ok place ∧ Loader.readFile parse fs path = .ok file

/-- Of the places that count as loaded, those of `kept` have their files among the loaded ones, and
those of `lost` have not. -/
structure Ledger (parse : Parser) (fs : FileSystem) (l : Loader) (kept lost : List String) :
    Prop where
  files : List.Forall₂ (fs.HasFile parse) kept l.files
  loaded : l.loaded.Perm (kept ++ lost)
  distinct : l.loaded.Nodup

/-- The tasks keep a file from each of the places, in their order. -/
inductive Awaits (parse : Parser) (fs : FileSystem) : List LoadTask → List String → Prop
  | nil : Awaits parse fs [] []
  | load {request : FileRequest} {tasks : List LoadTask} {opened : List String}
      (awaits : Awaits parse fs tasks opened) : Awaits parse fs (.load request :: tasks) opened
  | keep {place : String} {file : NamespaceFile} {requested : Bool} {tasks : List LoadTask}
      {opened : List String} (has : fs.HasFile parse place file)
      (awaits : Awaits parse fs tasks opened) :
      Awaits parse fs (.keep file requested :: tasks) (place :: opened)

variable {parse : Parser} {fs : FileSystem} {includes paths kept lost opened : List String}
  {l : Loader} {tasks : List LoadTask} {path place : String} {file : NamespaceFile}

theorem awaits_imports (names : List String) (base : String) :
    Awaits parse fs (names.map fun name => .load (.imported name base)) [] := by
  induction names with
  | nil => exact .nil
  | cons name names ih => exact .load ih

theorem Awaits.fileTasks (awaits : Awaits parse fs tasks opened) (has : fs.HasFile parse place file)
    (requested : Bool) :
    Awaits parse fs (Loader.fileTasks file path requested ++ tasks) (place :: opened) := by
  rw [Loader.fileTasks, List.append_assoc, List.singleton_append]
  induction file.metadata.imports with
  | nil => exact .keep has awaits
  | cons name names ih => exact .load ih

namespace Ledger

theorem start (parse : Parser) (fs : FileSystem) : Ledger parse fs {} [] [] where
  files := .nil
  loaded := .refl _
  distinct := List.nodup_nil

theorem enter (ledger : Ledger parse fs l kept lost) (fresh : place ∉ l.loaded) :
    Ledger parse fs { l with loaded := place :: l.loaded } kept (place :: lost) where
  files := ledger.files
  loaded := (ledger.loaded.cons place).trans List.perm_middle.symm
  distinct := List.nodup_cons.mpr ⟨fresh, ledger.distinct⟩

theorem keep (ledger : Ledger parse fs l kept (place :: lost)) (has : fs.HasFile parse place file)
    (requested : Bool) : Ledger parse fs (l.keep file requested) (kept ++ [place]) lost where
  files := List.rel_append ledger.files (.cons has .nil)
  loaded := by
    rw [List.append_assoc, List.singleton_append]
    exact ledger.loaded
  distinct := ledger.distinct

theorem length_eq (ledger : Ledger parse fs l kept lost) :
    l.loaded.length = l.files.length + lost.length := by
  have loaded := ledger.loaded.length_eq
  have files := ledger.files.length_eq
  rw [List.length_append] at loaded
  omega

theorem mem_loaded_iff (ledger : Ledger parse fs l kept lost) :
    place ∈ l.loaded ↔ place ∈ kept ∨ place ∈ lost := by
  rw [ledger.loaded.mem_iff, List.mem_append]

theorem run (ledger : Ledger parse fs l kept (opened ++ lost))
    (awaits : Awaits parse fs tasks opened) :
    (∃ last kept', l.run parse fs includes tasks = (last, .ok ()) ∧
      Ledger parse fs last kept' lost ∧ kept ⊆ kept') ∨
    ∃ last e kept' lost', l.run parse fs includes tasks = (last, .error e) ∧
      Ledger parse fs last kept' lost' ∧ kept ⊆ kept' ∧ lost ⊆ lost' := by
  -- Whatever is open when a run fails is lost.
  induction l, tasks using Loader.run.induct parse fs includes generalizing kept opened with
  | case1 l =>
      cases awaits
      exact .inl ⟨l, kept, by rw [Loader.run], ledger, List.Subset.refl _⟩
  | case2 l file requested rest ih =>
      cases awaits with
      | @keep place _ _ _ _ has awaits =>
          have grown : kept ⊆ kept ++ [place] := List.subset_append_left _ _
          rw [Loader.run]
          rcases ih (ledger.keep has requested) awaits with
            ⟨last, kept', ended, ledger', more⟩ |
            ⟨last, e, kept', lost', failed, ledger', more, still⟩
          · exact .inl ⟨last, kept', ended, ledger', List.Subset.trans grown more⟩
          · exact .inr ⟨last, e, kept', lost', failed, ledger', List.Subset.trans grown more, still⟩
  | case3 l request rest e failed =>
      refine .inr ⟨l, e, kept, _, ?_, ledger, List.Subset.refl _,
        List.subset_append_right opened lost⟩
      simp [Loader.run, failed]
  | case4 l request rest path found e failed =>
      refine .inr ⟨l, .cannotOpen path e, kept, _, ?_, ledger, List.Subset.refl _,
        List.subset_append_right opened lost⟩
      rw [Loader.run, found]
      grind
  | case5 l request rest path found place located known ih =>
      cases awaits with
      | load awaits =>
          rw [Loader.run_load_known found located known]
          exact ih ledger awaits
  | case6 l request rest path found place located fresh e failed =>
      refine .inr ⟨_, e, kept, _, ?_, ledger.enter fresh, List.Subset.refl _,
        List.subset_append_right (place :: opened) lost⟩
      rw [Loader.run, found]
      grind
  | case7 l request rest path found place located fresh file read ih =>
      cases awaits with
      | load awaits =>
          rw [Loader.run_load_fresh found located fresh read]
          exact ih (ledger.enter fresh) (awaits.fileTasks ⟨path, located, read⟩ _)

end Ledger

/-- How a call ends. It fails where the path leads nowhere, or loses the place that the path leads
to; otherwise that place counts as loaded. -/
inductive Answers (fs : FileSystem) (l : Loader) (lost : List String) (path : String) :
    Except LoadError Unit → Prop
  | nowhere {e : FileError} (failed : fs.locate path = .error e) :
      Answers fs l lost path (.error (.cannotOpen path e))
  | loses {place : String} {e : LoadError} (located : fs.locate path = .ok place)
      (gone : place ∈ lost) : Answers fs l lost path (.error e)
  | loads {place : String} (located : fs.locate path = .ok place) (known : place ∈ l.loaded) :
      Answers fs l lost path (.ok ())

/-- A call fails only because its path leads nowhere. -/
def FailsOnlyNowhere (fs : FileSystem) (path : String) (answer : Except LoadError Unit) : Prop :=
  answer = .ok () ∨ ∃ e, fs.locate path = .error e

theorem not_failsOnlyNowhere {e : LoadError} (located : fs.locate path = .ok place) :
    ¬ FailsOnlyNowhere fs path (.error e) := by
  rintro (ended | ⟨e', failed⟩)
  · cases ended
  · rw [located] at failed
    cases failed

theorem Loader.load_nowhere {e : FileError} (failed : fs.locate path = .error e) :
    l.load parse fs includes path = (l, .error (.cannotOpen path e)) := by
  rw [load, run, FileRequest.path]
  grind

theorem Loader.load_known (located : fs.locate path = .ok place) (known : place ∈ l.loaded) :
    l.load parse fs includes path = (l, .ok ()) := by
  rw [load, run_load_known rfl located known, run]

/-- What a call makes of a ledger: what was kept and what was lost stay so, and more is lost only if
the call fails although its path leads somewhere. -/
def Keeps (parse : Parser) (fs : FileSystem) (kept lost : List String) (path : String)
    (called : Loader × Except LoadError Unit) : Prop :=
  ∃ kept' lost', Ledger parse fs called.1 kept' lost' ∧ kept ⊆ kept' ∧ lost ⊆ lost' ∧
    Answers fs called.1 lost' path called.2 ∧ (FailsOnlyNowhere fs path called.2 → lost' = lost)

theorem Ledger.load_fresh (ledger : Ledger parse fs l kept lost) (includes : List String)
    (located : fs.locate path = .ok place) (fresh : place ∉ l.loaded) :
    Keeps parse fs kept lost path (l.load parse fs includes path) := by
  -- The imports are loaded while the place is open: if that fails, the place is lost.
  have entered : Ledger parse fs _ kept ([] ++ place :: lost) := ledger.enter fresh
  cases read : Loader.readFile parse fs path with
  | error e =>
      have failed : l.load parse fs includes path =
          ({ l with loaded := place :: l.loaded }, .error e) := by
        rw [Loader.load, Loader.run, FileRequest.path]
        grind
      rw [failed]
      exact ⟨kept, _, entered, List.Subset.refl _, List.subset_cons_self _ _,
        .loses located List.mem_cons_self,
        fun harmless => absurd harmless (not_failsOnlyNowhere located)⟩
  | ok file =>
      have opens : l.load parse fs includes path = Loader.run parse fs includes
          { l with loaded := place :: l.loaded } (Loader.fileTasks file path true ++ []) :=
        Loader.run_load_fresh rfl located fresh read
      rw [List.append_nil, Loader.fileTasks, Loader.run_append] at opens
      rcases entered.run (awaits_imports file.metadata.imports path) with
        ⟨last, kept', ended, ledger', more⟩ |
        ⟨last, e, kept', lost', failed, ledger', more, still⟩
      · rw [ended] at opens
        have ledger'' := ledger'.keep ⟨path, located, read⟩ true
        have kept'' : l.load parse fs includes path = (last.keep file true, .ok ()) := by
          rw [opens]
          simp [Loader.run]
        rw [kept'']
        exact ⟨_, lost, ledger'', List.Subset.trans more (List.subset_append_left _ _),
          List.Subset.refl _, .loads located (ledger''.mem_loaded_iff.mpr (.inl (by simp))),
          fun _ => rfl⟩
      · rw [failed] at opens
        rw [opens]
        exact ⟨kept', lost', ledger', more, List.Subset.trans (List.subset_cons_self _ _) still,
          .loses located (still List.mem_cons_self),
          fun harmless => absurd harmless (not_failsOnlyNowhere located)⟩

theorem Ledger.load (ledger : Ledger parse fs l kept lost) (includes : List String)
    (path : String) : Keeps parse fs kept lost path (l.load parse fs includes path) := by
  cases located : fs.locate path with
  | error e =>
      rw [Loader.load_nowhere located]
      exact ⟨kept, lost, ledger, List.Subset.refl _, List.Subset.refl _, .nowhere located,
        fun _ => rfl⟩
  | ok place =>
      by_cases known : place ∈ l.loaded
      · rw [Loader.load_known located known]
        exact ⟨kept, lost, ledger, List.Subset.refl _, List.Subset.refl _, .loads located known,
          fun _ => rfl⟩
      · exact ledger.load_fresh includes located known

theorem Answers.mono {next : Loader} {lost' : List String} {answer : Except LoadError Unit}
    (answers : Answers fs l lost path answer) (grown : l.loaded ⊆ next.loaded)
    (still : lost ⊆ lost') : Answers fs next lost' path answer := by
  cases answers with
  | nowhere failed => exact .nowhere failed
  | loses located gone => exact .loses located (still gone)
  | loads located known => exact .loads located (grown known)

theorem Ledger.attempts (ledger : Ledger parse fs l kept lost) (includes paths : List String) :
    ∃ last answers kept' lost', l.attempts parse fs includes paths = (last, answers) ∧
      Ledger parse fs last kept' lost' ∧ kept ⊆ kept' ∧ lost ⊆ lost' ∧
      List.Forall₂ (Answers fs last lost') paths answers ∧
      (List.Forall₂ (FailsOnlyNowhere fs) paths answers → lost' = lost) := by
  induction paths generalizing l kept lost with
  | nil =>
      exact ⟨l, [], kept, lost, rfl, ledger, List.Subset.refl _, List.Subset.refl _, .nil,
        fun _ => rfl⟩
  | cons path paths ih =>
      have keeps := ledger.load includes path
      rcases called : l.load parse fs includes path with ⟨next, answer⟩
      rw [called] at keeps
      obtain ⟨kept', lost', ledger', more, still, here, harmless⟩ := keeps
      obtain ⟨last, answers, kept'', lost'', went, ledger'', more', still', others, harmless'⟩ :=
        ih ledger'
      have grown : next.loaded ⊆ last.loaded := by
        intro place known
        rw [ledger'.mem_loaded_iff] at known
        exact ledger''.mem_loaded_iff.mpr (known.imp (more' ·) (still' ·))
      refine ⟨last, answer :: answers, kept'', lost'', ?_, ledger'', List.Subset.trans more more',
        List.Subset.trans still still', .cons (here.mono grown still') others, ?_⟩
      · simp only [Loader.attempts, called, went]
      · rintro (_ | ⟨first, rest⟩)
        rw [harmless' rest, harmless first]

theorem Ledger.known_of_answers (ledger : Ledger parse fs l kept lost)
    {answers : List (Except LoadError Unit)}
    (answered : List.Forall₂ (Answers fs l lost) paths answers) (asked : path ∈ paths)
    (located : fs.locate path = .ok place) : place ∈ l.loaded := by
  induction answered with
  | nil => cases asked
  | cons here _ ih =>
      rcases List.mem_cons.mp asked with rfl | later
      · cases here with
        | nowhere failed =>
            rw [located] at failed
            cases failed
        | loses located' gone =>
            obtain rfl := Except.ok.inj (located.symm.trans located')
            exact ledger.mem_loaded_iff.mpr (.inr gone)
        | loads located' known =>
            obtain rfl := Except.ok.inj (located.symm.trans located')
            exact known
      · exact ih later

/-- After any calls, as many files are loaded as places count as loaded exactly if each call that
failed did so because its path leads nowhere. Any other call that failed has lost a place: its file
is not loaded, and yet the same call succeeds from then on and changes nothing. -/
theorem attempts_lose (parse : Parser) (fs : FileSystem) (includes paths : List String) :
    ∃ l answers kept lost, Loader.attempts parse fs includes {} paths = (l, answers) ∧
      Ledger parse fs l kept lost ∧ List.Forall₂ (Answers fs l lost) paths answers ∧
      (l.loaded.length = l.files.length ↔ List.Forall₂ (FailsOnlyNowhere fs) paths answers) ∧
      ∀ path ∈ paths, l.load parse fs includes path =
        match fs.locate path with
        | .ok _ => (l, .ok ())
        | .error e => (l, .error (.cannotOpen path e)) := by
  obtain ⟨l, answers, kept, lost, went, ledger, _, _, answered, harmless⟩ :=
    (Ledger.start parse fs).attempts includes paths
  refine ⟨l, answers, kept, lost, went, ledger, answered, ⟨fun same => ?_, fun each => ?_⟩, ?_⟩
  · have none : lost = [] := by
      rw [ledger.length_eq] at same
      exact List.length_eq_zero_iff.mp (by omega)
    subst none
    refine answered.imp fun path answer answers => ?_
    cases answers with
    | nowhere failed => exact .inr ⟨_, failed⟩
    | loses _ gone => cases gone
    | loads _ _ => exact .inl rfl
  · rw [ledger.length_eq, harmless each]
    rfl
  · intro path asked
    cases located : fs.locate path with
    | error e => exact Loader.load_nowhere located
    | ok place => exact Loader.load_known located (ledger.known_of_answers answered asked located)

def halted : FileTree where
  files := [
    (["base"], "namespace: {module: base}"),
    (["app"], "namespace: {module: app, imports: [gone]}\npackages: [{path: app/store}]")]

def haltedPaths : List String := ["base", "app", "app"]

def haltedFile : NamespaceFile :=
  { metadata := { module := "app", imports := ["gone"] }, packages := [{ path := "app/store" }] }

def haltedParse : Parser := fun text =>
  ((halted.files.map (·.2)).zip [{ metadata := { module := "base" } }, haltedFile]).lookup text

def haltedLoader : Loader where
  loaded := ["/app", "/base"]
  files := [{ metadata := { module := "base" } }]
  root := some 0

theorem halted_readFile :
    Loader.readFile haltedParse (halted.system []) "app" = .ok haltedFile := by
  decide +kernel

theorem halted_attempts : Loader.attempts haltedParse (halted.system []) [] {} haltedPaths =
    (haltedLoader, [.ok (), .error (.importNotFound "gone" "app"), .ok ()]) := by
  let fs := halted.system []
  have base : fs.locate "base" = .ok "/base" := by decide
  have app : fs.locate "app" = .ok "/app" := by decide
  have readBase : Loader.readFile haltedParse fs "base" =
      .ok { metadata := { module := "base" } } := by
    decide +kernel
  have gone : resolveImport? fs [] "gone" "app" = none := by decide +kernel
  have first : Loader.load haltedParse fs [] {} "base" =
      ({ haltedLoader with loaded := ["/base"] }, .ok ()) := by
    refine (Loader.run_load_fresh rfl base (by decide) readBase).trans ?_
    refine (Loader.run.eq_2 ..).trans ?_
    exact Loader.run.eq_1 ..
  have second : Loader.load haltedParse fs [] { haltedLoader with loaded := ["/base"] } "app" =
      (haltedLoader, .error (.importNotFound "gone" "app")) := by
    refine (Loader.run_load_fresh rfl app (by decide) halted_readFile).trans ?_
    simp [Loader.fileTasks, haltedFile, Loader.run, FileRequest.path, gone, haltedLoader, fs]
  have third : Loader.load haltedParse fs [] haltedLoader "app" = (haltedLoader, .ok ()) :=
    Loader.load_known app (by decide)
  simp only [haltedPaths, Loader.attempts, fs] at first second third ⊢
  rw [first, second, third]

/-- One call fails and loses its file: two places count as loaded and one file is, and the same call
then succeeds, though no namespace will have the package of the file. -/
theorem halted_phantom : ∃ l, Loader.attempts haltedParse (halted.system []) [] {} haltedPaths =
      (l, [.ok (), .error (.importNotFound "gone" "app"), .ok ()]) ∧
    l.loaded.length = 2 ∧ l.files.length = 1 ∧
    Loader.readFile haltedParse (halted.system []) "app" = .ok haltedFile ∧
    "app/store" ∈ haltedFile.packages.map (·.path) ∧
    ∃ ns, l.toNamespace = .ok ns ∧ ns.package? "app/store" = none :=
  ⟨_, halted_attempts, rfl, rfl, halted_readFile, by decide, _, rfl, rfl⟩

end Replica
