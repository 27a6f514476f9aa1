import Replica.Proofs.Loading.Progress

/-!
A run of the loader, as progress through an agenda: the imports that the open files are still to
make, innermost first, and then the paths that are still to be loaded.
-/

namespace Replica

def Frame.tasks (f : Frame) : List LoadTask :=
  f.rest.map (fun name => .load (.imported name f.opening.path)) ++
    [.keep f.opening.file f.opening.chain.isEmpty]

def agenda (frames : List Frame) (requests : List String) : List LoadTask :=
  frames.flatMap Frame.tasks ++ requests.map fun path => .load (.direct path)

/-- The request that comes next, and what is left once it is dealt with. -/
inductive Due : List Frame → List String → FileRequest → List Frame → List String → Prop
  | imported {o : Opening} {name : String} {rest : List String} {below : List Frame}
      {requests : List String} : Due (⟨o, name :: rest⟩ :: below) requests (.imported name o.path)
        (⟨o, rest⟩ :: below) requests
  | direct {path : String} {requests : List String} :
      Due [] (path :: requests) (.direct path) [] requests

theorem agenda_eq_nil {frames : List Frame} {requests : List String}
    (nothing : agenda frames requests = []) : frames = [] ∧ requests = [] := by
  obtain ⟨noFrames, noRequests⟩ := List.append_eq_nil_iff.mp nothing
  refine ⟨?_, List.map_eq_nil_iff.mp noRequests⟩
  cases frames with
  | nil => rfl
  | cons f below => simp [Frame.tasks] at noFrames

theorem agenda_eq_load {frames : List Frame} {requests : List String} {request : FileRequest}
    {rest : List LoadTask} (next : agenda frames requests = .load request :: rest) :
    ∃ frames' requests', Due frames requests request frames' requests' ∧
      rest = agenda frames' requests' := by
  match frames, requests with
  | [], [] => cases next
  | [], path :: more =>
      obtain ⟨same, rfl⟩ := List.cons.inj next
      cases same
      exact ⟨[], more, .direct, rfl⟩
  | ⟨o, []⟩ :: below, requests => cases next
  | ⟨o, name :: names⟩ :: below, requests =>
      obtain ⟨same, rfl⟩ := List.cons.inj next
      cases same
      exact ⟨_, requests, .imported, rfl⟩

theorem agenda_eq_keep {frames : List Frame} {requests : List String} {file : NamespaceFile}
    {requested : Bool} {rest : List LoadTask}
    (next : agenda frames requests = .keep file requested :: rest) :
    ∃ o below, frames = ⟨o, []⟩ :: below ∧ o.file = file ∧ o.chain.isEmpty = requested ∧
      rest = agenda below requests := by
  match frames, requests with
  | [], [] => cases next
  | [], path :: more => cases next
  | ⟨o, name :: names⟩ :: below, requests => cases next
  | ⟨o, []⟩ :: below, requests =>
      obtain ⟨same, rfl⟩ := List.cons.inj next
      cases same
      exact ⟨o, below, rfl, rfl, rfl, rfl⟩

theorem importPath_eq_ok {fs : FileSystem} {includes : List String} {name base path : String} :
    (FileRequest.imported name base).path fs includes = .ok path ↔
      resolveImport? fs includes name base = some path := by
  rw [FileRequest.path]
  cases resolveImport? fs includes name base <;> simp

section

variable {parse : Parser} {fs : FileSystem} {includes : List String} {l : Loader}
  {request : FileRequest} {path place : String} {rest : List LoadTask}

theorem Loader.run_load_known (found : request.path fs includes = .ok path)
    (located : fs.locate path = .ok place) (known : place ∈ l.loaded) :
    l.run parse fs includes (.load request :: rest) = l.run parse fs includes rest := by
  rw [run, found]
  grind

theorem Loader.run_load_fresh {file : NamespaceFile} (found : request.path fs includes = .ok path)
    (located : fs.locate path = .ok place) (fresh : place ∉ l.loaded)
    (read : readFile parse fs path = .ok file) :
    l.run parse fs includes (.load request :: rest) =
      run parse fs includes { l with loaded := place :: l.loaded }
        (fileTasks file path request.isDirect ++ rest) := by
  rw [run, found]
  grind

end

section

variable {parse : Parser} {fs : FileSystem} {includes paths requests requests' : List String}
  {l : Loader} {done : List Opening} {frames frames' : List Frame} {request : FileRequest}
  {o : Opening}

theorem Progress.next_listed {name : String} {rest : List String} {below : List Frame}
    (progress : Progress parse fs includes paths l done (⟨o, name :: rest⟩ :: below) requests) :
    o.Genuine parse fs includes paths ∧ name ∈ o.file.metadata.imports := by
  obtain ⟨dealt, whole, _⟩ := progress.pending _ List.mem_cons_self
  exact ⟨progress.genuine o List.mem_append_cons_self, whole ▸ List.mem_append_cons_self⟩

theorem Progress.next_requested {path : String}
    (progress : Progress parse fs includes paths l done frames (path :: requests)) :
    path ∈ paths := by
  obtain ⟨served, whole, _⟩ := progress.served
  exact whole ▸ List.mem_append_cons_self

namespace Due

variable (due : Due frames requests request frames' requests')
  (progress : Progress parse fs includes paths l done frames requests)

include due progress

theorem fault {e : LoadError} (failed : request.path fs includes = .error e) :
    LoadFault parse fs includes paths e := by
  cases due with
  | direct => cases failed
  | @imported parent name =>
      obtain ⟨genuine, listed⟩ := progress.next_listed
      rw [FileRequest.path] at failed
      cases resolved : resolveImport? fs includes name parent.path with
      | some path => simp [resolved] at failed
      | none =>
          rw [resolved] at failed
          cases failed
          exact .unresolved genuine.followed genuine.located genuine.read listed resolved

theorem followed {path : String} (found : request.path fs includes = .ok path) :
    Followed parse fs includes paths path := by
  cases due with
  | direct =>
      cases found
      exact .requested progress.next_requested
  | imported =>
      obtain ⟨genuine, listed⟩ := progress.next_listed
      exact genuine.import_followed listed (importPath_eq_ok.mp found)

theorem skip {path place : String} (found : request.path fs includes = .ok path)
    (located : fs.locate path = .ok place) (known : place ∈ l.loaded) :
    Progress parse fs includes paths l done frames' requests' := by
  cases due with
  | direct =>
      cases found
      exact progress.dealtRequest located known
  | imported =>
      exact progress.dealtImport []
        ⟨path, place, importPath_eq_ok.mp found, located, known⟩

theorem opens {path place : String} {file : NamespaceFile}
    (found : request.path fs includes = .ok path) (located : fs.locate path = .ok place)
    (fresh : place ∉ l.loaded) (read : Loader.readFile parse fs path = .ok file) :
    ∃ o : Opening,
      Loader.fileTasks file path request.isDirect = Frame.tasks ⟨o, o.file.metadata.imports⟩ ∧
      Progress parse fs includes paths { l with loaded := place :: l.loaded } done
        (⟨o, o.file.metadata.imports⟩ :: frames') requests' := by
  let o : Opening := ⟨place, path, file, places (stack frames)⟩
  have genuine : o.Genuine parse fs includes paths := ⟨due.followed progress found, located, read⟩
  refine ⟨o, ?_, ?_⟩
  · cases due <;> rfl
  · cases due with
    | direct =>
        cases found
        have pushed := progress.push fresh genuine (.requested progress.next_requested rfl) rfl
          fun _ => rfl
        exact pushed.dealtRequest located List.mem_cons_self
    | @imported parent name rest below =>
        obtain ⟨_, listed⟩ := progress.next_listed
        have resolved := importPath_eq_ok.mp found
        -- The parent is the innermost open file: the others are its chain.
        have inside : parent.chain = places (stack below) :=
          progress.nested [] parent (stack below) rfl
        have origin : o.Origin fs includes paths (stack (⟨parent, name :: rest⟩ :: below)) :=
          .imported parent name List.mem_cons_self listed resolved
            (by rw [Opening.ongoing, inside]; rfl)
        have pushed := progress.push fresh genuine origin rfl
          fun none => absurd none (List.cons_ne_nil _ _)
        exact pushed.dealtImport [⟨o, _⟩]
          ⟨path, place, resolved, located, List.mem_cons_self⟩

end Due

theorem Progress.run {tasks : List LoadTask}
    (progress : Progress parse fs includes paths l done frames requests)
    (now : tasks = agenda frames requests) :
    (∃ last opened, l.run parse fs includes tasks = (last, .ok ()) ∧
      Progress parse fs includes paths last opened [] []) ∨
    ∃ last e, l.run parse fs includes tasks = (last, .error e) ∧
      LoadFault parse fs includes paths e := by
  -- The agenda says which step comes next, so that each case is one step of the progress.
  induction l, tasks using Loader.run.induct parse fs includes
    generalizing done frames requests with
  | case1 l =>
      obtain ⟨rfl, rfl⟩ := agenda_eq_nil now.symm
      exact .inl ⟨l, done, by rw [Loader.run], progress⟩
  | case2 l file requested rest ih =>
      obtain ⟨o, below, rfl, rfl, rfl, rfl⟩ := agenda_eq_keep now.symm
      rw [Loader.run]
      exact ih progress.keep rfl
  | case3 l request rest e failed =>
      obtain ⟨_, _, due, _⟩ := agenda_eq_load now.symm
      refine .inr ⟨l, e, ?_, due.fault progress failed⟩
      simp [Loader.run, failed]
  | case4 l request rest path found e failed =>
      obtain ⟨_, _, due, _⟩ := agenda_eq_load now.symm
      refine .inr ⟨l, _, ?_, .missing (due.followed progress found) failed⟩
      rw [Loader.run, found]
      grind
  | case5 l request rest path found place located known ih =>
      obtain ⟨frames', requests', due, rfl⟩ := agenda_eq_load now.symm
      rw [Loader.run_load_known found located known]
      exact ih (due.skip progress found located known) rfl
  | case6 l request rest path found place located fresh e failed =>
      obtain ⟨frames', requests', due, rfl⟩ := agenda_eq_load now.symm
      refine .inr ⟨{ l with loaded := place :: l.loaded }, e, ?_,
        .unreadable (due.followed progress found) located failed⟩
      rw [Loader.run, found]
      grind
  | case7 l request rest path found place located fresh file read ih =>
      obtain ⟨frames', requests', due, rfl⟩ := agenda_eq_load now.symm
      obtain ⟨o, tasks, opened⟩ := due.opens progress found located fresh read
      rw [Loader.run_load_fresh found located fresh read]
      refine ih opened ?_
      rw [tasks, agenda, agenda, List.flatMap_cons, List.append_assoc]

theorem Loader.run_append (tasks more : List LoadTask) :
    l.run parse fs includes (tasks ++ more) =
      match l.run parse fs includes tasks with
      | (next, .ok ()) => next.run parse fs includes more
      | (next, .error e) => (next, .error e) := by
  induction l, tasks using Loader.run.induct parse fs includes with
  | case1 l => simp [Loader.run]
  | case2 l file requested rest ih => simpa [Loader.run] using ih
  | case3 l request rest e failed => simp [Loader.run, failed]
  | case4 l request rest path found e failed =>
      rw [List.cons_append, Loader.run, Loader.run, found]
      grind
  | case5 l request rest path found place located known ih =>
      rw [List.cons_append, run_load_known found located known, ih,
        run_load_known found located known]
  | case6 l request rest path found place located fresh e failed =>
      rw [List.cons_append, Loader.run, Loader.run, found]
      grind
  | case7 l request rest path found place located fresh file read ih =>
      rw [List.cons_append, run_load_fresh found located fresh read, ← List.append_assoc, ih,
        run_load_fresh found located fresh read]

theorem Loader.loadAll_eq_run (paths : List String) :
    l.loadAll parse fs includes paths =
      match l.run parse fs includes (agenda [] paths) with
      | (last, .ok ()) => .ok last
      | (_, .error e) => .error e := by
  induction paths generalizing l with
  | nil => simp [loadAll, agenda, run]
  | cons path rest ih =>
      have split : agenda [] (path :: rest) = [.load (.direct path)] ++ agenda [] rest := rfl
      rw [split, run_append, loadAll, load]
      cases l.run parse fs includes [.load (.direct path)] with
      | mk next outcome =>
          cases outcome with
          | ok => exact ih
          | error e => rfl

end

end Replica
