import Replica.Proofs.Files
import Replica.Proofs.Loading.Run
import Replica.Proofs.Namespace.Merging

/-!
What loading comes to. It fails where a followed path leads to no namespace file or an import is
not found; otherwise it has opened what the requested paths and the imports lead to, each file once
and behind its imports.
-/

namespace Replica

/-- Paths that lead to one file lead on alike from there, as they do where no links are. -/
def FileSystem.LinkFree (fs : FileSystem) (parse : Parser) (includes paths : List String) : Prop :=
  ∀ path other place file,
    Followed parse fs includes paths path → Followed parse fs includes paths other →
    fs.locate path = .ok place → fs.locate other = .ok place →
    Loader.readFile parse fs path = .ok file → Loader.readFile parse fs other = .ok file ∧
      ∀ name ∈ file.metadata.imports,
        resolveImport? fs includes name other = resolveImport? fs includes name path

/-- The files that were opened, in the order in which they were kept. Each was opened because it
was requested or imported; it is kept behind the files that it imports, unless these are still open
when it is opened or it is one of them itself. -/
structure Account (parse : Parser) (fs : FileSystem) (includes paths : List String)
    (opened : List Opening) : Prop where
  genuine : ∀ o ∈ opened, o.Genuine parse fs includes paths
  origins : ∀ o ∈ opened, o.Origin fs includes paths opened
  distinct : (places opened).Nodup
  requested : ∀ path ∈ paths, ∃ place, fs.locate path = .ok place ∧ place ∈ places opened
  imports : ∀ before o after, opened = before ++ o :: after →
    ∀ name ∈ o.file.metadata.imports, o.LeadsInto fs includes name (places before ++ o.ongoing)
  chains : ∀ before o after, opened = before ++ o :: after → o.chain ⊆ places after

variable {parse : Parser} {fs : FileSystem} {includes paths : List String} {l : Loader}
  {opened : List Opening}

theorem Progress.account (progress : Progress parse fs includes paths l opened [] []) :
    Account parse fs includes paths opened := by
  have none : opened ++ stack [] = opened := List.append_nil opened
  have loaded : l.loaded.Perm (places opened) := by
    have perm := progress.loaded
    rwa [← places_append, none] at perm
  refine ⟨none ▸ progress.genuine, none ▸ progress.origins, loaded.nodup_iff.mp progress.distinct,
    ?_, progress.imports, ?_⟩
  · intro path listed
    obtain ⟨served, whole, found⟩ := progress.served
    rw [List.append_nil] at whole
    obtain ⟨place, located, known⟩ := found path (whole ▸ listed)
    exact ⟨place, located, loaded.mem_iff.mp known⟩
  · intro before o after split
    have higher := progress.chains before o after split
    rwa [← places_append, stack, List.map_nil, List.append_nil] at higher

theorem Progress.rootFirst_eq {path : String} {rest : List String}
    (progress : Progress parse fs includes (path :: rest) l opened [] []) :
    ∃ before first after, opened = before ++ first :: after ∧ first.path = path ∧
      first.chain = [] ∧ l.rootFirst = (first :: (before ++ after)).map (·.file) := by
  have now := progress.first
  have files := progress.files
  unfold Loader.rootFirst
  generalize l.root = root at now ⊢
  cases now with
  | ongoing last => cases last
  | @kept _ _ _ index first there outermost head =>
      obtain ⟨inRange, same⟩ := List.getElem?_eq_some_iff.mp there
      have split : opened = opened.take index ++ first :: opened.drop (index + 1) := by
        rw [← same, List.getElem_cons_drop, List.take_append_drop]
      refine ⟨_, first, _, split, (Option.some.inj head).symm, outermost, ?_⟩
      simp [files, there, List.eraseIdx_eq_take_drop_succ, List.map_take, List.map_drop]

namespace Account

variable (account : Account parse fs includes paths opened)

include account

theorem length_le : opened.length ≤ fs.places.length := by
  have within : places opened ⊆ fs.places := by
    intro place known
    obtain ⟨o, listed, rfl⟩ := List.mem_map.mp known
    exact fs.locate_mem _ _ (account.genuine o listed).located
  have bound := (List.subperm_of_subset account.distinct within).length_le
  rwa [places, List.length_map] at bound

theorem leadsInto {o : Opening} (listed : o ∈ opened) {name : String}
    (imported : name ∈ o.file.metadata.imports) :
    o.LeadsInto fs includes name (places opened) := by
  obtain ⟨before, after, split⟩ := List.append_of_mem listed
  refine (account.imports before o after split name imported).mono fun place known => ?_
  rw [split, places_append, places_cons, List.mem_append, List.mem_cons]
  rcases List.mem_append.mp known with earlier | open'
  · exact .inl earlier
  · rcases List.mem_cons.mp open' with rfl | higher
    · exact .inr (.inl rfl)
    · exact .inr (.inr (account.chains before o after split higher))

variable (linkFree : fs.LinkFree parse includes paths)

include linkFree

theorem opened_at {path place : String} (followed : Followed parse fs includes paths path)
    (located : fs.locate path = .ok place) (known : place ∈ places opened) :
    ∃ o ∈ opened, fs.locate path = .ok o.place ∧ Loader.readFile parse fs path = .ok o.file ∧
      ∀ name ∈ o.file.metadata.imports,
        resolveImport? fs includes name path = resolveImport? fs includes name o.path := by
  obtain ⟨o, listed, rfl⟩ := List.mem_map.mp known
  have genuine := account.genuine o listed
  obtain ⟨read, resolved⟩ := linkFree o.path path o.place o.file genuine.followed followed
    genuine.located located genuine.read
  exact ⟨o, listed, located, read, resolved⟩

theorem complete {path : String} (followed : Followed parse fs includes paths path) :
    ∃ o ∈ opened, fs.locate path = .ok o.place ∧ Loader.readFile parse fs path = .ok o.file ∧
      ∀ name ∈ o.file.metadata.imports,
        resolveImport? fs includes name path = resolveImport? fs includes name o.path := by
  -- What is opened under one path to a file resolves its imports as under any other path to it.
  induction followed with
  | requested listed =>
      obtain ⟨place, located, known⟩ := account.requested _ listed
      exact account.opened_at linkFree (.requested listed) located known
  | imported followed located read listed resolved ih =>
      obtain ⟨o, known, _, read', same⟩ := ih
      obtain rfl := Except.ok.inj (read.symm.trans read')
      obtain ⟨next, place, resolved', found, there⟩ := account.leadsInto known listed
      rw [← same _ listed, resolved] at resolved'
      obtain rfl := Option.some.inj resolved'
      exact account.opened_at linkFree (.imported followed located read listed resolved) found there

theorem mem_places_iff {place : String} : place ∈ places opened ↔
    ∃ path, Followed parse fs includes paths path ∧ fs.locate path = .ok place := by
  constructor
  · intro known
    obtain ⟨o, listed, rfl⟩ := List.mem_map.mp known
    have genuine := account.genuine o listed
    exact ⟨o.path, genuine.followed, genuine.located⟩
  · rintro ⟨path, followed, located⟩
    obtain ⟨o, listed, located', _⟩ := account.complete linkFree followed
    obtain rfl := Except.ok.inj (located.symm.trans located')
    exact mem_places listed

theorem faultless {e : LoadError} : ¬LoadFault parse fs includes paths e := by
  intro fault
  cases fault with
  | missing followed failed =>
      obtain ⟨o, _, located, _⟩ := account.complete linkFree followed
      rw [failed] at located
      cases located
  | unreadable followed _ failed =>
      obtain ⟨o, _, _, read, _⟩ := account.complete linkFree followed
      rw [failed] at read
      cases read
  | unresolved followed _ read listed failed =>
      obtain ⟨o, known, _, read', same⟩ := account.complete linkFree followed
      obtain rfl := Except.ok.inj (read.symm.trans read')
      obtain ⟨path, place, resolved, _⟩ := account.leadsInto known listed
      rw [← same _ listed, failed] at resolved
      cases resolved

end Account

theorem Followed.mem {path : String} (followed : Followed parse fs includes paths path) :
    path ∈ paths ++ fs.places := by
  cases followed with
  | requested listed => exact List.mem_append_left _ listed
  | imported _ _ _ _ resolved =>
      obtain ⟨candidate, _, found⟩ := List.exists_of_findSome?_eq_some resolved
      rw [FileSystem.find?] at found
      split at found
      · cases found
      · cases located : fs.locate candidate with
        | error e => simp [located, Except.toOption] at found
        | ok place =>
            rw [located] at found
            cases found
            exact List.mem_append_right _ (fs.locate_mem _ _ located)

/-- The path and the paths that its imports are looked for beside it are not too long, and none of
the imports is empty. -/
def FileSystem.isModest (fs : FileSystem) (parse : Parser) (path : String) : Bool :=
  !Path.isTooLong path &&
    match Loader.readFile parse fs path with
    | .error _ => true
    | .ok file => file.metadata.imports.all fun name =>
        name != "" && !Path.isTooLong (Path.beside path name)

theorem FileSystem.readFile_eq_ok {path : String} {file : NamespaceFile} :
    Loader.readFile parse fs path = .ok file ↔
      ∃ text, fs.contents path = .ok text ∧ parse text = some file := by
  unfold Loader.readFile
  cases fs.contents path with
  | error e => simp
  | ok text => cases parsed : parse text <;> simp [parsed]

/-- There are no links in a tree. -/
theorem FileTree.system_linkFree {tree : FileTree} (wellFormed : tree.WellFormed)
    (parse : Parser) (current : Location) {includes paths : List String}
    (modest : ∀ path ∈ paths ++ (tree.system current).places,
      (tree.system current).isModest parse path) :
    (tree.system current).LinkFree parse includes paths := by
  intro path other place file followed followed' located located' read
  obtain ⟨location, resolved, resolved'⟩ := wellFormed.resolve_eq located located'
  have short := modest path followed.mem
  have short' := modest other followed'.mem
  obtain ⟨text, held, parsed⟩ := FileSystem.readFile_eq_ok.mp read
  have stored := ((read_eq_ok_iff resolved).mp held).2
  rw [FileSystem.isModest, Bool.and_eq_true, Bool.not_eq_true'] at short short'
  have read' : Loader.readFile parse (tree.system current) other = .ok file :=
    FileSystem.readFile_eq_ok.mpr ⟨text, (read_eq_ok_iff resolved').mpr ⟨short'.1, stored⟩, parsed⟩
  refine ⟨read', fun name listed => ?_⟩
  rw [read] at short
  rw [read'] at short'
  have fits := List.all_eq_true.mp short.2 name listed
  have fits' := List.all_eq_true.mp short'.2 name listed
  rw [Bool.and_eq_true, bne_iff_ne, Bool.not_eq_true'] at fits fits'
  have file := wellFormed.not_directory stored
  -- Of the candidates for an import only the one beside the file depends on the path.
  have beside : (tree.system current).find? (Path.beside other name) =
      (tree.system current).find? (Path.beside path name) := by
    cases relative : Path.isAbsolute name with
    | true => simp only [Path.beside, relative, if_true]
    | false =>
        have same : tree.resolve current (Path.beside other name) =
            tree.resolve current (Path.beside path name) := by
          rw [resolve_beside wellFormed resolved file relative fits.1,
            resolve_beside wellFormed resolved' file relative fits.1]
        rw [FileSystem.find?, FileSystem.find?, fits.2, fits'.2, FileTree.system]
        simp only [same]
  rw [resolveImport?, resolveImport?, importCandidates, importCandidates, List.findSome?_cons,
    List.findSome?_cons, beside]

/-- Loading ends. When it succeeds it has kept every file that was opened, each place once and
behind what it imports, unless that is still open. The namespace has its module and output package
from the first requested file, which is put before all others. Where no links are, the places are
all those that are reached from the requested paths, and loading fails only if a path that is
followed leads to no namespace file or an import is not found. -/
theorem loadAll_closure (parse : Parser) (fs : FileSystem) (includes paths : List String) :
    (∃ e, Loader.loadAll parse fs includes {} paths = .error e ∧
      LoadFault parse fs includes paths e) ∨
    ∃ l opened, Loader.loadAll parse fs includes {} paths = .ok l ∧
      l.files = opened.map (·.file) ∧ Account parse fs includes paths opened ∧
      opened.length ≤ fs.places.length ∧
      (∀ path rest, paths = path :: rest → ∃ before first after,
        opened = before ++ first :: after ∧ first.path = path ∧
        l.rootFirst = (first :: (before ++ after)).map (·.file) ∧
        ∀ ns, l.toNamespace = .ok ns → ns.module = first.file.metadata.module ∧
          ns.outputPackage = first.file.metadata.package) ∧
      (fs.LinkFree parse includes paths →
        (∀ place, place ∈ places opened ↔
          ∃ path, Followed parse fs includes paths path ∧ fs.locate path = .ok place) ∧
        ∀ e, ¬LoadFault parse fs includes paths e) := by
  rw [Loader.loadAll_eq_run]
  rcases (Progress.start parse fs includes paths).run rfl with
    ⟨l, opened, ran, progress⟩ | ⟨l, e, ran, fault⟩
  · rw [ran]
    have account := progress.account
    refine .inr ⟨l, opened, rfl, progress.files, account, account.length_le, ?_,
      fun linkFree => ⟨fun place => account.mem_places_iff linkFree,
        fun e => account.faultless linkFree⟩⟩
    rintro path rest rfl
    obtain ⟨before, first, after, split, here, _, order⟩ := progress.rootFirst_eq
    refine ⟨before, first, after, split, here, order, fun ns merged => ?_⟩
    rw [Loader.toNamespace, order, List.map_cons] at merged
    have gathers := Namespace.ofFiles_gathers merged
    exact ⟨gathers.module, gathers.outputPackage⟩
  · rw [ran]
    exact .inl ⟨e, rfl, fault⟩

/-- Two files that import each other, one of them also itself, and a third one that both import from
the directory of included files. -/
def importCycle : FileTree where
  directories := [["lib"], ["include"]]
  files := [
    (["app"], "namespace: {module: app, package: main, imports: [lib/shelf, std]}"),
    (["lib", "shelf"], "namespace: {module: shelf, imports: [../app, std, shelf]}"),
    (["include", "std"], "namespace: {module: std}")]

def importCycleFiles : List NamespaceFile := [
  { metadata := { module := "std" } },
  { metadata := { module := "shelf", imports := ["../app", "std", "shelf"] } },
  { metadata := { module := "app", package := some "main", imports := ["lib/shelf", "std"] } }]

def importCycleParse : Parser := fun text =>
  ((importCycle.files.map (·.2)).zip importCycleFiles.reverse).lookup text

def importCyclePaths : List String := ["./lib/../app", "lib/shelf"]

theorem importCycle_linkFree :
    (importCycle.system []).LinkFree importCycleParse ["include"] importCyclePaths :=
  FileTree.system_linkFree ⟨by decide, by decide, by decide⟩ importCycleParse [] (by decide +kernel)

theorem importCycle_loadAll :
    Loader.loadAll importCycleParse (importCycle.system []) ["include"] {} importCyclePaths =
      .ok ⟨["/include/std", "/lib/shelf", "/app"], importCycleFiles, some 2⟩ := by
  let fs := importCycle.system []
  have app : fs.locate "./lib/../app" = .ok "/app" := by decide
  have app' : fs.locate "/app" = .ok "/app" := by decide
  have shelf : fs.locate "lib/shelf" = .ok "/lib/shelf" := by decide
  have shelf' : fs.locate "/lib/shelf" = .ok "/lib/shelf" := by decide
  have std : fs.locate "/include/std" = .ok "/include/std" := by decide
  have readApp : Loader.readFile importCycleParse fs "./lib/../app" = .ok importCycleFiles[2] := by
    decide +kernel
  have readShelf : Loader.readFile importCycleParse fs "/lib/shelf" = .ok importCycleFiles[1] := by
    decide +kernel
  have readStd : Loader.readFile importCycleParse fs "/include/std" = .ok importCycleFiles[0] := by
    decide +kernel
  have appShelf : resolveImport? fs ["include"] "lib/shelf" "./lib/../app" =
    some "/lib/shelf" := by decide +kernel
  have appStd : resolveImport? fs ["include"] "std" "./lib/../app" =
    some "/include/std" := by decide +kernel
  have shelfApp : resolveImport? fs ["include"] "../app" "/lib/shelf" =
    some "/app" := by decide +kernel
  have shelfStd : resolveImport? fs ["include"] "std" "/lib/shelf" =
    some "/include/std" := by decide +kernel
  have shelfShelf : resolveImport? fs ["include"] "shelf" "/lib/shelf" =
    some "/lib/shelf" := by decide +kernel
  have ran : Loader.run importCycleParse fs ["include"] {} (agenda [] importCyclePaths) =
      (⟨["/include/std", "/lib/shelf", "/app"], importCycleFiles, some 2⟩, .ok ()) := by
    refine (Loader.run_load_fresh rfl app (by decide) readApp).trans ?_
    refine (Loader.run_load_fresh (importPath_eq_ok.mpr appShelf) shelf' (by decide)
      readShelf).trans ?_
    refine (Loader.run_load_known (importPath_eq_ok.mpr shelfApp) app' (by decide)).trans ?_
    refine (Loader.run_load_fresh (importPath_eq_ok.mpr shelfStd) std (by decide) readStd).trans ?_
    refine (Loader.run.eq_2 ..).trans ?_
    refine (Loader.run_load_known (importPath_eq_ok.mpr shelfShelf) shelf' (by decide)).trans ?_
    refine (Loader.run.eq_2 ..).trans ?_
    refine (Loader.run_load_known (importPath_eq_ok.mpr appStd) std (by decide)).trans ?_
    refine (Loader.run.eq_2 ..).trans ?_
    refine (Loader.run_load_known rfl shelf (by decide)).trans ?_
    exact Loader.run.eq_1 ..
  rw [Loader.loadAll_eq_run, ran]

theorem importCycle_closure : ∃ l opened ns,
    Loader.loadAll importCycleParse (importCycle.system []) ["include"] {} importCyclePaths =
      .ok l ∧
    l.files.map (·.metadata.module) = ["std", "shelf", "app"] ∧
    l.rootFirst.map (·.metadata.module) = ["app", "std", "shelf"] ∧
    Account importCycleParse (importCycle.system []) ["include"] importCyclePaths opened ∧
    opened.length = 3 ∧
    (∀ place, place ∈ places opened ↔ ∃ path,
      Followed importCycleParse (importCycle.system []) ["include"] importCyclePaths path ∧
      (importCycle.system []).locate path = .ok place) ∧
    l.toNamespace = .ok ns ∧ ns.module = "app" ∧ ns.outputPackage = some "main" := by
  rcases loadAll_closure importCycleParse (importCycle.system []) ["include"] importCyclePaths with
    ⟨e, failed, _⟩ | ⟨l, opened, loaded, files, account, _, root, closure⟩
  · rw [importCycle_loadAll] at failed
    cases failed
  · rw [importCycle_loadAll] at loaded
    cases loaded
    have length : opened.length = 3 := by
      rw [← List.length_map (·.file), ← files]
      rfl
    obtain ⟨before, first, after, _, _, order, metadata⟩ := root _ _ rfl
    have here : importCycleFiles[2] = first.file := (List.cons.inj order).1
    obtain ⟨module, outputPackage⟩ := metadata _ rfl
    rw [← here] at module outputPackage
    exact ⟨_, opened, _, importCycle_loadAll, rfl, rfl, account, length,
      (closure importCycle_linkFree).1, rfl, module, outputPackage⟩

end Replica
