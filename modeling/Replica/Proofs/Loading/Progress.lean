import Replica.Loader

/-!
What the loader has done at any moment. The files that were opened are either kept or still open;
those that are open were opened one from the other, and what is left to do is what they have not
yet imported, followed by the paths that are still to be loaded.
-/

namespace Replica

/-- The paths that loading may come to: the requested ones, and those that the imports of the files
there are resolved to. -/
inductive Followed (parse : Parser) (fs : FileSystem) (includes paths : List String) :
    String → Prop
  | requested {path : String} (listed : path ∈ paths) : Followed parse fs includes paths path
  | imported {base place name path : String} {file : NamespaceFile}
      (followed : Followed parse fs includes paths base) (located : fs.locate base = .ok place)
      (read : Loader.readFile parse fs base = .ok file) (listed : name ∈ file.metadata.imports)
      (resolved : resolveImport? fs includes name base = some path) :
      Followed parse fs includes paths path

/-- Why loading fails: a path that is followed leads nowhere or to no namespace file, or the file
there imports what is not found. -/
inductive LoadFault (parse : Parser) (fs : FileSystem) (includes paths : List String) :
    LoadError → Prop
  | missing {path : String} {e : FileError} (followed : Followed parse fs includes paths path)
      (failed : fs.locate path = .error e) : LoadFault parse fs includes paths (.cannotOpen path e)
  | unreadable {path place : String} {e : LoadError}
      (followed : Followed parse fs includes paths path) (located : fs.locate path = .ok place) (failed : Loader.readFile parse fs path = .error e) :
      LoadFault parse fs includes paths e
  | unresolved {path place name : String} {file : NamespaceFile}
      (followed : Followed parse fs includes paths path) (located : fs.locate path = .ok place)
      (read : Loader.readFile parse fs path = .ok file) (listed : name ∈ file.metadata.imports)
      (failed : resolveImport? fs includes name path = none) :
      LoadFault parse fs includes paths (.importNotFound name path)

/-- A file that was opened under `path`, while the files at the places of `chain` were open, the
last of them in front. -/
structure Opening where
  place : String
  path : String
  file : NamespaceFile
  chain : List String

def places (opened : List Opening) : List String :=
  opened.map (·.place)

@[simp] theorem places_nil : places [] = [] := rfl

@[simp] theorem places_cons (o : Opening) (opened : List Opening) :
    places (o :: opened) = o.place :: places opened := rfl

@[simp] theorem places_append (opened more : List Opening) :
    places (opened ++ more) = places opened ++ places more :=
  List.map_append

theorem mem_places {o : Opening} {opened : List Opening} (listed : o ∈ opened) :
    o.place ∈ places opened :=
  List.mem_map_of_mem listed

structure Frame where
  opening : Opening
  rest : List String

def stack (frames : List Frame) : List Opening :=
  frames.map (·.opening)

@[simp] theorem stack_cons (f : Frame) (frames : List Frame) :
    stack (f :: frames) = f.opening :: stack frames := rfl

@[simp] theorem stack_append (frames more : List Frame) :
    stack (frames ++ more) = stack frames ++ stack more :=
  List.map_append

namespace Opening

def ongoing (o : Opening) : List String :=
  o.place :: o.chain

/-- The file is what is read under its path. -/
structure Genuine (parse : Parser) (fs : FileSystem) (includes paths : List String) (o : Opening) :
    Prop where
  followed : Followed parse fs includes paths o.path
  located : fs.locate o.path = .ok o.place
  read : Loader.readFile parse fs o.path = .ok o.file

def LeadsInto (fs : FileSystem) (includes : List String) (o : Opening) (name : String)
    (known : List String) : Prop :=
  ∃ path place, resolveImport? fs includes name o.path = some path ∧
    fs.locate path = .ok place ∧ place ∈ known

/-- A file is requested, or imported by one of the opened files while that one is open. -/
inductive Origin (fs : FileSystem) (includes paths : List String) (opened : List Opening)
    (o : Opening) : Prop
  | requested (listed : o.path ∈ paths) (outermost : o.chain = [])
  | imported (parent : Opening) (name : String) (known : parent ∈ opened)
      (listed : name ∈ parent.file.metadata.imports)
      (resolved : resolveImport? fs includes name parent.path = some o.path)
      (nested : o.chain = parent.ongoing)

variable {parse : Parser} {fs : FileSystem} {includes paths : List String} {o : Opening}

theorem LeadsInto.mono {name : String} {known more : List String}
    (leads : o.LeadsInto fs includes name known) (grown : known ⊆ more) :
    o.LeadsInto fs includes name more := by
  obtain ⟨path, place, resolved, located, there⟩ := leads
  exact ⟨path, place, resolved, located, grown there⟩

theorem Origin.mono {opened more : List Opening} (origin : o.Origin fs includes paths opened)
    (grown : opened ⊆ more) : o.Origin fs includes paths more := by
  cases origin with
  | requested listed outermost => exact .requested listed outermost
  | imported parent name known listed resolved nested =>
      exact .imported parent name (grown known) listed resolved nested

theorem Genuine.import_followed {name path : String} (genuine : o.Genuine parse fs includes paths)
    (listed : name ∈ o.file.metadata.imports)
    (resolved : resolveImport? fs includes name o.path = some path) :
    Followed parse fs includes paths path :=
  .imported genuine.followed genuine.located genuine.read listed resolved

end Opening

/-- Where the first requested file is: not opened yet, open below all others, or kept. -/
inductive FirstAt (paths : List String) :
    Option Nat → List Opening → List Opening → List String → Prop
  | waiting : FirstAt paths none [] [] paths
  | ongoing {done opened : List Opening} {requests : List String} {first : Opening}
      (outermost : opened.getLast? = some first) (head : paths.head? = some first.path) :
      FirstAt paths none done opened requests
  | kept {done opened : List Opening} {requests : List String} {index : Nat} {first : Opening}
      (there : done[index]? = some first) (outermost : first.chain = [])
      (head : paths.head? = some first.path) : FirstAt paths (some index) done opened requests

/-- The files of `done` are kept, those of `frames` are open, and the paths of `requests` are still
to be loaded. -/
structure Progress (parse : Parser) (fs : FileSystem) (includes paths : List String) (l : Loader)
    (done : List Opening) (frames : List Frame) (requests : List String) : Prop where
  files : l.files = done.map (·.file)
  loaded : l.loaded.Perm (places done ++ places (stack frames))
  distinct : l.loaded.Nodup
  genuine : ∀ o ∈ done ++ stack frames, o.Genuine parse fs includes paths
  origins : ∀ o ∈ done ++ stack frames, o.Origin fs includes paths (done ++ stack frames)
  nested : ∀ above o below, stack frames = above ++ o :: below → o.chain = places below
  pending : ∀ f ∈ frames, ∃ dealt, f.opening.file.metadata.imports = dealt ++ f.rest ∧
    ∀ name ∈ dealt, f.opening.LeadsInto fs includes name l.loaded
  imports : ∀ before o after, done = before ++ o :: after →
    ∀ name ∈ o.file.metadata.imports, o.LeadsInto fs includes name (places before ++ o.ongoing)
  chains : ∀ before o after, done = before ++ o :: after →
    o.chain ⊆ places after ++ places (stack frames)
  served : ∃ served, paths = served ++ requests ∧
    ∀ path ∈ served, ∃ place, fs.locate path = .ok place ∧ place ∈ l.loaded
  first : FirstAt paths l.root done (stack frames) requests

namespace Progress

variable {parse : Parser} {fs : FileSystem} {includes paths requests : List String} {l : Loader}
  {done : List Opening} {frames below : List Frame} {o : Opening}

theorem start (parse : Parser) (fs : FileSystem) (includes paths : List String) :
    Progress parse fs includes paths {} [] [] paths where
  files := rfl
  loaded := .refl _
  distinct := List.nodup_nil
  genuine := by simp [stack]
  origins := by simp [stack]
  nested := by simp [stack]
  pending := by simp
  imports := by simp
  chains := by simp
  served := ⟨[], rfl, by simp⟩
  first := .waiting

theorem push (progress : Progress parse fs includes paths l done frames requests)
    (fresh : o.place ∉ l.loaded) (genuine : o.Genuine parse fs includes paths)
    (origin : o.Origin fs includes paths (stack frames)) (inside : o.chain = places (stack frames))
    (outermost : stack frames = [] → requests.head? = some o.path) :
    Progress parse fs includes paths { l with loaded := o.place :: l.loaded } done
      (⟨o, o.file.metadata.imports⟩ :: frames) requests where
  files := progress.files
  loaded := (progress.loaded.cons _).trans List.perm_middle.symm
  distinct := List.nodup_cons.mpr ⟨fresh, progress.distinct⟩
  genuine := by
    intro other listed
    rw [stack_cons, List.perm_middle.mem_iff, List.mem_cons] at listed
    rcases listed with rfl | old
    · exact genuine
    · exact progress.genuine other old
  origins := by
    intro other listed
    rw [stack_cons, List.perm_middle.mem_iff, List.mem_cons] at listed
    rcases listed with rfl | old
    · refine origin.mono fun parent known => ?_
      exact List.mem_append_right _ (List.mem_cons_of_mem _ known)
    · refine (progress.origins other old).mono fun parent known => ?_
      exact List.perm_middle.mem_iff.mpr (List.mem_cons_of_mem _ known)
  nested := by
    intro above other under split
    cases above with
    | nil =>
        obtain ⟨rfl, rfl⟩ := List.cons.inj split
        exact inside
    | cons top above => exact progress.nested above other under (List.cons.inj split).2
  pending := by
    intro f listed
    rcases List.mem_cons.mp listed with rfl | old
    · exact ⟨[], rfl, by simp⟩
    · obtain ⟨dealt, whole, leads⟩ := progress.pending f old
      exact ⟨dealt, whole, fun name known => (leads name known).mono (List.subset_cons_self _ _)⟩
  imports := progress.imports
  chains := by
    intro before other after split place known
    have old := progress.chains before other after split known
    rw [List.mem_append] at old ⊢
    exact old.imp_right (List.mem_cons_of_mem _)
  served := by
    obtain ⟨served, whole, found⟩ := progress.served
    refine ⟨served, whole, fun path listed => ?_⟩
    obtain ⟨place, located, known⟩ := found path listed
    exact ⟨place, located, List.mem_cons_of_mem _ known⟩
  first := by
    have now := progress.first
    rw [stack_cons]
    generalize stack frames = opened at now outermost ⊢
    change FirstAt paths l.root done (o :: opened) requests
    generalize l.root = root at now ⊢
    cases now with
    | waiting => exact .ongoing rfl (outermost rfl)
    | ongoing last head =>
        refine .ongoing ?_ head
        rw [List.getLast?_cons, last]
        rfl
    | kept there outermost head => exact .kept there outermost head

theorem dealtImport (above : List Frame) {name : String} {rest : List String}
    (progress : Progress parse fs includes paths l done (above ++ ⟨o, name :: rest⟩ :: below)
      requests)
    (leads : o.LeadsInto fs includes name l.loaded) :
    Progress parse fs includes paths l done (above ++ ⟨o, rest⟩ :: below) requests := by
  have same : stack (above ++ ⟨o, rest⟩ :: below) =
      stack (above ++ ⟨o, name :: rest⟩ :: below) := by simp
  refine { progress with
    loaded := same ▸ progress.loaded
    genuine := same ▸ progress.genuine
    origins := same ▸ progress.origins
    nested := same ▸ progress.nested
    chains := same ▸ progress.chains
    first := same ▸ progress.first
    pending := ?_ }
  intro f listed
  rw [List.perm_middle.mem_iff, List.mem_cons] at listed
  rcases listed with rfl | other
  · obtain ⟨dealt, whole, known⟩ := progress.pending _ List.mem_append_cons_self
    refine ⟨dealt ++ [name], by simpa using whole, fun candidate dealtWith => ?_⟩
    rcases List.mem_append.mp dealtWith with old | new
    · exact known candidate old
    · exact List.mem_singleton.mp new ▸ leads
  · exact progress.pending f (List.perm_middle.mem_iff.mpr (List.mem_cons_of_mem _ other))

theorem dealtRequest {path place : String}
    (progress : Progress parse fs includes paths l done frames (path :: requests))
    (located : fs.locate path = .ok place) (known : place ∈ l.loaded) :
    Progress parse fs includes paths l done frames requests where
  files := progress.files
  loaded := progress.loaded
  distinct := progress.distinct
  genuine := progress.genuine
  origins := progress.origins
  nested := progress.nested
  pending := progress.pending
  imports := progress.imports
  chains := progress.chains
  served := by
    obtain ⟨served, whole, found⟩ := progress.served
    refine ⟨served ++ [path], by simpa using whole, fun other listed => ?_⟩
    rcases List.mem_append.mp listed with old | new
    · exact found other old
    · exact ⟨place, List.mem_singleton.mp new ▸ located, known⟩
  first := by
    have now := progress.first
    have some : places done ++ places (stack frames) ≠ [] :=
      List.ne_nil_of_mem (progress.loaded.mem_iff.mp known)
    generalize stack frames = opened, l.root = root, requestsBefore : path :: requests = before
      at now some ⊢
    cases now with
    | waiting => exact absurd rfl some
    | ongoing last head => exact .ongoing last head
    | kept there outermost head => exact .kept there outermost head

theorem split_concat {α : Type} {items before after : List α} {last a : α}
    (split : items ++ [last] = before ++ a :: after) :
    (items = before ∧ last = a ∧ after = []) ∨
      ∃ more, after = more ++ [last] ∧ items = before ++ a :: more := by
  rcases List.eq_nil_or_concat after with rfl | ⟨more, final, rfl⟩
  · obtain ⟨rfl, same⟩ := List.append_inj' split rfl
    exact .inl ⟨rfl, (List.cons.inj same).1, rfl⟩
  · have moved : items ++ [last] = before ++ a :: more ++ [final] := by simpa using split
    obtain ⟨rfl, same⟩ := List.append_inj' moved rfl
    exact .inr ⟨more, by simp [(List.cons.inj same).1], rfl⟩

theorem keep (progress : Progress parse fs includes paths l done (⟨o, []⟩ :: below) requests) :
    Progress parse fs includes paths (l.keep o.file o.chain.isEmpty) (done ++ [o]) below
      requests := by
  have inside : o.chain = places (stack below) := progress.nested [] o (stack below) rfl
  have all : done ++ [o] ++ stack below = done ++ stack (⟨o, []⟩ :: below) := by simp
  have known : l.loaded ⊆ places done ++ o.ongoing := by
    intro place there
    rw [Opening.ongoing, inside]
    exact progress.loaded.mem_iff.mp there
  constructor
  case files => simp [Loader.keep, progress.files]
  case loaded => simpa [Loader.keep] using progress.loaded
  case distinct => exact progress.distinct
  case genuine => exact all ▸ progress.genuine
  case origins => exact all ▸ progress.origins
  case nested =>
    intro above other under split
    exact progress.nested (o :: above) other under (by rw [stack_cons, split]; rfl)
  case pending =>
    intro f listed
    exact progress.pending f (List.mem_cons_of_mem _ listed)
  case imports =>
    intro before other after split name listed
    rcases split_concat split with ⟨rfl, rfl, _⟩ | ⟨more, _, earlier⟩
    · -- Nothing is left of the imports of the innermost file, so all of them have been dealt with.
      obtain ⟨dealt, whole, leads⟩ := progress.pending _ List.mem_cons_self
      have dealtWith : name ∈ dealt := by
        rw [List.append_nil] at whole
        exact whole ▸ listed
      exact (leads name dealtWith).mono known
    · exact progress.imports before other more earlier name listed
  case chains =>
    intro before other after split place higher
    rcases split_concat split with ⟨_, rfl, rfl⟩ | ⟨more, rfl, earlier⟩
    · simpa [inside] using higher
    · have before := progress.chains before other more earlier higher
      simpa using before
  case served => exact progress.served
  case first =>
    have now := progress.first
    rw [stack_cons] at now
    have length : l.files.length = done.length := by simp [progress.files]
    rw [Loader.keep, length]
    change FirstAt paths
      (if o.chain.isEmpty && l.root.isNone then some done.length else l.root) _ _ _
    generalize l.root = root at now ⊢
    cases now with
    | ongoing last head =>
        -- Only the file below all others can be the first requested one.
        generalize stack below = opened at inside last ⊢
        cases opened with
        | nil =>
            obtain rfl := Option.some.inj last
            rw [inside]
            exact .kept (List.getElem?_concat_length ..) inside head
        | cons next more =>
            rw [inside]
            rw [List.getLast?_cons_cons] at last
            exact .ongoing last head
    | kept there outermost head =>
        obtain ⟨inRange, _⟩ := List.getElem?_eq_some_iff.mp there
        rw [Option.isNone_some, Bool.and_false]
        exact .kept (List.getElem?_append_left inRange ▸ there) outermost head

end Progress

end Replica
