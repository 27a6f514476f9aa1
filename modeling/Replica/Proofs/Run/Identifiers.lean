import Replica.Proofs.Name
import Replica.Proofs.Run.ImportBlock

/-!
The identifiers that a generated file declares. Declarations, conversions and aliases are named in
three ways, each of which tells names apart; nothing keeps a name of one kind from being one of
another kind.
-/

namespace Replica

/-- What a file declares outside of its functions: types, conversions and aliases of packages. -/
def Tree.identifiers (tree : Tree) : List String :=
  tree.decls.map (·.name) ++ tree.conversions.map (·.name) ++ tree.imports.map (·.localName)

def conversionParameter : String := "x"

theorem Conversion.layout_eq (aliases : String → String) (c : Conversion) : c.layout aliases =
    "func " ++ c.name ++ paramsText aliases c.params
      ++ "(" ++ conversionParameter ++ " " ++ c.source.layout aliases 0 ++ ") "
      ++ c.target.layout aliases 0 ++ " \x7b\n\treturn (" ++ c.target.layout aliases 0 ++ ")("
      ++ aliases "unsafe" ++ ".Pointer(" ++ conversionParameter ++ "))\n\x7d\n" := by
  have opening : "(x " = "(" ++ conversionParameter ++ " " := rfl
  have closing : ".Pointer(x))\n\x7d\n" = ".Pointer(" ++ conversionParameter ++ "))\n\x7d\n" := rfl
  unfold Conversion.layout
  rw [opening, closing]
  simp only [String.append_assoc]

variable {limit : Nat} {ns : Namespace} {names : List String} {roots : List QualName}
  {history : List Need} {final : Run}

theorem aliases_nodup (ns : Namespace) (paths : List String) :
    ((importBlock ns paths).map (·.localName)).Nodup :=
  (aliases_assignAliases ns [] _).1

namespace Completed

variable (completed : Completed ns roots history final)

include completed

theorem roots_known : ∀ root ∈ roots, root ∈ final.context.worklist.known := by
  intro root member
  rw [completed.sound.queueing.logged, List.mem_eraseDups]
  exact List.mem_append_left _ member

theorem conversion_names_nodup (distinct : roots.Nodup) :
    ((final.tree ns roots).conversions.map (·.name)).Nodup := by
  have flats := completed.sound.queueing.consistent.names
  change ((roots.map (conversion final.decls)).map (·.name)).Nodup
  rw [List.map_map]
  apply distinct.map_on
  intro first member second member' same
  have equal : "make_" ++ first.flat = "make_" ++ second.flat := same
  apply List.inj_on_of_nodup_map flats (completed.roots_known first member)
    (completed.roots_known second member')
  simpa using equal

theorem conversion_paramNames {root : QualName} (member : root ∈ roots) {source : TypeDecl}
    (declared : ns.declaration? root = some source) :
    (conversion final.decls root).params.map (·.name) = source.paramNames := by
  obtain ⟨decl, inside, rfl, _, params, _⟩ := completed.converts member
  obtain ⟨source', needs, declared', spelled⟩ := completed.spelledDecl inside
  rw [declared] at declared'
  cases declared'
  rw [params, spelled.paramNames]

end Completed

/-- What tells the identifiers of a tree apart: a declaration under the name of a conversion, or an
alias under a name of either kind, is all that stands in the way. `roots` are what was requested. -/
structure Tree.NamesApart (ns : Namespace) (roots : List QualName) (tree : Tree) : Prop where
  decls : (tree.decls.map (·.name)).Nodup
  conversions : (tree.conversions.map (·.name)).Nodup
  aliases : (tree.imports.map (·.localName)).Nodup
  together : tree.identifiers.Nodup ↔
    (∀ decl ∈ tree.decls, ∀ root ∈ roots, decl.origin.flat ≠ flatten ("make/" ++ root.qualified)) ∧
    ∀ entry ∈ tree.imports, (∀ decl ∈ tree.decls, entry.localName ≠ decl.origin.flat) ∧
      ∀ root ∈ roots, entry.localName ≠ flatten ("make/" ++ root.qualified)
  plain : (∀ decl ∈ tree.decls, ¬ BeginsWithMake decl.origin.qualified) →
    (∀ entry ∈ tree.imports, '_' ∉ (ns.packageName entry.path).toList) → tree.identifiers.Nodup
  params : (∀ c ∈ tree.conversions, conversionParameter ∉ c.params.map (·.name)) ↔
    ∀ root ∈ roots, ∀ source, ns.declaration? root = some source →
      conversionParameter ∉ source.paramNames

section

variable (completed : Completed ns roots history final)

include completed

theorem Completed.mem_decl_names {name : String} : name ∈ (final.tree ns roots).decls.map (·.name) ↔
    ∃ decl ∈ final.decls, decl.origin.flat = name := by
  have named := completed.sound.queueing.named
  constructor
  · intro given
    obtain ⟨decl, member, rfl⟩ := List.mem_map.mp given
    exact ⟨decl, member, (named decl member).symm⟩
  · rintro ⟨decl, member, rfl⟩
    exact List.mem_map.mpr ⟨decl, member, named decl member⟩

omit completed in
theorem Run.mem_conversion_names {name : String} :
    name ∈ (final.tree ns roots).conversions.map (·.name) ↔
      ∃ root ∈ roots, flatten ("make/" ++ root.qualified) = name := by
  change name ∈ (roots.map (conversion final.decls)).map (·.name) ↔ _
  rw [List.map_map, List.mem_map]
  constructor
  · rintro ⟨root, member, rfl⟩
    exact ⟨root, member, root.make_flat.symm⟩
  · rintro ⟨root, member, rfl⟩
    exact ⟨root, member, root.make_flat⟩

theorem Completed.identifiers_nodup_iff (distinct : roots.Nodup) :
    (final.tree ns roots).identifiers.Nodup ↔
      (∀ decl ∈ final.decls, ∀ root ∈ roots,
        decl.origin.flat ≠ flatten ("make/" ++ root.qualified)) ∧
      ∀ entry ∈ (final.tree ns roots).imports,
        (∀ decl ∈ final.decls, entry.localName ≠ decl.origin.flat) ∧
        ∀ root ∈ roots, entry.localName ≠ flatten ("make/" ++ root.qualified) := by
  rw [Tree.identifiers, List.nodup_append, List.nodup_append]
  constructor
  · rintro ⟨⟨_, _, kinds⟩, _, aliased⟩
    refine ⟨?_, ?_⟩
    · intro decl member root member'
      exact kinds _ (completed.mem_decl_names.mpr ⟨decl, member, rfl⟩) _
        (Run.mem_conversion_names.mpr ⟨root, member', rfl⟩)
    · intro entry listed
      have given : entry.localName ∈ (final.tree ns roots).imports.map (·.localName) :=
        List.mem_map.mpr ⟨entry, listed, rfl⟩
      constructor
      · intro decl member same
        apply aliased _ (List.mem_append_left _ _) _ given same.symm
        exact completed.mem_decl_names.mpr ⟨decl, member, rfl⟩
      · intro root member same
        apply aliased _ (List.mem_append_right _ _) _ given same.symm
        exact Run.mem_conversion_names.mpr ⟨root, member, rfl⟩
  · rintro ⟨kinds, aliased⟩
    -- Within each kind identifiers are distinct, so it remains to compare the kinds.
    refine ⟨⟨completed.names_nodup, completed.conversion_names_nodup distinct, ?_⟩,
      aliases_nodup ns _, ?_⟩
    · intro name inDecls other inConversions same
      obtain ⟨decl, member, rfl⟩ := completed.mem_decl_names.mp inDecls
      obtain ⟨root, member', rfl⟩ := Run.mem_conversion_names.mp inConversions
      exact kinds decl member root member' same
    · intro name declared other given same
      obtain ⟨entry, listed, rfl⟩ := List.mem_map.mp given
      rcases List.mem_append.mp declared with inDecls | inConversions
      · obtain ⟨decl, member, rfl⟩ := completed.mem_decl_names.mp inDecls
        exact (aliased entry listed).1 decl member same.symm
      · obtain ⟨root, member, rfl⟩ := Run.mem_conversion_names.mp inConversions
        exact (aliased entry listed).2 root member same.symm

theorem Completed.identifiers_nodup (distinct : roots.Nodup)
    (unmade : ∀ decl ∈ final.decls, ¬ BeginsWithMake decl.origin.qualified)
    (plain : ∀ entry ∈ (final.tree ns roots).imports, '_' ∉ (ns.packageName entry.path).toList) :
    (final.tree ns roots).identifiers.Nodup := by
  have unmarked : ∀ entry ∈ (final.tree ns roots).imports, '_' ∉ entry.localName.toList := by
    intro entry listed
    obtain ⟨k, same⟩ := alias_of_mem_assignAliases listed
    rw [same]
    exact not_underscore_mem_suffixed k (plain entry listed)
  apply (completed.identifiers_nodup_iff distinct).mpr
  constructor
  · intro decl member root _ same
    rw [← root.make_flat] at same
    exact unmade decl member (beginsWithMake_of_flatten same)
  · intro entry listed
    constructor
    · intro decl _ same
      apply unmarked entry listed
      rw [same]
      exact decl.origin.underscore_mem_flat
    · intro root _ same
      apply unmarked entry listed
      rw [same, ← root.make_flat, String.toList_append]
      exact List.mem_append_right _ root.underscore_mem_flat

theorem Completed.namesApart (distinct : roots.Nodup)
    (rooted : ∀ root ∈ roots, ∃ source, ns.declaration? root = some source) :
    (final.tree ns roots).NamesApart ns roots where
  decls := completed.names_nodup
  conversions := completed.conversion_names_nodup distinct
  aliases := aliases_nodup ns _
  together := completed.identifiers_nodup_iff distinct
  plain := completed.identifiers_nodup distinct
  params := by
    constructor
    · intro apart root member source declared
      rw [← completed.conversion_paramNames member declared]
      exact apart _ (List.mem_map.mpr ⟨root, member, rfl⟩)
    · intro apart c listed
      obtain ⟨root, member, rfl⟩ := List.mem_map.mp listed
      obtain ⟨source, declared⟩ := rooted root member
      rw [completed.conversion_paramNames member declared]
      exact apart root member source declared

end

/-- A collision is one of two different types under one name. -/
def SynthesisError.IsGenuine : SynthesisError → Prop
  | .collision e => e.first ≠ e.second ∧ e.first.flat = e.second.flat
  | _ => True

theorem Worklist.push_genuine {w : Worklist} {q : QualName} {e : NameCollision}
    (pushed : w.push q = .error e) : (SynthesisError.collision e).IsGenuine := by
  obtain ⟨_, rfl, same, other⟩ := push_eq_error pushed
  exact ⟨other, same⟩

theorem Worklist.pushAll_genuine {w : Worklist} {qs : List QualName} {e : NameCollision}
    (pushed : w.pushAll qs = .error e) : (SynthesisError.collision e).IsGenuine := by
  induction qs generalizing w with
  | nil => cases pushed
  | cons q rest ih =>
      rw [pushAll] at pushed
      split at pushed
      · exact ih pushed
      · rename_i first
        cases pushed
        exact push_genuine first

theorem Context.absorb_genuine {c c' : Context} {needs : List Need} {e : NameCollision}
    (absorbed : c.absorb needs = (c', .error e)) : (SynthesisError.collision e).IsGenuine := by
  induction needs generalizing c with
  | nil => cases absorbed
  | cons need rest ih =>
      cases need with
      | package path => exact ih (c := c.importPackage path) absorbed
      | obligation owed => exact ih (c := c.owe owed) absorbed
      | replica q =>
          rw [absorb] at absorbed
          split at absorbed
          · rename_i pushed
            cases absorbed
            exact Worklist.push_genuine pushed
          · exact ih absorbed

theorem Context.settle_genuine {α : Type} {c c' : Context} {owner : String} {s : Spelling α}
    {e : SynthesisError} (settled : c.settle owner s = (c', .error e)) : e.IsGenuine := by
  unfold settle at settled
  split at settled
  · rename_i absorbed
    cases settled
    exact absorb_genuine absorbed
  · cases outcome : s.outcome with
    | ok a =>
        rw [outcome] at settled
        cases settled
    | error e' =>
        rw [outcome] at settled
        cases settled
        trivial

theorem drain_genuine {steps : Nat} {run : Run} {e : SynthesisError}
    (ended : Run.drain ns limit steps run = .error e) : e.IsGenuine := by
  induction steps generalizing run with
  | zero =>
      unfold Run.drain at ended
      split at ended
      · cases ended
      · cases ended
        trivial
  | succ steps ih =>
      unfold Run.drain at ended
      split at ended
      · cases ended
      · simp only at ended
        split at ended
        · cases ended
          trivial
        · split at ended
          · rename_i settled
            cases ended
            exact Context.settle_genuine settled
          · exact ih ended

theorem attachMethod_genuine {s s' : Stubbing} {receiver : Receiver} {m : Method Ty}
    {e : SynthesisError} (ended : s.attachMethod limit ns receiver m = (s', .error e)) :
    e.IsGenuine := by
  rw [Stubbing.attachMethod] at ended
  split at ended
  · cases ended
  · simp only at ended
    split at ended
    · rename_i settled
      cases ended
      exact Context.settle_genuine settled
    · cases ended

theorem attachMethods_genuine {s s' : Stubbing} {receiver : Receiver} {methods : List (Method Ty)}
    {e : SynthesisError} (ended : s.attachMethods limit ns receiver methods = (s', .error e)) :
    e.IsGenuine := by
  induction methods generalizing s with
  | nil => cases ended
  | cons m rest ih =>
      rw [Stubbing.attachMethods] at ended
      split at ended
      · exact ih ended
      · rename_i attached
        cases ended
        exact attachMethod_genuine attached

theorem attach_genuine {s s' : Stubbing} {owed : Obligation} {e : SynthesisError}
    (ended : s.attach limit ns owed = (s', .error e)) : e.IsGenuine := by
  rw [Stubbing.attach] at ended
  split at ended
  · cases ended
  · split at ended
    · cases ended
    · split at ended
      · cases ended
        trivial
      · exact attachMethods_genuine ended

theorem attachAll_genuine {batch : List Obligation} {run : Run} {e : SynthesisError}
    (ended : Run.attachAll limit ns batch run = .error e) : e.IsGenuine := by
  induction batch generalizing run with
  | nil => cases ended
  | cons owed rest ih =>
      rw [Run.attachAll] at ended
      split at ended
      · rename_i attached
        cases ended
        exact attach_genuine attached
      · exact ih ended

theorem fulfil_genuine {rounds : Nat} {run : Run} {e : SynthesisError}
    (ended : Run.fulfil limit ns rounds run = .error e) : e.IsGenuine := by
  induction rounds generalizing run with
  | zero =>
      unfold Run.fulfil at ended
      split at ended
      · cases ended
      · cases ended
        trivial
  | succ rounds ih =>
      unfold Run.fulfil at ended
      split at ended
      · cases ended
      · rcases bind_eq_error ended with failed | ⟨attached, _, rest⟩
        · exact attachAll_genuine failed
        · rcases bind_eq_error rest with failed | ⟨declared, _, last⟩
          · exact drain_genuine failed
          · exact ih last

theorem synthesize_genuine {e : SynthesisError} (ended : synthesize limit ns names = .error e) :
    e.IsGenuine := by
  by_cases some : names = []
  · rw [some] at ended
    cases ended
    trivial
  cases resolved : resolveRoots ns names with
  | error e' =>
      rw [synthesize_of_unresolved some resolved] at ended
      cases ended
      trivial
  | ok roots =>
      cases pushed : Worklist.pushAll {} roots with
      | error e' =>
          rw [synthesize_of_collision some resolved pushed] at ended
          cases ended
          exact Worklist.pushAll_genuine pushed
      | ok worklist =>
          rw [synthesize_of_pushed some resolved pushed] at ended
          rcases bind_eq_error ended with failed | ⟨run, _, rest⟩
          · exact drain_genuine failed
          · rcases bind_eq_error rest with failed | ⟨final, _, last⟩
            · exact fulfil_genuine failed
            · cases last

/-- Each kind of identifier is distinct in every tree, and a tree has one twice only where the kinds
meet; a parameter `x` meets a type parameter where a root has one of that name. What is reported as
a collision is one. -/
theorem synthesize_identifiers (limit : Nat) (ns : Namespace) (names : List String) :
    (∀ tree, synthesize limit ns names = .ok tree →
      ∃ roots, resolveRoots ns names = .ok roots ∧ tree.NamesApart ns roots) ∧
    ∀ e, synthesize limit ns names = .error (.collision e) →
      e.first ≠ e.second ∧ e.first.flat = e.second.flat := by
  constructor
  · intro tree ended
    obtain ⟨roots, history, final, _, resolved, completed, rfl⟩ := synthesize_completed ended
    exact ⟨roots, resolved, completed.namesApart (nodup_of_resolveRoots resolved)
      (declared_of_resolveRoots resolved)⟩
  · intro e ended
    exact synthesize_genuine ended

theorem geometry_identifiers : ∃ tree roots, synthesize 20 geometry ["geo.Shape"] = .ok tree ∧
    resolveRoots geometry ["geo.Shape"] = .ok roots ∧ tree.NamesApart geometry roots := by
  obtain ⟨tree, ended⟩ := geometry_ends
  obtain ⟨roots, resolved, apart⟩ :=
    (synthesize_identifiers 20 geometry ["geo.Shape"]).1 tree ended
  exact ⟨tree, roots, ended, resolved, apart⟩

def shelves : Namespace where
  module := "lib"
  packages := [
    { path := "lib"
      types := [
        { name := "Shelf"
          params := [⟨"x", .basic "any"⟩]
          underlying := .struct [⟨"Label", .named ⟨"tag/lib_Shelf", "Label"⟩ []⟩] }] },
    { path := "make/lib"
      types := [{ name := "Shelf", underlying := .struct [⟨"Width", .basic "int"⟩] }] }]

/-- Three identifiers are declared twice, and no collision is reported. -/
theorem shelves_clash : ∃ tree,
    synthesize 20 shelves ["lib.Shelf", "make/lib.Shelf"] = .ok tree ∧
    ("make_lib_Shelf" ∈ tree.decls.map (·.name) ∧
      "make_lib_Shelf" ∈ tree.conversions.map (·.name)) ∧
    ("lib_Shelf" ∈ tree.decls.map (·.name) ∧ "lib_Shelf" ∈ tree.imports.map (·.localName)) ∧
    ¬ tree.identifiers.Nodup ∧
    ∃ c ∈ tree.conversions, conversionParameter ∈ c.params.map (·.name) := by
  refine ⟨_, rfl, ?_, ?_, ?_, ?_⟩
  · decide
  · decide
  · decide
  · decide

end Replica
