import Replica.Namespace.Reading
import Replica.Namespace.Writing
import Replica.Proofs.Doc
import Replica.Proofs.Ty.Children

/-!
Namespace files, and what they are made of, are read back from the JSON that is written for them.
-/

namespace Replica.Json

variable {most : Nat} {isUnit : JsonScalar → Bool} {name key : String}

def rulesWith (isUnit : JsonScalar → Bool) : ScalarRules JsonScalar :=
  { rules with isUnit }

theorem ofTys_eq (ts : List Ty) : ofTys ts = ts.map ofTy := by
  induction ts with
  | nil => rfl
  | cons t rest ih => rw [ofTys, ih, List.map_cons]

theorem ofTyFields_eq (fields : List (Field Ty)) :
    ofTyFields fields = fields.map fun field => ofField field.name (ofTy field.type) := by
  induction fields with
  | nil => rfl
  | cons field rest ih => rw [ofTyFields, ih, List.map_cons]

theorem ofTyParams_eq (params : List (Field Ty)) :
    ofTyParams params = params.map fun param => ofParameter param.name (ofTy param.type) := by
  induction params with
  | nil => rfl
  | cons param rest ih => rw [ofTyParams, ih, List.map_cons]

theorem ofTyMethods_eq (methods : List (Method Ty)) :
    ofTyMethods methods = methods.map fun m => ofMethod m.name (ofTySignature m.signature) := by
  induction methods with
  | nil => rfl
  | cons m rest ih => rw [ofTyMethods, ih, List.map_cons]

theorem text_reads (value : String) :
    ReadsAs most (Reader.text (rulesWith isUnit)) (text value) value :=
  fun _ _ _ => rfl

theorem flag_reads (value : Bool) :
    ReadsAs most (Reader.flag (rulesWith isUnit)) (flag value) value :=
  fun _ _ _ => rfl

theorem word_reads (value : UInt64) :
    ReadsAs most (Reader.word (rulesWith isUnit)) (natural value.toNat) value := by
  intro levels _ _
  change (if value.toNat < UInt64.size then some (UInt64.ofNat value.toNat) else none) = some value
  rw [if_pos value.toNat_lt_size, UInt64.ofNat_toNat]

theorem direction_reads (direction : Direction) :
    ReadsAs most (Reader.direction (rulesWith isUnit)) (ofDirection direction) direction := by
  intro levels _ _
  cases direction <;> rfl

theorem optionalText_reads (value : Option String) :
    ReadsAs most (Reader.optionalText (rulesWith isUnit)) ((value.map text).getD null) value := by
  intro levels _ _
  cases value <;> rfl

theorem texts_read (values : List String) :
    ReadsAs most (Reader.list (rulesWith isUnit) (Reader.text (rulesWith isUnit))) (texts values)
      values :=
  list_reads fun value _ => text_reads value

section

variable {type : Reader JsonScalar Ty} (inner : ∀ t, ReadsAs most type (ofTy t) t)

include inner

theorem types_read (ts : List Ty) :
    ReadsAs most (Reader.list (rulesWith isUnit) type) (.list (ofTys ts)) ts := by
  rw [ofTys_eq]
  exact list_reads fun t _ => inner t

theorem field_reads (distinct : key ≠ "name") (field : Field Ty) :
    ReadsAs most (Reader.field (rulesWith isUnit) key type)
      (.object [("name", text field.name), (key, ofTy field.type)]) field := by
  refine record_reads (by simp) (by simpa using distinct.symm) fun levels within deep => ?_
  have found : List.lookup key [("name", text field.name), (key, ofTy field.type)] =
      some (ofTy field.type) := by
    simp only [List.lookup_cons, beq_false_of_ne distinct, beq_self_eq_true]
  rw [Record.required_eq (text_reads field.name) rfl within deep,
    Record.required_eq (inner field.type) found within deep]
  rfl

theorem parameter_reads (param : Field Ty) :
    ReadsAs most (Reader.parameter (rulesWith isUnit) type)
      (ofParameter param.name (ofTy param.type)) param := by
  obtain ⟨name, t⟩ := param
  by_cases unnamed : name = ""
  · rw [ofParameter, if_pos unnamed, List.nil_append]
    refine record_reads (by simp) (by simp) fun levels within deep => ?_
    rw [Record.optional_absent rfl, Record.required_eq (inner t) rfl within deep, unnamed]
    rfl
  · rw [ofParameter, if_neg unnamed, List.singleton_append]
    refine record_reads (by simp) (by simp) fun levels within deep => ?_
    rw [Record.optional_eq (text_reads name) rfl within deep,
      Record.required_eq (inner t) rfl within deep]
    rfl

theorem signature_reads (s : Signature Ty) :
    ReadsAs most (Reader.signature (rulesWith isUnit) type) (ofTySignature s) s := by
  obtain ⟨params, results, variadic⟩ := s
  have list : ∀ params, ReadsAs most
      (Reader.list (rulesWith isUnit) (Reader.parameter (rulesWith isUnit) type))
      (.list (ofTyParams params)) params := by
    intro params
    rw [ofTyParams_eq]
    exact list_reads fun param _ => parameter_reads inner param
  refine record_reads (by simp) (by simp) fun levels within deep => ?_
  rw [Record.optional_eq (list params) rfl within deep,
    Record.optional_eq (list results) rfl within deep,
    Record.optional_eq (flag_reads variadic) rfl within deep]
  rfl

theorem method_reads (m : Method Ty) :
    ReadsAs most (Reader.method (rulesWith isUnit) type)
      (ofMethod m.name (ofTySignature m.signature)) m := by
  refine record_reads (by simp) (by simp) fun levels within deep => ?_
  rw [Record.required_eq (text_reads m.name) rfl within deep,
    Record.optional_eq (signature_reads inner m.signature) rfl within deep]
  rfl

theorem interface_reads (shape : Interface Ty) :
    ReadsAs most (Reader.interface (rulesWith isUnit) type) (ofTyInterface shape) shape := by
  obtain ⟨embedded, methods⟩ := shape
  have list : ReadsAs most
      (Reader.list (rulesWith isUnit) (Reader.method (rulesWith isUnit) type))
      (.list (ofTyMethods methods)) methods := by
    rw [ofTyMethods_eq]
    exact list_reads fun m _ => method_reads inner m
  refine record_reads (by simp) (by simp) fun levels within deep => ?_
  rw [Record.optional_eq (types_read inner embedded) rfl within deep,
    Record.optional_eq list rfl within deep]
  rfl

theorem reference_reads (base : QualName) (args : List Ty) :
    ReadsAs most (Reader.reference (rulesWith isUnit) type) (ofReference base (ofTys args))
      (base, args) := by
  cases args with
  | nil =>
      refine record_reads (by simp [nonempty, ofTys]) (by simp [nonempty, ofTys])
        fun levels within deep => ?_
      rw [Record.required_eq (text_reads base.package) rfl within deep,
        Record.required_eq (text_reads base.name) rfl within deep, Record.optional_absent rfl]
      rfl
  | cons arg args =>
      refine record_reads (by simp [nonempty, ofTys]) (by simp [nonempty, ofTys])
        fun levels within deep => ?_
      rw [Record.required_eq (text_reads base.package) rfl within deep,
        Record.required_eq (text_reads base.name) rfl within deep,
        Record.optional_eq (types_read inner (arg :: args)) rfl within deep]
      rfl

theorem taggedTy_reads (t : Ty) : ∃ tag body, ofTy t = tagged tag body ∧
    ReadsAs most (Reader.taggedTy (rulesWith isUnit) type tag) body t := by
  cases t with
  | basic name => exact ⟨"basic", text name, rfl, fun _ _ _ => rfl⟩
  | param name => exact ⟨"type-param", text name, rfl, fun _ _ _ => rfl⟩
  | named base args =>
      refine ⟨"named", ofReference base (ofTys args), rfl, fun levels within deep => ?_⟩
      simp only [Reader.taggedTy, reference_reads inner base args levels within deep,
        Option.map_some]
  | pointer elem =>
      refine ⟨"pointer", ofTy elem, rfl, fun levels within deep => ?_⟩
      simp only [Reader.taggedTy, inner elem levels within deep, Option.map_some]
  | slice elem =>
      refine ⟨"slice", ofTy elem, rfl, fun levels within deep => ?_⟩
      simp only [Reader.taggedTy, inner elem levels within deep, Option.map_some]
  | map domain value =>
      refine ⟨"map", _, rfl, record_reads (by simp) (by simp) fun levels within deep => ?_⟩
      rw [Record.required_eq (inner domain) rfl within deep,
        Record.required_eq (inner value) rfl within deep]
      rfl
  | array len elem =>
      refine ⟨"array", _, rfl, record_reads (by simp) (by simp) fun levels within deep => ?_⟩
      rw [Record.required_eq (word_reads len) rfl within deep,
        Record.required_eq (inner elem) rfl within deep]
      rfl
  | chan direction elem =>
      refine ⟨"chan", _, rfl, record_reads (by simp) (by simp) fun levels within deep => ?_⟩
      rw [Record.optional_eq (direction_reads direction) rfl within deep,
        Record.required_eq (inner elem) rfl within deep]
      rfl
  | struct fields =>
      have list : ReadsAs most
          (Reader.list (rulesWith isUnit) (Reader.field (rulesWith isUnit) "type" type))
          (.list (ofTyFields fields)) fields := by
        rw [ofTyFields_eq]
        exact list_reads fun field _ => field_reads inner (by decide) field
      refine ⟨"struct", _, rfl, record_reads (by simp) (by simp) fun levels within deep => ?_⟩
      rw [Record.optional_eq list rfl within deep]
      rfl
  | interface shape =>
      refine ⟨"interface", ofTyInterface shape, rfl, fun levels within deep => ?_⟩
      simp only [Reader.taggedTy, interface_reads inner shape levels within deep, Option.map_some]
  | func signature =>
      refine ⟨"signature", ofTySignature signature, rfl, fun levels within deep => ?_⟩
      simp only [Reader.taggedTy, signature_reads inner signature levels within deep,
        Option.map_some]

end

/-- Each type inside another takes up a level, so no type runs out of `depth` before `levels`. -/
theorem tyWithin_reads (depth : Nat) (t : Ty) :
    ReadsAs depth (Reader.tyWithin (rulesWith isUnit) depth) (ofTy t) t := by
  induction depth generalizing t with
  | zero =>
      intro levels within deep
      exact absurd (Nat.le_trans deep within) (Nat.not_le_of_lt (Doc.depth_pos _))
  | succ depth ih =>
      let type := Reader.tyWithin (rulesWith isUnit) depth
      obtain ⟨tag, body, written, reads⟩ : ∃ tag body, ofTy t = tagged tag body ∧
          ReadsAs depth (Reader.taggedTy (rulesWith isUnit) type tag) body t :=
        taggedTy_reads ih t
      intro levels within deep
      rw [written] at deep ⊢
      cases levels with
      | zero => exact absurd deep (Nat.not_succ_le_zero _)
      | succ levels =>
          have inside : body.depth ≤ levels := by
            simpa [tagged, Doc.depth, Doc.depthEntries] using deep
          exact reads levels (Nat.le_of_succ_le_succ within) inside

theorem ty_reads (t : Ty) : ReadsAs most (Reader.ty (rulesWith isUnit)) (ofTy t) t :=
  fun levels _ deep => tyWithin_reads levels t levels (Nat.le_refl levels) deep

theorem declaredTy_reads (t : Ty) :
    ReadsAs most (Reader.declaredTy (rulesWith isUnit)) (ofTy t) t := by
  have unitless : ReadsAs most (Reader.ty (rulesWith fun _ => false)) (ofTy t) t := ty_reads t
  exact unitless

theorem typeDecl_reads (decl : TypeDecl) :
    ReadsAs most (Reader.typeDecl (rulesWith isUnit)) (ofTypeDecl decl) decl := by
  obtain ⟨name, params, underlying⟩ := decl
  have list : ReadsAs most (Reader.list (rulesWith isUnit)
      (Reader.field (rulesWith isUnit) "constraint" (Reader.declaredTy (rulesWith isUnit))))
      (.list (params.map ofConstraint)) params :=
    list_reads fun param _ => field_reads declaredTy_reads (by decide) param
  cases params with
  | nil =>
      refine record_reads (by simp [nonempty]) (by simp [nonempty]) fun levels within deep => ?_
      rw [Record.required_eq (text_reads name) rfl within deep, Record.optional_absent rfl,
        Record.required_eq (declaredTy_reads underlying) rfl within deep]
      rfl
  | cons param params =>
      refine record_reads (by simp [nonempty]) (by simp [nonempty]) fun levels within deep => ?_
      rw [Record.required_eq (text_reads name) rfl within deep,
        Record.optional_eq list rfl within deep,
        Record.required_eq (declaredTy_reads underlying) rfl within deep]
      rfl

theorem package_reads (p : Package) :
    ReadsAs most (Reader.package (rulesWith isUnit)) (ofPackage p) p := by
  obtain ⟨path, name, types⟩ := p
  have list : ReadsAs most
      (Reader.list (rulesWith isUnit) (Reader.typeDecl (rulesWith isUnit)))
      (.list (types.map ofTypeDecl)) types :=
    list_reads fun decl _ => typeDecl_reads decl
  cases name with
  | none =>
      refine record_reads (by simp [optional]) (by simp [optional]) fun levels within deep => ?_
      rw [Record.required_eq (text_reads path) rfl within deep, Record.optional_absent rfl,
        Record.optional_eq list rfl within deep]
      rfl
  | some name =>
      refine record_reads (by simp [optional]) (by simp [optional]) fun levels within deep => ?_
      rw [Record.required_eq (text_reads path) rfl within deep,
        Record.optional_eq (optionalText_reads (some name)) rfl within deep,
        Record.optional_eq list rfl within deep]
      rfl

theorem metadata_reads (m : Metadata) :
    ReadsAs most (Reader.metadata (rulesWith isUnit)) (ofMetadata m) m := by
  refine record_reads (by simp) (by simp) fun levels within deep => ?_
  rw [Record.required_eq (text_reads m.module) rfl within deep,
    Record.optional_eq (optionalText_reads m.package) rfl within deep,
    Record.optional_eq (texts_read m.dependencies) rfl within deep,
    Record.optional_eq (texts_read m.imports) rfl within deep]
  rfl

theorem namespaceFile_reads (file : NamespaceFile) :
    ReadsAs most (Reader.namespaceFile (rulesWith isUnit)) (ofNamespaceFile file) file := by
  have list : ReadsAs most
      (Reader.list (rulesWith isUnit) (Reader.package (rulesWith isUnit)))
      (.list (file.packages.map ofPackage)) file.packages :=
    list_reads fun p _ => package_reads p
  refine record_reads (by simp) (by simp) fun levels within deep => ?_
  rw [Record.required_eq (metadata_reads file.metadata) rfl within deep,
    Record.optional_eq list rfl within deep]
  rfl

/-- Types, declarations, packages and files are what is read from the JSON that is written for
them, by all readers that open as many levels of it as there are. -/
theorem readsBack (levels : Nat) :
    (∀ t, (ofTy t).depth ≤ levels → Reader.ty rules levels (ofTy t) = some t) ∧
    (∀ decl, (ofTypeDecl decl).depth ≤ levels →
      Reader.typeDecl rules levels (ofTypeDecl decl) = some decl) ∧
    (∀ p, (ofPackage p).depth ≤ levels → Reader.package rules levels (ofPackage p) = some p) ∧
    ∀ file, (ofNamespaceFile file).depth ≤ levels →
      Reader.namespaceFile rules levels (ofNamespaceFile file) = some file := by
  have whole : rules = rulesWith rules.isUnit := rfl
  rw [whole]
  exact ⟨fun t => ty_reads t levels (Nat.le_refl levels),
    fun decl => typeDecl_reads decl levels (Nat.le_refl levels),
    fun p => package_reads p levels (Nat.le_refl levels),
    fun file => namespaceFile_reads file levels (Nat.le_refl levels)⟩

def queuesFile : NamespaceFile where
  metadata := { module := "lib", package := some "" }
  packages := [
    { path := "lib/queue"
      types := [
        { name := "Queue"
          params := [⟨"T", .basic "any"⟩]
          underlying := .struct [
            ⟨"ring", .array 18446744073709551615 (.param "T")⟩,
            ⟨"wake", .chan .send (.struct [])⟩,
            ⟨"", .named ⟨"lib/queue", "Queue"⟩ [.param "T"]⟩] },
        { name := "push"
          underlying := .func {
            params := [⟨"", .map (.basic "string") (.pointer (.basic "int"))⟩,
              ⟨"more", .slice (.named ⟨"lib/queue", "push"⟩ [])⟩]
            variadic := true } }] },
    { path := "lib/empty", name := some "" }]

theorem queuesFile_readsBack : (ofNamespaceFile queuesFile).depth ≤ 30 ∧
    Reader.namespaceFile rules 30 (ofNamespaceFile queuesFile) = some queuesFile :=
  have deep : (ofNamespaceFile queuesFile).depth ≤ 30 := by decide
  ⟨deep, (readsBack 30).2.2.2 queuesFile deep⟩

end Replica.Json
