import Replica.Proofs.Ty.Children
import Replica.Spelling

/-!
Sequencing of spellings: what a sequence that succeeds is made of, and the spellings of lists as
one operation, `Spelling.each`.
-/

namespace Replica

namespace Spelling

variable {α β γ : Type}

theorem bind_eq_ok {s : Spelling α} {next : α → Spelling β} {needs : List Need} {b : β} :
    (s >>= next) = ⟨needs, .ok b⟩ ↔ ∃ a before after,
      s = ⟨before, .ok a⟩ ∧ next a = ⟨after, .ok b⟩ ∧ needs = before ++ after := by
  cases s with
  | mk first outcome =>
      cases outcome with
      | error e =>
          constructor
          · intro same
            cases congrArg Spelling.outcome same
          · intro given
            rcases given with ⟨a, before, after, same, _⟩
            cases congrArg Spelling.outcome same
      | ok a =>
          constructor
          · intro same
            have outcome : (next a).outcome = .ok b := congrArg Spelling.outcome same
            refine ⟨a, first, (next a).needs, rfl, ?_, (congrArg Spelling.needs same).symm⟩
            rw [← outcome]
          · intro given
            rcases given with ⟨a', before, after, same, rest, rfl⟩
            cases same
            change (⟨first ++ (next a).needs, (next a).outcome⟩ : Spelling β) = _
            rw [rest]

theorem pure_eq_ok {a b : α} {needs : List Need} :
    (pure a : Spelling α) = ⟨needs, .ok b⟩ ↔ needs = [] ∧ b = a := by
  constructor
  · intro same
    exact ⟨(congrArg Spelling.needs same).symm,
      (Except.ok.inj (congrArg Spelling.outcome same)).symm⟩
  · intro given
    rcases given with ⟨rfl, rfl⟩
    rfl

theorem map_eq_ok {s : Spelling α} {f : α → β} {needs : List Need} {b : β} :
    (do return f (← s)) = (⟨needs, .ok b⟩ : Spelling β) ↔ ∃ a, s = ⟨needs, .ok a⟩ ∧ b = f a := by
  rw [bind_eq_ok]
  constructor
  · intro given
    rcases given with ⟨a, before, after, same, rest, rfl⟩
    rcases pure_eq_ok.mp rest with ⟨rfl, rfl⟩
    exact ⟨a, by rw [same, List.append_nil], rfl⟩
  · intro given
    rcases given with ⟨a, same, rfl⟩
    exact ⟨a, needs, [], same, rfl, (List.append_nil needs).symm⟩

theorem fail_ne_ok {e : SpellingError} {needs : List Need} {b : β} :
    (fail e : Spelling β) ≠ ⟨needs, .ok b⟩ := by
  intro same
  cases congrArg Spelling.outcome same

def each (f : α → Spelling β) : List α → Spelling (List β)
  | [] => pure []
  | a :: rest => do
    let b ← f a
    return b :: (← each f rest)

/-- A list that is spelled comes with one record for each element. `source`, `needsOf` and `result`
say what a record holds. -/
theorem each_eq_ok {f : α → Spelling β} {source : γ → α} {needsOf : γ → List Need} {result : γ → β}
    {good : γ → Prop} {as : List α} {needs : List Need} {bs : List β}
    (record : ∀ a ∈ as, ∀ needs b, f a = ⟨needs, .ok b⟩ →
      ∃ c, good c ∧ source c = a ∧ needsOf c = needs ∧ result c = b)
    (spelled : each f as = ⟨needs, .ok bs⟩) :
    ∃ cs : List γ, (∀ c ∈ cs, good c) ∧ cs.map source = as ∧ cs.flatMap needsOf = needs ∧
      cs.map result = bs := by
  induction as generalizing needs bs with
  | nil =>
      rcases pure_eq_ok.mp spelled with ⟨rfl, rfl⟩
      exact ⟨[], fun c member => absurd member List.not_mem_nil, rfl, rfl, rfl⟩
  | cons a rest ih =>
      rcases bind_eq_ok.mp spelled with ⟨b, before, after, first, others, rfl⟩
      rcases map_eq_ok.mp others with ⟨bs', tail, rfl⟩
      rcases record a List.mem_cons_self before b first with ⟨c, goodHead, rfl, rfl, rfl⟩
      rcases ih (fun a' member => record a' (List.mem_cons_of_mem _ member)) tail with
        ⟨cs, goodTail, rfl, rfl, rfl⟩
      refine ⟨c :: cs, ?_, rfl, rfl, rfl⟩
      intro c' member
      rcases List.mem_cons.mp member with rfl | later
      · exact goodHead
      · exact goodTail c' later

end Spelling

namespace Spelling

variable {α β γ : Type}

@[simp] theorem pure_bind (a : α) (next : α → Spelling β) : pure a >>= next = next a := rfl

@[simp] theorem bind_assoc (s : Spelling α) (f : α → Spelling β) (g : β → Spelling γ) :
    s >>= f >>= g = s >>= fun a => f a >>= g := by
  cases s with
  | mk needs outcome =>
      cases outcome with
      | error e => rfl
      | ok a =>
          change andThen (andThen ⟨needs, .ok a⟩ f) g = andThen ⟨needs, .ok a⟩ _
          cases inner : f a with
          | mk more result =>
              cases result <;> simp [andThen, bind, inner, List.append_assoc]

end Spelling

variable {limit : Nat} {ns : Namespace} {inline : Ty → Spelling Expr} {scope : List String}

theorem spellAllWith_eq (types : List Ty) :
    spellAllWith limit ns inline scope types =
      Spelling.each (spellWith limit ns inline scope) types := by
  induction types with
  | nil => rfl
  | cons type rest ih => rw [spellAllWith, ih, Spelling.each]

def spellFieldWith (limit : Nat) (ns : Namespace) (inline : Ty → Spelling Expr)
    (scope : List String) (field : Field Ty) : Spelling (Field Expr) := do
  return ⟨field.name, ← spellWith limit ns inline scope field.type⟩

theorem spellParamsWith_eq (params : List (Field Ty)) :
    spellParamsWith limit ns inline scope params =
      Spelling.each (spellFieldWith limit ns inline scope) params := by
  induction params with
  | nil => rfl
  | cons param rest ih =>
      rw [spellParamsWith, ih, Spelling.each, spellFieldWith]
      simp only [Spelling.bind_assoc, Spelling.pure_bind]

def spellMemberWith (limit : Nat) (ns : Namespace) (inline : Ty → Spelling Expr)
    (scope : List String) (place : Field Ty × Nat) : Spelling (Member Expr) := do
  return ⟨memberName place.1.name place.1.type, ← spellWith limit ns inline scope place.1.type,
    place.2⟩

theorem spellMembersWith_eq (position : Nat) (fields : List (Field Ty)) :
    spellMembersWith limit ns inline scope position fields =
      Spelling.each (spellMemberWith limit ns inline scope) (fields.zipIdx position) := by
  induction fields generalizing position with
  | nil => rfl
  | cons field rest ih =>
      rw [spellMembersWith, ih, List.zipIdx_cons, Spelling.each, spellMemberWith]
      simp only [Spelling.bind_assoc, Spelling.pure_bind]

theorem spellSignatureWith_eq (s : Signature Ty) :
    spellSignatureWith limit ns inline scope s =
      if isOpenVariadic s then .fail .openVariadic
      else do
        let params ← Spelling.each (spellFieldWith limit ns inline scope) s.params
        return ⟨params, ← Spelling.each (spellFieldWith limit ns inline scope) s.results,
          s.variadic⟩ := by
  rw [spellSignatureWith, spellParamsWith_eq, spellParamsWith_eq]

def spellMethodWith (limit : Nat) (ns : Namespace) (inline : Ty → Spelling Expr)
    (scope : List String) (m : Method Ty) : Spelling (Element Expr) := do
  return .method m.name (← spellSignatureWith limit ns inline scope m.signature)

theorem spellMethodsWith_eq (methods : List (Method Ty)) :
    spellMethodsWith limit ns inline scope methods =
      Spelling.each (spellMethodWith limit ns inline scope) methods := by
  induction methods with
  | nil => rfl
  | cons m rest ih =>
      rw [spellMethodsWith, ih, Spelling.each, spellMethodWith]
      simp only [Spelling.bind_assoc, Spelling.pure_bind]

theorem spellElementsWith_eq (shape : Interface Ty) :
    spellElementsWith limit ns inline scope shape = do
      let exprs ← Spelling.each (spellWith limit ns inline scope) shape.embedded
      return exprs.map .embedded ++
        (← Spelling.each (spellMethodWith limit ns inline scope) shape.methods) := by
  rw [spellElementsWith, spellAllWith_eq, spellMethodsWith_eq]

def spellHead (base : QualName) : Spelling Expr :=
  if base.isPublic then spellPublic base else spellReplica base

def spellApplied (limit : Nat) (ns : Namespace) (base : QualName) (args : List Ty)
    (argExprs : List Expr) : Spelling Expr :=
  match ns.declaration? base with
  | none =>
    if base.isPublic then do return (← spellPublic base).apply argExprs
    else .fail (.unknownReference (Ty.named base args).text)
  | some decl => do
    let head ← spellHead base
    if decl.params.length = args.length then
      spellObligations limit ns (decl.constraints args)
      return head.apply argExprs
    else .fail (.argCount (Ty.named base args).text decl.params.length args.length)

theorem spellInstance_eq (base : QualName) (args : List Ty)
    (spelledArgs : Spelling (List Expr)) :
    spellInstance limit ns base args spelledArgs =
      spelledArgs >>= spellApplied limit ns base args := by
  unfold spellInstance spellApplied spellHead
  cases base.isPublic <;> rfl

end Replica
