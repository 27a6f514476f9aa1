import Mathlib.Order.Filter.AtTopBot.Prod

/-!
Searches that take a limit and come to one answer as the limit grows. A search is followed along a
filter, since searches inside of searches have limits of their own.
-/

namespace Replica

open Filter

theorem tendsto_first : Tendsto (fun i : Nat × Nat => i.1) atTop atTop := by
  rw [← prod_atTop_atTop_eq]
  exact tendsto_fst

theorem tendsto_shorter : Tendsto (fun i : Nat × Nat => (i.1, i.2 - 1)) atTop atTop := by
  rw [← prod_atTop_atTop_eq]
  exact tendsto_id.prodMap (tendsto_sub_atTop_nat 1)

theorem eventually_succ : ∀ᶠ i : Nat × Nat in atTop, ∃ steps, i.2 = steps + 1 := by
  filter_upwards [eventually_ge_atTop ((0, 1) : Nat × Nat)] with i enough
  have positive : 1 ≤ i.2 := enough.2
  exact ⟨i.2 - 1, by omega⟩

/-- Along `l` the results of `f` come to be one and the same, and it is good. -/
def Settles {ι α : Type} (l : Filter ι) (good : α → Prop) (f : ι → α) : Prop :=
  ∃ a, good a ∧ ∀ᶠ i in l, f i = a

def Allows {ε α : Type} (allowed : ε → Prop) (result : Except ε α) : Prop :=
  ∀ e, result = .error e → allowed e

section

variable {ι κ α ε : Type} {l : Filter ι} {good : α → Prop} {f : ι → α} {allowed : ε → Prop}

theorem Settles.const {a : α} (fine : good a) : Settles l good fun _ => a :=
  ⟨a, fine, .of_forall fun _ => rfl⟩

theorem Settles.congr {g : ι → α} (settles : Settles l good f) (same : ∀ᶠ i in l, g i = f i) :
    Settles l good g := by
  obtain ⟨a, fine, eventually⟩ := settles
  refine ⟨a, fine, ?_⟩
  filter_upwards [eventually, same] with i left right
  rw [right, left]

theorem Settles.comp {l' : Filter κ} {φ : κ → ι} (settles : Settles l good f)
    (tends : Tendsto φ l' l) : Settles l' good fun k => f (φ k) := by
  obtain ⟨a, fine, eventually⟩ := settles
  exact ⟨a, fine, tends.eventually eventually⟩

theorem allows_ok (a : α) : Allows allowed (.ok a) := fun e same => by cases same

theorem allows_error {e : ε} (fine : allowed e) : Allows allowed (.error e : Except ε α) := by
  intro e' same
  cases same
  exact fine

theorem Settles.bind {β : Type} {f : ι → Except ε α} {g : ι → α → Except ε β}
    (first : Settles l (Allows allowed) f)
    (next : ∀ a, (∀ᶠ i in l, f i = .ok a) → Settles l (Allows allowed) fun i => g i a) :
    Settles l (Allows allowed) fun i => f i >>= g i := by
  obtain ⟨result, fine, eventually⟩ := first
  cases result with
  | error e =>
      refine ⟨.error e, allows_error (fine e rfl), ?_⟩
      filter_upwards [eventually] with i found
      rw [found]
      rfl
  | ok a =>
      apply (next a eventually).congr
      filter_upwards [eventually] with i found
      rw [found]
      rfl

end

end Replica
