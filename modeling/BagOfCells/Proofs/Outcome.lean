import BagOfCells.Checked
import Mathlib.Data.List.Forall2

/-!
# Outcomes

A computation that may fail is taken apart at its steps: it succeeds when each step does, and fails
when some step does after the ones before it have succeeded. A loop over the first numbers keeps an
invariant that each step keeps, up to the step it fails at.

## Main results

* `bind_eq_ok_iff`, `bind_eq_error_iff`: the outcomes of two steps
* `run_bind_eq_ok_iff`: the same of two steps that keep a state
* `mapM_eq_ok_iff`, `mapM_eq_map`: the outcome of one step for each item of a list
* `foldlM_range_inv`, `foldlM_range_error`: the outcomes of a loop
-/

namespace BagOfCells.Outcome

section Except

variable {ε α β : Type}

@[simp] theorem bind_eq_ok_iff {x : Except ε α} {f : α → Except ε β} {b : β} :
    (x >>= f) = .ok b ↔ ∃ a, x = .ok a ∧ f a = .ok b := by
  cases x <;> simp [bind, Except.bind]

@[simp] theorem bind_eq_error_iff {x : Except ε α} {f : α → Except ε β} {e : ε} :
    (x >>= f) = .error e ↔ x = .error e ∨ ∃ a, x = .ok a ∧ f a = .error e := by
  cases x <;> simp [bind, Except.bind]

@[simp] theorem pure_eq_ok_iff {a b : α} : (pure a : Except ε α) = .ok b ↔ a = b := by
  simp [pure, Except.pure]

@[simp] theorem pure_ne_error {a : α} {e : ε} : (pure a : Except ε α) ≠ .error e := by
  simp [pure, Except.pure]

theorem map_eq_ok_iff {f : α → β} {x : Except ε α} {b : β} :
    x.map f = .ok b ↔ ∃ a, x = .ok a ∧ f a = b := by
  cases x <;> simp [Except.map]

theorem mapM_cons (f : α → Except ε β) (a : α) (as : List α) :
    (a :: as).mapM f = do
      let b ← f a
      let bs ← as.mapM f
      return b :: bs := by
  simp [List.mapM_cons]

theorem mapM_eq_ok_iff {f : α → Except ε β} {as : List α} {bs : List β} :
    as.mapM f = .ok bs ↔ List.Forall₂ (fun a b => f a = .ok b) as bs := by
  induction as generalizing bs with
  | nil => simp [eq_comm, pure, Except.pure]
  | cons a as ih =>
    rw [mapM_cons]
    simp only [bind_eq_ok_iff, pure_eq_ok_iff, ih]
    constructor
    · rintro ⟨b, hb, bs, hbs, rfl⟩
      exact .cons hb hbs
    · rintro (_ | ⟨hb, hbs⟩)
      exact ⟨_, hb, _, hbs, rfl⟩

theorem mapM_eq_map {f : α → Except ε β} {g : α → β} {as : List α}
    (h : ∀ a ∈ as, f a = .ok (g a)) : as.mapM f = .ok (as.map g) := by
  rw [mapM_eq_ok_iff, List.forall₂_map_right_iff, List.forall₂_same]
  exact h

theorem exists_of_mem_mapM {f : α → Except ε β} {as : List α} {bs : List β}
    (h : as.mapM f = .ok bs) {b : β} (hb : b ∈ bs) : ∃ a ∈ as, f a = .ok b := by
  have hall := mapM_eq_ok_iff.mp h
  clear h
  induction hall with
  | nil => cases hb
  | @cons a b' as bs hab _ ih =>
    rcases List.mem_cons.mp hb with rfl | hb
    · exact ⟨a, List.mem_cons_self, hab⟩
    · obtain ⟨a', ha', h⟩ := ih hb
      exact ⟨a', List.mem_cons_of_mem _ ha', h⟩

theorem mapM_eq_error {f : α → Except ε β} {as : List α} {e : ε} (h : as.mapM f = .error e) :
    ∃ a ∈ as, f a = .error e := by
  induction as with
  | nil => simp at h
  | cons a as ih =>
    rw [mapM_cons] at h
    simp only [bind_eq_error_iff, pure_ne_error, and_false, exists_false, or_false] at h
    rcases h with h | ⟨-, -, h⟩
    · exact ⟨a, by simp, h⟩
    · obtain ⟨a', ha', h⟩ := ih h
      exact ⟨a', by simp [ha'], h⟩

end Except

section State

variable {ε σ α β : Type} {x : EStateM ε σ α} {f : α → EStateM ε σ β} {s s' : σ}

theorem run_bind_of_ok {a : α} (h : x s = .ok a s') : (x >>= f) s = f a s' := by
  change EStateM.bind x f s = _
  simp only [EStateM.bind, h]

theorem run_bind_of_error {e : ε} (h : x s = .error e s') : (x >>= f) s = .error e s' := by
  change EStateM.bind x f s = _
  simp only [EStateM.bind, h]

theorem run_bind_eq_ok_iff {b : β} {s'' : σ} :
    (x >>= f) s = .ok b s'' ↔ ∃ a s', x s = .ok a s' ∧ f a s' = .ok b s'' := by
  change EStateM.bind x f s = _ ↔ _
  unfold EStateM.bind
  cases x s <;> simp

end State

section Loop

variable {ε σ : Type} {step : σ → Nat → Except ε σ} (inv : Nat → σ → Prop) {start : σ}

/-- A loop that ends has kept what each of its steps keeps. -/
theorem foldlM_range_inv (zero : inv 0 start) {n : Nat}
    (succ : ∀ k < n, ∀ s s', inv k s → step s k = .ok s' → inv (k + 1) s') {s : σ}
    (h : (List.range n).foldlM step start = .ok s) : inv n s := by
  induction n generalizing s with
  | zero =>
    simp only [List.range_zero, List.foldlM_nil, pure_eq_ok_iff] at h
    exact h ▸ zero
  | succ n ih =>
    simp only [List.range_succ, List.foldlM_append, List.foldlM_cons, List.foldlM_nil,
      bind_pure, bind_eq_ok_iff] at h
    -- the last step comes after a loop over the numbers below it
    obtain ⟨s₀, h₀, h₁⟩ := h
    exact succ n n.lt_succ_self s₀ s (ih (fun k hk => succ k (Nat.lt_succ_of_lt hk)) h₀) h₁

/-- A loop that fails does so at one of its steps, up to which the invariant is kept. -/
theorem foldlM_range_error (zero : inv 0 start) {n : Nat}
    (succ : ∀ k < n, ∀ s s', inv k s → step s k = .ok s' → inv (k + 1) s') {e : ε}
    (h : (List.range n).foldlM step start = .error e) :
    ∃ k < n, ∃ s, inv k s ∧ step s k = .error e := by
  induction n with
  | zero => simp at h
  | succ n ih =>
    have succ' := fun k (hk : k < n) => succ k (Nat.lt_succ_of_lt hk)
    simp only [List.range_succ, List.foldlM_append, List.foldlM_cons, List.foldlM_nil,
      bind_pure, bind_eq_error_iff] at h
    rcases h with h | ⟨s, h₀, h₁⟩
    · obtain ⟨k, hk, s, hs⟩ := ih succ' h
      exact ⟨k, Nat.lt_succ_of_lt hk, s, hs⟩
    · exact ⟨n, n.lt_succ_self, s, foldlM_range_inv inv zero succ' h₀, h₁⟩

end Loop

end BagOfCells.Outcome
