import Ferrium.Lib.Run

/-!
# Checked arithmetic

Computations with numbers that must not leave a range: an addition or a subtraction that would do so
fails, and everything that depends on it. `Exact c fault v` says of such a computation `c` when it
fails, and what it gives otherwise, which is the value `v` that it would have without the range.

## Main results

* `Exact.bind`: a computation of two parts fails if the first part fails or else the second;
* `exact_foldlM`: a run fails if and only if one of its steps does.
-/

namespace Checked

universe u

variable {α β : Type u}

/-- Addition of numbers up to `max`. -/
def add (max a b : ℕ) : Option ℕ :=
  if a + b ≤ max then some (a + b) else none

/-- Subtraction of natural numbers. -/
def sub (a b : ℕ) : Option ℕ :=
  if b ≤ a then some (a - b) else none

/-- The computation `c` fails exactly in the case `fault`, and gives `v` otherwise. -/
structure Exact (c : Option α) (fault : Prop) (v : α) : Prop where
  fails : fault → c = none
  result : ¬fault → c = some v

theorem sub_eq {a b : ℕ} (h : b ≤ a) : sub a b = some (a - b) :=
  if_pos h

theorem add_eq {max a b : ℕ} (h : a + b ≤ max) : add max a b = some (a + b) :=
  if_pos h

theorem exact_add (max a b : ℕ) : Exact (add max a b) (max < a + b) (a + b) where
  fails h := if_neg (not_le.mpr h)
  result h := if_pos (not_lt.mp h)

/-- Adding one fails at the end of the range. -/
theorem exact_add_one (max a : ℕ) : Exact (add max a 1) (max ≤ a) (a + 1) where
  fails h := if_neg (not_le.mpr (Nat.lt_succ_of_le h))
  result h := if_pos (not_le.mp h)

variable {c c' : Option α} {fault fault' : Prop} {v : α} {w : β} {f : α → Option β}

theorem exact_of_eq (h : c = some v) : Exact c False v where
  fails := False.elim
  result _ := h

namespace Exact

theorem congr (h : Exact c fault v) (hiff : fault ↔ fault') : Exact c fault' v where
  fails hfault := h.fails (hiff.mpr hfault)
  result hfault := h.result fun hf => hfault (hiff.mp hf)

/-- A computation of two parts fails if the first part fails, or else the second. -/
theorem bind (h : Exact c fault v) (hf : ¬fault → Exact (f v) fault' w) :
    Exact (c >>= f) (fault ∨ fault') w where
  fails hfault := by
    by_cases hfirst : fault
    · rw [h.fails hfirst]
      rfl
    · rw [h.result hfirst]
      exact (hf hfirst).fails (hfault.resolve_left hfirst)
  result hfault := by
    obtain ⟨hfirst, hsecond⟩ := not_or.mp hfault
    rw [h.result hfirst]
    exact (hf hfirst).result hsecond

/-- The second part cannot fail. -/
theorem bind_some {g : α → β} (h : Exact c fault v) :
    Exact (c >>= fun a => some (g a)) fault (g v) where
  fails hfault := by
    rw [h.fails hfault]
    rfl
  result hfault := by
    rw [h.result hfault]
    rfl

/-- The first part cannot fail. -/
theorem bind_of_eq (h : c = some v) (hf : Exact (f v) fault w) : Exact (c >>= f) fault w := by
  rw [h]
  exact hf

/-- A computation of two branches. -/
theorem ite {p : Prop} [Decidable p] {v' : α} (h : p → Exact c fault v)
    (h' : ¬p → Exact c' fault' v') :
    Exact (if p then c else c') (p ∧ fault ∨ ¬p ∧ fault') (if p then v else v') := by
  by_cases hp : p
  · rw [if_pos hp, if_pos hp]
    exact (h hp).congr (by simp [hp])
  · rw [if_neg hp, if_neg hp]
    exact (h' hp).congr (by simp [hp])

/-- Only the first branch can fail. -/
theorem ite_some {p : Prop} [Decidable p] {v' : α} (h : p → Exact c fault v) :
    Exact (if p then c else some v') (p ∧ fault) (if p then v else v') :=
  (ite h fun _ => exact_of_eq rfl).congr (by simp)

/-- Only the second branch can fail. -/
theorem some_ite {p : Prop} [Decidable p] {v' : α} (h : ¬p → Exact c fault v) :
    Exact (if p then some v' else c) (¬p ∧ fault) (if p then v' else v) :=
  (ite (fun _ => exact_of_eq rfl) h).congr (by simp)

end Exact

/-! ### Loops and runs -/

/-- A loop in which no round fails, as long as something holds that every round preserves. -/
theorem foldlM_eq_some {σ ε : Type*} {f : σ → ε → Option σ} {g : σ → ε → σ} (inv : σ → Prop)
    (hstep : ∀ s a, inv s → f s a = some (g s a) ∧ inv (g s a)) {s : σ} (h : inv s)
    (items : List ε) : items.foldlM f s = some (items.foldl g s) := by
  induction items generalizing s with
  | nil => rfl
  | cons a items ih =>
    obtain ⟨heq, hinv⟩ := hstep s a h
    rw [List.foldlM_cons, heq]
    exact ih hinv

/-- **A run fails if and only if one of its steps does**, and else it is the run without the range.
The steps are exact in the states that satisfy an invariant, which every step that does not fail
preserves. -/
theorem exact_foldlM {σ ε : Type*} {f : σ → ε → Option σ} {step : σ → ε → σ}
    {faulty : σ → ε → Prop} {inv : σ → Prop} {s : σ} {es : List ε}
    (hexact : ∀ s, inv s → ∀ e ∈ es, Exact (f s e) (faulty s e) (step s e))
    (hstep : ∀ s, inv s → ∀ e ∈ es, ¬faulty s e → inv (step s e)) (h : inv s) :
    Exact (es.foldlM f s) (¬Run.Guarded step (fun s e => ¬faulty s e) s es)
      (Run.exec step s es) := by
  induction es generalizing s with
  | nil => exact (exact_of_eq rfl).congr (iff_of_false id fun h => h trivial)
  | cons e es ih =>
    have hrest : ¬faulty s e → Exact (es.foldlM f (step s e))
        (¬Run.Guarded step (fun s e => ¬faulty s e) (step s e) es)
        (Run.exec step (step s e) es) := fun hfault =>
      ih (fun s hs e he => hexact s hs e (List.mem_cons_of_mem _ he))
        (fun s hs e he => hstep s hs e (List.mem_cons_of_mem _ he))
        (hstep s h e List.mem_cons_self hfault)
    rw [List.foldlM_cons]
    refine Exact.congr (Exact.bind (hexact s h e List.mem_cons_self) hrest) ?_
    rw [Run.Guarded, not_and_or, not_not]

end Checked
