import Mathlib.Logic.Function.Basic
import Mathlib.Data.List.Nodup

/-!
# Families of components

The state of a system of components is a function `ι → α`. In a synchronous round the components act
one after the other, each on its own state, and then messages are handed over one after the other,
each to one component. What becomes of a single component can be said without the others: it acts
once, and then receives what is addressed to it, in the order of the messages.

## Main results

* `actAll_apply`: a component after all have acted;
* `handAll_apply`: a component after all messages have been handed over.
-/

namespace Family

variable {ι α μ : Type*} [DecidableEq ι]

/-- Let the components in `l` act, one after the other. -/
def actAll (act : ι → α → α) (l : List ι) (s : ι → α) : ι → α :=
  l.foldl (fun s i => Function.update s i (act i (s i))) s

/-- Hand the messages over, one after the other, each to the component `dst` of it. -/
def handAll (receive : α → μ → α) (dst : μ → ι) (messages : List μ) (s : ι → α) : ι → α :=
  messages.foldl (fun s m => Function.update s (dst m) (receive (s (dst m)) m)) s

/-- A component acts once, if it does at all, and on its own state. -/
theorem actAll_apply (act : ι → α → α) {l : List ι} (hl : l.Nodup) (s : ι → α) (j : ι) :
    actAll act l s j = if j ∈ l then act j (s j) else s j := by
  induction l generalizing s with
  | nil => rfl
  | cons i l ih =>
    obtain ⟨hi, hl⟩ := List.nodup_cons.mp hl
    rw [actAll, List.foldl_cons]
    refine (ih hl _).trans ?_
    rcases eq_or_ne j i with rfl | hne
    · rw [if_neg hi, if_pos List.mem_cons_self, Function.update_self]
    · simp only [Function.update_of_ne hne, List.mem_cons, hne, false_or]

/-- A component receives what is addressed to it, in the order of the messages. -/
theorem handAll_apply (receive : α → μ → α) (dst : μ → ι) (messages : List μ) (s : ι → α) (j : ι) :
    handAll receive dst messages s j =
      (messages.filter (dst · = j)).foldl receive (s j) := by
  induction messages generalizing s with
  | nil => rfl
  | cons m messages ih =>
    rw [handAll, List.foldl_cons]
    refine (ih _).trans ?_
    rcases eq_or_ne (dst m) j with rfl | hne
    · rw [List.filter_cons_of_pos (by simp), List.foldl_cons, Function.update_self]
    · rw [List.filter_cons_of_neg (by simpa using hne), Function.update_of_ne hne.symm]

omit [DecidableEq ι] in
/-- What the selected components contribute, the others contributing nothing. -/
theorem flatMap_filter (p : ι → Bool) (f : ι → List μ) (l : List ι) :
    (l.filter p).flatMap f = l.flatMap fun i => if p i then f i else [] := by
  induction l with
  | nil => rfl
  | cons i l ih =>
    rw [List.flatMap_cons, ← ih]
    by_cases hi : p i = true
    · rw [List.filter_cons_of_pos hi, List.flatMap_cons, if_pos hi]
    · rw [List.filter_cons_of_neg hi, if_neg hi, List.nil_append]

/-- What only one component contributes to. -/
theorem flatMap_of_only {l : List ι} (hl : l.Nodup) {i : ι} (hi : i ∈ l) {f : ι → List μ}
    (honly : ∀ k ∈ l, k ≠ i → f k = []) : l.flatMap f = f i := by
  have hone : l.filter (· = i) = [i] := by
    rw [List.filter_eq, hl.count, if_pos hi]
    rfl
  have hnone : ∀ k ∈ l, f k = if decide (k = i) = true then f k else [] := by
    intro k hk
    by_cases hki : k = i
    · rw [if_pos (decide_eq_true hki)]
    · rw [if_neg (by simpa using hki), honly k hk hki]
  rw [List.flatMap_congr hnone, ← flatMap_filter, hone, List.flatMap_singleton]

end Family
