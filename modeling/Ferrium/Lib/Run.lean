import Mathlib.Data.List.Infix

/-!
# Guarded runs of a deterministic event system

A system is given by its states `σ`, its events `ε` and a total function `step`. A run is a list of
events, `exec step s es` the state that it ends in, and `Guarded step guard s es` says that every
event satisfies `guard` in the state in which it occurs. The moments of a run are its prefixes, so
a statement about two moments of one run is a statement about two prefixes of one list.

## Main results

* `Guarded.invariant`: what holds at the start and is preserved by guarded steps holds at the end;
* `Guarded.simulation`: the same for a relation to the states of a second system that moves along;
* `Guarded.project`: a system whose steps are runs of a second system;
* `path_outputs`: what a system puts out is a path of a second system that it simulates;
* `Guarded.of_isPrefix` and `Guarded.suffix`: a guarded run cut at one of its moments.
-/

namespace Run

variable {σ ε α : Type*} (step : σ → ε → σ)

/-- The state after the events `es`. -/
def exec (s : σ) (es : List ε) : σ :=
  es.foldl step s

/-- Every event of `es` satisfies `guard` in the state in which it occurs. -/
def Guarded (guard : σ → ε → Prop) : σ → List ε → Prop
  | _, [] => True
  | s, e :: es => guard s e ∧ Guarded guard (step s e) es

/-- A decidable guard makes the guardedness of a run decidable. -/
instance decidableGuarded (guard : σ → ε → Prop) [∀ s e, Decidable (guard s e)] :
    ∀ (s : σ) (es : List ε), Decidable (Guarded step guard s es)
  | _, [] => isTrue trivial
  | s, e :: es =>
    @instDecidableAnd _ _ inferInstance (decidableGuarded guard (step s e) es)

/-- What the events `es` put out, one after the other. -/
def outputs (out : σ → ε → List α) : σ → List ε → List α
  | _, [] => []
  | s, e :: es => out s e ++ outputs out (step s e) es

variable {step} {guard guard' : σ → ε → Prop}

@[simp]
theorem exec_nil (s : σ) : exec step s [] = s := rfl

@[simp]
theorem exec_cons (s : σ) (e : ε) (es : List ε) :
    exec step s (e :: es) = exec step (step s e) es := rfl

@[simp]
theorem exec_append (s : σ) (es₁ es₂ : List ε) :
    exec step s (es₁ ++ es₂) = exec step (exec step s es₁) es₂ :=
  List.foldl_append

/-- A run is guarded exactly when its two parts are. -/
theorem guarded_append {s : σ} {es₁ es₂ : List ε} :
    Guarded step guard s (es₁ ++ es₂) ↔
      Guarded step guard s es₁ ∧ Guarded step guard (exec step s es₁) es₂ := by
  induction es₁ generalizing s with
  | nil => simp [Guarded]
  | cons e es₁ ih => simp [Guarded, ih, and_assoc]

/-- Two guards are one. -/
theorem Guarded.and {s : σ} {es : List ε} (hg : Guarded step guard s es)
    (hg' : Guarded step guard' s es) :
    Guarded step (fun s e => guard s e ∧ guard' s e) s es := by
  induction es generalizing s with
  | nil => trivial
  | cons e es ih => exact ⟨⟨hg.1, hg'.1⟩, ih hg.2 hg'.2⟩

/-- A guarded run is guarded up to each of its moments. -/
theorem Guarded.of_isPrefix {s : σ} {es₁ es : List ε} (hg : Guarded step guard s es)
    (hp : es₁ <+: es) : Guarded step guard s es₁ := by
  obtain ⟨es₂, rfl⟩ := hp
  exact (guarded_append.mp hg).1

/-- A guarded run continues, guarded, from each of its moments. -/
theorem Guarded.suffix {s : σ} {es₁ es : List ε} (hg : Guarded step guard s es)
    (hp : es₁ <+: es) :
    ∃ es₂, es = es₁ ++ es₂ ∧ Guarded step guard (exec step s es₁) es₂ := by
  obtain ⟨es₂, rfl⟩ := hp
  exact ⟨es₂, rfl, (guarded_append.mp hg).2⟩

/-- What every step preserves, guarded or not, holds at the end if it holds at the start. -/
theorem exec_invariant (inv : σ → Prop) (hstep : ∀ s e, inv s → inv (step s e)) {s : σ}
    (es : List ε) (h : inv s) : inv (exec step s es) := by
  induction es generalizing s with
  | nil => exact h
  | cons e es ih => exact ih (hstep s e h)

/-- A run is guarded if what every step preserves implies the guard of each of its events. -/
theorem guarded_of_invariant (inv : σ → Prop) (hstep : ∀ s e, inv s → inv (step s e)) {s : σ}
    {es : List ε} (hguard : ∀ e ∈ es, ∀ s, inv s → guard s e) (h : inv s) :
    Guarded step guard s es := by
  induction es generalizing s with
  | nil => trivial
  | cons e es ih =>
    exact ⟨hguard e List.mem_cons_self s h,
      ih (fun e' he' => hguard e' (List.mem_cons_of_mem e he')) (hstep s e h)⟩

/-- What holds at the start and is preserved by every guarded step holds at the end. -/
theorem Guarded.invariant {inv : σ → Prop}
    (hstep : ∀ s e, guard s e → inv s → inv (step s e)) {s : σ} {es : List ε}
    (hg : Guarded step guard s es) (h : inv s) : inv (exec step s es) := by
  induction es generalizing s with
  | nil => exact h
  | cons e es ih => exact ih hg.2 (hstep s e hg.1 h)

/-- A run also satisfies the guards that follow from its own in all the states that it can reach. -/
theorem Guarded.imp_of_invariant {inv : σ → Prop}
    (hstep : ∀ s e, guard s e → inv s → inv (step s e))
    (himp : ∀ s e, guard s e → inv s → guard' s e) {s : σ} {es : List ε}
    (hg : Guarded step guard s es) (h : inv s) : Guarded step guard' s es := by
  induction es generalizing s with
  | nil => trivial
  | cons e es ih => exact ⟨himp s e hg.1 h, ih hg.2 (hstep s e hg.1 h)⟩

/-- A relation `sim` to the states of a second system is carried along a guarded run, the second
system moving by the transitive relation `move`. -/
theorem Guarded.simulation (sim : σ → α → Prop) (move : α → α → Prop)
    (hrefl : ∀ a, move a a) (htrans : ∀ {a b c}, move a b → move b c → move a c)
    (hstep : ∀ s e a, guard s e → sim s a → ∃ a', move a a' ∧ sim (step s e) a')
    {s : σ} {es : List ε} {a : α} (hg : Guarded step guard s es) (h : sim s a) :
    ∃ a', move a a' ∧ sim (exec step s es) a' := by
  induction es generalizing s a with
  | nil => exact ⟨a, hrefl a, h⟩
  | cons e es ih =>
    obtain ⟨b, hab, hb⟩ := hstep s e a hg.1 h
    obtain ⟨c, hbc, hc⟩ := ih hg.2 hb
    exact ⟨c, htrans hab hbc, hc⟩

/-- A system whose steps are runs of another system, seen through `proj`, runs like that one: its
runs are guarded runs of the other one if the events that it puts out are. -/
theorem Guarded.project {β : Type*} {step' : α → β → α} {guard' : α → β → Prop} (proj : σ → α)
    (out : σ → ε → List β) {inv : σ → Prop}
    (hproj : ∀ s e, proj (step s e) = exec step' (proj s) (out s e))
    (hstep : ∀ s e, guard s e → inv s → inv (step s e))
    (hguard : ∀ s e, guard s e → inv s → Guarded step' guard' (proj s) (out s e)) {s : σ}
    {es : List ε} (hg : Guarded step guard s es) (h : inv s) :
    Guarded step' guard' (proj s) (outputs step out s es) ∧
      proj (exec step s es) = exec step' (proj s) (outputs step out s es) := by
  induction es generalizing s with
  | nil => exact ⟨trivial, rfl⟩
  | cons e es ih =>
    obtain ⟨hrest, hend⟩ := ih hg.2 (hstep s e hg.1 h)
    rw [hproj] at hrest hend
    refine ⟨guarded_append.mpr ⟨hguard s e hg.1 h, hrest⟩, ?_⟩
    rw [exec_cons, hend, outputs, exec_append]

/-- From `a` to `b` along the labels, by a relation whose moves are labelled. -/
def Path {β : Type*} (move : α → β → α → Prop) : α → List β → α → Prop
  | a, [], b => a = b
  | a, label :: labels, b => ∃ c, move a label c ∧ Path move c labels b

/-- A path in two parts. -/
theorem path_append {β : Type*} {move : α → β → α → Prop} {a b : α} {labels labels' : List β} :
    Path move a (labels ++ labels') b ↔
      ∃ c, Path move a labels c ∧ Path move c labels' b := by
  induction labels generalizing a with
  | nil => simp [Path]
  | cons label labels ih =>
    simp only [List.cons_append, Path, ih]
    constructor
    · rintro ⟨c, hc, d, hfirst, hrest⟩
      exact ⟨d, ⟨c, hc, hfirst⟩, hrest⟩
    · rintro ⟨d, ⟨c, hc, hfirst⟩, hrest⟩
      exact ⟨c, hc, d, hfirst, hrest⟩

/-- What a system puts out is a path of another one, if it is for every step. -/
theorem path_outputs {β : Type*} {move : α → β → α → Prop} (sim : σ → α → Prop)
    (out : σ → ε → List β)
    (hstep : ∀ s e a, sim s a → ∃ a', Path move a (out s e) a' ∧ sim (step s e) a') {s : σ} {a : α}
    (es : List ε) (h : sim s a) :
    ∃ a', Path move a (outputs step out s es) a' ∧ sim (exec step s es) a' := by
  induction es generalizing s a with
  | nil => exact ⟨a, rfl, h⟩
  | cons e es ih =>
    obtain ⟨b, hfirst, hb⟩ := hstep s e a h
    obtain ⟨c, hrest, hc⟩ := ih hb
    exact ⟨c, path_append.mpr ⟨b, hfirst, hrest⟩, hc⟩

/-- A history of what a system puts out is made of all that it has put out. -/
theorem history_exec {β γ : Type*} (hist : σ → List γ) (out : σ → ε → List β) (g : β → Option γ)
    (hstep : ∀ s e, hist (step s e) = hist s ++ (out s e).filterMap g) (s : σ) (es : List ε) :
    hist (exec step s es) = hist s ++ (outputs step out s es).filterMap g := by
  induction es generalizing s with
  | nil => rw [exec_nil, outputs, List.filterMap_nil, List.append_nil]
  | cons e es ih =>
    rw [exec_cons, ih, hstep, outputs, List.filterMap_append, List.append_assoc]

end Run
