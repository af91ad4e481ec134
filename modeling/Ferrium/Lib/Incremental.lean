import Mathlib.Data.List.Infix
import Mathlib.Data.List.Flatten

/-!
# Incremental scanners

A scanner looks at the front of a buffer of symbols. It finds a value there, or it finds that the
buffer ends too early, or it fails. Sequencing hands what is behind the value to the next scanner,
so a scanner that stops early has taken nothing out of the buffer.

A scanner is *stable* if what it finds, a value or a failure, does not change when the buffer is
continued. A stable scanner that takes at least one symbol for every value is a `Decoder`, and can
be run on a buffer that grows.

## Main results

* `Stable.bind`, `Stable.times` and `Consumes.bind`, `Consumes.times`: both properties are kept by
  sequencing and by repetition;
* `Decoder.serve_eq`: a decoder that is run whenever something arrives finds the same values and
  ends in the same way as one that is run on the whole stream at once.
-/

namespace Incremental

variable {β ε ε' α γ : Type}

/-- What a scanner makes of a buffer. -/
inductive Outcome (β ε α : Type)
  /-- A value, and what is behind it. -/
  | done (value : α) (rest : List β)
  /-- The buffer ends too early. -/
  | more
  /-- The buffer has a fault. -/
  | fail (error : ε)
  deriving DecidableEq, Repr

/-- The same outcome for a buffer that is continued by `suffix`. -/
def Outcome.extend (suffix : List β) : Outcome β ε α → Outcome β ε α
  | done value rest => done value (rest ++ suffix)
  | more => more
  | fail error => fail error

/-- A scanner of the front of a buffer. -/
def Scanner (β ε α : Type) : Type :=
  List β → Outcome β ε α

namespace Scanner

/-- Find a value without looking. -/
protected def pure (value : α) : Scanner β ε α :=
  fun input => .done value input

/-- One scanner after the other. -/
protected def bind (p : Scanner β ε α) (f : α → Scanner β ε γ) : Scanner β ε γ :=
  fun input =>
    match p input with
    | .done value rest => f value rest
    | .more => .more
    | .fail error => .fail error

instance : Monad (Scanner β ε) where
  pure := Scanner.pure
  bind := Scanner.bind

/-- Wait for more. -/
def more : Scanner β ε α :=
  fun _ => .more

/-- Fail without looking. -/
def fail (error : ε) : Scanner β ε α :=
  fun _ => .fail error

/-- The next symbol. -/
def item : Scanner β ε β
  | [] => .more
  | symbol :: rest => .done symbol rest

/-- The next `n` symbols. -/
def take (n : ℕ) : Scanner β ε (List β) :=
  fun input => if input.length < n then .more else .done (input.take n) (input.drop n)

/-- Put a symbol back and go on from there. -/
def unread (symbol : β) (p : Scanner β ε α) : Scanner β ε α :=
  fun input => p (symbol :: input)

/-- Change what a fault is reported as. -/
def mapError (g : ε → ε') (p : Scanner β ε α) : Scanner β ε' α :=
  fun input =>
    match p input with
    | .done value rest => .done value rest
    | .more => .more
    | .fail error => .fail (g error)

/-- The same scanner `n` times. -/
def times (p : Scanner β ε α) : ℕ → Scanner β ε (List α)
  | 0 => pure []
  | n + 1 => do
    let value ← p
    let values ← times p n
    pure (value :: values)

end Scanner

open Scanner

variable {p q : Scanner β ε α} {f : α → Scanner β ε γ} {input rest : List β}

theorem bind_apply (p : Scanner β ε α) (f : α → Scanner β ε γ) (input : List β) :
    (p >>= f) input =
      match p input with
      | .done value rest => f value rest
      | .more => .more
      | .fail error => .fail error := rfl

theorem bind_of_done {value : α} (h : p input = .done value rest) :
    (p >>= f) input = f value rest := by
  rw [bind_apply, h]

/-- A second scanner matters only where the first one has found something. -/
theorem bind_congr_done {f' : α → Scanner β ε γ}
    (h : ∀ value rest, p input = .done value rest → f value rest = f' value rest) :
    (p >>= f) input = (p >>= f') input := by
  rw [bind_apply, bind_apply]
  cases hfirst : p input with
  | done value rest => exact h value rest hfirst
  | more => rfl
  | fail error => rfl

theorem bind_eq_done {value : γ} :
    (p >>= f) input = .done value rest ↔
      ∃ first middle, p input = .done first middle ∧ f first middle = .done value rest := by
  rw [bind_apply]
  cases h : p input with
  | done first middle => simp
  | more => simp
  | fail error => simp

theorem bind_eq_fail {error : ε} :
    (p >>= f) input = .fail error ↔
      p input = .fail error ∨
        ∃ first middle, p input = .done first middle ∧ f first middle = .fail error := by
  rw [bind_apply]
  cases h : p input with
  | done first middle => simp
  | more => simp
  | fail error' => simp

/-! ### Stability -/

/-- What the scanner finds does not change when the buffer is continued. -/
def Stable (p : Scanner β ε α) : Prop :=
  ∀ input suffix, p input ≠ .more → p (input ++ suffix) = (p input).extend suffix

theorem stable_pure (value : α) : Stable (pure value : Scanner β ε α) :=
  fun _ _ _ => rfl

theorem stable_more : Stable (more : Scanner β ε α) :=
  fun _ _ h => absurd rfl h

theorem stable_fail (error : ε) : Stable (fail error : Scanner β ε α) :=
  fun _ _ _ => rfl

theorem stable_item : Stable (item : Scanner β ε β) := by
  intro input suffix h
  cases input with
  | nil => exact absurd rfl h
  | cons symbol rest => rfl

theorem stable_take (n : ℕ) : Stable (take n : Scanner β ε (List β)) := by
  intro input suffix h
  unfold take at h ⊢
  by_cases hshort : input.length < n
  · exact absurd (if_pos hshort) h
  · have hlong : ¬(input ++ suffix).length < n := by
      rw [List.length_append]
      omega
    rw [if_neg hshort, if_neg hlong, Outcome.extend, List.take_append_of_le_length (by omega),
      List.drop_append_of_le_length (by omega)]

theorem Stable.bind (hp : Stable p) (hf : ∀ value, Stable (f value)) : Stable (p >>= f) := by
  intro input suffix h
  rw [bind_apply] at h
  rw [bind_apply, bind_apply]
  cases hfirst : p input with
  | done value rest =>
    rw [hfirst] at h
    have hcont := hp input suffix (by simp [hfirst])
    rw [hfirst] at hcont
    rw [hcont]
    exact hf value rest suffix h
  | more =>
    rw [hfirst] at h
    exact absurd rfl h
  | fail error =>
    have hcont := hp input suffix (by simp [hfirst])
    rw [hfirst] at hcont
    rw [hcont]
    rfl

theorem Stable.unread (hp : Stable p) (symbol : β) : Stable (unread symbol p) :=
  fun input suffix h => hp (symbol :: input) suffix h

theorem Stable.mapError (hp : Stable p) (g : ε → ε') : Stable (mapError g p) := by
  intro input suffix h
  have hcont := hp input suffix
  unfold Scanner.mapError at h ⊢
  cases hfirst : p input with
  | done value rest =>
    rw [hfirst] at hcont
    rw [hcont (by simp)]
    rfl
  | more =>
    rw [hfirst] at h
    exact absurd rfl h
  | fail error =>
    rw [hfirst] at hcont
    rw [hcont (by simp)]
    rfl

theorem Stable.times (hp : Stable p) (n : ℕ) : Stable (times p n) := by
  induction n with
  | zero => exact stable_pure []
  | succ n ih => exact hp.bind fun value => ih.bind fun values => stable_pure _

theorem Stable.done_append (hp : Stable p) {value : α} (h : p input = .done value rest)
    (suffix : List β) : p (input ++ suffix) = .done value (rest ++ suffix) := by
  rw [hp input suffix (by simp [h]), h]
  rfl

theorem Stable.fail_append (hp : Stable p) {error : ε} (h : p input = .fail error)
    (suffix : List β) : p (input ++ suffix) = .fail error := by
  rw [hp input suffix (by simp [h]), h]
  rfl

/-! ### What is taken -/

/-- For a value the scanner takes at least `k` symbols from the front of the buffer. -/
def Consumes (k : ℕ) (p : Scanner β ε α) : Prop :=
  ∀ ⦃input value rest⦄, p input = .done value rest →
    ∃ used, k ≤ used.length ∧ input = used ++ rest

theorem Consumes.mono {j k : ℕ} (hp : Consumes k p) (h : j ≤ k) : Consumes j p := by
  intro input value rest hdone
  obtain ⟨used, hlen, heq⟩ := hp hdone
  exact ⟨used, h.trans hlen, heq⟩

theorem Consumes.length_le {k : ℕ} (hp : Consumes k p) {value : α}
    (h : p input = .done value rest) : rest.length + k ≤ input.length := by
  obtain ⟨used, hlen, rfl⟩ := hp h
  rw [List.length_append]
  omega

theorem consumes_pure (value : α) : Consumes 0 (pure value : Scanner β ε α) := by
  intro input value' rest h
  obtain ⟨-, rfl⟩ := Outcome.done.inj h
  exact ⟨[], le_rfl, rfl⟩

theorem consumes_more (k : ℕ) : Consumes k (more : Scanner β ε α) := by
  intro input value rest h
  cases h

theorem consumes_fail (k : ℕ) (error : ε) : Consumes k (fail error : Scanner β ε α) := by
  intro input value rest h
  cases h

theorem consumes_item : Consumes 1 (item : Scanner β ε β) := by
  intro input symbol rest h
  cases input with
  | nil => cases h
  | cons first tail =>
    obtain ⟨rfl, rfl⟩ := Outcome.done.inj h
    exact ⟨[first], le_rfl, rfl⟩

theorem take_eq_done {n : ℕ} {values : List β} :
    (take n : Scanner β ε (List β)) input = .done values rest ↔
      input = values ++ rest ∧ values.length = n := by
  unfold take
  constructor
  · intro h
    split at h
    · cases h
    · next hlong =>
      obtain ⟨rfl, rfl⟩ := Outcome.done.inj h
      exact ⟨(List.take_append_drop n input).symm, by simp; omega⟩
  · rintro ⟨rfl, rfl⟩
    simp

theorem consumes_take (n : ℕ) : Consumes n (take n : Scanner β ε (List β)) := by
  intro input values rest h
  obtain ⟨heq, hlen⟩ := take_eq_done.mp h
  exact ⟨values, hlen.ge, heq⟩

theorem Consumes.bind {j k : ℕ} (hp : Consumes j p) (hf : ∀ value, Consumes k (f value)) :
    Consumes (j + k) (p >>= f) := by
  intro input value rest h
  obtain ⟨first, middle, hfirst, hsecond⟩ := bind_eq_done.mp h
  obtain ⟨used, hlen, rfl⟩ := hp hfirst
  obtain ⟨used', hlen', rfl⟩ := hf first hsecond
  exact ⟨used ++ used', by rw [List.length_append]; omega, (List.append_assoc _ _ _).symm⟩

/-- What comes behind may take nothing. -/
theorem Consumes.bind_zero {k : ℕ} (hp : Consumes k p) (hf : ∀ value, Consumes 0 (f value)) :
    Consumes k (p >>= f) :=
  hp.bind hf

theorem Consumes.unread {k : ℕ} (hp : Consumes (k + 1) p) (symbol : β) :
    Consumes k (unread symbol p) := by
  intro input value rest h
  obtain ⟨used, hlen, heq⟩ := hp h
  cases used with
  | nil => cases hlen
  | cons first used =>
    obtain ⟨-, rfl⟩ := List.cons.inj heq
    exact ⟨used, Nat.le_of_succ_le_succ hlen, rfl⟩

theorem mapError_eq_done {g : ε → ε'} {value : α} :
    mapError g p input = .done value rest ↔ p input = .done value rest := by
  unfold mapError
  cases p input with
  | done value' rest' => simp
  | more => simp
  | fail error => simp

theorem Consumes.times (hp : Consumes 0 p) (n : ℕ) : Consumes 0 (times p n) := by
  induction n with
  | zero => exact consumes_pure []
  | succ n ih => exact hp.bind fun value => ih.bind fun values => consumes_pure _

/-- Scanners that agree on short buffers agree on them when they are repeated. -/
theorem times_congr {k : ℕ} (hp : Consumes 0 p)
    (h : ∀ input : List β, input.length ≤ k → p input = q input) (n : ℕ)
    (hshort : input.length ≤ k) : times p n input = times q n input := by
  induction n generalizing input with
  | zero => rfl
  | succ n ih =>
    unfold Scanner.times
    rw [bind_apply q, ← h input hshort, ← bind_apply]
    refine bind_congr_done fun value rest hfirst => ?_
    have hrest := hp.length_le hfirst
    rw [bind_apply, bind_apply, ih (by omega)]

/-! ### What is found -/

/-- Every value that the scanner finds satisfies `P`. -/
def Yields (P : α → Prop) (p : Scanner β ε α) : Prop :=
  ∀ ⦃input value rest⦄, p input = .done value rest → P value

/-- The symbols that are taken for a value stand in the relation `P` to it. -/
def Reads (P : List β → α → Prop) (p : Scanner β ε α) : Prop :=
  ∀ ⦃input value rest⦄, p input = .done value rest →
    ∃ used, input = used ++ rest ∧ P used value

variable {P : List β → α → Prop} {values : List α} {parts : List (List β × α)}

theorem Reads.yields {Q : α → Prop} (hp : Reads P p) (h : ∀ used value, P used value → Q value) :
    Yields Q p := by
  intro input value rest hdone
  obtain ⟨used, -, hused⟩ := hp hdone
  exact h used value hused

/-- What is found by repetition stands behind each other: the parts, each with its value. -/
theorem Reads.times (hp : Reads P p) {n : ℕ} (h : times p n input = .done values rest) :
    ∃ parts : List (List β × α), parts.length = n ∧ values = parts.map Prod.snd ∧
      input = parts.flatMap Prod.fst ++ rest ∧ ∀ part ∈ parts, P part.1 part.2 := by
  induction n generalizing input values with
  | zero =>
    obtain ⟨rfl, rfl⟩ := Outcome.done.inj h
    exact ⟨[], rfl, rfl, rfl, fun part hpart => absurd hpart List.not_mem_nil⟩
  | succ n ih =>
    obtain ⟨first, middle, hfirst, hsecond⟩ := bind_eq_done.mp h
    obtain ⟨later, middle', hlater, hpure⟩ := bind_eq_done.mp hsecond
    obtain ⟨rfl, rfl⟩ := Outcome.done.inj hpure
    obtain ⟨used, rfl, hused⟩ := hp hfirst
    obtain ⟨parts, rfl, rfl, rfl, hparts⟩ := ih hlater
    refine ⟨(used, first) :: parts, rfl, rfl, ?_, List.forall_mem_cons.mpr ⟨hused, hparts⟩⟩
    rw [List.flatMap_cons, List.append_assoc]

/-- Repetition goes on up to the first part that is not found, and fails where that one fails. -/
theorem times_eq_fail {n : ℕ} {error : ε} (h : times p n input = .fail error) :
    ∃ (values : List α) (middle : List β), values.length < n ∧
      times p values.length input = .done values middle ∧ p middle = .fail error := by
  induction n generalizing input with
  | zero => cases h
  | succ n ih =>
    rw [Scanner.times, bind_apply] at h
    cases hfirst : p input with
    | more =>
      rw [hfirst] at h
      cases h
    | fail error' =>
      rw [hfirst] at h
      obtain rfl := Outcome.fail.inj h
      exact ⟨[], input, Nat.succ_pos n, rfl, hfirst⟩
    | done first rest =>
      rw [hfirst] at h
      dsimp only at h
      rw [bind_apply] at h
      cases hlater : times p n rest with
      | more =>
        rw [hlater] at h
        cases h
      | done later rest' =>
        rw [hlater] at h
        cases h
      | fail error' =>
        rw [hlater] at h
        obtain rfl := Outcome.fail.inj h
        obtain ⟨values, middle, hlt, htimes, hfail⟩ := ih hlater
        refine ⟨first :: values, middle, Nat.succ_lt_succ hlt, ?_, hfail⟩
        rw [List.length_cons, Scanner.times, bind_of_done hfirst, bind_of_done htimes]
        rfl

/-- Parts that are found, or fail in one and the same way, are found by repetition, or one of them
fails. -/
theorem times_parts {error : ε} {Q : List β × α → Prop}
    (h : ∀ part ∈ parts, ∀ rest, p (part.1 ++ rest) = .done part.2 rest ∨
      p (part.1 ++ rest) = .fail error ∧ Q part) (rest : List β) :
    times p parts.length (parts.flatMap Prod.fst ++ rest) = .done (parts.map Prod.snd) rest ∨
      (∃ part ∈ parts, Q part) ∧
        ∀ n, parts.length ≤ n → times p n (parts.flatMap Prod.fst ++ rest) = .fail error := by
  induction parts with
  | nil => exact Or.inl rfl
  | cons part parts ih =>
    rw [List.flatMap_cons, List.append_assoc]
    rcases h part List.mem_cons_self (parts.flatMap Prod.fst ++ rest) with hdone | ⟨hfail, hQ⟩
    · rcases ih fun part' hpart' => h part' (List.mem_cons_of_mem part hpart') with hlater | hlater
      · left
        rw [List.length_cons, Scanner.times, bind_of_done hdone, bind_of_done hlater]
        rfl
      · obtain ⟨⟨part', hmem, hQ⟩, hfail⟩ := hlater
        refine Or.inr ⟨⟨part', List.mem_cons_of_mem part hmem, hQ⟩, fun n hn => ?_⟩
        obtain ⟨n, rfl⟩ : ∃ k, n = k + 1 := ⟨n - 1, by simp at hn; omega⟩
        rw [Scanner.times, bind_of_done hdone, bind_apply, hfail n (Nat.le_of_succ_le_succ hn)]
    · refine Or.inr ⟨⟨part, List.mem_cons_self, hQ⟩, fun n hn => ?_⟩
      obtain ⟨n, rfl⟩ : ∃ k, n = k + 1 := ⟨n - 1, by simp at hn; omega⟩
      rw [Scanner.times, bind_apply, hfail]

/-- Repetition is a loop that can be cut in two. -/
theorem times_add {m n : ℕ} (h : times p m input = .done values rest) :
    times p (m + n) input =
      match times p n rest with
      | .done later rest => .done (values ++ later) rest
      | .more => .more
      | .fail error => .fail error := by
  induction m generalizing input values with
  | zero =>
    obtain ⟨rfl, rfl⟩ := Outcome.done.inj h
    rw [Nat.zero_add]
    cases times p n input <;> rfl
  | succ m ih =>
    obtain ⟨first, middle, hfirst, hsecond⟩ := bind_eq_done.mp h
    obtain ⟨later, middle', hlater, hpure⟩ := bind_eq_done.mp hsecond
    obtain ⟨rfl, rfl⟩ := Outcome.done.inj hpure
    rw [Nat.succ_add, Scanner.times, bind_of_done hfirst, bind_apply, ih hlater]
    cases times p n middle' <;> rfl

/-! ### Faults that do not occur -/

/-- The scanner does not fail with `error`. -/
def Avoids (error : ε) (p : Scanner β ε α) : Prop :=
  ∀ input, p input ≠ .fail error

variable {error : ε}

theorem avoids_pure (value : α) : Avoids error (pure value : Scanner β ε α) := by
  intro input h
  cases h

theorem avoids_fail {error' : ε} (h : error' ≠ error) :
    Avoids error (fail error' : Scanner β ε α) :=
  fun _ hfail => h (Outcome.fail.inj hfail)

theorem avoids_take (n : ℕ) : Avoids error (take n : Scanner β ε (List β)) := by
  intro input h
  unfold take at h
  split at h
  · cases h
  · cases h

theorem Avoids.bind (hp : Avoids error p) (hf : ∀ value, Avoids error (f value)) :
    Avoids error (p >>= f) := by
  intro input h
  rcases bind_eq_fail.mp h with hfirst | ⟨first, middle, -, hsecond⟩
  · exact hp input hfirst
  · exact hf first middle hsecond

theorem Avoids.unread (hp : Avoids error p) (symbol : β) : Avoids error (unread symbol p) :=
  fun input => hp (symbol :: input)

/-! ### Decoders and growing buffers -/

/-- A scanner that can be run on a buffer that grows. -/
structure Decoder (β ε α : Type) where
  run : Scanner β ε α
  stable : Stable run
  consumes : Consumes 1 run

/-- How the loop of a decoder ends. -/
inductive Ending (β ε : Type)
  /-- Nothing else arrives; what is left in the buffer. -/
  | hungUp (leftover : List β)
  /-- The buffer has a fault. -/
  | failed (error : ε)
  deriving DecidableEq, Repr

namespace Decoder

variable (d : Decoder β ε α)

/-- The loop of a server: take a value out of the buffer; if it ends too early, read on. A read of
nothing is the end of the stream, and so is a fault. -/
def serve (buffer : List β) (reads : List (List β)) : List α × Ending β ε :=
  match _hrun : d.run buffer with
  | .done value rest =>
    let later := serve rest reads
    (value :: later.1, later.2)
  | .more =>
    match reads with
    | [] => ([], .hungUp buffer)
    | chunk :: reads => if chunk = [] then ([], .hungUp buffer) else serve (buffer ++ chunk) reads
  | .fail error => ([], .failed error)
termination_by (reads.length, buffer.length)
decreasing_by
  · have hshort := d.consumes.length_le _hrun
    exact Prod.Lex.right _ (by omega)
  · exact Prod.Lex.left _ _ (by simp)

variable {d} {buffer : List β}

theorem serve_of_done {value : α} (h : d.run buffer = .done value rest) (reads : List (List β)) :
    d.serve buffer reads = (value :: (d.serve rest reads).1, (d.serve rest reads).2) := by
  rw [serve.eq_def]
  split <;> simp_all

theorem serve_of_more (h : d.run buffer = .more) : d.serve buffer [] = ([], .hungUp buffer) := by
  rw [serve.eq_def]
  split <;> simp_all

theorem serve_of_fail {error : ε} (h : d.run buffer = .fail error) (reads : List (List β)) :
    d.serve buffer reads = ([], .failed error) := by
  rw [serve.eq_def]
  split <;> simp_all

/-- **Chunking does not matter**: what is found, and how it ends, depends on the stream only. -/
theorem serve_eq (buffer : List β) (reads : List (List β)) (hreads : [] ∉ reads) :
    d.serve buffer reads = d.serve (buffer ++ reads.flatten) [] := by
  fun_induction d.serve buffer reads with
  | case1 buffer reads value rest hrun later ih =>
    -- the value is found in the whole stream as well, and stands in front of what remains of it
    rw [serve_of_done (d.stable.done_append hrun reads.flatten), ← ih hreads]
  | case2 buffer hrun =>
    rw [List.flatten_nil, List.append_nil, serve_of_more hrun]
  | case3 buffer reads hrun =>
    exact absurd List.mem_cons_self hreads
  | case4 buffer hrun chunk reads hchunk ih =>
    rw [ih fun hmem => hreads (List.mem_cons_of_mem _ hmem), List.flatten_cons, List.append_assoc]
  | case5 buffer reads error hrun =>
    rw [serve_of_fail (d.stable.fail_append hrun reads.flatten)]

/-- What was found in a buffer is found again when it has grown, and the loop goes on with what was
left of it. -/
theorem serve_append {values : List α} {leftover : List β}
    (h : d.serve buffer [] = (values, .hungUp leftover)) (suffix : List β) :
    d.serve (buffer ++ suffix) [] =
      (values ++ (d.serve (leftover ++ suffix) []).1, (d.serve (leftover ++ suffix) []).2) := by
  induction hlength : buffer.length using Nat.strong_induction_on generalizing buffer values with
  | _ k ih =>
    cases hrun : d.run buffer with
    | done value rest =>
      rw [serve_of_done hrun] at h
      obtain ⟨rfl, hend⟩ := Prod.mk.inj h
      have hshort := d.consumes.length_le hrun
      have hrest := ih rest.length (by omega) (Prod.ext rfl hend) rfl
      rw [serve_of_done (d.stable.done_append hrun suffix), hrest, List.cons_append]
    | more =>
      rw [serve_of_more hrun] at h
      obtain ⟨rfl, hend⟩ := Prod.mk.inj h
      rw [Ending.hungUp.inj hend, List.nil_append]
    | fail error =>
      rw [serve_of_fail hrun] at h
      cases (Prod.mk.inj h).2

end Decoder

end Incremental
