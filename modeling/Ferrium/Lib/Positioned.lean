import Ferrium.Lib.Incremental

/-!
# Readers at a position

A reader works at a position in a buffer that stays as it is, the way a program reads a slice with
an index. It ends with a value, with a buffer that is too short, with a fault, or because a bound on
its recursion is reached. It leaves the position somewhere, and it keeps two accounts of the whole
run: how far the position got, and how many calls of a function that counts itself were made.

A reader *follows* a scanner if, at every position, it does what the scanner does with the rest of
the buffer, does not reach the bound, stays within the buffer, and makes at most one call for every
symbol that it takes, and one more when it ends without a value.

## Main results

* `Tracks.after`: a counted call that takes a symbol of its own is paid for by this symbol;
* `Follows.bind`, `Follows.times`: readers are put together like the scanners that they follow.
-/

namespace Incremental

variable {β ε α γ : Type}

/-- How a reader ends. -/
inductive Verdict (ε α : Type)
  | ok (value : α)
  /-- The buffer ends too early. -/
  | short
  /-- The buffer has a fault. -/
  | fault (error : ε)
  /-- The bound on the recursion is reached. -/
  | exhausted
  deriving DecidableEq, Repr

/-- What a reader leaves behind. -/
structure Reading (ε α : Type) where
  verdict : Verdict ε α
  /-- The position at the end. -/
  pos : ℕ
  /-- The furthest position that it went to. -/
  reach : ℕ
  /-- The number of counted calls. -/
  calls : ℕ
  deriving DecidableEq, Repr

/-- A reader of a buffer, at a position. -/
def Reader (β ε α : Type) : Type :=
  List β → ℕ → Reading ε α

namespace Reader

/-- End where it started, without a counted call. -/
def conclude (verdict : Verdict ε α) : Reader β ε α :=
  fun _ pos => ⟨verdict, pos, 0, 0⟩

/-- One reader after the other. -/
protected def bind (r : Reader β ε α) (f : α → Reader β ε γ) : Reader β ε γ :=
  fun buf pos =>
    match r buf pos with
    | ⟨.ok value, pos, reach, calls⟩ =>
      let later := f value buf pos
      ⟨later.verdict, later.pos, max reach later.reach, calls + later.calls⟩
    | ⟨.short, pos, reach, calls⟩ => ⟨.short, pos, reach, calls⟩
    | ⟨.fault error, pos, reach, calls⟩ => ⟨.fault error, pos, reach, calls⟩
    | ⟨.exhausted, pos, reach, calls⟩ => ⟨.exhausted, pos, reach, calls⟩

instance : Monad (Reader β ε) where
  pure value := conclude (.ok value)
  bind := Reader.bind

/-- The buffer ends too early. -/
def short : Reader β ε α :=
  conclude .short

/-- Fail without looking. -/
def fault (error : ε) : Reader β ε α :=
  conclude (.fault error)

/-- The bound on the recursion is reached. -/
def exhausted : Reader β ε α :=
  conclude .exhausted

/-- The buffer. -/
def buffer : Reader β ε (List β) :=
  fun buf pos => ⟨.ok buf, pos, 0, 0⟩

/-- The position. -/
def position : Reader β ε ℕ :=
  fun _ pos => ⟨.ok pos, pos, 0, 0⟩

/-- Go to another position. -/
def seek (target : ℕ) : Reader β ε Unit :=
  fun _ _ => ⟨.ok (), target, target, 0⟩

/-- Count a call. -/
def call : Reader β ε Unit :=
  fun _ pos => ⟨.ok (), pos, 0, 1⟩

/-- The same reader `n` times. -/
def times (r : Reader β ε α) : ℕ → Reader β ε (List α)
  | 0 => pure []
  | n + 1 => do
    let value ← r
    let values ← times r n
    pure (value :: values)

theorem bind_apply (r : Reader β ε α) (f : α → Reader β ε γ) (buf : List β) (pos : ℕ) :
    (r >>= f) buf pos =
      match r buf pos with
      | ⟨.ok value, pos, reach, calls⟩ =>
        ⟨(f value buf pos).verdict, (f value buf pos).pos, max reach (f value buf pos).reach,
          calls + (f value buf pos).calls⟩
      | ⟨.short, pos, reach, calls⟩ => ⟨.short, pos, reach, calls⟩
      | ⟨.fault error, pos, reach, calls⟩ => ⟨.fault error, pos, reach, calls⟩
      | ⟨.exhausted, pos, reach, calls⟩ => ⟨.exhausted, pos, reach, calls⟩ := rfl

variable {r : Reader β ε α} {f : α → Reader β ε γ} {buf : List β} {pos : ℕ} {value : α}

theorem bind_of_ok {pos' reach calls : ℕ} (h : r buf pos = ⟨.ok value, pos', reach, calls⟩) :
    (r >>= f) buf pos =
      ⟨(f value buf pos').verdict, (f value buf pos').pos, max reach (f value buf pos').reach,
        calls + (f value buf pos').calls⟩ := by
  rw [bind_apply, h]

/-- A step that only looks leaves everything to what comes behind it. -/
theorem bind_of_look (h : r buf pos = ⟨.ok value, pos, 0, 0⟩) :
    (r >>= f) buf pos = f value buf pos := by
  rw [bind_of_ok h, Nat.zero_max, Nat.zero_add]

/-- Go to a position, with a value. -/
theorem seek_bind_pure (target : ℕ) :
    (seek target >>= fun _ => (pure value : Reader β ε α)) buf pos =
      ⟨.ok value, target, target, 0⟩ := by
  rw [bind_of_ok (rfl : seek target buf pos = ⟨.ok (), target, target, 0⟩)]
  simp only [pure, conclude, Nat.max_zero, Nat.add_zero]

/-! ### Readers without counted calls -/

/-- The reader makes no counted call. -/
def Quiet (r : Reader β ε α) : Prop :=
  ∀ buf pos, (r buf pos).calls = 0

theorem quiet_conclude (verdict : Verdict ε α) : Quiet (conclude verdict : Reader β ε α) :=
  fun _ _ => rfl

theorem quiet_buffer : Quiet (buffer : Reader β ε (List β)) :=
  fun _ _ => rfl

theorem quiet_position : Quiet (position : Reader β ε ℕ) :=
  fun _ _ => rfl

theorem quiet_seek (target : ℕ) : Quiet (seek target : Reader β ε Unit) :=
  fun _ _ => rfl

theorem Quiet.bind (hr : Quiet r) (hf : ∀ value, Quiet (f value)) : Quiet (r >>= f) := by
  intro buf pos
  have hfirst := hr buf pos
  rw [bind_apply]
  generalize r buf pos = reading at hfirst
  obtain ⟨verdict, pos', reach, calls⟩ := reading
  obtain rfl : calls = 0 := hfirst
  cases verdict with
  | ok value => exact (Nat.zero_add _).trans (hf value buf pos')
  | short => rfl
  | fault error => rfl
  | exhausted => rfl

end Reader

/-! ### Following a scanner -/

/-- The reading, from the position `pos`, is what the scanner finds in the rest of the buffer. -/
inductive Tracks (buf : List β) (pos : ℕ) : Reading ε α → Outcome β ε α → Prop
  | ok {value : α} {pos' reach calls : ℕ} : pos' ≤ buf.length → reach ≤ buf.length →
      pos + calls ≤ pos' →
      Tracks buf pos ⟨.ok value, pos', reach, calls⟩ (.done value (buf.drop pos'))
  | short {pos' reach calls : ℕ} : pos' ≤ buf.length → reach ≤ buf.length →
      pos + calls ≤ buf.length + 1 → Tracks buf pos ⟨.short, pos', reach, calls⟩ .more
  | fault {error : ε} {pos' reach calls : ℕ} : pos' ≤ buf.length → reach ≤ buf.length →
      pos + calls ≤ buf.length + 1 →
      Tracks buf pos ⟨.fault error, pos', reach, calls⟩ (.fail error)

/-- The reader does what the scanner does, in every buffer of at most `limit` symbols, and at every
position with at most `room` symbols behind it. -/
def Follows (limit room : ℕ) (r : Reader β ε α) (p : Scanner β ε α) : Prop :=
  ∀ ⦃buf : List β⦄ ⦃pos : ℕ⦄, buf.length ≤ limit → pos ≤ buf.length → buf.length ≤ pos + room →
    Tracks buf pos (r buf pos) (p (buf.drop pos))

variable {limit room : ℕ} {r : Reader β ε α} {p : Scanner β ε α}

theorem follows_pure (value : α) :
    Follows limit room (pure value : Reader β ε α) (pure value) := by
  intro buf pos _ hpos _
  exact Tracks.ok hpos (Nat.zero_le _) (Nat.le_refl pos)

theorem follows_fault (error : ε) :
    Follows limit room (Reader.fault error : Reader β ε α) (Scanner.fail error) := by
  intro buf pos _ hpos _
  exact Tracks.fault hpos (Nat.zero_le _) (Nat.le_succ_of_le hpos)

/-- What is read behind `pos'` is read behind `pos`, if the symbols in between pay for the calls
that were made in between. -/
theorem Tracks.after {buf : List β} {pos pos' reach calls : ℕ} {reading : Reading ε α}
    {outcome : Outcome β ε α} (h : Tracks buf pos' reading outcome) (hreach : reach ≤ buf.length)
    (hcalls : pos + calls ≤ pos') :
    Tracks buf pos ⟨reading.verdict, reading.pos, max reach reading.reach, calls + reading.calls⟩
      outcome := by
  cases h with
  | ok hpos'' hreach' hcalls' =>
    refine Tracks.ok hpos'' (max_le hreach hreach') ?_
    dsimp only
    omega
  | short hpos'' hreach' hcalls' =>
    refine Tracks.short hpos'' (max_le hreach hreach') ?_
    dsimp only
    omega
  | fault hpos'' hreach' hcalls' =>
    refine Tracks.fault hpos'' (max_le hreach hreach') ?_
    dsimp only
    omega

/-- A reader that makes no counted call may as well start one symbol later, if it takes this symbol
for every value. -/
theorem Tracks.succ {buf : List β} {pos : ℕ} {reading : Reading ε α} {outcome : Outcome β ε α}
    (h : Tracks buf pos reading outcome) (hquiet : reading.calls = 0) (hpos : pos < buf.length)
    (htakes : ∀ value rest, outcome = .done value rest → rest.length < (buf.drop pos).length) :
    Tracks buf (pos + 1) reading outcome := by
  cases h with
  | @ok value pos' reach calls hpos' hreach _ =>
    obtain rfl : calls = 0 := hquiet
    have hlt := htakes value _ rfl
    rw [List.length_drop, List.length_drop] at hlt
    exact Tracks.ok hpos' hreach (by omega)
  | @short pos' reach calls hpos' hreach _ =>
    obtain rfl : calls = 0 := hquiet
    exact Tracks.short hpos' hreach (by omega)
  | @fault error pos' reach calls hpos' hreach _ =>
    obtain rfl : calls = 0 := hquiet
    exact Tracks.fault hpos' hreach (by omega)

/-- What comes behind a value that is found starts further on, with less room. -/
theorem Follows.bind {f : α → Reader β ε γ} {g : α → Scanner β ε γ}
    (hr : Follows limit room r p) (hf : ∀ value, Follows limit room (f value) (g value)) :
    Follows limit room (r >>= f) (p >>= g) := by
  intro buf pos hlimit hpos hroom
  have hfirst := hr hlimit hpos hroom
  rw [Reader.bind_apply, bind_apply]
  generalize r buf pos = reading at hfirst
  generalize p (buf.drop pos) = outcome at hfirst
  cases hfirst with
  | @ok value pos' reach calls hpos' hreach hcalls =>
    exact (hf value hlimit hpos' (by omega)).after hreach hcalls
  | short hpos' hreach hcalls => exact Tracks.short hpos' hreach hcalls
  | fault hpos' hreach hcalls => exact Tracks.fault hpos' hreach hcalls

theorem Follows.times (hr : Follows limit room r p) (n : ℕ) :
    Follows limit room (r.times n) (Scanner.times p n) := by
  induction n with
  | zero => exact follows_pure []
  | succ n ih => exact hr.bind fun value => ih.bind fun values => follows_pure _

end Incremental
