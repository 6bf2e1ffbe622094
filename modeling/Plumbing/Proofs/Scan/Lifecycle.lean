import Mathlib
import Plumbing.Scan.Scanner

/-!
# What a scanner keeps between calls

Whatever its splitter and token callback do (keep state, fail, or answer tokens that are not in
their data), a scanning writer holds at most `limit` bytes between calls and none once closed;
it closes only through a close whose flush succeeded, and stays closed; once closed it refuses
every call with a closed error attributed to that call, and changes neither itself nor the
hooks' state, so it calls neither hook (`reachable_lifecycle`).

Each call is taken apart once. `write_shape` and `flush_shape` say that a write or a flush only
replaces the held bytes, by bytes within the bound, by a suffix, or by nothing;
`flush_ok_pending` that a flush that succeeds leaves nothing held; the `_of_closed` lemmas what
a closed scanner answers. The calls of the io interface run the same code. The theorem is then
an induction on the calls that reach the scanner.
-/

namespace Plumbing.Scan

/-- A call on a scanning writer: its own write, flush and close, and the write and flush of its
io interface. -/
inductive Call
  | write (data : List UInt8)
  | ioWrite (data : List UInt8)
  | flush
  | ioFlush
  | close
  deriving DecidableEq, Repr

/-- The error an answer fails with, if it fails. -/
def failure? {ε α : Type} : Except ε α → Option ε
  | .ok _ => none
  | .error e => some e

namespace Call

/-- The operation a call's errors are attributed to. -/
def op : Call → Operation
  | .write _ | .ioWrite _ => .write
  | .flush | .ioFlush => .flush
  | .close => .close

variable {σ : Type}

/-- Makes the call: the error it fails with, if it fails (for a call of the io interface, the
error its io failure carries), the scanner after it, and the hooks' state. -/
def apply (h : Hooks σ) (s : σ) (sc : Scanner) : Call → Option Error × Scanner × σ
  | .write data => let (r, sc', s') := sc.write h s data; (failure? r, sc', s')
  | .ioWrite data =>
    let (r, sc', s') := sc.ioWrite h s data; ((failure? r).bind IoFailure.recover?, sc', s')
  | .flush => let (r, sc', s') := sc.flush h s; (failure? r, sc', s')
  | .ioFlush =>
    let (r, sc', s') := sc.ioFlush h s; ((failure? r).bind IoFailure.recover?, sc', s')
  | .close => let (r, sc', s') := sc.close h s; (failure? r, sc', s')

end Call

namespace Scanner

/-- What holds of a scanner between calls: at most `limit` held bytes, and none once closed. -/
structure Bounded (sc : Scanner) : Prop where
  pending_le : sc.pending.length ≤ sc.limit
  pending_of_closed : sc.closed = true → sc.pending = []

theorem bounded_new (limit : Nat) : (Scanner.new limit).Bounded :=
  ⟨Nat.zero_le _, fun _ => rfl⟩

variable {σ : Type} (h : Hooks σ) (s : σ)

/-! ## A closed scanner -/

theorem write_of_closed {sc : Scanner} (hc : sc.closed = true) (data : List UInt8) :
    sc.write h s data = (.error (Error.closed .write), sc, s) := by
  simp [write, hc]

theorem flush_of_closed {sc : Scanner} (hc : sc.closed = true) :
    sc.flush h s = (.error (Error.closed .flush), sc, s) := by
  simp [flush, hc]

theorem close_of_closed {sc : Scanner} (hc : sc.closed = true) :
    sc.close h s = (.error (Error.closed .close), sc, s) := by
  simp [close, hc]

/-! ## What each call does to the held bytes -/

/-- A write replaces the held bytes only: of a closed scanner by themselves, of an open one by
no more than `limit` bytes. -/
theorem write_shape (sc : Scanner) (data : List UInt8) :
    ∃ p, (sc.write h s data).2.1 = { sc with pending := p } ∧
      (p = sc.pending ∨ (sc.closed = false ∧ p.length ≤ sc.limit)) := by
  obtain ⟨pending, limit, closed⟩ := sc
  cases closed
  · simp only [write_eq_append, Bool.false_eq_true, ↓reduceIte, true_and]
    split
    · exact ⟨[], rfl, .inr (Nat.zero_le _)⟩
    · split
      · exact ⟨[], rfl, .inr (Nat.zero_le _)⟩
      · rename_i hfit
        -- what the scan did not consume is what is left over, and it fits
        refine ⟨_, rfl, .inr ?_⟩
        rw [List.length_drop]
        omega
  · exact ⟨pending, rfl, .inl rfl⟩

/-- A flush replaces the held bytes only, by a suffix of them; a closed scanner keeps them. -/
theorem flush_shape (sc : Scanner) :
    ∃ p, (sc.flush h s).2.1 = { sc with pending := p } ∧ p.length ≤ sc.pending.length ∧
      (sc.closed = true → p = sc.pending) := by
  obtain ⟨pending, limit, closed⟩ := sc
  cases closed
  · simp only [flush, Bool.false_eq_true, ↓reduceIte, false_implies, and_true]
    split
    · exact ⟨pending, rfl, Nat.le_refl _⟩
    · split
      · split
        · exact ⟨_, rfl, by simp⟩
        · exact ⟨[], rfl, Nat.zero_le _⟩
      · exact ⟨[], rfl, Nat.zero_le _⟩
  · exact ⟨pending, rfl, Nat.le_refl _, fun _ => rfl⟩

/-- A flush that succeeds leaves nothing held. -/
theorem flush_ok_pending {sc : Scanner} (hok : (sc.flush h s).1 = .ok ()) :
    (sc.flush h s).2.1.pending = [] := by
  obtain ⟨pending, limit, closed⟩ := sc
  cases closed
  · by_cases hempty : pending.isEmpty = true
    · simp only [flush, Bool.false_eq_true, ↓reduceIte, hempty]
      exact List.isEmpty_iff.1 hempty
    · rcases he : (h.scan true s pending).error with _ | e
      · simp [flush, hempty, he]
      · -- a failed scan fails the flush
        by_cases hop : e.op = .split <;> simp [flush, hempty, he, hop] at hok
  · simp [flush] at hok

theorem write_bounded {sc : Scanner} (hb : sc.Bounded) (data : List UInt8) :
    (sc.write h s data).2.1.Bounded ∧ (sc.write h s data).2.1.limit = sc.limit := by
  obtain ⟨p, hw, hp⟩ := write_shape h s sc data
  rw [hw]
  rcases hp with rfl | ⟨hopen, hle⟩
  · exact ⟨hb, rfl⟩
  · exact ⟨⟨hle, fun hc => absurd hc (by simp [hopen])⟩, rfl⟩

theorem flush_bounded {sc : Scanner} (hb : sc.Bounded) :
    (sc.flush h s).2.1.Bounded ∧ (sc.flush h s).2.1.limit = sc.limit := by
  obtain ⟨p, hf, hle, hclosed⟩ := flush_shape h s sc
  rw [hf]
  refine ⟨⟨Nat.le_trans hle hb.pending_le, fun hc => ?_⟩, rfl⟩
  rw [hclosed hc]
  exact hb.pending_of_closed hc

/-- A close of an open scanner answers a failed flush as it is. -/
theorem close_of_flush_error {sc sc' : Scanner} {s' : σ} {e : Error} (hopen : sc.closed = false)
    (hf : sc.flush h s = (.error e, sc', s')) : sc.close h s = (.error e, sc', s') := by
  simp [close, hopen, hf]

/-- A close of an open scanner whose flush succeeds closes it. -/
theorem close_of_flush_ok {sc sc' : Scanner} {s' : σ} (hopen : sc.closed = false)
    (hf : sc.flush h s = (.ok (), sc', s')) :
    sc.close h s = (.ok (), { sc' with closed := true }, s') := by
  simp [close, hopen, hf]

theorem close_bounded {sc : Scanner} (hb : sc.Bounded) :
    (sc.close h s).2.1.Bounded ∧ (sc.close h s).2.1.limit = sc.limit := by
  cases hc : sc.closed
  · obtain ⟨hfb, hfl⟩ := flush_bounded h s hb
    rcases hf : sc.flush h s with ⟨_ | _, sc', s'⟩
    · simp only [hf] at hfb hfl
      rw [close_of_flush_error h s hc hf]
      exact ⟨hfb, hfl⟩
    · -- the flush left nothing held, so the closed scanner holds nothing
      have hnil := flush_ok_pending h s (by rw [hf])
      simp only [hf] at hfl hnil
      rw [close_of_flush_ok h s hc hf]
      exact ⟨⟨by simp [hnil], fun _ => hnil⟩, hfl⟩
  · rw [close_of_closed h s hc]
    exact ⟨hb, rfl⟩

theorem write_closed (sc : Scanner) (data : List UInt8) :
    (sc.write h s data).2.1.closed = sc.closed := by
  obtain ⟨p, hw, -⟩ := write_shape h s sc data
  rw [hw]

theorem flush_closed (sc : Scanner) : (sc.flush h s).2.1.closed = sc.closed := by
  obtain ⟨p, hf, -⟩ := flush_shape h s sc
  rw [hf]

theorem close_closed_iff (sc : Scanner) :
    (sc.close h s).2.1.closed = true ↔ sc.closed = true ∨ (sc.flush h s).1 = .ok () := by
  cases hc : sc.closed
  · have hfc := flush_closed h s sc
    rcases hf : sc.flush h s with ⟨_ | _, sc', s'⟩
    · simp only [hf] at hfc
      simp [close_of_flush_error h s hc hf, hfc, hc]
    · simp [close_of_flush_ok h s hc hf]
  · simp [close_of_closed h s hc, hc]

end Scanner

namespace Call

variable {σ : Type} (h : Hooks σ) (s : σ)

/-- Every call keeps the bound and the limit. -/
theorem apply_bounded {sc : Scanner} (hb : sc.Bounded) (c : Call) :
    (c.apply h s sc).2.1.Bounded ∧ (c.apply h s sc).2.1.limit = sc.limit := by
  cases c with
  | write data | ioWrite data => exact Scanner.write_bounded h s hb data
  | flush | ioFlush => exact Scanner.flush_bounded h s hb
  | close => exact Scanner.close_bounded h s hb

/-- After a call the scanner is closed exactly when it was, or the call was a close whose flush
succeeded. -/
theorem apply_closed_iff (sc : Scanner) (c : Call) :
    (c.apply h s sc).2.1.closed = true ↔
      sc.closed = true ∨ (c = .close ∧ (sc.flush h s).1 = .ok ()) := by
  cases c with
  | write data | ioWrite data => simp [apply, Scanner.ioWrite, Scanner.write_closed]
  | flush | ioFlush => simp [apply, Scanner.ioFlush, Scanner.flush_closed]
  | close => simpa [apply] using Scanner.close_closed_iff h s sc

/-- A closed scanner refuses every call as closed, with the call's own operation, and changes
neither itself nor the hooks' state. -/
theorem apply_of_closed {sc : Scanner} (hc : sc.closed = true) (c : Call) :
    c.apply h s sc = (some (Error.closed c.op), sc, s) := by
  cases c <;>
    simp [apply, op, failure?, Scanner.ioWrite, Scanner.ioFlush, Scanner.write_of_closed h s hc,
      Scanner.flush_of_closed h s hc, Scanner.close_of_closed h s hc, Except.mapError,
      Error.toIoFailure, IoFailure.recover?]

end Call

/-- The scanners, with the hooks' state, that calls reach from a fresh scanner of limit `limit`. -/
inductive Reachable {σ : Type} (h : Hooks σ) (limit : Nat) : Scanner → σ → Prop
  | new (s : σ) : Reachable h limit (Scanner.new limit) s
  | call {sc : Scanner} {s : σ} (c : Call) :
    Reachable h limit sc s → Reachable h limit (c.apply h s sc).2.1 (c.apply h s sc).2.2

theorem Reachable.bounded {σ : Type} {h : Hooks σ} {limit : Nat} {sc : Scanner} {s : σ}
    (hr : Reachable h limit sc s) : sc.Bounded ∧ sc.limit = limit := by
  induction hr with
  | new s => exact ⟨Scanner.bounded_new limit, rfl⟩
  | call c _ ih =>
    obtain ⟨hb, hl⟩ := Call.apply_bounded h _ ih.1 c
    exact ⟨hb, hl.trans ih.2⟩

/-- **The scanner's lifecycle.** For any hooks and any calls from a fresh scanner of limit
`limit`: at most `limit` bytes are held and none once closed; a call closes the scanner exactly
when it is a close whose flush succeeded, and no call opens it again; and a closed scanner
answers every call with a closed error of the call's operation, changing neither itself nor the
hooks' state. -/
theorem reachable_lifecycle {σ : Type} {h : Hooks σ} {limit : Nat} {sc : Scanner} {s : σ}
    (hr : Reachable h limit sc s) :
    sc.pending.length ≤ limit ∧ (sc.closed = true → sc.pending = []) ∧
      ∀ c : Call,
        ((c.apply h s sc).2.1.closed = true ↔
          sc.closed = true ∨ (c = .close ∧ (sc.flush h s).1 = .ok ())) ∧
        (sc.closed = true → c.apply h s sc = (some (Error.closed c.op), sc, s)) := by
  obtain ⟨hb, hl⟩ := hr.bounded
  refine ⟨hl ▸ hb.pending_le, hb.pending_of_closed, fun c => ?_⟩
  exact ⟨Call.apply_closed_iff h s sc c, fun hc => Call.apply_of_closed h s hc c⟩

/-- Hooks that cut lines and count the calls made to them. -/
def countingLines : Hooks Nat :=
  ⟨fun n data atEof => (.ok (lines data atEof), n + 1), fun n _ => (.ok (), n + 1)⟩

/-- A scanner of limit 4 cutting lines, after a write of `a⏎b` and a close. -/
theorem lifecycle_after_write_and_close :
    let w := (Call.write [97, 10, 98]).apply countingLines 0 (Scanner.new 4)
    let c := Call.close.apply countingLines w.2.2 w.2.1
    Reachable countingLines 4 c.2.1 c.2.2 ∧
      c.2.1.pending.length ≤ 4 ∧ (c.2.1.closed = true → c.2.1.pending = []) ∧
      ∀ call : Call,
        ((call.apply countingLines c.2.2 c.2.1).2.1.closed = true ↔
          c.2.1.closed = true ∨ (call = .close ∧ (c.2.1.flush countingLines c.2.2).1 = .ok ())) ∧
        (c.2.1.closed = true →
          call.apply countingLines c.2.2 c.2.1 = (some (Error.closed call.op), c.2.1, c.2.2)) :=
  let hr := Reachable.call .close (Reachable.call (.write [97, 10, 98]) (Reachable.new 0))
  ⟨hr, reachable_lifecycle hr⟩

end Plumbing.Scan
