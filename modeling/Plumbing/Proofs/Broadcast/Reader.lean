import Plumbing.Broadcast.Reader
import Plumbing.Proofs.Stream.SegmentQueue

/-!
# What a reader's read does

A reader's bytes still to be read are its buffer followed by its queue (`Reader.pending`).
Pulling moves segments from the queue to the buffer and keeps these bytes, until the buffer
holds the bytes asked for or the queue is empty (`pull_spec`).

A read of an open reader (not closed, not settled on closed or aborted, no abort raised) that
returns does one of two things. When bytes are pending it answers the first ones asked for
(`read_open_data`); a registered reader's read returns only once it has them all. When none
are pending its reader is no longer registered, and it settles on the terminal in its slot, if
there is one (`read_open_end`).

A reader's own thread reads until a read would wait, answers no bytes, or fails. A read that
goes on answers bytes from the buffer, so it lowers what the reader can deliver
(`available_read_lt`); the thread therefore runs the same with any fuel above that amount
(`runFor_eq_runThread`), and the fuel `Reader.runThread` gives it is enough.
-/

namespace Plumbing.Broadcast

open Plumbing.Stream

namespace Reader

/-- The bytes the reader holds or has queued, in the order it reads them. -/
def pending (r : Reader) : List UInt8 := r.buffer.toBytes ++ r.queue.flatten

theorem pullFrom_spec {buffer : SegmentQueue} (hb : buffer.Valid) (k : Nat)
    (queue : List (List UInt8)) :
    (pullFrom buffer k queue).1.Valid ∧
      (pullFrom buffer k queue).1.toBytes ++ (pullFrom buffer k queue).2.flatten =
        buffer.toBytes ++ queue.flatten ∧
      (k ≤ (pullFrom buffer k queue).1.len ∨ (pullFrom buffer k queue).2 = []) := by
  induction queue generalizing buffer with
  | nil => simp [pullFrom, hb]
  | cons seg rest ih =>
    simp only [pullFrom]
    split
    · obtain ⟨h1, h2, h3⟩ := ih (hb.push seg)
      refine ⟨h1, ?_, h3⟩
      rw [h2, SegmentQueue.toBytes_push hb]
      simp
    · rename_i hge
      exact ⟨hb, rfl, .inl (Nat.le_of_not_lt hge)⟩

theorem pull_eq (r : Reader) (k : Nat) :
    r.pull k = { r with buffer := (pullFrom r.buffer k r.queue).1,
                        queue := (pullFrom r.buffer k r.queue).2 } := rfl

theorem pending_pull {r : Reader} (hv : r.buffer.Valid) (k : Nat) : (r.pull k).pending = r.pending :=
  (pullFrom_spec hv k r.queue).2.1

theorem valid_pull {r : Reader} (hv : r.buffer.Valid) (k : Nat) : (r.pull k).buffer.Valid :=
  (pullFrom_spec hv k r.queue).1

/-- After a pull the buffer holds the bytes asked for, or the queue is empty. -/
theorem pull_full_or_drained {r : Reader} (hv : r.buffer.Valid) (k : Nat) :
    k ≤ (r.pull k).buffer.len ∨ (r.pull k).queue = [] :=
  (pullFrom_spec hv k r.queue).2.2

/-- An open reader: not closed, and not settled on closed or aborted. -/
structure Open (r : Reader) : Prop where
  not_closed : r.last ≠ some .closed
  not_aborted : r.last ≠ some .aborted
  not_detached : r.detached = false

/-- With no abort raised, an open reader's read pulls and then answers from the buffer or the
slot. -/
theorem read_open {r : Reader} (ho : r.Open) (k : Nat) :
    r.read false k =
      if (r.pull k).buffer.len < k && (r.pull k).registered then (.blocked, r.pull k)
      else if !(r.pull k).buffer.isEmpty then (r.pull k).copyOut k
      else
        match (r.pull k).slot with
        | t :: rest =>
          (.done { r.pull k with slot := rest, last := some t }.terminal,
            { r.pull k with slot := rest, last := some t })
        | [] => (.done (r.pull k).terminal, r.pull k) := by
  have h1 : (r.last = some .closed) = False := eq_false ho.not_closed
  have h2 : (r.last = some .aborted) = False := eq_false ho.not_aborted
  -- split on the slot first, so that both sides' matches reduce
  cases hs : (r.pull k).slot with
  | nil =>
    simp only [read, h1, h2, ho.not_detached, decide_false, Bool.or_false, Bool.false_eq_true,
      ↓reduceIte, hs]
  | cons t rest =>
    simp only [read, h1, h2, ho.not_detached, decide_false, Bool.or_false, Bool.false_eq_true,
      ↓reduceIte, hs]

theorem read_open_data {r r' : Reader} {k : Nat} {res : Except Error (List UInt8)} (ho : r.Open)
    (hv : r.buffer.Valid) (hk : 0 < k) (hp : r.pending ≠ []) (h : r.read false k = (.done res, r')) :
    res = .ok (r.pending.take k) ∧ r'.pending = r.pending.drop k ∧ r'.buffer.Valid ∧
      (r.registered = true → k ≤ r.pending.length) ∧
      r'.slot = r.slot ∧ r'.last = r.last ∧ r'.registered = r.registered ∧
      r'.detached = r.detached ∧ r'.dropped = r.dropped := by
  have hv' := valid_pull hv k
  have hpend := pending_pull hv k
  -- the pulled buffer is not empty: a drained queue leaves every pending byte in it
  have hne : (r.pull k).buffer.isEmpty = false := by
    rcases pull_full_or_drained hv k with hfull | hdrained
    · simp only [SegmentQueue.isEmpty]
      exact beq_false_of_ne (by omega)
    · have : (r.pull k).buffer.toBytes ≠ [] := by
        rw [← hpend] at hp
        simpa [pending, hdrained] using hp
      exact Bool.eq_false_iff.2 fun he => this ((SegmentQueue.isEmpty_iff hv').1 he)
  rw [read_open ho] at h
  split at h
  · exact absurd h (by simp)
  · rename_i hnb
    simp only [hne, Bool.not_false, ↓reduceIte, copyOut, Prod.mk.injEq, ReadStep.done.injEq] at h
    obtain ⟨rfl, rfl⟩ := h
    -- the buffer answers alone: it holds all `k` bytes, or the queue behind it is empty
    have hsplit : k ≤ (r.pull k).buffer.len ∨ (r.pull k).queue = [] := pull_full_or_drained hv k
    have hlen := hv'.len_eq
    refine ⟨?_, ?_, hv'.readInto k, ?_, rfl, rfl, rfl, rfl, rfl⟩
    · rw [SegmentQueue.readInto_fst hv', ← hpend, pending]
      rcases hsplit with hfull | hdrained
      · rw [List.take_append_of_le_length (by omega)]
      · simp [hdrained]
    · rw [← hpend]
      simp only [pending]
      rw [SegmentQueue.toBytes_readInto hv']
      rcases hsplit with hfull | hdrained
      · rw [List.drop_append_of_le_length (by omega)]
      · simp [hdrained]
    · intro hreg
      have : ¬ (r.pull k).buffer.len < k := by simpa [pull_eq, hreg] using hnb
      rw [← hpend, pending, List.length_append]
      omega

theorem read_open_end {r r' : Reader} {k : Nat} {res : Except Error (List UInt8)} (ho : r.Open)
    (hv : r.buffer.Valid) (hk : 0 < k) (hp : r.pending = []) (h : r.read false k = (.done res, r')) :
    r.registered = false ∧ r'.pending = [] ∧ r'.buffer.Valid ∧ r'.registered = r.registered ∧
      r'.detached = r.detached ∧ r'.dropped = r.dropped ∧
      (∀ t rest, r.slot = t :: rest →
        res = { r with last := some t }.terminal ∧ r'.slot = rest ∧ r'.last = some t) ∧
      (r.slot = [] → res = r.terminal ∧ r'.slot = [] ∧ r'.last = r.last) := by
  have hv' := valid_pull hv k
  have hpend := pending_pull hv k
  have hpend' : (r.pull k).pending = [] := by rw [hpend, hp]
  have hbuf : (r.pull k).buffer.toBytes = [] := (List.append_eq_nil_iff.1 hpend').1
  have hempty : (r.pull k).buffer.isEmpty = true := (SegmentQueue.isEmpty_iff hv').2 hbuf
  have hlen : (r.pull k).buffer.len = 0 := by rw [hv'.len_eq, hbuf]; rfl
  rw [read_open ho] at h
  split at h
  · exact absurd h (by simp)
  · rename_i hnb
    -- an empty buffer answers only once the queue is disconnected
    have hreg : (r.pull k).registered = false := by
      simpa [hlen, hk] using hnb
    simp only [hempty, Bool.not_true, Bool.false_eq_true, ↓reduceIte] at h
    refine ⟨hreg, ?_⟩
    cases hs : r.slot with
    | nil =>
      simp only [pull_eq, hs] at h
      simp only [Prod.mk.injEq, ReadStep.done.injEq] at h
      obtain ⟨rfl, rfl⟩ := h
      exact ⟨hpend', hv', rfl, rfl, rfl, by simp, fun _ => ⟨rfl, rfl, rfl⟩⟩
    | cons t rest =>
      simp only [pull_eq, hs] at h
      simp only [Prod.mk.injEq, ReadStep.done.injEq] at h
      obtain ⟨rfl, rfl⟩ := h
      exact ⟨hpend', hv', rfl, rfl, rfl,
        fun t' rest' he => by cases he; exact ⟨rfl, rfl, rfl⟩, fun he => by cases he⟩

/-! ## A reader's thread -/

theorem pullFrom_available (buffer : SegmentQueue) (k : Nat) (queue : List (List UInt8)) :
    (pullFrom buffer k queue).1.len + ((pullFrom buffer k queue).2.map List.length).foldr (· + ·) 0 =
      buffer.len + (queue.map List.length).foldr (· + ·) 0 := by
  induction queue generalizing buffer with
  | nil => rfl
  | cons seg rest ih =>
    simp only [pullFrom]
    split
    · rw [ih (buffer.push seg)]
      simp only [SegmentQueue.push, List.map_cons, List.foldr_cons]
      omega
    · rfl

theorem available_pull (r : Reader) (k : Nat) : (r.pull k).available = r.available :=
  pullFrom_available r.buffer k r.queue

/-- The settled terminal answers bytes only as no bytes, at the end of data. -/
theorem terminal_ok {r : Reader} {b : List UInt8} (h : r.terminal = .ok b) : b = [] := by
  unfold terminal at h
  split at h <;> simp_all

/-- A read that answers bytes copies them out of a buffer that held some: the reader can then
deliver fewer. -/
theorem available_read_lt {r r' : Reader} {ab : Bool} {k : Nat} {b : List UInt8} (hb : b ≠ [])
    (h : r.read ab k = (.done (.ok b), r')) : r'.available < r.available := by
  -- a copy out of the pulled reader, whose buffer is not empty
  have copy : (r.pull k).buffer.isEmpty = false → (r.pull k).copyOut k = (.done (.ok b), r') →
      r'.available < r.available := by
    intro hne hc
    simp only [copyOut, Prod.mk.injEq, ReadStep.done.injEq, Except.ok.injEq] at hc
    obtain ⟨hout, rfl⟩ := hc
    have hlen : 0 < (r.pull k).buffer.len := by
      simpa [SegmentQueue.isEmpty, Nat.pos_iff_ne_zero] using hne
    have hpos : 0 < ((r.pull k).buffer.readInto k).1.length := by
      rw [hout]
      exact List.length_pos_iff.2 hb
    rw [← available_pull r k]
    simp only [available, SegmentQueue.readInto] at hpos ⊢
    omega
  unfold read at h
  split at h
  · simp only [Prod.mk.injEq, ReadStep.done.injEq] at h
    exact absurd (terminal_ok h.1) hb
  · split at h
    · simp only [abortRead, Prod.mk.injEq, ReadStep.done.injEq] at h
      exact absurd (terminal_ok h.1) hb
    · split at h
      · dsimp only at h
        split at h
        · simp only [Prod.mk.injEq, ReadStep.done.injEq] at h
          exact absurd (terminal_ok h.1) hb
        · rename_i hne
          exact copy (Bool.eq_false_iff.2 hne) h
      · dsimp only at h
        split at h
        · cases h
        · split at h
          · rename_i hne
            exact copy (by simpa using hne) h
          · split at h <;>
              · simp only [Prod.mk.injEq, ReadStep.done.injEq] at h
                exact absurd (terminal_ok h.1) hb

/-- **A reader's thread runs the same with any fuel above what the reader can deliver**: every
read that goes on lowers that amount, so the thread stops before the fuel runs out. -/
theorem runFor_eq_runThread (ab : Bool) {n : Nat} (r : Reader) (hn : r.available < n) :
    runFor ab n r = runThread ab r := by
  -- both fuels are above what the reader can deliver; the induction is on the first
  have congr : ∀ m n (r : Reader), r.available < m → r.available < n →
      runFor ab m r = runFor ab n r := by
    intro m
    induction m with
    | zero => exact fun _ _ h _ => absurd h (Nat.not_lt_zero _)
    | succ m ih =>
      intro n r hm hn
      obtain ⟨n, rfl⟩ : ∃ n', n = n' + 1 := ⟨n - 1, by omega⟩
      simp only [runFor]
      split
      · rfl
      · split
        · rfl
        · split
          · rfl
          · rfl
          · rename_i b r' hne hread
            have hlt := available_read_lt hne hread
            exact ih n _ (by show r'.available < m; omega) (by show r'.available < n; omega)
          · rfl
  unfold runThread
  split
  · exact congr n _ r hn (by omega)
  · rename_i hth
    obtain ⟨n, rfl⟩ : ∃ n', n = n' + 1 := ⟨n - 1, by omega⟩
    simp only [Option.isSome_iff_ne_none, ne_eq, Decidable.not_not] at hth
    simp [runFor, hth]

end Reader

end Plumbing.Broadcast
