import Plumbing.Prefetch.Session
import Plumbing.Proofs.Prefetch.Segments
import Plumbing.Proofs.Stream.SegmentQueue

/-!
# What a prefetching reader's reads answer

A prefetching reader owes its caller the bytes it buffered and those of the segments queued
before a failure, then that failure (`Reader.owed`). A read of `k` bytes answers the next `k`
bytes owed when there are that many, else the failure, once, else what is left (`answer`), and
the reader then owes the rest (`read_answer`). From a new reader, what is owed is what the
source delivers (`Source.delivered`), so a script of reads answers as that stream does
(`runSteps_reads`), whatever the queue length.
-/

namespace Plumbing.Prefetch

open Plumbing.Stream

/-- What a read of `k` bytes answers a reader that still owes `rest`, then the failure `fail`
unless it answered it: the next `k` bytes when there are that many; else the failure, once;
else all that is left. With it, what is then still owed. -/
def answer (rest : List UInt8) (fail : Option IoError) (k : Nat) :
    Except IoError (List UInt8) × List UInt8 × Option IoError :=
  if k ≤ rest.length then (.ok (rest.take k), rest.drop k, fail)
  else
    match fail with
    | some e => (.error e, rest, none)
    | none => (.ok rest, [], none)

/-- What reads of the given sizes answer a reader that owes `rest`, then `fail`. -/
def answers (rest : List UInt8) (fail : Option IoError) : List Nat → List (Except IoError (List UInt8))
  | [] => []
  | k :: ks => (answer rest fail k).1 :: answers (answer rest fail k).2.1 (answer rest fail k).2.2 ks

namespace Reader

/-- What the reader owes: the bytes it buffered, then those of the queued segments before a
failure, and that failure. -/
def owed (p : Reader) : List UInt8 × Option IoError :=
  match p.queue with
  | some q => (p.buffer.toBytes ++ (queued q).1, (queued q).2)
  | none => (p.buffer.toBytes, none)

/-! ## Taking segments -/

theorem takeSegments_valid {buffer : SegmentQueue} (hb : buffer.Valid) (k : Nat) (q : List Fill) :
    (takeSegments buffer k q).1.Valid := by
  induction q generalizing buffer with
  | nil => exact hb
  | cons s rest ih =>
    simp only [takeSegments]
    split
    · split
      · exact hb
      · exact ih (hb.push _)
    · exact hb

/-- With enough bytes owed, taking segments stops with `k` bytes buffered, short of any
failure. -/
theorem takeSegments_of_le {buffer : SegmentQueue} (hb : buffer.Valid) {k : Nat} {q : List Fill}
    (hk : k ≤ buffer.len + (queued q).1.length) :
    ∃ q', (takeSegments buffer k q).2 = (none, some q') ∧ k ≤ (takeSegments buffer k q).1.len ∧
      (takeSegments buffer k q).1.toBytes ++ (queued q').1 = buffer.toBytes ++ (queued q).1 ∧
      (queued q').2 = (queued q).2 := by
  induction q generalizing buffer with
  | nil =>
    simp only [queued, List.length_nil, Nat.add_zero] at hk
    exact ⟨[], by simp [takeSegments, Nat.not_lt.2 hk], hk, rfl, rfl⟩
  | cons s rest ih =>
    simp only [takeSegments]
    by_cases hlt : buffer.len < k
    · rw [if_pos hlt]
      split
      · -- a failure owes no bytes: the buffer held enough already
        rename_i e hs
        simp [queued, hs] at hk
        omega
      · -- the segment's bytes go to the buffer
        rename_i hs
        have hq := queued_cons hs rest
        have hpush := hb.push s.bytes
        obtain ⟨q', h1, h2, h3, h4⟩ := ih hpush (by
          rw [hq] at hk
          simp only [SegmentQueue.push, List.length_append] at hk ⊢
          omega)
        refine ⟨q', h1, h2, ?_, by rw [h4, hq]⟩
        rw [h3, SegmentQueue.toBytes_push hb, hq, List.append_assoc]
    · rw [if_neg hlt]
      exact ⟨s :: rest, rfl, Nat.le_of_not_lt hlt, rfl, rfl⟩

/-- With fewer bytes owed than asked for, taking segments buffers them all, meets the failure if
there is one, and lets go of the queue. -/
theorem takeSegments_of_lt {buffer : SegmentQueue} (hb : buffer.Valid) {k : Nat} {q : List Fill}
    (hk : buffer.len + (queued q).1.length < k) :
    (takeSegments buffer k q).2 = ((queued q).2, none) ∧
      (takeSegments buffer k q).1.toBytes = buffer.toBytes ++ (queued q).1 := by
  induction q generalizing buffer with
  | nil =>
    simp only [queued, List.length_nil, Nat.add_zero] at hk
    simp [takeSegments, hk, queued]
  | cons s rest ih =>
    have hlt : buffer.len < k := by omega
    simp only [takeSegments, if_pos hlt]
    split
    · rename_i e hs
      simp [queued, hs]
    · rename_i hs
      have hq := queued_cons hs rest
      rw [hq] at hk ⊢
      obtain ⟨h1, h2⟩ := ih (hb.push s.bytes) (by
        simp only [SegmentQueue.push, List.length_append] at hk ⊢
        omega)
      refine ⟨h1, ?_⟩
      rw [h2, SegmentQueue.toBytes_push hb, List.append_assoc]

/-! ## A read -/

theorem answer_of_le {rest : List UInt8} {k : Nat} (hk : k ≤ rest.length)
    (fail : Option IoError) : answer rest fail k = (.ok (rest.take k), rest.drop k, fail) := by
  simp [answer, hk]

theorem answer_of_lt {rest : List UInt8} {k : Nat} (hk : rest.length < k) (e : IoError) :
    answer rest (some e) k = (.error e, rest, none) := by
  simp [answer, Nat.not_le.2 hk]

theorem answer_none (rest : List UInt8) (k : Nat) :
    answer rest none k = (.ok (rest.take k), rest.drop k, none) := by
  unfold answer
  split
  · rfl
  · rename_i hk
    rw [List.take_of_length_le (by omega), List.drop_of_length_le (by omega)]

/-- **A read answers the next bytes owed**, else the failure, once, else what is left; the
reader then owes the rest. -/
theorem read_answer {p : Reader} (hc : p.closed = false) (hv : p.buffer.Valid) (k : Nat) :
    (p.read k).1 = (answer p.owed.1 p.owed.2 k).1 ∧
      (p.read k).2.owed = (answer p.owed.1 p.owed.2 k).2 ∧
      (p.read k).2.closed = false ∧ (p.read k).2.buffer.Valid := by
  rcases hq : p.queue with _ | q
  · -- the queue was let go of: the buffer alone
    simp only [read, hc, hq, Bool.false_eq_true, ↓reduceIte, owed, answer_none]
    refine ⟨by rw [SegmentQueue.readInto_fst hv], ?_, trivial, hv.readInto k⟩
    simp [SegmentQueue.toBytes_readInto hv]
  · simp only [read, hc, hq, Bool.false_eq_true, ↓reduceIte, owed]
    have hb := takeSegments_valid hv k q
    by_cases hk : k ≤ p.buffer.len + (queued q).1.length
    · -- enough is owed: the next `k` bytes, all buffered now
      obtain ⟨q', h2, hk', hbytes, hfail⟩ := takeSegments_of_le hv hk
      generalize takeSegments p.buffer k q = r at h2 hk' hbytes hfail hb
      obtain ⟨b, failure, queue⟩ := r
      simp only [Prod.mk.injEq] at h2
      obtain ⟨rfl, rfl⟩ := h2
      have hkb : k ≤ b.toBytes.length := hb.len_eq ▸ hk'
      rw [← hbytes, ← hfail, answer_of_le (by simp only [List.length_append]; omega)]
      refine ⟨?_, ?_, rfl, hb.readInto k⟩
      · simp only [SegmentQueue.readInto_fst hb, List.take_append_of_le_length hkb]
      · simp only [SegmentQueue.toBytes_readInto hb, List.drop_append_of_le_length hkb]
    · -- less is owed: all of it, then the failure if there is one
      have hk' : p.buffer.len + (queued q).1.length < k := Nat.lt_of_not_le hk
      obtain ⟨h2, hbytes⟩ := takeSegments_of_lt hv hk'
      generalize takeSegments p.buffer k q = r at h2 hbytes hb
      obtain ⟨b, failure, queue⟩ := r
      simp only [Prod.mk.injEq] at h2
      obtain ⟨rfl, rfl⟩ := h2
      have hlt : (p.buffer.toBytes ++ (queued q).1).length < k := by
        simp only [List.length_append, ← hv.len_eq]
        exact hk'
      simp only at hbytes
      rcases hf : (queued q).2 with _ | e
      · simp only [answer_none]
        refine ⟨by rw [SegmentQueue.readInto_fst hb, hbytes], ?_, trivial, hb.readInto k⟩
        simp [SegmentQueue.toBytes_readInto hb, hbytes]
      · rw [answer_of_lt hlt]
        exact ⟨rfl, by simp [hbytes], rfl, hb⟩

/-! ## Reads in a row -/

/-- A script of reads answers as the stream owed does. -/
theorem runSteps_reads {p : Reader} (hc : p.closed = false) (hv : p.buffer.Valid)
    (ks : List Nat) :
    (runSteps p (ks.map .read)).1 = (answers p.owed.1 p.owed.2 ks).map .bytes := by
  induction ks generalizing p with
  | nil => rfl
  | cons k ks ih =>
    obtain ⟨h1, h2, h3, h4⟩ := read_answer hc hv k
    simp only [List.map_cons, runSteps, step, answers, ih h3 h4, h1, h2]

theorem owed_new (segmentSize queueLen : Nat) (src : Source) :
    (new segmentSize queueLen src).owed = Source.delivered (segmentLen segmentSize) src := by
  simp only [owed, new, SegmentQueue.toBytes_empty, List.nil_append]
  exact Source.queued_segments (Nat.lt_of_lt_of_le Nat.zero_lt_one (Nat.le_max_right _ _)) src

/-- **Reads of a new reader answer the stream its source delivers**, whatever the queue
length. -/
theorem runSteps_new_reads (segmentSize queueLen : Nat) (src : Source) (ks : List Nat) :
    (runSteps (new segmentSize queueLen src) (ks.map .read)).1 =
      (answers (Source.delivered (segmentLen segmentSize) src).1
        (Source.delivered (segmentLen segmentSize) src).2 ks).map .bytes := by
  rw [runSteps_reads rfl SegmentQueue.valid_empty, owed_new]

end Reader

end Plumbing.Prefetch
