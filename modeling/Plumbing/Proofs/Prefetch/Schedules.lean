import Plumbing.Prefetch.Interleaving
import Plumbing.Proofs.Prefetch.Reads

/-!
# Prefetched reads do not depend on the schedule

Let the producer and the reads of a prefetching reader take their steps in any order. What a
read returns depends only on the source, the segment size and the sizes of the reads: it is the
next bytes the source delivers, or its failure once, as `Reader.read` answers when every segment
is queued before (`reads_answer_every_schedule`). And no read waits for ever: once the producer
has queued its segments, every read returns.

The proof reads the world as the reader it will be once the producer has queued everything
(`World.view`): the producer's steps do not change that reader, and a read that returns takes
from the queued segments what it would take from all of them (`takeSegments_append`), so it
answers what that reader's read answers (`Reader.read_answer`).
-/

namespace Plumbing.Prefetch

open Plumbing.Stream

/-- A read that does not run out of queued segments takes the same from more of them. -/
theorem Reader.takeSegments_append {buffer : SegmentQueue} {k : Nat} {q : List Fill}
    (more : List Fill) (h : ¬ ((takeSegments buffer k q).2.1 = none ∧
      (takeSegments buffer k q).2.2 = none)) :
    takeSegments buffer k (q ++ more) =
      ((takeSegments buffer k q).1, (takeSegments buffer k q).2.1,
        (takeSegments buffer k q).2.2.map (· ++ more)) := by
  induction q generalizing buffer with
  | nil =>
    -- with nothing queued the read did not run out: it had its bytes
    have hk : k ≤ buffer.len := by
      rcases Nat.lt_or_ge buffer.len k with hlt | hge
      · exact absurd ⟨by simp [takeSegments], by simp [takeSegments, hlt]⟩ h
      · exact hge
    cases more with
    | nil => simp [takeSegments, Nat.not_lt.2 hk]
    | cons s rest => simp [takeSegments, Nat.not_lt.2 hk]
  | cons s rest ih =>
    simp only [List.cons_append, takeSegments] at h ⊢
    split
    · split
      · rfl
      · exact ih (by simpa [*] using h)
    · rfl

/-- A read that does not run out of queued segments reads the same with more of them queued,
and leaves them queued. -/
theorem Reader.read_append {p : Reader} {q : List Fill} (hq : p.queue = some q)
    (hc : p.closed = false) {k : Nat} (more : List Fill)
    (h : ¬ ((takeSegments p.buffer k q).2.1 = none ∧ (takeSegments p.buffer k q).2.2 = none)) :
    ({ p with queue := some (q ++ more) }.read k).1 = (p.read k).1 ∧
      ({ p with queue := some (q ++ more) }.read k).2 =
        { (p.read k).2 with queue := (p.read k).2.queue.map (· ++ more) } := by
  simp only [Reader.read, hc, hq, Bool.false_eq_true, ↓reduceIte, takeSegments_append more h]
  generalize takeSegments p.buffer k q = r
  obtain ⟨b, _ | e, queue⟩ := r <;> exact ⟨rfl, rfl⟩

theorem Reader.with_queue_eq {p : Reader} {q : Option (List Fill)} (h : p.queue = q) :
    { p with queue := q } = p := by
  subst h
  rfl

theorem Reader.runs_of_waits {p : Reader} {q : List Fill} (hq : p.queue = some q) {k : Nat}
    (h : p.waits k = false) :
    ¬ ((takeSegments p.buffer k q).2.1 = none ∧ (takeSegments p.buffer k q).2.2 = none) := by
  simp only [Reader.waits, hq] at h
  generalize takeSegments p.buffer k q = r at h
  obtain ⟨b, _ | e, _ | queue⟩ := r <;> simp_all

theorem Reader.read_queue_of_none {p : Reader} (hq : p.queue = none) (k : Nat) :
    (p.read k).2.queue = none := by
  simp only [Reader.read, hq]
  split
  · exact hq
  · rfl

namespace World

/-- The reader the world's reader will be once the producer has queued all its segments. -/
def view (w : World) : Reader :=
  { w.reader with queue := w.reader.queue.map (· ++ w.unsent) }

/-- What the world's reader owes its caller. -/
def owed (w : World) : List UInt8 × Option IoError := w.view.owed

/-- The world's reader is open, with a buffer that agrees with its count. -/
structure Sound (w : World) : Prop where
  open_ : w.reader.closed = false
  valid : w.reader.buffer.Valid

theorem owed_new (segmentSize queueLen : Nat) (src : Source) :
    (new segmentSize queueLen src).owed = Source.delivered (Reader.segmentLen segmentSize) src := by
  rw [← Reader.owed_new segmentSize queueLen src]
  rfl

theorem sound_new (segmentSize queueLen : Nat) (src : Source) :
    (new segmentSize queueLen src).Sound :=
  ⟨rfl, SegmentQueue.valid_empty⟩

variable {w w' : World} {o : Option (Except IoError (List UInt8))}

theorem step_start (h : w.step .start = some (o, w')) :
    o = none ∧ w'.owed = w.owed ∧ (w.Sound → w'.Sound) := by
  simp only [step] at h
  split at h
  · cases h
  · simp only [Option.some.injEq, Prod.mk.injEq] at h
    obtain ⟨rfl, rfl⟩ := h
    exact ⟨rfl, rfl, fun hs => ⟨hs.open_, hs.valid⟩⟩

theorem step_produce (h : w.step .produce = some (o, w')) :
    o = none ∧ w'.owed = w.owed ∧ (w.Sound → w'.Sound) := by
  simp only [step] at h
  split at h
  · cases h
  · rename_i s rest hunsent
    split at h
    · split at h
      · rename_i q hq
        simp only [Option.some.injEq, Prod.mk.injEq] at h
        obtain ⟨rfl, rfl⟩ := h
        refine ⟨rfl, ?_, fun hs => ⟨hs.open_, hs.valid⟩⟩
        simp [owed, view, hq, hunsent]
      · rename_i hq
        simp only [Option.some.injEq, Prod.mk.injEq] at h
        obtain ⟨rfl, rfl⟩ := h
        refine ⟨rfl, ?_, fun hs => ⟨hs.open_, hs.valid⟩⟩
        simp [owed, view, hq]
    · cases h

/-- A read that returns reads the world's reader as it would read the reader it will be. -/
theorem read_view {k : Nat} (hs : w.Sound) (hwait : ¬ (w.reader.waits k && !w.unsent.isEmpty) = true) :
    (w.reader.read k).1 = (w.view.read k).1 ∧
      ({ w with reader := (w.reader.read k).2 } : World).view = (w.view.read k).2 := by
  rcases hq : w.reader.queue with _ | q
  · -- the queue was let go of: the producer's segments are not received
    have hv : w.view = w.reader := by
      simp only [view, hq, Option.map_none]
      rw [← hq]
    refine ⟨by rw [hv], ?_⟩
    rw [hv]
    show { (w.reader.read k).2 with queue := (w.reader.read k).2.queue.map (· ++ w.unsent) } =
      (w.reader.read k).2
    rw [Reader.read_queue_of_none hq k, Option.map_none]
    exact Reader.with_queue_eq (Reader.read_queue_of_none hq k)
  · by_cases hu : w.unsent = []
    · -- the producer has queued everything
      have hv : w.view = w.reader := by
        simp only [view, hq, hu, List.append_nil, Option.map_some]
        rw [← hq]
      refine ⟨by rw [hv], ?_⟩
      rw [hv]
      show { (w.reader.read k).2 with queue := (w.reader.read k).2.queue.map (· ++ w.unsent) } =
        (w.reader.read k).2
      simp only [hu, List.append_nil, Option.map_id_fun', id_eq]
    · -- more is to come: the read returned before it needed it
      have hw : w.reader.waits k = false := by
        simpa [hu] using hwait
      obtain ⟨h1, h2⟩ := Reader.read_append hq hs.open_ w.unsent (Reader.runs_of_waits hq hw)
      have hv : w.view = { w.reader with queue := some (q ++ w.unsent) } := by
        simp [view, hq]
      rw [hv, h1, h2]
      exact ⟨rfl, rfl⟩

/-- A read that returns answers what the reader owes, as `Reader.read` does with every segment
queued. -/
theorem step_read {k : Nat} (hs : w.Sound) (h : w.step (.read k) = some (o, w')) :
    o = some (answer w.owed.1 w.owed.2 k).1 ∧ w'.owed = (answer w.owed.1 w.owed.2 k).2 ∧
      w'.Sound := by
  simp only [step] at h
  split at h
  · cases h
  · rename_i hwait
    simp only [Option.some.injEq, Prod.mk.injEq] at h
    obtain ⟨rfl, rfl⟩ := h
    obtain ⟨h1, h2, h3, h4⟩ := Reader.read_answer (p := w.view) hs.open_ hs.valid k
    obtain ⟨hr1, hr2⟩ := read_view hs hwait
    refine ⟨by rw [hr1, h1]; rfl, ?_, ?_⟩
    · show ({ w with reader := (w.reader.read k).2 } : World).view.owed = _
      rw [hr2, h2]
      rfl
    · have hc : (w.reader.read k).2.closed = false := by
        have := congrArg Reader.closed hr2
        simp only [view] at this
        rw [this]
        exact h3
      have hv : (w.reader.read k).2.buffer.Valid := by
        have := congrArg Reader.buffer hr2
        simp only [view] at this
        rw [this]
        exact h4
      exact ⟨hc, hv⟩

theorem run_append (w : World) (es fs : List Event) :
    w.run (es ++ fs) = (w.run es).bind fun p =>
      (p.2.run fs).map fun q => (p.1 ++ q.1, q.2) := by
  induction es generalizing w with
  | nil =>
    simp only [List.nil_append, run, Option.bind_some, List.nil_append]
    cases w.run fs <;> rfl
  | cons e es ih =>
    simp only [List.cons_append, run]
    cases w.step e with
    | none => rfl
    | some p =>
      simp only [ih]
      cases p.2.run es with
      | none => rfl
      | some q =>
        simp only [Option.bind_some, Option.map]
        cases q.2.run fs <;> rfl

/-- **Along any run, the reads answer what the reader owed**, one after the other. -/
theorem run_reads {evs : List Event} {reps : List (Option (Except IoError (List UInt8)))}
    (hs : w.Sound) (h : w.run evs = some (reps, w')) :
    reps.filterMap id = answers w.owed.1 w.owed.2 (readSizes evs) := by
  induction evs generalizing w reps with
  | nil =>
    simp only [run, Option.some.injEq, Prod.mk.injEq] at h
    obtain ⟨rfl, rfl⟩ := h
    rfl
  | cons e es ih =>
    simp only [run] at h
    rcases hst : w.step e with _ | ⟨o, w₁⟩
    · simp [hst] at h
    rcases hrest : w₁.run es with _ | ⟨os, w₂⟩
    · simp [hst, hrest] at h
    simp only [hst, hrest, Option.some.injEq, Prod.mk.injEq] at h
    obtain ⟨rfl, rfl⟩ := h
    cases e with
    | start =>
      obtain ⟨rfl, howed, hsound⟩ := step_start hst
      simpa [readSizes, howed] using ih (hsound hs) hrest
    | produce =>
      obtain ⟨rfl, howed, hsound⟩ := step_produce hst
      simpa [readSizes, howed] using ih (hsound hs) hrest
    | read k =>
      obtain ⟨rfl, howed, hsound⟩ := step_read hs hst
      simpa [readSizes, answers, howed] using ih hsound hrest

/-- A started producer queues what it has left, one segment a step. -/
theorem run_produce {q : List Fill} (hq : w.reader.queue = some q) (hst : w.reader.started = true) :
    w.run (List.replicate w.unsent.length .produce) =
      some (List.replicate w.unsent.length none,
        ⟨[], { w.reader with queue := some (q ++ w.unsent) }⟩) := by
  obtain ⟨unsent, ⟨segmentSize, queueLen, queue, buffer, started, closed⟩⟩ := w
  simp only at hq hst ⊢
  subst hq hst
  induction unsent generalizing q with
  | nil => simp [run]
  | cons s rest ih =>
    simp only [List.length_cons, List.replicate_succ, run, step, ↓reduceIte]
    rw [ih]
    simp

/-- Once the producer has queued everything, a read does not wait. -/
theorem step_read_isSome (k : Nat) (h : w.reader.queue = none ∨ w.unsent = []) :
    (w.step (.read k)).isSome = true := by
  have hwait : ¬ (w.reader.waits k && !w.unsent.isEmpty) = true := by
    rcases h with h | h
    · simp [Reader.waits, h]
    · simp [h]
  simp [step, hwait]

/-- **No read waits for ever**: once the producer has taken its steps, whatever it had left,
a read returns. -/
theorem read_returns (w : World) (k : Nat) :
    ∃ pre : List Event, (∀ e ∈ pre, e = .start ∨ e = .produce) ∧
      ((w.run pre).bind fun p => p.2.step (.read k)).isSome = true := by
  rcases hq : w.reader.queue with _ | q
  · exact ⟨[], by simp, by simpa [run] using step_read_isSome k (.inl hq)⟩
  -- the producer started, then queueing everything
  let w₁ : World := { w with reader := { w.reader with started := true } }
  have hq₁ : w₁.reader.queue = some q := hq
  have hdone := run_produce hq₁ rfl
  have hread := step_read_isSome k (w := ⟨[], { w₁.reader with queue := some (q ++ w₁.unsent) }⟩)
    (.inr rfl)
  cases hst : w.reader.started
  · refine ⟨.start :: List.replicate w.unsent.length .produce, ?_, ?_⟩
    · simp
    · have hstart : w.step .start = some (none, w₁) := by simp [step, hst, w₁]
      simp only [run, hstart]
      rw [show w.unsent.length = w₁.unsent.length from rfl, hdone]
      simpa using hread
  · have hw : w₁ = w := by
      simp only [w₁, ← hst]
    refine ⟨List.replicate w.unsent.length .produce, by simp, ?_⟩
    rw [← hw, hdone]
    simpa using hread

end World

end Plumbing.Prefetch

namespace Plumbing.Prefetch

open Plumbing.Stream

/-- **Prefetched reads do not depend on the schedule.** Let the producer of a prefetching
reader of `src`, in segments of `segmentSize` bytes (0 counts as 1), and its reads take their
steps in any order, the reader neither closed nor aborted. The reads answer, in order, the next
bytes of what the source delivers (`Source.delivered`: all its bytes before its end, or before a
failure only those of the full segments); a read that asks for more bytes than are left answers
the source's failure, once, and after it what is left. This does not depend on the queue length
or on the order of the steps, and no read waits for ever. -/
theorem reads_answer_every_schedule {segmentSize queueLen : Nat} {src : Source}
    {evs : List Event} {reps : List (Option (Except IoError (List UInt8)))}
    (hrun : ((World.new segmentSize queueLen src).run evs).map Prod.fst = some reps) :
    reps.filterMap id = answers (Source.delivered (Reader.segmentLen segmentSize) src).1
        (Source.delivered (Reader.segmentLen segmentSize) src).2 (readSizes evs) ∧
      ∀ k, ∃ pre : List Event, (∀ e ∈ pre, e = .start ∨ e = .produce) ∧
        ((World.new segmentSize queueLen src).run (evs ++ pre ++ [.read k])).isSome = true := by
  obtain ⟨⟨reps', w⟩, hw, rfl⟩ := Option.map_eq_some_iff.1 hrun
  refine ⟨?_, fun k => ?_⟩
  · rw [← World.owed_new segmentSize queueLen src]
    exact World.run_reads (World.sound_new segmentSize queueLen src) hw
  · obtain ⟨pre, hpre, hread⟩ := World.read_returns w k
    refine ⟨pre, hpre, ?_⟩
    rcases hpw : w.run pre with _ | ⟨os, w'⟩
    · simp [hpw] at hread
    rcases hst : w'.step (.read k) with _ | ⟨o, w''⟩
    · simp [hpw, hst] at hread
    simp [World.run_append, hw, hpw, World.run, hst]

/-- Three bytes, then a failure, read in segments of two: the read that reaches the failure
answers it although a byte is buffered, and the next read answers that byte. -/
theorem reads_answer_failure_once :
    let src : Source := [.data [1, 2, 3], .fail ⟨.other, some "boom"⟩]
    let evs : List Event := [.start, .produce, .read 1, .produce, .read 4, .read 4]
    let reps : List (Option (Except IoError (List UInt8))) :=
      [none, none, some (.ok [1]), none, some (.error ⟨.other, some "boom"⟩), some (.ok [2])]
    ((World.new 2 1 src).run evs).map Prod.fst = some reps ∧
      reps.filterMap id = answers (Source.delivered (Reader.segmentLen 2) src).1
          (Source.delivered (Reader.segmentLen 2) src).2 (readSizes evs) ∧
        ∀ k, ∃ pre : List Event, (∀ e ∈ pre, e = .start ∨ e = .produce) ∧
          ((World.new 2 1 src).run (evs ++ pre ++ [.read k])).isSome = true :=
  have hrun : ((World.new 2 1 [.data [1, 2, 3], .fail ⟨.other, some "boom"⟩]).run
      [.start, .produce, .read 1, .produce, .read 4, .read 4]).map Prod.fst =
      some [none, none, some (.ok [1]), none, some (.error ⟨.other, some "boom"⟩),
        some (.ok [2])] := by
    have hseg : Source.segments (Reader.segmentLen 2) [.data [1, 2, 3], .fail ⟨.other, some "boom"⟩] =
        [⟨[1, 2], none⟩, ⟨[3], some (.failed ⟨.other, some "boom"⟩)⟩] := by
      simp [Reader.segmentLen, Source.segments, Source.segmentsFor, Source.readFull,
        Source.fillFrom, Source.read, Source.weight, Chunk.weight]
    simp only [World.new, hseg]
    rfl
  ⟨hrun, reads_answer_every_schedule hrun⟩

end Plumbing.Prefetch
