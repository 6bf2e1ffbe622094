import Plumbing.Proofs.Stream.SegmentQueue

/-!
# Segment queues refine byte FIFOs

A segment queue is read as its value `toBytes`, the bytes of its segments after the offset. A
byte FIFO answers a push by appending, a read of `k` bytes with its first `k` bytes (dropping
them), and a clear by emptying (`Op.onBytes`). From every valid queue, every sequence of these
operations answers as the FIFO of the queue's value does, and leaves a valid queue whose count is
the length of its value (`segmentQueue_refines_fifo`).

A read hands back the segments it drops (`readRelease`), and does what the same read without
the hand-back does (`readInto_eq_readRelease`). What one read does is `ReadsFifo`: besides
copying the first bytes of the value, it leaves the front segment with a byte still to read, and
hands back the first segments, exactly those whose bytes not yet read all lie within the bytes
copied; an empty segment goes back with the read that reaches it. So along a run the segments
handed back are those pushed, in push order and each at most once, and with no clear in between
every segment pushed is either handed back or still queued.
-/

namespace Plumbing.Stream.SegmentQueue

/-! ## The read loop and what it hands back -/

/-- The loop with the hand-back copies and leaves what the loop without it does. -/
theorem takeRelease_eq (segs : List (List UInt8)) (offset room : Nat)
    (acc done : List (List UInt8)) :
    ((takeRelease segs offset room acc done).1, (takeRelease segs offset room acc done).2.2) =
      takeFrom segs offset room acc := by
  induction segs generalizing offset room acc done with
  | nil => rfl
  | cons front rest ih =>
    simp only [takeRelease, takeFrom]
    split
    · rfl
    · exact ih ..

/-- The loop leaves an offset inside its front segment: that segment has a byte still to read. -/
theorem takeFrom_offset_lt (segs : List (List UInt8)) (offset room : Nat)
    (acc : List (List UInt8)) :
    ∀ f ∈ (takeFrom segs offset room acc).2.1.head?,
      (takeFrom segs offset room acc).2.2 < f.length := by
  induction segs generalizing offset room acc with
  | nil => simp [takeFrom]
  | cons front rest ih =>
    simp only [takeFrom]
    split
    · rename_i hlt
      intro f hf
      simp only [List.head?_cons, Option.mem_def, Option.some.injEq] at hf
      subst hf
      show offset + min (front.drop offset).length room < front.length
      simp only [List.length_drop] at hlt ⊢
      omega
    · exact ih _ _ _

/-- The loop hands back the segments it leaves the front with, in order: the first ones, exactly
those whose bytes after the offset all fit in the room. -/
theorem takeRelease_done (segs : List (List UInt8)) (offset room : Nat)
    (acc done : List (List UInt8)) :
    ∃ rel : List (List UInt8),
      (takeRelease segs offset room acc done).2.1 = rel.reverse ++ done ∧
      rel ++ (takeRelease segs offset room acc done).2.2.1 = segs ∧
      (offset ≤ frontLen segs → rel.flatten.length ≤ offset + room ∧
        ∀ f ∈ (takeRelease segs offset room acc done).2.2.1.head?,
          offset + room < rel.flatten.length + f.length) := by
  induction segs generalizing offset room acc done with
  | nil => exact ⟨[], rfl, rfl, fun _ => ⟨Nat.zero_le _, by simp [takeRelease]⟩⟩
  | cons front rest ih =>
    simp only [takeRelease]
    split
    · -- the room ends inside the front segment: nothing goes back
      rename_i hlt
      refine ⟨[], rfl, rfl, fun _ => ⟨Nat.zero_le _, ?_⟩⟩
      intro f hf
      simp only [List.head?_cons, Option.mem_def, Option.some.injEq] at hf
      subst hf
      simp only [List.length_drop] at hlt
      simp only [List.flatten_nil, List.length_nil, Nat.zero_add]
      omega
    · -- the front segment is copied to its end and goes back first
      rename_i hge
      obtain ⟨rel, hdone, hrest, hfit⟩ :=
        ih 0 (room - min (front.drop offset).length room) ((front.drop offset) :: acc)
          (front :: done)
      refine ⟨front :: rel,
        by rw [hdone, List.reverse_cons, List.append_assoc, List.singleton_append],
        by rw [List.cons_append, hrest], fun hoff => ?_⟩
      simp only [frontLen, List.head?_cons, Option.map_some, Option.getD_some] at hoff
      obtain ⟨hle, hnext⟩ := hfit (Nat.zero_le _)
      refine ⟨?_, fun f hf => ?_⟩
      · simp only [List.length_drop] at hge hle
        simp only [List.flatten_cons, List.length_append]
        omega
      · have := hnext f hf
        simp only [List.length_drop] at hge this
        simp only [List.flatten_cons, List.length_append]
        omega

theorem readRelease_handsBack (q : SegmentQueue) (k : Nat) :
    (q.readRelease k).2.1 ++ (q.readRelease k).2.2.segments = q.segments := by
  obtain ⟨rel, hdone, hrest, -⟩ := takeRelease_done q.segments q.offset k [] []
  have hrel : (q.readRelease k).2.1 = rel := by simp [readRelease, hdone]
  rw [hrel, ← hrest]
  rfl

/-- A read without the hand-back is the read with it, the segments handed back forgotten. -/
theorem readInto_eq_readRelease (q : SegmentQueue) (k : Nat) :
    q.readInto k = ((q.readRelease k).1, (q.readRelease k).2.2) := by
  have h := takeRelease_eq q.segments q.offset k [] []
  simp only [readInto, readRelease, ← h]

/-! ## One read -/

/-- What reading `k` bytes from `q` does. -/
structure ReadsFifo (q : SegmentQueue) (k : Nat) : Prop where
  /-- It copies the first `k` bytes of the value, -/
  copies : (q.readRelease k).1 = q.toBytes.take k
  /-- `min k len` of them, -/
  count : (q.readRelease k).1.length = min k q.len
  /-- never more than the queue counts, which loses what was copied; -/
  len : (q.readRelease k).2.2.len + (q.readRelease k).1.length = q.len
  /-- and the value loses those bytes. -/
  drops : (q.readRelease k).2.2.toBytes = q.toBytes.drop k
  valid : (q.readRelease k).2.2.Valid
  /-- The front segment left still has a byte to read. -/
  unread : ∀ f ∈ (q.readRelease k).2.2.segments.head?,
    (q.readRelease k).2.2.offset < f.length
  /-- The segments handed back are the first ones, in order, -/
  handsBack : (q.readRelease k).2.1 ++ (q.readRelease k).2.2.segments = q.segments
  /-- each with all its bytes not yet read among those copied, -/
  finished : (q.readRelease k).2.1.flatten.length ≤ q.offset + k
  /-- and the first segment kept has a byte not yet read beyond them. -/
  unfinished : ∀ f ∈ (q.readRelease k).2.2.segments.head?,
    q.offset + k < (q.readRelease k).2.1.flatten.length + f.length

theorem readsFifo {q : SegmentQueue} (hq : q.Valid) (k : Nat) : ReadsFifo q k := by
  have hinto := readInto_eq_readRelease q k
  have hfst : (q.readRelease k).1 = q.toBytes.take k := by rw [← readInto_fst hq k, hinto]
  have hq' : (q.readRelease k).2.2 = (q.readInto k).2 := by rw [hinto]
  have hlen : (q.readRelease k).1.length = min k q.len := by
    rw [hfst, List.length_take, hq.len_eq]
  obtain ⟨rel, hdone, hrest, hfit⟩ := takeRelease_done q.segments q.offset k [] []
  have hrel : (q.readRelease k).2.1 = rel := by simp [readRelease, hdone]
  have hsegs : (q.readRelease k).2.2.segments = (takeRelease q.segments q.offset k [] []).2.2.1 :=
    rfl
  obtain ⟨hle, hnext⟩ := hfit hq.offset_le
  refine ⟨hfst, hlen, ?_, by rw [hq', toBytes_readInto hq], by rw [hq']; exact hq.readInto k,
    ?_, by rw [hrel, hsegs, hrest], by rw [hrel]; exact hle, by rw [hrel, hsegs]; exact hnext⟩
  · -- the count loses exactly the bytes copied, which it holds
    have hlq : (q.readRelease k).2.2.len = q.len - (q.readRelease k).1.length := rfl
    rw [hlq, hlen]
    omega
  · have := takeFrom_offset_lt q.segments q.offset k []
    rw [← takeRelease_eq q.segments q.offset k [] []] at this
    exact this

/-! ## Runs of operations -/

/-- An operation on a segment queue. -/
inductive Op
  | push (seg : List UInt8)
  /-- A read into a buffer of `k` bytes. -/
  | read (k : Nat)
  | clear
  deriving DecidableEq, Repr

/-- What an operation does to a byte FIFO holding `b`: what it answers, and the bytes after. -/
def Op.onBytes : Op → List UInt8 → List UInt8 × List UInt8
  | .push seg, b => ([], b ++ seg)
  | .read k, b => (b.take k, b.drop k)
  | .clear, _ => ([], [])

/-- Runs operations on a byte FIFO holding `b`: what each answers, and the bytes after. -/
def Op.runBytes (b : List UInt8) : List Op → List (List UInt8) × List UInt8
  | [] => ([], b)
  | op :: ops =>
    let (out, b') := op.onBytes b
    let (outs, b'') := Op.runBytes b' ops
    (out :: outs, b'')

/-- The segments pushed by operations, in order. -/
def pushedIn : List Op → List (List UInt8)
  | [] => []
  | .push seg :: ops => seg :: pushedIn ops
  | _ :: ops => pushedIn ops

/-- Applies an operation: the bytes it copies (none for a push or a clear), the segments it
hands back, and the queue after. A clear hands back nothing. -/
def apply (q : SegmentQueue) : Op → List UInt8 × List (List UInt8) × SegmentQueue
  | .push seg => ([], [], q.push seg)
  | .read k => q.readRelease k
  | .clear => ([], [], q.clear)

/-- Applies operations in turn: the bytes each copied, the segments handed back, oldest first,
and the queue after. -/
def runOps (q : SegmentQueue) : List Op → List (List UInt8) × List (List UInt8) × SegmentQueue
  | [] => ([], [], q)
  | op :: ops =>
    let (out, back, q') := q.apply op
    let (outs, backs, q'') := (q'.runOps ops)
    (out :: outs, back ++ backs, q'')

/-- Each operation answers as the FIFO of the queue's value does, and keeps the queue valid. -/
theorem apply_refines {q : SegmentQueue} (hq : q.Valid) (op : Op) :
    (q.apply op).1 = (op.onBytes q.toBytes).1 ∧
      (q.apply op).2.2.toBytes = (op.onBytes q.toBytes).2 ∧ (q.apply op).2.2.Valid := by
  cases op with
  | push seg => exact ⟨rfl, toBytes_push hq seg, hq.push seg⟩
  | read k =>
    have h := readsFifo hq k
    exact ⟨h.copies, h.drops, h.valid⟩
  | clear => exact ⟨rfl, rfl, valid_empty⟩

/-- What one operation hands back, followed by the segments it leaves, is what the queue held and
what it pushed; after a clear, nothing. -/
theorem apply_handsBack (q : SegmentQueue) (op : Op) :
    (q.apply op).2.1 ++ (q.apply op).2.2.segments =
      if op = .clear then [] else q.segments ++ pushedIn [op] := by
  cases op with
  | push seg => simp [apply, push, pushedIn]
  | read k =>
    simp only [apply, reduceCtorEq, ↓reduceIte, pushedIn, List.append_nil]
    exact readRelease_handsBack q k
  | clear => simp [apply, clear, empty]

theorem runOps_refines {q : SegmentQueue} (hq : q.Valid) (ops : List Op) :
    (q.runOps ops).1 = (Op.runBytes q.toBytes ops).1 ∧
      (q.runOps ops).2.2.toBytes = (Op.runBytes q.toBytes ops).2 ∧ (q.runOps ops).2.2.Valid := by
  induction ops generalizing q with
  | nil => exact ⟨rfl, rfl, hq⟩
  | cons op ops ih =>
    obtain ⟨hout, hbytes, hvalid⟩ := apply_refines hq op
    obtain ⟨houts, hbytes', hvalid'⟩ := ih hvalid
    simp only [runOps, Op.runBytes]
    rw [← hout, ← hbytes, ← houts, ← hbytes']
    exact ⟨rfl, rfl, hvalid'⟩

/-- Along a run, the segments handed back, followed by those left, are the segments held and
pushed, in order, less those a clear dropped: each is handed back at most once. With no clear,
none is dropped. -/
theorem runOps_handsBack (q : SegmentQueue) (ops : List Op) :
    ((q.runOps ops).2.1 ++ (q.runOps ops).2.2.segments).Sublist (q.segments ++ pushedIn ops) ∧
      ((∀ op ∈ ops, op ≠ .clear) →
        (q.runOps ops).2.1 ++ (q.runOps ops).2.2.segments = q.segments ++ pushedIn ops) := by
  induction ops generalizing q with
  | nil => exact ⟨by simp [runOps, pushedIn], fun _ => by simp [runOps, pushedIn]⟩
  | cons op ops ih =>
    obtain ⟨hsub, heq⟩ := ih (q.apply op).2.2
    have hstep := apply_handsBack q op
    have hrun : (q.runOps (op :: ops)).2.1 ++ (q.runOps (op :: ops)).2.2.segments =
        (q.apply op).2.1 ++ (((q.apply op).2.2.runOps ops).2.1 ++
          ((q.apply op).2.2.runOps ops).2.2.segments) := by
      simp only [runOps, List.append_assoc]
    rw [hrun]
    by_cases hc : op = .clear
    · -- a clear hands back nothing and leaves nothing
      subst hc
      rw [if_pos rfl, List.append_eq_nil_iff] at hstep
      obtain ⟨hback, hleft⟩ := hstep
      rw [hleft, List.nil_append] at hsub
      rw [hback, List.nil_append]
      exact ⟨hsub.trans (List.sublist_append_right _ _),
        fun hno => absurd rfl (hno .clear (List.mem_cons_self ..))⟩
    · -- any other step hands back a prefix of what it holds, and keeps the rest and its push
      rw [if_neg hc] at hstep
      have hpush : pushedIn (op :: ops) = pushedIn [op] ++ pushedIn ops := by
        cases op <;> rfl
      have key : (q.apply op).2.1 ++ ((q.apply op).2.2.segments ++ pushedIn ops) =
          q.segments ++ pushedIn (op :: ops) := by
        rw [← List.append_assoc, hstep, hpush, List.append_assoc]
      refine ⟨by rw [← key]; exact hsub.append_left _, fun hno => ?_⟩
      rw [heq fun o ho => hno o (List.mem_cons_of_mem _ ho), key]

/-- What a run of the operations `ops` from the queue `q` does. -/
structure RunsFifo (q : SegmentQueue) (ops : List Op) : Prop where
  /-- Each operation answers as the byte FIFO of the queue's value does, -/
  answers : (q.runOps ops).1 = (Op.runBytes q.toBytes ops).1
  /-- and the value after is the FIFO's. -/
  value : (q.runOps ops).2.2.toBytes = (Op.runBytes q.toBytes ops).2
  /-- The queue left counts the bytes of its value, its offset within its front segment. -/
  valid : (q.runOps ops).2.2.Valid
  /-- A read of it does what `ReadsFifo` says. -/
  reads : ∀ k, ReadsFifo (q.runOps ops).2.2 k
  /-- A clear of it hands nothing back and empties it. -/
  clears : (q.runOps ops).2.2.apply .clear = ([], [], empty)
  /-- The segments handed back are those held and pushed, in order and each at most once. -/
  handedBack :
    ((q.runOps ops).2.1 ++ (q.runOps ops).2.2.segments).Sublist (q.segments ++ pushedIn ops)
  /-- With no clear, all of them but those still queued. -/
  handedBackAll : (∀ op ∈ ops, op ≠ .clear) →
    (q.runOps ops).2.1 ++ (q.runOps ops).2.2.segments = q.segments ++ pushedIn ops

/-- **A segment queue is a byte FIFO.** From every valid queue, every sequence of pushes, reads
and clears does what `RunsFifo` says. -/
theorem segmentQueue_refines_fifo {q : SegmentQueue} (hq : q.Valid) (ops : List Op) :
    RunsFifo q ops := by
  obtain ⟨hout, hbytes, hvalid⟩ := runOps_refines hq ops
  obtain ⟨hsub, heq⟩ := runOps_handsBack q ops
  exact ⟨hout, hbytes, hvalid, readsFifo hvalid, rfl, hsub, heq⟩

/-- Ten bytes and three pushed to an empty queue, then read four at a time. -/
theorem segments_read_four_at_a_time :
    empty.Valid ∧
      RunsFifo empty [.push [48, 49, 50, 51, 52, 53, 54, 55, 56, 57], .push [97, 98, 99],
        .read 4, .read 4, .read 4, .read 4] :=
  ⟨valid_empty, segmentQueue_refines_fifo valid_empty _⟩

end Plumbing.Stream.SegmentQueue
