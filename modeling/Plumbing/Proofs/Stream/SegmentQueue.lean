import Plumbing.Stream.SegmentQueue

/-!
# Segment queues are byte FIFOs

A segment queue is read as the byte list `toBytes`. That reading is exact when the queue is
`Valid`: its count is the length of `toBytes`, and its offset lies within the front segment.
The empty queue is valid and `push` and `readInto` keep queues valid; on a valid queue `push`
appends its segment to the bytes (`toBytes_push`), and `readInto k` answers the first `k` bytes
(`readInto_fst`) and keeps the rest (`toBytes_readInto`).
-/

namespace Plumbing.Stream.SegmentQueue

/-- The length of the front segment; 0 when there is none. -/
def frontLen (segs : List (List UInt8)) : Nat := (segs.head?.map List.length).getD 0

/-- A queue whose count and offset agree with its segments. -/
structure Valid (q : SegmentQueue) : Prop where
  len_eq : q.len = q.toBytes.length
  offset_le : q.offset ≤ frontLen q.segments

@[simp] theorem toBytes_empty : empty.toBytes = [] := rfl

theorem valid_empty : empty.Valid := ⟨rfl, Nat.le_refl 0⟩

theorem flatten_drop_of_le {front : List UInt8} {rest : List (List UInt8)} {offset : Nat}
    (h : offset ≤ front.length) :
    (front :: rest).flatten.drop offset = front.drop offset ++ rest.flatten := by
  rw [List.flatten_cons, List.drop_append_of_le_length h]

theorem offset_le_length_flatten {segs : List (List UInt8)} {offset : Nat}
    (h : offset ≤ frontLen segs) : offset ≤ segs.flatten.length := by
  cases segs with
  | nil => simpa [frontLen] using h
  | cons front rest =>
    simp only [frontLen, List.head?_cons, Option.map_some, Option.getD_some] at h
    simp only [List.flatten_cons, List.length_append]
    omega

theorem toBytes_push {q : SegmentQueue} (hq : q.Valid) (seg : List UInt8) :
    (q.push seg).toBytes = q.toBytes ++ seg := by
  simp only [toBytes, push, List.flatten_append, List.flatten_cons, List.flatten_nil,
    List.append_nil]
  exact List.drop_append_of_le_length (offset_le_length_flatten hq.offset_le)

theorem Valid.push {q : SegmentQueue} (hq : q.Valid) (seg : List UInt8) : (q.push seg).Valid where
  len_eq := by
    rw [toBytes_push hq, List.length_append, ← hq.len_eq]
    rfl
  offset_le := by
    have h := hq.offset_le
    cases hs : q.segments with
    | nil =>
      rw [hs] at h
      simp only [SegmentQueue.push, hs, frontLen, List.nil_append, List.head?_cons,
        Option.map_some, Option.getD_some]
      simp only [frontLen, List.head?_nil, Option.map_none, Option.getD_none] at h
      omega
    | cons front rest =>
      rw [hs] at h
      simpa [SegmentQueue.push, hs, frontLen] using h

/-- The loop of `readInto`, from `offset` bytes into the front segment with room for `room`
bytes: it adds the first `room` bytes after the offset to what it has copied, and leaves the
others, its new offset again within the front segment. -/
theorem takeFrom_spec (segs : List (List UInt8)) (offset room : Nat) (acc : List (List UInt8))
    (h : offset ≤ frontLen segs) :
    (takeFrom segs offset room acc).1.reverse.flatten =
        acc.reverse.flatten ++ (segs.flatten.drop offset).take room ∧
      (takeFrom segs offset room acc).2.1.flatten.drop (takeFrom segs offset room acc).2.2 =
        (segs.flatten.drop offset).drop room ∧
      (takeFrom segs offset room acc).2.2 ≤ frontLen (takeFrom segs offset room acc).2.1 := by
  induction segs generalizing offset room acc with
  | nil => simp [takeFrom, frontLen]
  | cons front rest ih =>
    simp only [frontLen, List.head?_cons, Option.map_some, Option.getD_some] at h
    rw [flatten_drop_of_le h]
    simp only [takeFrom]
    split
    · -- the room ends inside the front segment, which stays with a larger offset
      rename_i hlt
      have hroom : room < (front.drop offset).length := by omega
      have hmin : min (front.drop offset).length room = room := by omega
      rw [hmin]
      refine ⟨?_, ?_, ?_⟩
      · rw [List.take_append_of_le_length (Nat.le_of_lt hroom)]
        simp
      · rw [← List.drop_drop, flatten_drop_of_le h,
          List.drop_append_of_le_length (Nat.le_of_lt hroom)]
      · simp only [frontLen, List.head?_cons, Option.map_some, Option.getD_some]
        simp only [List.length_drop] at hroom
        omega
    · -- the front segment is copied to its end and the loop goes on with the rest
      rename_i hge
      have hmin : min (front.drop offset).length room = (front.drop offset).length := by omega
      rw [hmin]
      obtain ⟨h1, h2, h3⟩ := ih 0 (room - (front.drop offset).length)
        (front.drop offset :: acc) (Nat.zero_le _)
      have hle : (front.drop offset).length ≤ room := by omega
      refine ⟨?_, ?_, h3⟩
      · rw [h1, List.take_append, List.take_of_length_le (l := front.drop offset) hle]
        simp
      · rw [h2, List.drop_append, List.drop_of_length_le (l := front.drop offset) hle]
        simp

theorem readInto_fst {q : SegmentQueue} (hq : q.Valid) (k : Nat) :
    (q.readInto k).1 = q.toBytes.take k := by
  simpa [readInto, toBytes] using (takeFrom_spec q.segments q.offset k [] hq.offset_le).1

theorem toBytes_readInto {q : SegmentQueue} (hq : q.Valid) (k : Nat) :
    (q.readInto k).2.toBytes = q.toBytes.drop k := by
  simpa [readInto, toBytes] using (takeFrom_spec q.segments q.offset k [] hq.offset_le).2.1

theorem Valid.readInto {q : SegmentQueue} (hq : q.Valid) (k : Nat) : (q.readInto k).2.Valid where
  len_eq := by
    rw [toBytes_readInto hq, List.length_drop]
    have hfst := readInto_fst hq k
    simp only [SegmentQueue.readInto] at hfst ⊢
    rw [hfst, List.length_take, hq.len_eq]
    omega
  offset_le := by
    simpa [SegmentQueue.readInto] using (takeFrom_spec q.segments q.offset k [] hq.offset_le).2.2

theorem isEmpty_iff {q : SegmentQueue} (hq : q.Valid) : q.isEmpty = true ↔ q.toBytes = [] := by
  simp [isEmpty, hq.len_eq]

end Plumbing.Stream.SegmentQueue
