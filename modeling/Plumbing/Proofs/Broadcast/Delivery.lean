import Plumbing.Broadcast.Interleaving
import Plumbing.Proofs.Broadcast.Reader
import Plumbing.Proofs.Broadcast.Registrations
import Plumbing.Proofs.Stream.Outcome

/-!
# Every open reader receives the whole stream

Take a broadcast of a scripted source, its readers registered before it started, and let its
threads take their steps in any order, the abort signal never raised. A reader that is never
closed nor dropped receives exactly the bytes the source delivers before its end, whatever its
read sizes and whatever the other readers do; once it has them all, every read answers the end:
no bytes after the end of data, the broadcast's own failure after a failure
(`reads_deliver_source`).

The proof is an invariant of one reader `R` along a run (`Owes`). What `R` has still to read,
`D`, is what it holds or has queued, followed by what the broadcasting thread will still hand
it (`World.owed`): the segment being filled, the segment being offered unless `R` already got
it, and the rest of the source. The broadcasting thread holds `R`'s registration until it lets
it go after filling `R`'s slot with the broadcast's end; from then on `D` is in `R`'s hands.
Every step keeps the invariant (`Owes.step`), and a read of `R` answers the front of `D`.
-/

namespace Plumbing.Broadcast

open Plumbing.Stream

/-- The result of a broadcast whose source ended with the failure `e`, if any, and which nothing
aborted. -/
def broadcastResult : Option IoError → Except Error Unit
  | none => .ok ()
  | some e => .error (Error.io .broadcast e)

/-- The terminal a broadcast that ended with `fin` leaves in its readers' slots. -/
def finalTerminal : Except Error Unit → Terminal
  | .ok () => .eof
  | .error e => .failed e

/-- What a read of `k` bytes answers a reader still to receive `data` and then the end `fin`:
the next bytes, and once there are none the end, no bytes or the failure. -/
def streamRead (data : List UInt8) (fin : Except Error Unit) (k : Nat) :
    Except Error (List UInt8) :=
  if data.isEmpty then fin.map fun _ => [] else .ok (data.take k)

/-- What reads of the given sizes answer a reader still to receive `data` and then `fin`. -/
def streamReads (data : List UInt8) (fin : Except Error Unit) :
    List Nat → List (Except Error (List UInt8))
  | [] => []
  | k :: ks => streamRead data fin k :: streamReads (data.drop k) fin ks

namespace World

/-- The bytes of the source still to be offered after a full read that ended with `ending`. -/
def bytesAfter (ending : Option End) (src : Source) : List UInt8 :=
  match ending with
  | none => (Source.outcome src).1
  | some _ => []

/-- The result the broadcast ends with after a full read that ended with `ending`. -/
def resultAfter (ending : Option End) (src : Source) : Except Error Unit :=
  match ending with
  | none => broadcastResult (Source.outcome src).2
  | some .eof => .ok ()
  | some (.failed e) => .error (Error.io .broadcast e)

/-- The bytes the broadcasting thread will still hand to reader `R`. -/
def owed (w : World) (R : Nat) : List UInt8 :=
  match w.phase with
  | .top => (Source.outcome w.source).1
  | .filling acc => acc ++ (Source.outcome w.source).1
  | .offering seg ending i =>
    (if R ∈ w.hub.registrations.take i then [] else seg) ++ bytesAfter ending w.source
  | _ => []

/-- The broadcasting thread holds `R`'s registration, once, and will end with `fin`. -/
def Holds (w : World) (R : Nat) (fin : Except Error Unit) : Prop :=
  match w.phase with
  | .top | .filling _ =>
    R ∈ w.hub.registrations ∧ w.hub.registrations.Nodup ∧ resultAfter none w.source = fin
  | .offering _ ending _ =>
    R ∈ w.hub.registrations ∧ w.hub.registrations.Nodup ∧ resultAfter ending w.source = fin
  | .releasing result rest => R ∈ rest ∧ rest.Nodup ∧ result = fin
  | _ => False

/-- The broadcasting thread let go of `R`, and the broadcast ends, or ended, with `fin`. -/
def LetGo (w : World) (R : Nat) (fin : Except Error Unit) : Prop :=
  match w.phase with
  | .releasing result rest => R ∉ rest ∧ result = fin
  | .returned result => result = fin
  | .gone => True
  | _ => False

end World

/-- Reader `r` ends with `fin` once it read `D`: the end waits in its slot, or the reader
settled on it and has nothing left. -/
def Settles (r : Reader) (D : List UInt8) (fin : Except Error Unit) : Prop :=
  (r.slot = [finalTerminal fin] ∧ r.last = none) ∨
    (r.slot = [] ∧ r.last = some (finalTerminal fin) ∧ D = [])

/-- Reader `r`, at `R` in `w`, is open and still to read `D` and then `fin`: with its
registration held, from its own bytes and what the broadcasting thread owes it; once let go,
from its own bytes, the end in its slot. -/
structure ReaderOwes (w : World) (R : Nat) (r : Reader) (D : List UInt8)
    (fin : Except Error Unit) : Prop where
  detached : r.detached = false
  dropped : r.dropped = false
  valid : r.buffer.Valid
  linked : r.registered = true →
    r.slot = [] ∧ r.last = none ∧ w.Holds R fin ∧ D = r.pending ++ w.owed R
  unlinked : r.registered = false → w.LetGo R fin ∧ D = r.pending ∧ Settles r D fin

/-- The invariant of reader `R` along a broadcast that no abort stops. -/
structure Owes (w : World) (R : Nat) (D : List UInt8) (fin : Except Error Unit) : Prop where
  not_aborted : w.hub.aborted = false
  finished : w.hub.finished = true
  ends : Hub.terminalOf fin = some (finalTerminal fin)
  reader : ∃ r, w.hub.reader? R = some r ∧ ReaderOwes w R r D fin

/-! ## Steps that leave `R` and the broadcasting thread alone -/

theorem Hub.reader?_modify_ne (h : Hub) {i R : Nat} (hne : i ≠ R) (f : Reader → Reader) :
    (h.modify i f).reader? R = h.reader? R := by
  simp [Hub.modify, Hub.reader?, Array.getElem?_modify, hne]

theorem Hub.reader?_modify_self (h : Hub) (R : Nat) (f : Reader → Reader) :
    (h.modify R f).reader? R = (h.reader? R).map f := by
  simp [Hub.modify, Hub.reader?, Array.getElem?_modify]

/-- A step that leaves `R`'s reader and the flags alone keeps the invariant when it keeps what
the broadcasting thread owes `R`, and keeps its having let go of `R`. -/
theorem Owes.broadcaster {w w' : World} {R : Nat} {D : List UInt8} {fin : Except Error Unit}
    (h : Owes w R D fin) (hR : w'.hub.reader? R = w.hub.reader? R)
    (hab : w'.hub.aborted = w.hub.aborted) (hfin : w'.hub.finished = w.hub.finished)
    (hlinked : w.Holds R fin → w'.Holds R fin ∧ w'.owed R = w.owed R)
    (hunlinked : w.LetGo R fin → w'.LetGo R fin) : Owes w' R D fin := by
  obtain ⟨hab0, hfin0, hends, r, hr, hro⟩ := h
  refine ⟨hab ▸ hab0, hfin ▸ hfin0, hends, r, hR ▸ hr, hro.detached, hro.dropped, hro.valid, ?_, ?_⟩
  · intro hreg
    obtain ⟨hslot, hlast, hholds, hD⟩ := hro.linked hreg
    obtain ⟨hholds', howed⟩ := hlinked hholds
    refine ⟨hslot, hlast, hholds', ?_⟩
    rw [howed]
    exact hD
  · intro hreg
    obtain ⟨hletgo, hD, hset⟩ := hro.unlinked hreg
    exact ⟨hunlinked hletgo, hD, hset⟩

/-- The invariant depends on the world only through `R`'s reader, the flags, the phase, the
registrations and the source. -/
theorem Owes.frame {w w' : World} {R : Nat} {D : List UInt8} {fin : Except Error Unit}
    (h : Owes w R D fin) (hR : w'.hub.reader? R = w.hub.reader? R)
    (hab : w'.hub.aborted = w.hub.aborted) (hfin : w'.hub.finished = w.hub.finished)
    (hphase : w'.phase = w.phase) (hregs : w'.hub.registrations = w.hub.registrations)
    (hsrc : w'.source = w.source) : Owes w' R D fin := by
  refine h.broadcaster hR hab hfin (fun hh => ⟨?_, ?_⟩) (fun hl => ?_)
  · simpa only [World.Holds, hphase, hregs, hsrc] using hh
  · simp only [World.owed, hphase, hregs, hsrc]
  · simpa only [World.LetGo, hphase] using hl

theorem Owes.modify_other {w : World} {R i : Nat} {D : List UInt8} {fin : Except Error Unit}
    (h : Owes w R D fin) (hne : i ≠ R) (f : Reader → Reader) :
    Owes { w with hub := w.hub.modify i f } R D fin :=
  h.frame (Hub.reader?_modify_ne w.hub hne f) rfl rfl rfl rfl rfl

theorem Owes.holds {w : World} {R : Nat} {D : List UInt8} {fin : Except Error Unit}
    (h : Owes w R D fin) (hunl : ¬ w.LetGo R fin) : w.Holds R fin := by
  obtain ⟨-, -, -, r, -, hro⟩ := h
  cases hreg : r.registered
  · exact absurd (hro.unlinked hreg).1 hunl
  · exact (hro.linked hreg).2.2.1

/-! ## The broadcasting thread's steps -/

namespace World

@[simp] theorem stop_readers (w : World) (res : Except Error Unit) :
    (w.stop res).hub.readers = w.hub.readers := rfl
@[simp] theorem stop_aborted (w : World) (res : Except Error Unit) :
    (w.stop res).hub.aborted = w.hub.aborted := rfl
@[simp] theorem stop_finished (w : World) (res : Except Error Unit) :
    (w.stop res).hub.finished = w.hub.finished := rfl
@[simp] theorem stop_phase (w : World) (res : Except Error Unit) :
    (w.stop res).phase = .releasing res w.hub.registrations := rfl

theorem afterSegment_hub (w : World) (ending : Option End) :
    (w.afterSegment ending).hub.readers = w.hub.readers ∧
      (w.afterSegment ending).hub.aborted = w.hub.aborted ∧
      (w.afterSegment ending).hub.finished = w.hub.finished := by
  rcases ending with _ | _ | e <;> exact ⟨rfl, rfl, rfl⟩

/-- After a segment went to every registration, the broadcasting thread owes `R` the rest of
the source, and goes on holding its registration. -/
theorem afterSegment_holds {w : World} {R : Nat} {fin : Except Error Unit} {ending : Option End}
    (hR : R ∈ w.hub.registrations) (hnd : w.hub.registrations.Nodup)
    (hres : resultAfter ending w.source = fin) :
    (w.afterSegment ending).Holds R fin ∧
      (w.afterSegment ending).owed R = bytesAfter ending w.source := by
  rcases ending with _ | _ | e
  · exact ⟨⟨hR, hnd, hres⟩, rfl⟩
  · exact ⟨⟨hR, hnd, hres⟩, rfl⟩
  · exact ⟨⟨hR, hnd, hres⟩, rfl⟩

theorem endFill_of_ne_nil (w : World) {acc : List UInt8} (h : acc ≠ []) (ending : Option End) :
    w.endFill acc ending = { w with phase := .offering acc ending 0 } := by
  simp [endFill, List.isEmpty_iff, h]

theorem endFill_nil (w : World) (ending : Option End) :
    w.endFill [] ending = w.afterSegment ending := rfl

/-- A full read that ends the segment with `acc` keeps `R`'s registration held, owing it `acc`
and then the bytes after the read. -/
theorem endFill_holds {w : World} {R : Nat} {fin : Except Error Unit} {acc : List UInt8}
    {ending : Option End} (hR : R ∈ w.hub.registrations) (hnd : w.hub.registrations.Nodup)
    (hres : resultAfter ending w.source = fin) :
    (w.endFill acc ending).Holds R fin ∧
      (w.endFill acc ending).owed R = acc ++ bytesAfter ending w.source := by
  by_cases hacc : acc = []
  · subst hacc
    exact afterSegment_holds hR hnd hres
  · rw [endFill_of_ne_nil w hacc]
    exact ⟨⟨hR, hnd, hres⟩, by simp [owed]⟩

theorem endFill_hub (w : World) (acc : List UInt8) (ending : Option End) :
    (w.endFill acc ending).hub.readers = w.hub.readers ∧
      (w.endFill acc ending).hub.aborted = w.hub.aborted ∧
      (w.endFill acc ending).hub.finished = w.hub.finished := by
  by_cases hacc : acc = []
  · subst hacc
    exact afterSegment_hub w ending
  · rw [endFill_of_ne_nil w hacc]
    exact ⟨rfl, rfl, rfl⟩

end World

theorem Owes.advance_top {w w' : World} {R : Nat} {D : List UInt8} {fin : Except Error Unit}
    {rep : Report} (h : Owes w R D fin) (hp : w.phase = .top)
    (hs : w.advance = some (rep, w')) : Owes w' R D fin ∧ rep = .quiet := by
  simp only [World.advance, hp, h.not_aborted, Bool.false_eq_true, ↓reduceIte, Option.some.injEq,
    Prod.mk.injEq] at hs
  obtain ⟨rfl, rfl⟩ := hs
  refine ⟨h.broadcaster rfl rfl rfl (fun hh => ?_) (fun hl => ?_), rfl⟩
  · simp only [World.Holds, World.owed, hp] at hh ⊢
    exact ⟨hh, by simp⟩
  · simp [World.LetGo, hp] at hl

/-- A read into the segment being filled moves bytes from the source's outcome into the segment,
or ends the segment at the source's end. -/
theorem Owes.advance_filling {w w' : World} {R : Nat} {D : List UInt8} {fin : Except Error Unit}
    {rep : Report} {acc : List UInt8} (h : Owes w R D fin) (hp : w.phase = .filling acc)
    (hs : w.advance = some (rep, w')) : Owes w' R D fin ∧ rep = .quiet := by
  have hout := Source.outcome_read (w.hub.segmentLen - acc.length) w.source
  have hunl : ¬ w.LetGo R fin := by simp [World.LetGo, hp]
  -- a read that keeps filling only moves bytes, or nothing, from the outcome to the segment
  have keep : ∀ src acc', (Source.outcome src).2 = (Source.outcome w.source).2 →
      acc' ++ (Source.outcome src).1 = acc ++ (Source.outcome w.source).1 →
      Owes { w with source := src, phase := .filling acc' } R D fin := by
    intro src acc' h2 h1
    refine h.broadcaster rfl rfl rfl (fun hh => ?_) (fun hl => absurd hl hunl)
    simp only [World.Holds, World.owed, World.resultAfter, hp] at hh ⊢
    rw [h2, h1]
    exact ⟨hh, rfl⟩
  -- a read that ends the segment leaves the broadcasting thread owing its bytes and the rest
  have fill : ∀ src acc' ending, World.resultAfter ending src = fin →
      acc' ++ World.bytesAfter ending src = acc ++ (Source.outcome w.source).1 →
      Owes ({ w with source := src }.endFill acc' ending) R D fin := by
    intro src acc' ending hres hbytes
    obtain ⟨hr1, hr2, hr3⟩ := World.endFill_hub { w with source := src } acc' ending
    refine h.broadcaster (by simp [Hub.reader?, hr1]) hr2 hr3 (fun hh => ?_) (fun hl => absurd hl hunl)
    simp only [World.Holds, hp] at hh
    obtain ⟨hR, hnd, -⟩ := hh
    obtain ⟨hh', howed⟩ := World.endFill_holds (w := { w with source := src }) hR hnd hres
    refine ⟨hh', ?_⟩
    rw [howed, hbytes]
    simp [World.owed, hp]
  have hfin : World.resultAfter none w.source = fin := by
    have hh := h.holds hunl
    simp only [World.Holds, hp] at hh
    exact hh.2.2
  simp only [World.advance, hp] at hs
  split at hs
  · rename_i b src heq
    rw [heq] at hout
    split at hs
    · simp only [Option.some.injEq, Prod.mk.injEq] at hs
      obtain ⟨rfl, rfl⟩ := hs
      exact ⟨keep src (acc ++ b) (by rw [hout]; rfl) (by rw [hout]; simp [Yield.outcomeBefore]), rfl⟩
    · simp only [Option.some.injEq, Prod.mk.injEq] at hs
      obtain ⟨rfl, rfl⟩ := hs
      refine ⟨fill src (acc ++ b) none ?_ ?_, rfl⟩
      · rw [← hfin]
        simp [World.resultAfter, hout, Yield.outcomeBefore]
      · simp [World.bytesAfter, hout, Yield.outcomeBefore]
  · rename_i src heq
    rw [heq] at hout
    simp only [Option.some.injEq, Prod.mk.injEq] at hs
    obtain ⟨rfl, rfl⟩ := hs
    refine ⟨fill src acc (some .eof) ?_ ?_, rfl⟩
    · rw [← hfin]
      simp [World.resultAfter, hout, Yield.outcomeBefore, broadcastResult]
    · simp [World.bytesAfter, hout, Yield.outcomeBefore]
  · rename_i src heq
    rw [heq] at hout
    simp only [Option.some.injEq, Prod.mk.injEq] at hs
    obtain ⟨rfl, rfl⟩ := hs
    exact ⟨keep src acc (by rw [hout]; rfl) (by rw [hout]; rfl), rfl⟩
  · rename_i src heq
    rw [heq] at hout
    simp only [Option.some.injEq, Prod.mk.injEq] at hs
    obtain ⟨rfl, rfl⟩ := hs
    exact ⟨keep src acc (by rw [hout]; rfl) (by rw [hout]; rfl), rfl⟩
  · rename_i e src heq
    rw [heq] at hout
    simp only [Option.some.injEq, Prod.mk.injEq] at hs
    obtain ⟨rfl, rfl⟩ := hs
    refine ⟨fill src acc (some (.failed e)) ?_ ?_, rfl⟩
    · rw [← hfin]
      simp [World.resultAfter, hout, Yield.outcomeBefore, broadcastResult]
    · simp [World.bytesAfter, hout, Yield.outcomeBefore]

/-- An offer of the segment to one registration: `R` gets it when its turn comes, another
reader gets it or has its registration removed, and after the last registration the
broadcasting thread goes on with the rest of the source. -/
theorem Owes.advance_offering {w w' : World} {R : Nat} {D : List UInt8} {fin : Except Error Unit}
    {rep : Report} {seg : List UInt8} {ending : Option End} {i : Nat} (h : Owes w R D fin)
    (hp : w.phase = .offering seg ending i) (hs : w.advance = some (rep, w')) :
    Owes w' R D fin ∧ rep = .quiet := by
  have hunl : ¬ w.LetGo R fin := by simp [World.LetGo, hp]
  have hh := h.holds hunl
  simp only [World.Holds, hp] at hh
  obtain ⟨hR, hnd, hres⟩ := hh
  simp only [World.advance, hp] at hs
  split at hs
  · rename_i hi
    split at hs
    · rename_i hab
      exact absurd hab (by simp [h.not_aborted])
    split at hs
    · exact absurd hs (by simp)
    · rename_i r' hr'
      split at hs
      · -- a detached registration goes; `R`, not detached, is another one
        rename_i hdet
        simp only [Option.some.injEq, Prod.mk.injEq] at hs
        obtain ⟨rfl, rfl⟩ := hs
        have hne : w.hub.registrations[i] ≠ R := by
          rintro heq
          obtain ⟨-, -, -, r, hr, hro⟩ := h
          rw [heq, hr] at hr'
          cases hr'
          simp [hro.detached, hro.dropped] at hdet
        obtain ⟨hmem, htake⟩ := mem_swapRemoveFront hi hne
        refine ⟨h.broadcaster rfl rfl rfl (fun _ => ?_) (fun hl => absurd hl hunl), rfl⟩
        simp only [World.Holds, World.owed, hp]
        exact ⟨⟨hmem.2 hR, nodup_swapRemoveFront hnd hi, hres⟩, by simp only [htake]⟩
      · simp only [Option.some.injEq, Prod.mk.injEq] at hs
        obtain ⟨rfl, rfl⟩ := hs
        have hregs : (w.hub.enqueue w.hub.registrations[i] seg).registrations =
            w.hub.registrations := rfl
        by_cases hid : w.hub.registrations[i] = R
        · -- `R`'s turn: the segment moves from what is owed to `R`'s queue
          have hnot : R ∉ w.hub.registrations.take i := hid ▸ getElem_not_mem_take hnd hi
          have hin : R ∈ w.hub.registrations.take (i + 1) := (mem_take_succ_iff hi).2 (.inr hid)
          obtain ⟨hab, hfin, hends, r, hr, hro⟩ := h
          refine ⟨⟨hab, hfin, hends, { r with queue := r.queue ++ [seg] }, ?_, hro.detached,
            hro.dropped, hro.valid, fun hreg => ?_, fun hreg => ?_⟩, rfl⟩
          · simp only [hid, Hub.enqueue, Hub.reader?_modify_self, hr, Option.map_some]
          · obtain ⟨hslot, hlast, -, hD⟩ := hro.linked hreg
            refine ⟨hslot, hlast, ⟨hR, hnd, hres⟩, ?_⟩
            simp only [World.owed, hp, hnot, ↓reduceIte] at hD
            simp only [World.owed, hregs, hin, ↓reduceIte, hD, Reader.pending,
              List.flatten_append, List.flatten_cons, List.flatten_nil, List.append_nil,
              List.nil_append, List.append_assoc]
          · exact absurd (hro.unlinked hreg).1 hunl
        · -- another reader's turn
          have htake : R ∈ w.hub.registrations.take (i + 1) ↔ R ∈ w.hub.registrations.take i := by
            rw [mem_take_succ_iff hi]
            exact ⟨fun h => h.resolve_right hid, .inl⟩
          refine ⟨h.broadcaster (Hub.reader?_modify_ne w.hub hid _) rfl rfl (fun _ => ?_)
            (fun hl => absurd hl hunl), rfl⟩
          simp only [World.Holds, World.owed, hp, hregs]
          exact ⟨⟨hR, hnd, hres⟩, by simp only [htake]⟩
  · -- every registration had its offer
    rename_i hi
    simp only [Option.some.injEq, Prod.mk.injEq] at hs
    obtain ⟨rfl, rfl⟩ := hs
    have hall : R ∈ w.hub.registrations.take i := by
      rw [List.take_of_length_le (by omega)]
      exact hR
    obtain ⟨hr1, hr2, hr3⟩ := World.afterSegment_hub w ending
    refine ⟨h.broadcaster (by simp [Hub.reader?, hr1]) hr2 hr3 (fun _ => ?_)
      (fun hl => absurd hl hunl), rfl⟩
    obtain ⟨hh', howed⟩ := World.afterSegment_holds hR hnd hres
    refine ⟨hh', ?_⟩
    rw [howed]
    simp [World.owed, hp, hall]

theorem Reader.release_of_slot_nil {r : Reader} (h : r.slot = []) (t : Terminal) :
    Reader.release (some t) r = { r with slot := [t], registered := false } := by
  simp [Reader.release, Reader.offer, slotLen, h]

/-- Letting go of `R`'s registration leaves the end in its empty slot: its reader then reads
what it has and the end. -/
theorem ReaderOwes.release {w w' : World} {R : Nat} {r : Reader} {D : List UInt8}
    {fin : Except Error Unit} {rest : List Nat} (hro : ReaderOwes w R r D fin)
    (hends : Hub.terminalOf fin = some (finalTerminal fin)) (hreg : r.registered = true)
    (hp : w.phase = .releasing fin (R :: rest)) (hp' : w'.phase = .releasing fin rest) :
    ReaderOwes w' R (Reader.release (Hub.terminalOf fin) r) D fin := by
  obtain ⟨hslot, hlast, hholds, hD⟩ := hro.linked hreg
  simp only [World.Holds, hp, List.mem_cons, true_or, List.nodup_cons, true_and] at hholds
  rw [hends, Reader.release_of_slot_nil hslot]
  refine ⟨hro.detached, hro.dropped, hro.valid, fun h => by simp at h, fun _ => ?_⟩
  refine ⟨?_, ?_, .inl ⟨rfl, hlast⟩⟩
  · simp only [World.LetGo, hp']
    exact ⟨hholds.1.1, trivial⟩
  · simpa [World.owed, hp, Reader.pending] using hD

/-- Letting go of one registration: `R`'s own gets the end in its slot; once none is left,
`broadcast` returns the broadcast's end. -/
theorem Owes.advance_releasing {w w' : World} {R : Nat} {D : List UInt8}
    {fin : Except Error Unit} {rep : Report} {result : Except Error Unit} {rest : List Nat}
    (h : Owes w R D fin) (hp : w.phase = .releasing result rest)
    (hs : w.advance = some (rep, w')) :
    Owes w' R D fin ∧ ∀ res, rep = .returned res → res = fin := by
  -- the broadcast ends with `fin`, whether it still holds `R` or let it go
  have hres : result = fin := by
    obtain ⟨-, -, -, r, -, hro⟩ := h
    cases hreg : r.registered
    · have := (hro.unlinked hreg).1
      simp only [World.LetGo, hp] at this
      exact this.2
    · have := (hro.linked hreg).2.2.1
      simp only [World.Holds, hp] at this
      exact this.2.2
  subst hres
  simp only [World.advance, hp] at hs
  cases rest with
  | nil =>
    simp only [Option.some.injEq, Prod.mk.injEq] at hs
    obtain ⟨rfl, rfl⟩ := hs
    refine ⟨h.broadcaster rfl rfl rfl (fun hh => ?_) (fun _ => rfl), fun res hr => ?_⟩
    · simp [World.Holds, hp] at hh
    · cases hr
      rfl
  | cons id rest =>
    simp only [Option.some.injEq, Prod.mk.injEq] at hs
    obtain ⟨rfl, rfl⟩ := hs
    refine ⟨?_, fun res hr => by cases hr⟩
    by_cases hid : id = R
    · -- `R`'s registration is let go
      subst hid
      obtain ⟨hab, hfin, hends, r, hr, hro⟩ := h
      have hreg : r.registered = true := by
        cases hreg : r.registered
        · have := (hro.unlinked hreg).1
          simp [World.LetGo, hp] at this
        · rfl
      exact ⟨hab, hfin, hends, _, by simp [Hub.reader?_modify_self, hr],
        hro.release hends hreg hp rfl⟩
    · refine h.broadcaster (Hub.reader?_modify_ne w.hub hid _) rfl rfl (fun hh => ?_) (fun hl => ?_)
      · simp only [World.Holds, World.owed, hp, List.mem_cons, List.nodup_cons] at hh ⊢
        exact ⟨⟨hh.1.resolve_left (Ne.symm hid), hh.2.1.2, trivial⟩, trivial⟩
      · simp only [World.LetGo, hp, List.mem_cons, not_or] at hl ⊢
        exact ⟨hl.1.2, trivial⟩

/-- **Every step of the broadcasting thread keeps `R`'s invariant**, and when `broadcast`
returns, it returns the broadcast's end. -/
theorem Owes.advance {w w' : World} {R : Nat} {D : List UInt8} {fin : Except Error Unit}
    {rep : Report} (h : Owes w R D fin) (hs : w.advance = some (rep, w')) :
    Owes w' R D fin ∧ ∀ res, rep = .returned res → res = fin := by
  cases hp : w.phase with
  | idle | returned _ | gone => simp [World.advance, hp] at hs
  | top =>
    obtain ⟨h', rfl⟩ := h.advance_top hp hs
    exact ⟨h', fun _ hr => by cases hr⟩
  | filling acc =>
    obtain ⟨h', rfl⟩ := h.advance_filling hp hs
    exact ⟨h', fun _ hr => by cases hr⟩
  | offering seg ending i =>
    obtain ⟨h', rfl⟩ := h.advance_offering hp hs
    exact ⟨h', fun _ hr => by cases hr⟩
  | releasing result rest => exact h.advance_releasing hp hs

/-! ## The readers' steps -/

theorem terminal_of_final {r : Reader} {fin : Except Error Unit}
    (h : r.last = some (finalTerminal fin)) : r.terminal = fin.map fun _ => [] := by
  rcases fin with e | ⟨⟩ <;> simp [Reader.terminal, h, finalTerminal, Except.map]

theorem ReaderOwes.isOpen {w : World} {R : Nat} {r : Reader} {D : List UInt8}
    {fin : Except Error Unit} (hro : ReaderOwes w R r D fin) : r.Open := by
  -- the reader has settled on nothing, or on the end of data or the failure
  have hlast : r.last = none ∨ r.last = some (finalTerminal fin) := by
    cases hreg : r.registered
    · rcases (hro.unlinked hreg).2.2 with ⟨-, hl⟩ | ⟨-, hl, -⟩
      · exact .inl hl
      · exact .inr hl
    · exact .inl (hro.linked hreg).2.1
  refine ⟨?_, ?_, hro.detached⟩ <;>
    rcases hlast with hl | hl <;> rw [hl] <;> rcases fin with e | ⟨⟩ <;> simp [finalTerminal]

/-- **A read of `R` answers the front of what it still has to read**, or the end once nothing
is left, and keeps the invariant for the rest. -/
theorem Owes.read_self {w w' : World} {R k : Nat} {D : List UInt8} {fin : Except Error Unit}
    {rep : Report} (h : Owes w R D fin) (hk : 0 < k) (hs : w.step (.read R k) = some (rep, w')) :
    rep = .read (streamRead D fin k) ∧ Owes w' R (D.drop k) fin := by
  obtain ⟨hab, hfin, hends, r, hr, hro⟩ := h
  simp only [World.step] at hs
  split at hs
  · rename_i hheld
    simp only [Hub.read, hr, hab] at hs
    rcases hrd : r.read false k with ⟨res | _, r'⟩
    rotate_left
    · simp [hrd] at hs
    simp only [hrd, Option.some.injEq, Prod.mk.injEq] at hs
    obtain ⟨rfl, rfl⟩ := hs
    have hR' : (w.hub.modify R fun _ => r').reader? R = some r' := by
      simp [Hub.reader?_modify_self, hr]
    by_cases hp : r.pending = []
    · -- nothing pending: the reader was let go and settles on the end in its slot
      obtain ⟨hreg, hp', hv', hreg', hdet', hdrop', hcons, hnil⟩ :=
        Reader.read_open_end hro.isOpen hro.valid hk hp hrd
      obtain ⟨hl, hD, hset⟩ := hro.unlinked hreg
      have hD0 : D = [] := hD.trans hp
      subst hD0
      have hanswer : streamRead [] fin k = fin.map fun _ => [] := rfl
      refine ⟨?_, ⟨hab, hfin, hends, r', hR', hdet' ▸ hro.detached, hdrop' ▸ hro.dropped, hv',
        fun h => by simp [hreg', hreg] at h, fun _ => ⟨hl, List.drop_nil.trans hp'.symm, ?_⟩⟩⟩
      · rw [hanswer]
        rcases hset with ⟨hslot, -⟩ | ⟨hslot, hlast, -⟩
        · rw [(hcons _ _ hslot).1, terminal_of_final rfl]
        · rw [(hnil hslot).1, terminal_of_final hlast]
      · rcases hset with ⟨hslot, -⟩ | ⟨hslot, hlast, -⟩
        · obtain ⟨-, hs', hl'⟩ := hcons _ _ hslot
          exact .inr ⟨hs', hl', List.drop_nil⟩
        · obtain ⟨-, hs', hl'⟩ := hnil hslot
          exact .inr ⟨hs', hl'.trans hlast, List.drop_nil⟩
    · -- bytes pending: the read answers the first ones
      obtain ⟨hres, hp', hv', hlen, hslot', hlast', hreg', hdet', hdrop'⟩ :=
        Reader.read_open_data hro.isOpen hro.valid hk hp hrd
      -- what `R` still has to read starts with its pending bytes, all `k` of them while it is
      -- registered
      have hsplit : D.take k = r.pending.take k ∧ D.drop k = r'.pending ++
          (if r.registered then w.owed R else []) := by
        cases hreg : r.registered
        · obtain ⟨-, hD, -⟩ := hro.unlinked hreg
          simp [hD, hp']
        · obtain ⟨-, -, -, hD⟩ := hro.linked hreg
          have hk' := hlen hreg
          simp [hD, hp', List.take_append_of_le_length hk', List.drop_append_of_le_length hk']
      have hDne : D ≠ [] := by
        intro hD
        cases hreg : r.registered
        · exact hp ((hro.unlinked hreg).2.1 ▸ hD)
        · obtain ⟨-, -, -, hD'⟩ := hro.linked hreg
          exact hp (List.append_eq_nil_iff.1 (hD' ▸ hD)).1
      refine ⟨?_, ⟨hab, hfin, hends, r', hR', hdet' ▸ hro.detached, hdrop' ▸ hro.dropped, hv',
        fun hreg => ?_, fun hreg => ?_⟩⟩
      · simp [streamRead, List.isEmpty_iff, hDne, hres, hsplit.1]
      · rw [hreg'] at hreg
        obtain ⟨hslot, hlast, hh, -⟩ := hro.linked hreg
        have howed : ({ w with hub := w.hub.modify R fun _ => r' } : World).owed R = w.owed R :=
          rfl
        refine ⟨hslot' ▸ hslot, hlast' ▸ hlast, hh, ?_⟩
        rw [howed]
        simpa [hreg] using hsplit.2
      · rw [hreg'] at hreg
        obtain ⟨hl, -, hset⟩ := hro.unlinked hreg
        refine ⟨hl, by simpa [hreg] using hsplit.2, ?_⟩
        rcases hset with ⟨hslot, hlast⟩ | ⟨-, -, hD⟩
        · exact .inl ⟨hslot' ▸ hslot, hlast' ▸ hlast⟩
        · exact absurd hD hDne
  · exact absurd hs (by simp)

theorem Hub.read_other (h : Hub) {i R : Nat} (hne : i ≠ R) (k : Nat) :
    (h.read i k).2.reader? R = h.reader? R ∧ (h.read i k).2.registrations = h.registrations ∧
      (h.read i k).2.aborted = h.aborted ∧ (h.read i k).2.finished = h.finished := by
  unfold Hub.read
  split
  · exact ⟨rfl, rfl, rfl, rfl⟩
  · exact ⟨Hub.reader?_modify_ne h hne _, rfl, rfl, rfl⟩

/-- A step of a run in which reader `R` is never closed nor dropped and reads at least one
byte at a time, the abort signal is never raised, and `broadcast` is not called again. -/
def Event.Keeps (R : Nat) : Event → Prop
  | .read i k => i = R → 0 < k
  | .close i | .drop i => i ≠ R
  | .abort | .broadcast => False
  | .newReader | .advance | .dropBroadcaster => True

/-- Every other step keeps `R`'s invariant: the broadcasting thread's, and the owner's and the
other readers', which touch neither `R` nor the broadcasting thread. -/
theorem Owes.step_other {w w' : World} {R : Nat} {D : List UInt8} {fin : Except Error Unit}
    {e : Event} {rep : Report} (h : Owes w R D fin) (he : e.Keeps R) (hne : ∀ k, e ≠ .read R k)
    (hs : w.step e = some (rep, w')) :
    Owes w' R D fin ∧ ∀ res, rep = .returned res → res = fin := by
  have quiet : ∀ {w'' : World}, Owes w'' R D fin → rep = .quiet → w' = w'' →
      Owes w' R D fin ∧ ∀ res, rep = .returned res → res = fin := by
    rintro w'' h'' rfl rfl
    exact ⟨h'', fun _ hr => by cases hr⟩
  cases e with
  | newReader =>
    simp only [World.step] at hs
    split at hs
    · simp only [Option.some.injEq, Prod.mk.injEq] at hs
      obtain ⟨rfl, rfl⟩ := hs
      refine ⟨h.frame ?_ rfl rfl rfl (by simp [Hub.addReader, h.finished]) rfl, fun _ hr => by cases hr⟩
      -- the new reader goes after every existing one
      obtain ⟨-, -, -, r, hr, -⟩ := h
      have hlt : R < w.hub.readers.size := by
        rcases Nat.lt_or_ge R w.hub.readers.size with hlt | hge
        · exact hlt
        · simp [Hub.reader?, Array.getElem?_eq_none hge] at hr
      simp [Hub.addReader, Hub.reader?, Array.getElem?_push, Nat.ne_of_lt hlt]
    · exact absurd hs (by simp)
  | broadcast => exact he.elim
  | advance => exact h.advance hs
  | read i k =>
    have hi : i ≠ R := fun hi => hne k (by rw [hi])
    simp only [World.step] at hs
    split at hs
    · split at hs
      · exact absurd hs (by simp)
      · rename_i res h' heq
        simp only [Option.some.injEq, Prod.mk.injEq] at hs
        obtain ⟨rfl, rfl⟩ := hs
        obtain ⟨h1, h2, h3, h4⟩ := Hub.read_other w.hub hi k
        rw [heq] at h1 h2 h3 h4
        exact ⟨h.frame h1 h3 h4 rfl h2 rfl, fun _ hr => by cases hr⟩
    · exact absurd hs (by simp)
  | close i =>
    simp only [World.step] at hs
    split at hs
    · simp only [Option.some.injEq, Prod.mk.injEq] at hs
      exact quiet (h.modify_other he _) hs.1.symm hs.2.symm
    · exact absurd hs (by simp)
  | drop i =>
    simp only [World.step] at hs
    split at hs
    · simp only [Option.some.injEq, Prod.mk.injEq] at hs
      exact quiet (h.modify_other he _) hs.1.symm hs.2.symm
    · exact absurd hs (by simp)
  | abort => exact he.elim
  | dropBroadcaster =>
    simp only [World.step] at hs
    split at hs
    · rename_i hfree
      simp only [h.finished, ↓reduceIte, Option.some.injEq, Prod.mk.injEq] at hs
      refine quiet ?_ hs.1.symm hs.2.symm
      -- outside `broadcast` the broadcasting thread holds no registration: `R` was let go
      have hunl : ¬ w.Holds R fin := by
        simp only [World.ownerFree] at hfree
        split at hfree <;> simp_all [World.Holds]
      exact h.broadcaster rfl rfl rfl (fun hh => absurd hh hunl) (fun _ => trivial)
    · exact absurd hs (by simp)

/-! ## Runs -/

theorem World.run_append (w : World) (es fs : List Event) :
    w.run (es ++ fs) = (w.run es).bind fun p =>
      (p.2.run fs).map fun q => (p.1 ++ q.1, q.2) := by
  induction es generalizing w with
  | nil =>
    simp only [List.nil_append, World.run, Option.bind_some]
    cases w.run fs <;> rfl
  | cons e es ih =>
    simp only [List.cons_append, World.run]
    cases w.step e with
    | none => rfl
    | some p =>
      simp only [ih]
      cases p.2.run es with
      | none => rfl
      | some q =>
        simp only [Option.bind_some]
        cases q.2.run fs <;> simp

theorem readsOf_cons_of_ne {R : Nat} {e : Event} (he : ∀ k, e ≠ .read R k) (es : List Event)
    (o : Report) (os : List Report) : readsOf R (e :: es) (o :: os) = readsOf R es os := by
  cases e <;> cases o <;> simp_all [readsOf]

theorem readsOf_append {R : Nat} {es fs : List Event} {os os' : List Report}
    (h : es.length = os.length) : readsOf R (es ++ fs) (os ++ os') = readsOf R es os ++ readsOf R fs os' := by
  induction es generalizing os with
  | nil =>
    cases os with
    | nil => simp [readsOf]
    | cons o os => simp at h
  | cons e es ih =>
    cases os with
    | nil => simp at h
    | cons o os =>
      simp only [List.length_cons, Nat.add_right_cancel_iff] at h
      simp only [List.cons_append]
      cases e <;> cases o <;> simp only [readsOf, ih h]
      -- a read meets a read: kept or skipped by whose it is
      split <;> simp

theorem readsOf_replicate_newReader (R m : Nat) (os : List Report) :
    readsOf R (List.replicate m .newReader) os = [] := by
  induction m generalizing os with
  | zero => cases os <;> rfl
  | succ m ih => cases os <;> simp [List.replicate_succ, readsOf, ih]

/-- **`R`'s invariant along a run**: its reads answer the stream `D` and then `fin`, and
`broadcast` returns `fin`. -/
theorem Owes.run {w : World} {R : Nat} {D : List UInt8} {fin : Except Error Unit}
    (h : Owes w R D fin) {evs : List Event} {reports : List Report} {w' : World}
    (hkeep : ∀ e ∈ evs, e.Keeps R) (hrun : w.run evs = some (reports, w')) :
    (readsOf R evs reports).map Prod.snd =
        streamReads D fin ((readsOf R evs reports).map Prod.fst) ∧
      ∀ res, Report.returned res ∈ reports → res = fin := by
  induction evs generalizing w D reports with
  | nil =>
    simp only [World.run, Option.some.injEq, Prod.mk.injEq] at hrun
    obtain ⟨rfl, -⟩ := hrun
    simp [readsOf, streamReads]
  | cons e es ih =>
    simp only [World.run] at hrun
    rcases hs : w.step e with _ | ⟨o, w1⟩
    · simp [hs] at hrun
    rcases hr : w1.run es with _ | ⟨os, w2⟩
    · simp [hs, hr] at hrun
    simp only [hs, hr, Option.some.injEq, Prod.mk.injEq] at hrun
    obtain ⟨rfl, rfl⟩ := hrun
    have hkeep' : ∀ e ∈ es, e.Keeps R := fun e he => hkeep e (List.mem_cons_of_mem _ he)
    by_cases hread : ∃ k, e = .read R k
    · -- `R` reads: the answer is the front of the stream, the rest answers the rest
      obtain ⟨k, rfl⟩ := hread
      have hk : 0 < k := hkeep _ List.mem_cons_self rfl
      obtain ⟨rfl, h1⟩ := h.read_self hk hs
      obtain ⟨ih1, ih2⟩ := ih h1 hkeep' hr
      refine ⟨?_, fun res hmem => ?_⟩
      · simp [readsOf, streamReads, ih1]
      · simp only [List.mem_cons, reduceCtorEq, false_or] at hmem
        exact ih2 res hmem
    · -- any other step: the stream and the end stay
      have hne : ∀ k, e ≠ .read R k := fun k he => hread ⟨k, he⟩
      obtain ⟨h1, hret⟩ := h.step_other (hkeep e List.mem_cons_self) hne hs
      obtain ⟨ih1, ih2⟩ := ih h1 hkeep' hr
      refine ⟨by rw [readsOf_cons_of_ne hne]; exact ih1, fun res hmem => ?_⟩
      rcases List.mem_cons.1 hmem with heq | hmem
      · exact hret res heq.symm
      · exact ih2 res hmem

/-! ## From the start -/

/-- `m` readers made before `broadcast` are fresh, with ids `0, …, m - 1`, all registered. -/
theorem World.run_newReaders (segmentSize queueLen : Nat) (src : Source) (m : Nat) :
    (World.new segmentSize queueLen src).run (List.replicate m .newReader) =
      some ((List.range m).map .made,
        ⟨⟨Array.replicate m (Reader.new false none), List.range m, segmentSize, queueLen,
          false, false⟩, src, .idle⟩) := by
  induction m with
  | zero => rfl
  | succ m ih =>
    rw [List.replicate_succ', World.run_append, ih]
    simp [World.run, World.step, World.ownerFree, Hub.addReader, List.range_succ,
      Array.replicate_succ]

/-- When `broadcast` starts, each reader made before it is to receive all the source delivers,
and then the broadcast's result. -/
theorem Owes.launch {m R : Nat} (hR : R < m) (segmentSize queueLen : Nat) (src : Source) :
    Owes ⟨⟨Array.replicate m (Reader.new false none), List.range m, segmentSize, queueLen,
        true, false⟩, src, .top⟩ R (Source.outcome src).1
      (broadcastResult (Source.outcome src).2) := by
  refine ⟨rfl, rfl, ?_, Reader.new false none, by simp [Hub.reader?, hR], ?_⟩
  · cases (Source.outcome src).2 <;> rfl
  · refine ⟨rfl, rfl, SegmentQueue.valid_empty, fun _ => ⟨rfl, rfl, ?_, ?_⟩,
      fun h => absurd h (by simp [Reader.new])⟩
    · exact ⟨List.mem_range.2 hR, List.nodup_range, rfl⟩
    · simp [Reader.pending, World.owed, Reader.new]

/-- **Broadcast delivery.** Readers `0, …, m - 1` are made, then `broadcast` is called, and the
threads take the steps `evs` in any order: the abort signal is never raised, reader `R` is
never closed nor dropped and reads positive sizes. Then `R`'s reads answer the bytes the
source delivers, each the next ones, and once they are all read, the end: no bytes after the
end of data, and after a failure the failure `broadcast` returns. -/
theorem reads_deliver_source {segmentSize queueLen m R : Nat} {src : Source}
    {evs : List Event} {reports : List Report} (hR : R < m) (hkeep : ∀ e ∈ evs, e.Keeps R)
    (hrun : ((World.new segmentSize queueLen src).run
      (List.replicate m .newReader ++ .broadcast :: evs)).map Prod.fst = some reports) :
    (readsOf R (List.replicate m .newReader ++ .broadcast :: evs) reports).map Prod.snd =
        streamReads (Source.outcome src).1 (broadcastResult (Source.outcome src).2)
          ((readsOf R (List.replicate m .newReader ++ .broadcast :: evs) reports).map Prod.fst) ∧
      ∀ res, Report.returned res ∈ reports → res = broadcastResult (Source.outcome src).2 := by
  obtain ⟨⟨reports', w'⟩, hrun', rfl⟩ := Option.map_eq_some_iff.1 hrun
  rw [World.run_append, World.run_newReaders] at hrun'
  -- `broadcast` starts from the world the readers were made in
  rcases hr : World.run ⟨⟨Array.replicate m (Reader.new false none), List.range m, segmentSize,
      queueLen, true, false⟩, src, .top⟩ evs with _ | ⟨os, w⟩
  · simp [World.run, World.step, World.ownerFree, hr] at hrun'
  simp only [Option.bind_some, World.run, World.step, World.ownerFree, hr, ↓reduceIte,
    Bool.false_eq_true, Option.map_some, Option.some.injEq, Prod.mk.injEq] at hrun'
  obtain ⟨rfl, -⟩ := hrun'
  obtain ⟨hreads, hret⟩ := (Owes.launch hR segmentSize queueLen src).run hkeep hr
  -- the readers' making and the call to `broadcast` are no reads
  have hpre : readsOf R (List.replicate m .newReader ++ .broadcast :: evs)
      ((List.range m).map .made ++ .quiet :: os) = readsOf R evs os := by
    rw [readsOf_append (by simp), readsOf_replicate_newReader, List.nil_append,
      readsOf_cons_of_ne (by simp)]
  rw [hpre]
  refine ⟨hreads, fun res hmem => hret res ?_⟩
  simpa using hmem

/-- A reader reads three bytes broadcast in segments of two: its first read comes between the
broadcasting thread's steps, its last after `broadcast` returned. -/
theorem reads_deliver_source_two_segments :
    (readsOf 0 (List.replicate 1 .newReader ++ .broadcast ::
        (List.replicate 4 .advance ++ .read 0 2 :: List.replicate 7 .advance ++
          [.read 0 5, .read 0 5]))
        ([.made 0] ++ List.replicate 5 .quiet ++ [.read (.ok [1, 2])] ++ List.replicate 6 .quiet ++
          [.returned (.ok ()), .read (.ok [3]), .read (.ok [])])).map Prod.snd =
      streamReads (Source.outcome [.data [1, 2, 3], .eof]).1
        (broadcastResult (Source.outcome [.data [1, 2, 3], .eof]).2)
        ((readsOf 0 (List.replicate 1 .newReader ++ .broadcast ::
          (List.replicate 4 .advance ++ .read 0 2 :: List.replicate 7 .advance ++
            [.read 0 5, .read 0 5]))
          ([.made 0] ++ List.replicate 5 .quiet ++ [.read (.ok [1, 2])] ++
            List.replicate 6 .quiet ++
            [.returned (.ok ()), .read (.ok [3]), .read (.ok [])])).map Prod.fst) ∧
    ∀ res, Report.returned res ∈
        [.made 0] ++ List.replicate 5 .quiet ++ [.read (.ok [1, 2])] ++ List.replicate 6 .quiet ++
          [.returned (.ok ()), .read (.ok [3]), .read (.ok [])] →
      res = broadcastResult (Source.outcome [.data [1, 2, 3], .eof]).2 :=
  @reads_deliver_source 2 1 1 0 _ _ _ (by decide) (by simp [Event.Keeps]) rfl

end Plumbing.Broadcast
