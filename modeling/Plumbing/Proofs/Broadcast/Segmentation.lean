import Mathlib.Data.List.Induction
import Mathlib.Data.List.Perm.Subperm
import Plumbing.Proofs.Broadcast.History
import Plumbing.Proofs.Stream.Cut

/-!
# The segments of a broadcast

`broadcast` reads its source in full reads of `n` bytes (`segmentSize`, 0 counting as 1), and
hands every full read that got bytes to `distribute` as a segment. `broadcast_cuts_source`
proves, of every history of a new broadcaster and its readers in which the abort signal is never
raised, every thread taking its steps in any order:

* the segments handed over (`World.segmentsAlong`) have between one and `n` bytes each, all but
  the last `n`, and together are the first bytes the source delivers (`Source.outcome`);
* the source is never read past its first end (`Source.afterEnd`);
* the broadcasting thread takes a bounded number of steps, and can always take its next one
  while the broadcast goes on: `broadcast` terminates;
* once `broadcast` returned, it handed over the whole of what the source delivers, in
  `⌈|S| / n⌉` segments, read the source exactly through its end, returned the result that end
  calls for, and let go of every registration; a second call returns closed and changes nothing.

The proof is an invariant of where the broadcasting thread stands (`World.Cutting`): while it
goes on, the segments handed over are full and, with the bytes read into the next one, are the
first bytes the source delivers (`Going`); once it read the source's end, they cut all of them
(`Ended`). The bound on the broadcasting thread's steps is a budget (`World.budget`) that each of
its steps lowers and no other step raises.
-/

namespace Plumbing.Broadcast

open Plumbing.Stream

/-! ## The segments handed over -/

theorem Hub.segmentLen_pos (h : Hub) : 0 < h.segmentLen := by
  unfold Hub.segmentLen
  omega

namespace World

/-- The segment a move of the broadcasting thread from `p` to `p'` hands to `distribute`: the
bytes of a full read, when it starts to offer them. -/
def handedOver : Phase → Phase → List (List UInt8)
  | .filling _, .offering seg _ _ => [seg]
  | _, _ => []

/-- The segments handed to `distribute` along the history `evs`, in order. -/
def segmentsAlong (w : World) : List Event → List (List UInt8)
  | [] => []
  | e :: es =>
    match w.step e with
    | none => []
    | some (_, w') => handedOver w.phase w'.phase ++ w'.segmentsAlong es

theorem handedOver_self (p : Phase) : handedOver p p = [] := by
  cases p <;> rfl

theorem segmentsAlong_snoc {w w' w'' : World} {evs : List Event} {reps : List Report}
    {e : Event} {rep : Report} (hrun : w.run evs = some (reps, w'))
    (hs : w'.step e = some (rep, w'')) :
    w.segmentsAlong (evs ++ [e]) = w.segmentsAlong evs ++ handedOver w'.phase w''.phase := by
  induction evs generalizing w reps with
  | nil =>
    simp only [run, Option.some.injEq, Prod.mk.injEq] at hrun
    obtain ⟨rfl, rfl⟩ := hrun
    simp [segmentsAlong, hs]
  | cons e' es ih =>
    simp only [run] at hrun
    rcases hs' : w.step e' with _ | ⟨o, w1⟩
    · simp [hs'] at hrun
    rcases hr : w1.run es with _ | ⟨os, w2⟩
    · simp [hs', hr] at hrun
    simp only [hs', hr, Option.some.injEq, Prod.mk.injEq] at hrun
    obtain ⟨-, rfl⟩ := hrun
    simp [segmentsAlong, hs', ih hr]

end World

/-! ## Where the broadcast stands -/

/-- The broadcast goes on: the segments handed over are full and, with the bytes `acc` read into
the next one, are the first bytes `src0` delivers; the source left delivers the rest, ends as
`src0` does, and is read through to the same place. -/
structure Going (n : Nat) (src0 : Source) (segs : List (List UInt8)) (acc : List UInt8)
    (src : Source) : Prop where
  full : ∀ s ∈ segs, s.length = n
  bytes : segs.flatten ++ acc ++ (Source.outcome src).1 = (Source.outcome src0).1
  fin : (Source.outcome src).2 = (Source.outcome src0).2
  rest : Source.afterEnd src = Source.afterEnd src0

/-- The broadcast read `src0` through its end: the segments handed over cut what it delivers,
the source left is what follows its end, and `res` is the result that end calls for. -/
structure Ended (n : Nat) (src0 : Source) (segs : List (List UInt8)) (src : Source)
    (res : Except Error Unit) : Prop where
  cut : CutInto n (Source.outcome src0).1 segs
  rest : src = Source.afterEnd src0
  result : res = broadcastResult (Source.outcome src0).2

namespace Going

variable {n : Nat} {src0 src src' : Source} {segs : List (List UInt8)} {acc : List UInt8}

theorem start (src0 : Source) : Going n src0 [] [] src0 :=
  ⟨by simp, by simp, rfl, rfl⟩

/-- A read of bytes moves them from the source to the segment being filled. -/
theorem read_bytes (h : Going n src0 segs acc src) {m : Nat} {b : List UInt8}
    (hr : Source.read m src = (.bytes b, src')) : Going n src0 segs (acc ++ b) src' := by
  have hout := Source.outcome_read m src
  rw [hr] at hout
  refine ⟨h.full, ?_, ?_, ?_⟩
  · rw [← h.bytes, hout]
    simp [Yield.outcomeBefore]
  · rw [← h.fin, hout]
    rfl
  · rw [← h.rest]
    exact Source.afterEnd_read_of_ne_failed hr (by simp)

/-- A read interrupted, or paused, moves nothing. -/
theorem read_quiet (h : Going n src0 segs acc src) {m : Nat} {y : Yield}
    (hr : Source.read m src = (y, src')) (hy : y = .interrupted ∨ y = .paused) :
    Going n src0 segs acc src' := by
  have hout := Source.outcome_read m src
  rw [hr] at hout
  have hsame : Source.outcome src = Source.outcome src' := by
    rcases hy with rfl | rfl <;> exact hout
  refine ⟨h.full, by rw [← h.bytes, hsame], by rw [← h.fin, hsame], ?_⟩
  rw [← h.rest]
  exact Source.afterEnd_read_of_ne_failed hr (by rcases hy with rfl | rfl <;> simp)

theorem push (h : Going n src0 segs acc src) (hacc : acc.length = n) :
    Going n src0 (segs ++ [acc]) [] src := by
  refine ⟨fun s hs => ?_, by simpa using h.bytes, h.fin, h.rest⟩
  rcases List.mem_append.1 hs with hs | hs
  · exact h.full s hs
  · rw [List.mem_singleton.1 hs, hacc]

theorem ended_nil (h : Going n src0 segs [] src) (hn : 0 < n)
    (hend : (Source.outcome src).1 = []) (hsrc : src' = Source.afterEnd src) :
    Ended n src0 segs src' (broadcastResult (Source.outcome src).2) := by
  have hflat : segs.flatten = (Source.outcome src0).1 := by
    simpa [hend] using h.bytes
  exact ⟨hflat ▸ CutInto.of_full h.full hn, hsrc.trans h.rest, by rw [h.fin]⟩

theorem ended_cons (h : Going n src0 segs acc src) (hacc : acc ≠ []) (hlt : acc.length < n)
    (hend : (Source.outcome src).1 = []) (hsrc : src' = Source.afterEnd src) :
    Ended n src0 (segs ++ [acc]) src' (broadcastResult (Source.outcome src).2) := by
  have hflat : segs.flatten ++ acc = (Source.outcome src0).1 := by
    simpa [hend] using h.bytes
  refine ⟨hflat ▸ CutInto.snoc h.full (List.length_pos_iff.2 hacc) (Nat.le_of_lt hlt),
    hsrc.trans h.rest, by rw [h.fin]⟩

/-- While the broadcast goes on, the segments handed over cut the first bytes of the source's,
and the source is not read past its end. -/
theorem sound (h : Going n src0 segs acc src) (hn : 0 < n) :
    CutInto n segs.flatten segs ∧ segs.flatten <+: (Source.outcome src0).1 ∧
      (Source.afterEnd src = Source.afterEnd src0 ∨ src = Source.afterEnd src0) := by
  refine ⟨CutInto.of_full h.full hn, ?_, .inl h.rest⟩
  rw [← h.bytes, List.append_assoc]
  exact List.prefix_append _ _

end Going

/-- Once the broadcast read the source's end, the segments handed over cut all its bytes, and
the source is what follows its end. -/
theorem Ended.sound {n : Nat} {src0 src : Source} {segs : List (List UInt8)}
    {res : Except Error Unit} (h : Ended n src0 segs src res) :
    CutInto n segs.flatten segs ∧ segs.flatten <+: (Source.outcome src0).1 ∧
      (Source.afterEnd src = Source.afterEnd src0 ∨ src = Source.afterEnd src0) := by
  have hflat := h.cut.flatten
  exact ⟨hflat ▸ h.cut, hflat ▸ List.prefix_refl _, .inr h.rest⟩

namespace World

/-- Where the first broadcast of `src0`, in segments of `n` bytes, stands in `w`, having handed
`segs` to `distribute`: not called yet, with the source untouched; going on (`Going`), with a
segment filling or being offered; or past the source's end (`Ended`), with the registrations
let go once it leaves its loop. -/
def Cutting (n : Nat) (src0 : Source) (segs : List (List UInt8)) (w : World) : Prop :=
  match w.phase with
  | .idle => segs = [] ∧ w.source = src0
  | .top => Going n src0 segs [] w.source
  | .filling acc => Going n src0 segs acc w.source ∧ acc.length < n
  | .offering _ none _ => Going n src0 segs [] w.source
  | .offering _ (some ending) _ => Ended n src0 segs w.source (resultAfter (some ending) w.source)
  | .releasing res _ | .returned res => Ended n src0 segs w.source res ∧ w.hub.registrations = []
  | .gone => (segs = [] ∧ w.source = src0) ∨ ∃ res, Ended n src0 segs w.source res

variable {n : Nat} {src0 : Source} {segs : List (List UInt8)} {w w' : World} {rep : Report}

theorem cutting_congr (hp : w'.phase = w.phase) (hs : w'.source = w.source)
    (hr : w'.hub.registrations = w.hub.registrations) :
    Cutting n src0 segs w' ↔ Cutting n src0 segs w := by
  simp only [Cutting, hp, hs, hr]

theorem advance_top (hp : w.phase = .top) (hab : w.hub.aborted = false)
    (h : Cutting n src0 segs w) (hn : 0 < n) (hs : w.advance = some (rep, w')) :
    Cutting n src0 (segs ++ handedOver .top w'.phase) w' := by
  simp only [advance, hp, hab, Bool.false_eq_true, if_false, Option.some.injEq,
    Prod.mk.injEq] at hs
  obtain ⟨rfl, rfl⟩ := hs
  simp only [Cutting, hp] at h
  simpa [Cutting, hp, handedOver] using And.intro h hn

theorem afterSegment_some (e : End) :
    w.afterSegment (some e) = w.stop (resultAfter (some e) w.source) := by
  cases e <;> rfl

/-- A full read that meets the source's end hands the bytes read into the segment, if any, over
as the last segment: the broadcast is past the source's end. -/
theorem cutting_endFill {acc : List UInt8} {src : Source} {e : End}
    (hg : Going n src0 segs acc w.source) (hlt : acc.length < n) (hn : 0 < n)
    (hend : (Source.outcome w.source).1 = [])
    (hres : resultAfter (some e) src = broadcastResult (Source.outcome w.source).2)
    (hsrc : src = Source.afterEnd w.source) :
    Cutting n src0 (segs ++ handedOver (.filling acc)
      ({ w with source := src }.endFill acc (some e)).phase)
      ({ w with source := src }.endFill acc (some e)) := by
  by_cases hacc : acc = []
  · subst hacc
    have hended := hg.ended_nil hn hend hsrc
    rw [← hres] at hended
    rw [endFill_nil, afterSegment_some]
    simpa [Cutting, handedOver, stop] using hended
  · have hended := hg.ended_cons hacc hlt hend hsrc
    rw [← hres] at hended
    rw [endFill_of_ne_nil _ hacc]
    simpa [Cutting, handedOver] using hended

/-- One read of the source into the segment being filled: the bytes move into the segment, a
full segment is handed over, and at the source's end the last bytes are. -/
theorem advance_filling {acc : List UInt8} (hp : w.phase = .filling acc)
    (hlen : w.hub.segmentLen = n) (h : Cutting n src0 segs w) (hs : w.advance = some (rep, w')) :
    Cutting n src0 (segs ++ handedOver (.filling acc) w'.phase) w' := by
  simp only [Cutting, hp] at h
  obtain ⟨hg, hlt⟩ := h
  have hn : 0 < n := by omega
  simp only [advance, hp] at hs
  split at hs
  · rename_i b src heq
    have hg' := hg.read_bytes heq
    have hb := Source.read_bytes_length_le heq
    have hne := Source.read_bytes_ne_nil heq
    split at hs
    · -- the segment is not full yet
      rename_i hfit
      simp only [Option.some.injEq, Prod.mk.injEq] at hs
      obtain ⟨rfl, rfl⟩ := hs
      simp only [Cutting, handedOver, List.append_nil, List.length_append]
      exact ⟨hg', by omega⟩
    · -- a full segment
      rename_i hfull
      simp only [Option.some.injEq, Prod.mk.injEq] at hs
      obtain ⟨rfl, rfl⟩ := hs
      have hacc : (acc ++ b).length = n := by
        simp only [List.length_append]
        have : max (w.hub.segmentLen - acc.length) 1 = w.hub.segmentLen - acc.length := by
          omega
        omega
      rw [endFill_of_ne_nil _ (by simp [hne])]
      simpa [Cutting, handedOver] using hg'.push hacc
  · -- the end of data
    rename_i src heq
    simp only [Option.some.injEq, Prod.mk.injEq] at hs
    obtain ⟨rfl, rfl⟩ := hs
    have hend : Source.outcome w.source = ([], none) := Source.outcome_of_read heq
    exact cutting_endFill hg hlt hn (by rw [hend]) (by rw [hend]; rfl) (Source.read_done heq)
  · -- an interruption
    rename_i src heq
    simp only [Option.some.injEq, Prod.mk.injEq] at hs
    obtain ⟨rfl, rfl⟩ := hs
    simpa [Cutting, handedOver] using And.intro (hg.read_quiet heq (.inl rfl)) hlt
  · -- a pause
    rename_i src heq
    simp only [Option.some.injEq, Prod.mk.injEq] at hs
    obtain ⟨rfl, rfl⟩ := hs
    simpa [Cutting, handedOver] using And.intro (hg.read_quiet heq (.inr rfl)) hlt
  · -- a failure
    rename_i e src heq
    simp only [Option.some.injEq, Prod.mk.injEq] at hs
    obtain ⟨rfl, rfl⟩ := hs
    have hend : Source.outcome w.source = ([], some e) := Source.outcome_of_read heq
    exact cutting_endFill hg hlt hn (by rw [hend]) (by rw [hend]; rfl) (Source.read_failed heq)

theorem cutting_offering {seg seg' : List UInt8} {ending : Option End} {i j : Nat}
    (hp : w.phase = .offering seg ending i) (hp' : w'.phase = .offering seg' ending j)
    (hsrc : w'.source = w.source) : Cutting n src0 segs w' ↔ Cutting n src0 segs w := by
  simp only [Cutting, hp, hp', hsrc]
  cases ending <;> exact Iff.rfl

/-- One visit of a registration, or, past the last one, the end of the segment: the next
round, or the loop left with the result the source's end calls for. -/
theorem advance_offering {seg : List UInt8} {ending : Option End} {i : Nat}
    (hp : w.phase = .offering seg ending i) (hab : w.hub.aborted = false)
    (h : Cutting n src0 segs w) (hs : w.advance = some (rep, w')) :
    Cutting n src0 (segs ++ handedOver (.offering seg ending i) w'.phase) w' := by
  simp only [advance, hp] at hs
  split at hs
  · split at hs
    · rename_i hab'
      simp [hab] at hab'
    split at hs
    · exact absurd hs (by simp)
    · split at hs
      · simp only [Option.some.injEq, Prod.mk.injEq] at hs
        obtain ⟨rfl, rfl⟩ := hs
        rw [handedOver_self, List.append_nil]
        exact (cutting_offering (j := i) hp (by rfl) (by rfl)).2 h
      · simp only [Option.some.injEq, Prod.mk.injEq] at hs
        obtain ⟨rfl, rfl⟩ := hs
        simp only [handedOver, List.append_nil]
        exact (cutting_offering (j := i + 1) hp (by rfl) (by rfl)).2 h
  · -- past the last registration
    simp only [Option.some.injEq, Prod.mk.injEq] at hs
    obtain ⟨rfl, rfl⟩ := hs
    simp only [Cutting, hp] at h
    rcases ending with _ | _ | e
    · simpa [afterSegment, Cutting, handedOver] using h
    · simpa [afterSegment, stop, Cutting, handedOver, resultAfter] using h
    · simpa [afterSegment, stop, Cutting, handedOver, resultAfter] using h

/-- Letting go of one registration, then returning. -/
theorem advance_releasing {res : Except Error Unit} {rest : List Nat}
    (hp : w.phase = .releasing res rest) (h : Cutting n src0 segs w)
    (hs : w.advance = some (rep, w')) :
    Cutting n src0 (segs ++ handedOver (.releasing res rest) w'.phase) w' := by
  simp only [Cutting, hp] at h
  simp only [advance, hp] at hs
  cases rest with
  | nil =>
    simp only [Option.some.injEq, Prod.mk.injEq] at hs
    obtain ⟨rfl, rfl⟩ := hs
    simpa [Cutting, handedOver] using h
  | cons id rest =>
    simp only [Option.some.injEq, Prod.mk.injEq] at hs
    obtain ⟨rfl, rfl⟩ := hs
    simpa [Cutting, handedOver] using h

/-- Every step of the broadcasting thread keeps the invariant, the segment it hands over
added. -/
theorem cutting_advance (hab : w.hub.aborted = false) (hlen : w.hub.segmentLen = n)
    (h : Cutting n src0 segs w) (hs : w.advance = some (rep, w')) :
    Cutting n src0 (segs ++ handedOver w.phase w'.phase) w' := by
  cases hp : w.phase with
  | idle | returned _ | gone => simp [advance, hp] at hs
  | top => exact advance_top hp hab h (hlen ▸ Hub.segmentLen_pos w.hub) hs
  | filling acc => exact advance_filling hp hlen h hs
  | offering seg ending i => exact advance_offering hp hab h hs
  | releasing res rest => exact advance_releasing hp h hs

theorem phase_of_ownerFree (hfree : w.ownerFree = true) :
    w.phase = .idle ∨ ∃ res, w.phase = .returned res := by
  unfold ownerFree at hfree
  split at hfree
  · exact .inl ‹_›
  · exact .inr ⟨_, ‹_›⟩
  · exact absurd hfree Bool.false_ne_true

/-- **The step lemma.** Every step of a history with no abort keeps the invariant, with the
segment it hands over added. -/
theorem cutting_step {evs : List Event} {reps : List Report} (hS : Story evs reps w)
    (habort : .abort ∉ evs) {e : Event} (he : e ≠ .abort) (hlen : w.hub.segmentLen = n)
    (h : Cutting n src0 segs w) (hs : w.step e = some (rep, w')) :
    Cutting n src0 (segs ++ handedOver w.phase w'.phase) w' := by
  have hab : w.hub.aborted = false := by
    cases hab : w.hub.aborted
    · rfl
    · exact absurd (hS.aborted.1 hab) habort
  cases e with
  | advance => exact cutting_advance hab hlen h hs
  | abort => exact absurd rfl he
  | read i k =>
    obtain ⟨-, -, -, -, -, -, -, -, rfl⟩ := step_read hs
    rw [handedOver_self, List.append_nil]
    exact (cutting_congr (by rfl) (by rfl) (by simp)).2 h
  | close i =>
    obtain ⟨-, -, rfl⟩ := step_close hs
    rw [handedOver_self, List.append_nil]
    exact (cutting_congr (by rfl) (by rfl) (by simp [Hub.close])).2 h
  | drop i =>
    obtain ⟨-, -, rfl⟩ := step_drop hs
    rw [handedOver_self, List.append_nil]
    exact (cutting_congr (by rfl) (by rfl) (by simp [Hub.drop])).2 h
  | newReader =>
    obtain ⟨hfree, -, rfl⟩ := step_newReader hs
    rw [handedOver_self, List.append_nil]
    rcases phase_of_ownerFree hfree with hp | ⟨res, hp⟩
    · simpa [Cutting, hp] using h
    · -- after the broadcast a new reader is not registered
      have hfin : w.hub.finished = true :=
        hS.finished.2 (hS.started_of_phase (by simp [hp]) (by simp [hp]))
      exact (cutting_congr (by rfl) (by rfl) (by simp [Hub.addReader, hfin])).2 h
  | broadcast =>
    obtain ⟨hfree, ⟨-, -, rfl⟩ | ⟨hfin, -, rfl⟩⟩ := step_broadcast hs
    · rw [handedOver_self, List.append_nil]
      exact h
    · -- the first call starts the loop on the untouched source
      have hidle : w.phase = .idle :=
        hS.idle_of_ownerFree hfree fun hb => by simp [hS.finished.2 hb] at hfin
      simp only [Cutting, hidle] at h
      obtain ⟨rfl, hsrc⟩ := h
      simpa [Cutting, handedOver, hidle, hsrc] using Going.start (n := n) src0
  | dropBroadcaster =>
    obtain ⟨hfree, -, rfl⟩ := step_dropBroadcaster hs
    rcases phase_of_ownerFree hfree with hp | ⟨res, hp⟩
    · simp only [Cutting, hp] at h
      simpa [Cutting, handedOver, hp] using Or.inl h
    · simp only [Cutting, hp] at h
      simpa [Cutting, handedOver, hp] using Or.inr ⟨res, h.1⟩

/-! ## How many steps the broadcasting thread takes -/

/-- A bound on the steps the broadcasting thread still takes in `w`, with `R` readers made: each
round of its loop, the abort check, the reads of a full segment and the visits, is paid for by
the weight of the source its full read consumes, at `R + 3` a unit; the last offer, the letting
go of the registrations and the return by the `2 R + 3` kept aside. -/
def budget (w : World) : Nat :=
  let R := w.hub.readers.size
  match w.phase with
  | .idle | .returned _ | .gone => 0
  | .releasing _ rest => rest.length + 1
  | .offering _ (some _) i => R + 2 + (w.hub.registrations.length - i)
  | .offering _ none i =>
    2 * R + 3 + Source.weight w.source * (R + 3) + 3 + (w.hub.registrations.length - i)
  | .top => 2 * R + 3 + Source.weight w.source * (R + 3) + 2
  | .filling _ => 2 * R + 3 + Source.weight w.source * (R + 3) + 1

theorem weight_succ_le {m : Nat} {src src' : Source} {y : Yield}
    (hr : Source.read m src = (y, src')) (hy : y ≠ .done) :
    (Source.weight src' + 1) * (w.hub.readers.size + 3) ≤
      Source.weight src * (w.hub.readers.size + 3) := by
  exact Nat.mul_le_mul_right _ (Source.weight_lt_of_read hr hy)

theorem budget_endFill_some (hL : w.hub.registrations.length ≤ w.hub.readers.size)
    (src : Source) (acc : List UInt8) (e : End) :
    ({ w with source := src }.endFill acc (some e)).budget ≤ 2 * w.hub.readers.size + 2 := by
  unfold endFill
  split
  · rcases e with _ | e <;> simp [afterSegment, stop, budget] <;> omega
  · simp [budget]
    omega

theorem budget_refill {acc acc' : List UInt8} {m : Nat} {y : Yield} {src : Source}
    (hp : w.phase = .filling acc) (hr : Source.read m w.source = (y, src)) (hy : y ≠ .done) :
    ({ w with source := src, phase := .filling acc' } : World).budget < w.budget := by
  have hm := weight_succ_le (w := w) hr hy
  rw [Nat.succ_mul] at hm
  simp only [budget, hp]
  omega

/-- **Each step of the broadcasting thread spends some of its budget.** -/
theorem advance_budget (hL : w.hub.registrations.length ≤ w.hub.readers.size)
    (hs : w.advance = some (rep, w')) : w'.budget < w.budget := by
  cases hp : w.phase with
  | idle | returned _ | gone => simp [advance, hp] at hs
  | top =>
    simp only [advance, hp] at hs
    split at hs
    · simp only [Option.some.injEq, Prod.mk.injEq] at hs
      obtain ⟨rfl, rfl⟩ := hs
      simp [budget, hp]
      omega
    · simp only [Option.some.injEq, Prod.mk.injEq] at hs
      obtain ⟨rfl, rfl⟩ := hs
      simp [budget, hp]
  | filling acc =>
    have hB := budget_endFill_some hL
    have hold : w.budget = 2 * w.hub.readers.size + 3 +
        Source.weight w.source * (w.hub.readers.size + 3) + 1 := by
      simp only [budget, hp]
    simp only [advance, hp] at hs
    split at hs
    · rename_i b src heq
      have hm := weight_succ_le (w := w) heq (by simp)
      rw [Nat.succ_mul] at hm
      split at hs
      · simp only [Option.some.injEq, Prod.mk.injEq] at hs
        obtain ⟨rfl, rfl⟩ := hs
        exact budget_refill hp heq (by simp)
      · simp only [Option.some.injEq, Prod.mk.injEq] at hs
        obtain ⟨rfl, rfl⟩ := hs
        rw [endFill_of_ne_nil _ (by simp [Source.read_bytes_ne_nil heq])]
        simp only [budget, hp]
        omega
    · rename_i src heq
      simp only [Option.some.injEq, Prod.mk.injEq] at hs
      obtain ⟨rfl, rfl⟩ := hs
      have := hB src acc .eof
      rw [hp] at this
      omega
    · rename_i src heq
      simp only [Option.some.injEq, Prod.mk.injEq] at hs
      obtain ⟨rfl, rfl⟩ := hs
      exact budget_refill hp heq (by simp)
    · rename_i src heq
      simp only [Option.some.injEq, Prod.mk.injEq] at hs
      obtain ⟨rfl, rfl⟩ := hs
      exact budget_refill hp heq (by simp)
    · rename_i e src heq
      simp only [Option.some.injEq, Prod.mk.injEq] at hs
      obtain ⟨rfl, rfl⟩ := hs
      have := hB src acc (.failed e)
      rw [hp] at this
      omega
  | offering seg ending i =>
    simp only [advance, hp] at hs
    split at hs
    · rename_i hi
      split at hs
      · simp only [Option.some.injEq, Prod.mk.injEq] at hs
        obtain ⟨rfl, rfl⟩ := hs
        rcases ending with _ | e <;> simp [budget, hp, stop] <;> omega
      split at hs
      · exact absurd hs (by simp)
      · split at hs
        · -- a removal shortens the deque
          simp only [Option.some.injEq, Prod.mk.injEq] at hs
          obtain ⟨rfl, rfl⟩ := hs
          have := length_swapRemoveFront _ _ hi
          rcases ending with _ | e <;> simp [budget, hp] <;> omega
        · -- a send moves past one registration
          simp only [Option.some.injEq, Prod.mk.injEq] at hs
          obtain ⟨rfl, rfl⟩ := hs
          rcases ending with _ | e <;> simp [budget, hp, Hub.enqueue] <;> omega
    · simp only [Option.some.injEq, Prod.mk.injEq] at hs
      obtain ⟨rfl, rfl⟩ := hs
      rcases ending with _ | _ | e <;> simp [budget, hp, afterSegment, stop] <;> omega
  | releasing res rest =>
    simp only [advance, hp] at hs
    cases rest with
    | nil =>
      simp only [Option.some.injEq, Prod.mk.injEq] at hs
      obtain ⟨rfl, rfl⟩ := hs
      simp [budget, hp]
    | cons id rest =>
      simp only [Option.some.injEq, Prod.mk.injEq] at hs
      obtain ⟨rfl, rfl⟩ := hs
      simp [budget, hp]

theorem advance_readers_size (hs : w.advance = some (rep, w')) :
    w'.hub.readers.size = w.hub.readers.size := by
  cases advance_advanced hs with
  | move _ _ hw => rw [hw]
  | remove _ _ _ _ _ _ hw => rw [hw]
  | enqueue _ _ _ _ hw => simp [hw, Hub.enqueue]
  | stop _ _ hw _ => rw [hw]
  | release _ => simp
  | finish _ => rfl

theorem step_segmentSize {e : Event} (hs : w.step e = some (rep, w')) :
    w'.hub.segmentSize = w.hub.segmentSize := by
  cases e with
  | newReader =>
    obtain ⟨-, -, rfl⟩ := step_newReader hs
    simp [Hub.addReader]
  | broadcast =>
    obtain ⟨-, ⟨-, -, rfl⟩ | ⟨-, -, rfl⟩⟩ := step_broadcast hs <;> rfl
  | advance =>
    cases advance_advanced hs with
    | move _ _ hw => rw [hw]
    | remove _ _ _ _ _ _ hw => rw [hw]
    | enqueue _ _ _ _ hw => simp [hw, Hub.enqueue, Hub.modify]
    | stop _ _ hw _ => rw [hw]
    | release _ => simp [Hub.modify]
    | finish _ => rfl
  | read i k =>
    obtain ⟨-, -, -, -, -, -, -, -, rfl⟩ := step_read hs
    simp [Hub.modify]
  | close i =>
    obtain ⟨-, -, rfl⟩ := step_close hs
    simp [Hub.close, Hub.modify]
  | drop i =>
    obtain ⟨-, -, rfl⟩ := step_drop hs
    simp [Hub.drop, Hub.modify]
  | abort =>
    obtain ⟨-, rfl⟩ := step_abort hs
    rfl
  | dropBroadcaster =>
    obtain ⟨-, -, rfl⟩ := step_dropBroadcaster hs
    split <;> simp [Hub.releaseAll]

/-- The bound on the broadcasting thread's steps in a broadcast of `src` with `R` readers
made. -/
def stepBound (src : Source) (R : Nat) : Nat :=
  2 * R + 3 + (Source.weight src + 1) * (R + 3)

theorem stepBound_mono (src : Source) {R R' : Nat} (h : R ≤ R') :
    stepBound src R ≤ stepBound src R' := by
  unfold stepBound
  have := Nat.mul_le_mul_left (Source.weight src + 1) (Nat.add_le_add_right h 3)
  omega

/-- The steps the broadcasting thread took along `evs`, with the budget it has left, fit in the
bound of a broadcast of `src0`; before `broadcast` it took none. -/
def Spent (src0 : Source) (evs : List Event) (w : World) : Prop :=
  match w.phase with
  | .idle => evs.count .advance = 0
  | _ => evs.count .advance + w.budget ≤ stepBound src0 w.hub.readers.size

variable {src0 : Source} {evs : List Event} {reps : List Report}

theorem Spent.le (h : Spent src0 evs w) :
    evs.count .advance + w.budget ≤ stepBound src0 w.hub.readers.size := by
  unfold Spent at h
  split at h
  · rename_i hp
    simp [h, budget, hp]
  · exact h

theorem spent_of_le (h : evs.count .advance + w.budget ≤ stepBound src0 w.hub.readers.size)
    (hp : w.phase ≠ .idle) : Spent src0 evs w := by
  unfold Spent
  split
  · contradiction
  · exact h

theorem budget_congr (hp : w'.phase = w.phase) (hs : w'.source = w.source)
    (hr : w'.hub.registrations = w.hub.registrations)
    (hz : w'.hub.readers.size = w.hub.readers.size) : w'.budget = w.budget := by
  simp only [budget, hp, hs, hr, hz]

/-- A step of another thread that leaves the broadcasting thread, the source, the deque and the
readers made alone keeps what was spent. -/
theorem spent_congr {e : Event} (he : e ≠ .advance) (h : Spent src0 evs w)
    (hp : w'.phase = w.phase) (hs : w'.source = w.source)
    (hr : w'.hub.registrations = w.hub.registrations)
    (hz : w'.hub.readers.size = w.hub.readers.size) : Spent src0 (evs ++ [e]) w' := by
  have hc : (evs ++ [e]).count .advance = evs.count .advance := by
    simp [List.count_append, he]
  unfold Spent at h ⊢
  rw [hp, hc, budget_congr hp hs hr hz, hz]
  exact h

theorem registrations_length_le (hS : Story evs reps w) :
    w.hub.registrations.length ≤ w.hub.readers.size := by
  have hsub := hS.regs_nodup.subperm fun i hi => List.mem_range.2 (hS.regs_lt i hi)
  simpa using hsub.length_le

/-- Every step keeps what was spent within the bound: the broadcasting thread's steps spend its
budget, `broadcast` sets it, and no other step raises it. -/
theorem spent_step (hS : Story evs reps w) (hc : Cutting n src0 segs w) (h : Spent src0 evs w)
    {e : Event} (hs : w.step e = some (rep, w')) : Spent src0 (evs ++ [e]) w' := by
  have hle := h.le
  cases e with
  | advance =>
    have hlt := advance_budget (registrations_length_le hS) hs
    refine spent_of_le ?_ ?_
    · rw [advance_readers_size hs]
      simp only [List.count_append, List.count_singleton_self]
      omega
    · cases advance_advanced hs with
      | move _ hd' _ => intro hp; simp [Distributing, hp] at hd'
      | remove _ _ _ hd' _ _ _ => intro hp; simp [Distributing, hp] at hd'
      | enqueue _ _ hd' _ _ => intro hp; simp [Distributing, hp] at hd'
      | stop _ _ _ hp' => simp [hp']
      | release _ => simp
      | finish _ => simp
  | read i k =>
    obtain ⟨-, -, -, -, -, -, -, -, rfl⟩ := step_read hs
    exact spent_congr (by simp) h rfl rfl (by simp) (by simp)
  | close i =>
    obtain ⟨-, -, rfl⟩ := step_close hs
    exact spent_congr (by simp) h rfl rfl (by simp [Hub.close]) (by simp [Hub.close])
  | drop i =>
    obtain ⟨-, -, rfl⟩ := step_drop hs
    exact spent_congr (by simp) h rfl rfl (by simp [Hub.drop]) (by simp [Hub.drop])
  | abort =>
    obtain ⟨-, rfl⟩ := step_abort hs
    exact spent_congr (by simp) h rfl rfl rfl rfl
  | newReader =>
    obtain ⟨hfree, -, rfl⟩ := step_newReader hs
    have hc' : (evs ++ [Event.newReader]).count Event.advance = evs.count .advance := by
      simp [List.count_append]
    rcases phase_of_ownerFree hfree with hp | ⟨res, hp⟩
    · simp only [Spent, hp] at h ⊢
      rw [hc', h]
    · -- after the broadcast the budget stays spent, the bound grows with the readers
      refine spent_of_le ?_ (by simp [hp])
      have hb : ({ w with hub := (w.hub.addReader none).1 } : World).budget = 0 := by
        simp [budget, hp]
      have hw : w.budget = 0 := by simp [budget, hp]
      rw [hc', hb]
      rw [hw] at hle
      exact Nat.le_trans hle (stepBound_mono src0 (by simp))
  | broadcast =>
    obtain ⟨hfree, ⟨-, -, rfl⟩ | ⟨hfin, -, rfl⟩⟩ := step_broadcast hs
    · have hc' : (evs ++ [Event.broadcast]).count Event.advance = evs.count .advance := by
        simp [List.count_append]
      unfold Spent at h ⊢
      rw [hc']
      exact h
    · -- the first call sets the budget of the whole broadcast
      have hidle : w.phase = .idle :=
        hS.idle_of_ownerFree hfree fun hb => by simp [hS.finished.2 hb] at hfin
      simp only [Cutting, hidle] at hc
      simp only [Spent, hidle] at h
      refine spent_of_le ?_ (by simp)
      simp only [budget, stepBound, List.count_append, h, hc.2]
      simp [Nat.succ_mul]
      omega
  | dropBroadcaster =>
    obtain ⟨-, -, rfl⟩ := step_dropBroadcaster hs
    have hc' : (evs ++ [Event.dropBroadcaster]).count Event.advance = evs.count .advance := by
      simp [List.count_append]
    refine spent_of_le ?_ (by simp)
    have hz : (if w.hub.finished then w.hub else w.hub.releaseAll (some .closed)).readers.size =
        w.hub.readers.size := by
      split
      · rfl
      · exact Hub.size_releaseAll _ _
    simp only [budget, hc', hz]
    omega

/-- While the broadcast goes on, its thread can take its next step: every registration names a
reader made. -/
theorem advance_enabled (hlt : ∀ i ∈ w.hub.registrations, i < w.hub.readers.size)
    (hp : w.Distributing ∨ ∃ res rest, w.phase = .releasing res rest) :
    ∃ rep w', w.advance = some (rep, w') := by
  cases hph : w.phase with
  | idle | returned _ | gone => simp [Distributing, hph] at hp
  | top =>
    simp only [advance, hph]
    split <;> exact ⟨_, _, rfl⟩
  | filling acc =>
    simp only [advance, hph]
    split
    · split <;> exact ⟨_, _, rfl⟩
    all_goals exact ⟨_, _, rfl⟩
  | offering seg ending i =>
    simp only [advance, hph]
    split
    · rename_i hi
      split
      · exact ⟨_, _, rfl⟩
      · have hr : (w.hub.reader? w.hub.registrations[i]).isSome := by
          simp [Hub.reader?, hlt _ (List.getElem_mem hi)]
        split
        · rename_i hnone
          simp [hnone] at hr
        · split <;> exact ⟨_, _, rfl⟩
    · exact ⟨_, _, rfl⟩
  | releasing res rest =>
    simp only [advance, hph]
    cases rest <;> exact ⟨_, _, rfl⟩

/-- Wherever the broadcast stands, the segments handed over cut the first bytes the source
delivers, and the source is read at most through its end. -/
theorem Cutting.sound (h : Cutting n src0 segs w) (hn : 0 < n) :
    CutInto n segs.flatten segs ∧ segs.flatten <+: (Source.outcome src0).1 ∧
      (Source.afterEnd w.source = Source.afterEnd src0 ∨ w.source = Source.afterEnd src0) := by
  unfold Cutting at h
  split at h
  · obtain ⟨rfl, hsrc⟩ := h
    exact ⟨CutInto.of_full (by simp) hn, List.nil_prefix, .inl (by rw [hsrc])⟩
  · exact h.sound hn
  · exact h.1.sound hn
  · exact h.sound hn
  · exact h.sound
  · exact h.1.sound
  · exact h.1.sound
  · rcases h with ⟨rfl, hsrc⟩ | ⟨res, h⟩
    · exact ⟨CutInto.of_full (by simp) hn, List.nil_prefix, .inl (by rw [hsrc])⟩
    · exact h.sound

end World

/-! ## Along a history -/

/-- What a history of a broadcaster of `src0`, in segments of `n` bytes, tells of the world `w`
it reaches, having handed `segs` to `distribute`. -/
structure Broadcasting (n : Nat) (src0 : Source) (evs : List Event) (reps : List Report)
    (segs : List (List UInt8)) (w : World) : Prop where
  story : Story evs reps w
  segmentLen : w.hub.segmentLen = n
  cutting : w.Cutting n src0 segs
  spent : w.Spent src0 evs

/-- **The run lemma.** Every history of a new broadcaster with no abort keeps the invariant. -/
theorem Broadcasting.run {segmentSize queueLen : Nat} {src : Source} {evs : List Event}
    {reps : List Report} {w : World}
    (hrun : (World.new segmentSize queueLen src).run evs = some (reps, w))
    (habort : .abort ∉ evs) :
    Broadcasting (max segmentSize 1) src evs reps
      ((World.new segmentSize queueLen src).segmentsAlong evs) w := by
  induction evs using List.reverseRecOn generalizing reps w with
  | nil =>
    simp only [World.run, Option.some.injEq, Prod.mk.injEq] at hrun
    obtain ⟨rfl, rfl⟩ := hrun
    exact ⟨Story.new segmentSize queueLen src, rfl, ⟨rfl, rfl⟩, rfl⟩
  | append_singleton evs e ih =>
    rw [World.run_snoc] at hrun
    rcases hprev : (World.new segmentSize queueLen src).run evs with _ | ⟨reps₀, w₀⟩
    · simp [hprev] at hrun
    rcases hs : w₀.step e with _ | ⟨rep, w'⟩
    · simp [hprev, hs] at hrun
    simp only [hprev, hs, Option.bind_some, Option.map_some, Option.some.injEq,
      Prod.mk.injEq] at hrun
    obtain ⟨rfl, rfl⟩ := hrun
    have hab : Event.abort ∉ evs := fun h => habort (List.mem_append_left _ h)
    have he : e ≠ .abort := fun h => habort (by simp [h])
    obtain ⟨hS, hlen, hc, hsp⟩ := ih hprev hab
    refine ⟨hS.step hs, ?_, ?_, World.spent_step hS hc hsp hs⟩
    · rw [← hlen]
      unfold Hub.segmentLen
      rw [World.step_segmentSize hs]
    · rw [World.segmentsAlong_snoc hprev hs]
      exact World.cutting_step hS hab he hlen hc hs

/-- What the first broadcast of `src`, in segments of `n` bytes, did along a history `evs` with
reports `reps` that reached `w`, having handed `segs` to `distribute`. -/
structure FirstBroadcast (n : Nat) (src : Source) (evs : List Event) (reps : List Report)
    (segs : List (List UInt8)) (w : World) : Prop where
  /-- Every segment has between one and `n` bytes: none is empty. -/
  sizes : ∀ s ∈ segs, 0 < s.length ∧ s.length ≤ n
  /-- Every segment but the last has `n` bytes. -/
  full : ∀ s ∈ segs.dropLast, s.length = n
  /-- Together the segments are the first bytes the source delivers. -/
  firstBytes : segs.flatten <+: (Source.outcome src).1
  /-- The source is not read past its first end: that end is still ahead, or was just read. -/
  rest : Source.afterEnd w.source = Source.afterEnd src ∨ w.source = Source.afterEnd src
  /-- The broadcasting thread took at most `stepBound src R` steps, with `R` readers made. -/
  steps : evs.count .advance ≤ World.stepBound src w.hub.readers.size
  /-- While the broadcast goes on, its thread can take its next step. -/
  enabled : w.Distributing ∨ (∃ res rest, w.phase = .releasing res rest) →
    ∃ rep w', w.advance = some (rep, w')
  /-- Once `broadcast` returned `res`: it returned the result the source's end calls for, having
  handed over all the source delivers, in `⌈|S| / n⌉` segments, read the source exactly through
  its end and let go of every registration; a second call returns closed and changes nothing. -/
  returned : ∀ res, w.phase = .returned res →
    res = broadcastResult (Source.outcome src).2 ∧ firstReturn reps = some res ∧
      segs.flatten = (Source.outcome src).1 ∧
      segs.length = ((Source.outcome src).1.length + n - 1) / n ∧
      w.source = Source.afterEnd src ∧ w.hub.registrations = [] ∧
      w.step .broadcast = some (.returned (.error (Error.closed .broadcast)), w)

/-- **A broadcast cuts its source in segments.** Take any history `evs` of a broadcaster of `src`
and its readers, from a new broadcaster, in which the abort signal is never raised, every thread
taking its steps in any order. The segments handed to `distribute` have between one and `n`
bytes, `n` the segment size with 0 counting as 1, all but the last `n`, and are the first bytes
the source delivers; the source is never read past its first end; the broadcasting thread takes
a bounded number of steps and is never stuck, so `broadcast` terminates. Once it returned, it
returned `Ok` after the end of data or the last chunk and the source's failure otherwise, having
handed over all the source delivers in `⌈|S| / n⌉` segments, read the source exactly through its
end and let go of every registration; a second call returns closed without reading the
source. -/
theorem broadcast_cuts_source {segmentSize queueLen : Nat} {src : Source} {evs : List Event}
    {reps : List Report} {w : World}
    (hrun : (World.new segmentSize queueLen src).run evs = some (reps, w))
    (habort : .abort ∉ evs) :
    FirstBroadcast (max segmentSize 1) src evs reps
      ((World.new segmentSize queueLen src).segmentsAlong evs) w := by
  obtain ⟨hS, -, hc, hsp⟩ := Broadcasting.run hrun habort
  have hn : 0 < max segmentSize 1 := by omega
  obtain ⟨hcut, hpre, hrest⟩ := hc.sound hn
  refine ⟨hcut.sizes hn, hcut.full, hpre, hrest, ?_, World.advance_enabled hS.regs_lt, ?_⟩
  · have := hsp.le
    omega
  · intro res hp
    simp only [World.Cutting, hp] at hc
    obtain ⟨⟨hcut', hsrc, hres⟩, hregs⟩ := hc
    have hfin : w.hub.finished = true :=
      hS.finished.2 (hS.started_of_phase (by simp [hp]) (by simp [hp]))
    refine ⟨hres, hS.returned res hp, hcut'.flatten, hcut'.length_eq hn, hsrc, hregs, ?_⟩
    simp [World.step, World.ownerFree, hp, hfin]

/-- Segments of three bytes of a source of four, read in pieces of two and one with an
interruption between them: a full segment and one of one byte, the chunk after the end left
unread. -/
theorem broadcast_cuts_four_bytes_in_three :
    let w₀ := World.new 3 4 [.data [97, 98], .interrupt, .data [99, 100], .eof, .data [101]]
    let evs : List Event := [.newReader, .broadcast] ++ List.replicate 13 .advance
    ∃ reps w, w₀.run evs = some (reps, w) ∧ .abort ∉ evs ∧
      w₀.segmentsAlong evs = [[97, 98, 99], [100]] ∧ w.phase = .returned (.ok ()) ∧
      FirstBroadcast 3 [.data [97, 98], .interrupt, .data [99, 100], .eof, .data [101]] evs reps
        (w₀.segmentsAlong evs) w := by
  dsimp only
  exact ⟨_, _, rfl, by decide, rfl, rfl, @broadcast_cuts_source 3 4 _ _ _ _ rfl (by decide)⟩

end Plumbing.Broadcast
