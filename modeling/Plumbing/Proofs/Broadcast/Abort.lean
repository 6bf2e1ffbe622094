import Plumbing.Proofs.Broadcast.Backlog

/-!
# Aborting a broadcast

The abort signal, once raised, stays raised, and raising it again changes nothing. What it stops
(`abort_stops_broadcast`):

* every reader's queue: no step after the abort queues a segment, and no read takes one
  (`World.step_after_abort`);
* the broadcast, when its thread is bound to check the signal again before its loop can end
  (`World.ChecksAgain`): the thread then stays bound to end the loop as aborted
  (`World.Doomed.step`), `broadcast` returns aborted, and no slot takes the end of data or a
  failure.

The thread checks the signal only at the top of its loop and before each offer to a
registration. An abort raised while it fills a segment is checked when the fill ends full, or
ends short with bytes while a registration is left to offer them to (`World.FillChecks`); what
the fill will read is fixed by the source (`Source.outcome`). An abort raised during a fill that
ends with no bytes, or with no registration left, is never checked: `broadcast` returns success
or the source's failure, and leaves it in the slots (`abort_during_last_read_returns_ok`).
-/

namespace Plumbing.Broadcast

open Plumbing.Stream

/-! ## What a reader keeps after the abort -/

namespace Reader

/-- After the abort signal a read takes nothing from the queue and nothing from the slot. -/
theorem read_after_abort_keeps {r r' : Reader} {k : Nat} {res : Except Error (List UInt8)}
    (h : r.read true k = (.done res, r')) : r'.queue = r.queue ∧ r'.slot = r.slot := by
  unfold read at h
  split at h
  · simp only [Prod.mk.injEq, ReadStep.done.injEq] at h
    obtain ⟨rfl, rfl⟩ := h
    exact ⟨rfl, rfl⟩
  · simp only [↓reduceIte, abortRead, Prod.mk.injEq, ReadStep.done.injEq] at h
    obtain ⟨rfl, rfl⟩ := h
    exact ⟨rfl, rfl⟩

theorem release_queue (r : Reader) (t : Option Terminal) : (r.release t).queue = r.queue := by
  rcases t with _ | t
  · rfl
  · simp only [release, offer]
    split <;> rfl

/-- Letting go of a reader adds at most `t` to its slot. -/
theorem mem_release_slot {r : Reader} {t : Option Terminal} {t' : Terminal}
    (h : t' ∈ (r.release t).slot) : t' ∈ r.slot ∨ t = some t' := by
  rcases t with _ | t
  · exact .inl h
  · simp only [release, offer] at h
    split at h
    · simp only [List.mem_append, List.mem_singleton] at h
      exact h.imp_right (fun h => by rw [h])
    · exact .inl h

theorem offer_queue (r : Reader) (t : Terminal) : (r.offer t).queue = r.queue := by
  simp only [offer]
  split <;> rfl

theorem mem_offer_slot {r : Reader} {t t' : Terminal} (h : t' ∈ (r.offer t).slot) :
    t' ∈ r.slot ∨ t' = t := by
  simp only [offer] at h
  split at h
  · simpa using h
  · exact .inl h

end Reader

/-! ## The world after the abort -/

namespace World

/-- The segments queued to reader `R` and not yet taken into its buffer. -/
def queueOf (w : World) (R : Nat) : List (List UInt8) :=
  ((w.hub.reader? R).map Reader.queue).getD []

/-- The terminals waiting in reader `R`'s slot. -/
def slotOf (w : World) (R : Nat) : List Terminal :=
  ((w.hub.reader? R).map Reader.slot).getD []

/-- The fill under way, with `acc` read into the segment, ends where the thread checks the
signal: the source still delivers bytes, enough to fill the segment, which is then offered; or
the fill ends short with bytes while a registration is left to offer them to. -/
def FillChecks (w : World) (acc : List UInt8) : Prop :=
  ((Source.outcome w.source).1 ≠ [] ∧
      w.hub.segmentLen ≤ acc.length + (Source.outcome w.source).1.length) ∨
    (acc ++ (Source.outcome w.source).1 ≠ [] ∧ 0 < w.hub.registrations.length)

/-- The broadcasting thread checks the abort signal again before its loop can end: `broadcast`
was not called yet, or the thread stands at the top of its loop, or it fills a segment whose
fill ends where it checks, or it offers a segment whose fill did not end the source, or it has a
registration left to offer a segment to. -/
def ChecksAgain (w : World) : Prop :=
  match w.phase with
  | .idle | .top | .offering _ none _ => True
  | .filling acc => w.FillChecks acc
  | .offering _ (some _) i => i < w.hub.registrations.length
  | _ => False

/-- Where the broadcasting thread stands once it is bound to end its loop as aborted: it checks
the signal again before the loop can end, or it ended the loop as aborted; or the broadcaster is
gone. -/
def Doomed (w : World) : Prop :=
  match w.phase with
  | .idle | .top | .offering _ none _ | .gone => True
  | .filling acc => w.FillChecks acc
  | .offering _ (some _) i => i < w.hub.registrations.length
  | .releasing res _ | .returned res => res = .error (Error.aborted .broadcast)

theorem checksAgain_doomed {w : World} (h : w.ChecksAgain) : w.Doomed := by
  rcases hp : w.phase with _ | _ | _ | ⟨seg, _ | en, i⟩ | _ | _ | _ <;>
    simp_all [ChecksAgain, Doomed]

theorem doomed_congr {w w' : World} (hp : w'.phase = w.phase)
    (hregs : w'.hub.registrations = w.hub.registrations) (hsrc : w'.source = w.source)
    (hsize : w'.hub.segmentSize = w.hub.segmentSize) : w'.Doomed ↔ w.Doomed := by
  unfold Doomed FillChecks Hub.segmentLen
  rw [hp, hregs, hsrc, hsize]

theorem doomed_of_releasing {w : World} (hd : w.Doomed) {res : Except Error Unit}
    {rest : List Nat} (hp : w.phase = .releasing res rest) :
    res = .error (Error.aborted .broadcast) := by
  simpa [Doomed, hp] using hd

/-- A step that changes reader `R` by a map keeping its queue, and adding to its slot only
terminals with the property `P`, keeps `R`'s queue and adds only such terminals to its slot. -/
theorem frozen_of_map {w w' : World} {R : Nat} {f : Reader → Reader} {P : Terminal → Prop}
    (hr : w'.hub.reader? R = (w.hub.reader? R).map f) (hq : ∀ r, (f r).queue = r.queue)
    (hs : ∀ r, ∀ t ∈ (f r).slot, t ∈ r.slot ∨ P t) :
    w'.queueOf R = w.queueOf R ∧ ∀ t ∈ w'.slotOf R, t ∈ w.slotOf R ∨ P t := by
  cases hw : w.hub.reader? R with
  | none => simp [queueOf, slotOf, hr, hw]
  | some r =>
    refine ⟨by simp [queueOf, hr, hw, hq], fun t ht => ?_⟩
    simp only [slotOf, hr, hw, Option.map_some, Option.getD_some] at ht ⊢
    exact hs r t ht

theorem frozen_of_eq {w w' : World} {R : Nat} {P : Terminal → Prop}
    (hr : w'.hub.reader? R = w.hub.reader? R) :
    w'.queueOf R = w.queueOf R ∧ ∀ t ∈ w'.slotOf R, t ∈ w.slotOf R ∨ P t :=
  frozen_of_map (f := id) (by rw [hr, Option.map_id, id]) (fun _ => rfl) fun _ t ht => .inl ht

/-- **After the abort signal no step changes a reader's queue**, and a step adds to a slot only
closed, or the terminal of the broadcast result it lets go of the reader with. -/
theorem step_after_abort {w w' : World} {e : Event} {rep : Report} (hab : w.hub.aborted = true)
    (hnd : w.hub.registrations.Nodup) (hs : w.step e = some (rep, w')) (R : Nat) :
    w'.queueOf R = w.queueOf R ∧ ∀ t ∈ w'.slotOf R, t ∈ w.slotOf R ∨
      (t = .closed ∨ ∃ res rest, w.phase = .releasing res rest ∧ Hub.terminalOf res = some t) := by
  cases e with
  | newReader =>
    obtain ⟨-, -, rfl⟩ := step_newReader hs
    by_cases hR : R = w.hub.readers.size
    · -- the reader made now has an empty queue, and closed at most in its slot
      subst hR
      have hnone : w.hub.reader? w.hub.readers.size = none := by simp [Hub.reader?]
      refine ⟨by simp [queueOf, Hub.reader?_addReader, hnone, Reader.new], fun t ht => ?_⟩
      simp only [slotOf, Hub.reader?_addReader, ↓reduceIte, Option.map_some,
        Option.getD_some, Reader.new] at ht
      split at ht <;> simp_all
    · exact frozen_of_eq (by simp [Hub.reader?_addReader, hR])
  | broadcast =>
    obtain ⟨-, ⟨-, -, rfl⟩ | ⟨-, -, rfl⟩⟩ := step_broadcast hs
    · exact frozen_of_eq rfl
    · exact frozen_of_eq (by simp [Hub.reader?])
  | advance =>
    rcases advance_reader? hs R with ⟨hr, -⟩ | ⟨r, -, -, -, hab', -⟩ | ⟨res, rest, hp, -, hr⟩
    · exact frozen_of_eq hr
    · rw [hab] at hab'
      cases hab'
    · refine frozen_of_map hr (fun r => r.release_queue _) fun r t ht => ?_
      exact (Reader.mem_release_slot ht).imp_right fun h => .inr ⟨res, R :: rest, hp, h⟩
  | read i k =>
    obtain ⟨r, res, r', hr, -, -, hrd, -, rfl⟩ := step_read hs
    rw [hab] at hrd
    obtain ⟨hq, hsl⟩ := Reader.read_after_abort_keeps hrd
    by_cases hi : i = R
    · subst hi
      refine ⟨by simp [queueOf, Hub.reader?_modify_self, hr, hq], fun t ht => .inl ?_⟩
      simpa [slotOf, Hub.reader?_modify_self, hr, hsl] using ht
    · exact frozen_of_eq (Hub.reader?_modify_ne _ hi _)
  | close i =>
    obtain ⟨-, -, rfl⟩ := step_close hs
    by_cases hi : i = R
    · subst hi
      refine frozen_of_map (Hub.reader?_modify_self _ _ _) (fun r => ?_) fun r t ht => ?_
      · split
        · rfl
        · exact r.offer_queue _
      · split at ht
        · exact .inl ht
        · exact (Reader.mem_offer_slot ht).imp_right .inl
    · exact frozen_of_eq (Hub.reader?_modify_ne _ hi _)
  | drop i =>
    obtain ⟨-, -, rfl⟩ := step_drop hs
    by_cases hi : i = R
    · subst hi
      exact frozen_of_map (f := fun r => { r with detached := true, dropped := true })
        (Hub.reader?_modify_self _ _ _) (fun _ => rfl) fun _ t ht => .inl ht
    · exact frozen_of_eq (Hub.reader?_modify_ne _ hi _)
  | abort =>
    obtain ⟨-, rfl⟩ := step_abort hs
    exact frozen_of_eq (by simp [Hub.reader?])
  | dropBroadcaster =>
    obtain ⟨-, -, rfl⟩ := step_dropBroadcaster hs
    split
    · exact frozen_of_eq rfl
    · by_cases hR : R ∈ w.hub.registrations
      · refine frozen_of_map (Hub.reader?_releaseAll_of_mem hR hnd _) (fun r => r.release_queue _)
          fun r t ht => (Reader.mem_release_slot ht).imp_right fun h => .inl ?_
        simpa using h.symm
      · exact frozen_of_eq (Hub.reader?_releaseAll_of_not_mem hR _)

/-- What a read into the segment being filled does: it keeps filling with the bytes read when
they do not fill the segment, ends the fill with them when they do, ends it at the end of data
or at a failure, or passes over an interruption or a pause. -/
theorem advance_of_filling {w w' : World} {rep : Report} {acc : List UInt8}
    (hp : w.phase = .filling acc) (hs : w.advance = some (rep, w')) :
    rep = .quiet ∧ ∃ y src, Source.read (w.hub.segmentLen - acc.length) w.source = (y, src) ∧
      ((∃ b, y = .bytes b ∧ acc.length + b.length < w.hub.segmentLen ∧
          w' = { w with source := src, phase := .filling (acc ++ b) }) ∨
        (∃ b, y = .bytes b ∧ w' = { w with source := src }.endFill (acc ++ b) none) ∨
        (y = .done ∧ w' = { w with source := src }.endFill acc (some .eof)) ∨
        (∃ e, y = .failed e ∧ w' = { w with source := src }.endFill acc (some (.failed e))) ∨
        ((y = .interrupted ∨ y = .paused) ∧ w' = { w with source := src })) := by
  simp only [advance, hp] at hs
  split at hs
  · rename_i b src heq
    split at hs
    · cases hs
      exact ⟨rfl, _, _, heq, .inl ⟨b, rfl, ‹_›, rfl⟩⟩
    · cases hs
      exact ⟨rfl, _, _, heq, .inr (.inl ⟨b, rfl, rfl⟩)⟩
  · rename_i src heq
    cases hs
    exact ⟨rfl, _, _, heq, .inr (.inr (.inl ⟨rfl, rfl⟩))⟩
  · rename_i src heq
    cases hs
    exact ⟨rfl, _, _, heq, .inr (.inr (.inr (.inr ⟨.inl rfl, by rw [hp]⟩)))⟩
  · rename_i src heq
    cases hs
    exact ⟨rfl, _, _, heq, .inr (.inr (.inr (.inr ⟨.inr rfl, by rw [hp]⟩)))⟩
  · rename_i e src heq
    cases hs
    exact ⟨rfl, _, _, heq, .inr (.inr (.inr (.inl ⟨e, rfl, rfl⟩)))⟩

/-- A read into the segment being filled keeps the thread bound to check the signal: the bytes
it reads move from the source's outcome into the segment, and a fill that ends full, or short
with bytes and a registration left, leads to an offer, which checks. -/
theorem Doomed.advance_filling {w w' : World} {rep : Report} {acc : List UInt8}
    (hp : w.phase = .filling acc) (hd : w.Doomed) (hs : w.advance = some (rep, w')) :
    w'.Doomed ∧ rep = .quiet := by
  simp only [Doomed, hp] at hd
  obtain ⟨hrep, y, src, hr, hcases⟩ := advance_of_filling hp hs
  have hout := Source.outcome_read (w.hub.segmentLen - acc.length) w.source
  rw [hr] at hout
  -- a fill that ends short with the source delivering nothing more offers what it read
  have short : ∀ en, (Source.outcome w.source).1 = [] →
      ({ w with source := src }.endFill acc (some en)).Doomed := by
    intro en ho
    simp only [FillChecks, ho, ne_eq, not_true_eq_false, false_and, List.append_nil,
      false_or] at hd
    rw [endFill_of_ne_nil _ hd.1]
    exact hd.2
  refine ⟨?_, hrep⟩
  rcases hcases with ⟨b, rfl, hlt, rfl⟩ | ⟨b, rfl, rfl⟩ | ⟨rfl, rfl⟩ | ⟨e, rfl, rfl⟩ | ⟨hy, rfl⟩
  · -- the bytes read move from the outcome into the segment
    simp only [Doomed, FillChecks, hout, Yield.outcomeBefore, List.length_append,
      List.append_assoc] at hd ⊢
    rcases hd with ⟨-, hfull⟩ | hshort
    · refine .inl ⟨fun h => ?_, by omega⟩
      simp only [h, List.length_nil] at hfull
      omega
    · exact .inr hshort
  · -- a full segment is offered
    by_cases hb : acc ++ b = []
    · rw [hb, endFill_nil]
      trivial
    · rw [endFill_of_ne_nil _ hb]
      trivial
  · exact short _ (by rw [hout]; rfl)
  · exact short _ (by rw [hout]; rfl)
  · -- an interruption or a pause delivers nothing
    have ho : Source.outcome w.source = Source.outcome src := by
      rcases hy with rfl | rfl <;> exact hout
    simpa [Doomed, FillChecks, ho, hp] using hd

/-- **A broadcasting thread bound to end its loop as aborted stays so** once the abort signal is
raised: every step keeps it bound, and `broadcast` returns aborted, unless it had returned
before. -/
theorem Doomed.step {evs : List Event} {reps : List Report} {w w' : World} {e : Event}
    {rep : Report} (hS : Story evs reps w) (hab : w.hub.aborted = true) (hd : w.Doomed)
    (hs : w.step e = some (rep, w')) :
    w'.Doomed ∧ ∀ res, rep = .returned res →
      res = .error (Error.aborted .broadcast) ∨ firstReturn reps ≠ none := by
  cases e with
  | newReader =>
    obtain ⟨hfree, rfl, rfl⟩ := step_newReader hs
    refine ⟨?_, fun _ h => by cases h⟩
    simp only [ownerFree] at hfree
    unfold Doomed at hd ⊢
    split at hfree <;> simp_all
  | broadcast =>
    obtain ⟨hfree, ⟨hfin, rfl, rfl⟩ | ⟨-, rfl, rfl⟩⟩ := step_broadcast hs
    · -- a second call returns closed, after the first call returned
      obtain ⟨res, hp⟩ := hS.returned_of_ownerFree hfree (hS.finished.1 hfin)
      exact ⟨hd, fun _ _ => .inr (by simp [hS.returned res hp])⟩
    · exact ⟨trivial, fun _ h => by cases h⟩
  | advance =>
    simp only [World.step] at hs
    cases hp : w.phase with
    | idle | returned _ | gone => simp [advance, hp] at hs
    | top =>
      simp only [advance, hp, hab, ↓reduceIte, Option.some.injEq, Prod.mk.injEq] at hs
      obtain ⟨rfl, rfl⟩ := hs
      exact ⟨by simp [Doomed], fun _ h => by cases h⟩
    | filling acc =>
      obtain ⟨hd', rfl⟩ := Doomed.advance_filling hp hd hs
      exact ⟨hd', fun _ h => by cases h⟩
    | offering seg ending i =>
      simp only [advance, hp] at hs
      split at hs
      · simp only [Option.some.injEq, Prod.mk.injEq] at hs
        obtain ⟨rfl, rfl⟩ := hs
        exact ⟨by simp [Doomed], fun _ h => by cases h⟩
      · -- past the last registration: the segment's fill did not end the source
        rename_i hi
        cases ending with
        | none =>
          simp only [Option.some.injEq, Prod.mk.injEq] at hs
          obtain ⟨rfl, rfl⟩ := hs
          exact ⟨trivial, fun _ h => by cases h⟩
        | some en => simp [Doomed, hp, hi] at hd
    | releasing res rest =>
      have hres := doomed_of_releasing hd hp
      simp only [advance, hp] at hs
      split at hs
      · simp only [Option.some.injEq, Prod.mk.injEq] at hs
        obtain ⟨rfl, rfl⟩ := hs
        refine ⟨by simp [Doomed, hres], fun res' h => .inl ?_⟩
        cases h
        exact hres
      · simp only [Option.some.injEq, Prod.mk.injEq] at hs
        obtain ⟨rfl, rfl⟩ := hs
        exact ⟨by simp [Doomed, hres], fun _ h => by cases h⟩
  | read i k =>
    obtain ⟨-, -, -, -, -, -, -, rfl, rfl⟩ := step_read hs
    exact ⟨(doomed_congr rfl rfl rfl rfl).2 hd, fun _ h => by cases h⟩
  | close i =>
    obtain ⟨-, rfl, rfl⟩ := step_close hs
    exact ⟨(doomed_congr rfl rfl rfl rfl).2 hd, fun _ h => by cases h⟩
  | drop i =>
    obtain ⟨-, rfl, rfl⟩ := step_drop hs
    exact ⟨(doomed_congr rfl rfl rfl rfl).2 hd, fun _ h => by cases h⟩
  | abort =>
    obtain ⟨rfl, rfl⟩ := step_abort hs
    exact ⟨(doomed_congr rfl rfl rfl rfl).2 hd, fun _ h => by cases h⟩
  | dropBroadcaster =>
    obtain ⟨-, rfl, rfl⟩ := step_dropBroadcaster hs
    exact ⟨trivial, fun _ h => by cases h⟩

end World

/-! ## Runs after the abort -/

/-- Where `broadcast` stands when its thread checks the abort signal again, it has not
returned. -/
theorem Story.firstReturn_of_checksAgain {evs : List Event} {reps : List Report} {w : World}
    (hS : Story evs reps w) (h : w.ChecksAgain) : firstReturn reps = none := by
  by_cases hd : w.Distributing
  · exact hS.distributing hd
  · have hidle : w.phase = .idle := by
      unfold World.ChecksAgain at h
      unfold World.Distributing at hd
      split at h <;> simp_all
    exact (hS.unstarted fun hb => hS.started hb hidle).1

/-- What the history tells once the abort signal was raised in the world `wa`: no reader's
queue changed since; and when the broadcasting thread was bound to check the signal again, it
is bound to end its loop as aborted, `broadcast` has not returned or returned aborted, and each
slot took at most closed. -/
structure Halting (wa : World) (reps : List Report) (w : World) : Prop where
  queues : ∀ R, w.queueOf R = wa.queueOf R
  doomed : wa.ChecksAgain → w.Doomed
  result : wa.ChecksAgain →
    firstReturn reps = none ∨ firstReturn reps = some (.error (Error.aborted .broadcast))
  slots : wa.ChecksAgain → ∀ R, ∀ t ∈ w.slotOf R, t ∈ wa.slotOf R ∨ t = .closed

namespace Halting

variable {evs : List Event} {reps : List Report} {wa w w' : World}

theorem start (hS : Story evs reps wa) :
    Halting wa (reps ++ [.quiet]) { wa with hub := { wa.hub with aborted := true } } where
  queues _ := rfl
  doomed h := (World.doomed_congr rfl rfl rfl rfl).2 (World.checksAgain_doomed h)
  result h := .inl (by rw [firstReturn_snoc_of_ne _ _ (by simp)]; exact hS.firstReturn_of_checksAgain h)
  slots _ _ _ ht := .inl ht

/-- Every step after the abort keeps what is told after it. -/
theorem step (hS : Story evs reps w) (hab : w.hub.aborted = true) (h : Halting wa reps w)
    {e : Event} {rep : Report} (hs : w.step e = some (rep, w')) :
    Halting wa (reps ++ [rep]) w' := by
  have hw := World.step_after_abort hab hS.regs_nodup hs
  refine ⟨fun R => (hw R).1.trans (h.queues R), fun hc => (World.Doomed.step hS hab (h.doomed hc) hs).1,
    fun hc => ?_, fun hc R t ht => ?_⟩
  · have hret := (World.Doomed.step hS hab (h.doomed hc) hs).2
    rcases h.result hc with hnone | hsome
    · rw [firstReturn_append_of_none hnone]
      cases rep with
      | returned res =>
        rcases hret res rfl with hres | hne
        · exact .inr (by simp [firstReturn, hres])
        · exact absurd hnone hne
      | _ => exact .inl rfl
    · exact .inr (firstReturn_append_of_some hsome _)
  · rcases (hw R).2 t ht with hin | hcl | ⟨res, rest, hp, ht'⟩
    · exact h.slots hc R t hin
    · exact .inr hcl
    · -- a broadcast that ended aborted leaves nothing in the slots it lets go of
      have hnone : Hub.terminalOf (.error (Error.aborted .broadcast)) = none := rfl
      rw [World.doomed_of_releasing (h.doomed hc) hp, hnone] at ht'
      cases ht'

end Halting

/-- Every run from a new broadcaster that raises the abort signal in `wa` tells what
`Halting` tells after it. -/
theorem Halting.run {segmentSize queueLen : Nat} {src : Source} {pre post : List Event}
    {reps₀ reps : List Report} {wa w : World}
    (hpre : (World.new segmentSize queueLen src).run pre = some (reps₀, wa))
    (hrun : (World.new segmentSize queueLen src).run (pre ++ .abort :: post) = some (reps, w)) :
    Halting wa reps w := by
  induction post using List.reverseRecOn generalizing reps w with
  | nil =>
    rw [World.run_snoc, hpre] at hrun
    simp only [World.step, Option.bind_some, Option.map_some, Option.some.injEq,
      Prod.mk.injEq] at hrun
    obtain ⟨rfl, rfl⟩ := hrun
    exact Halting.start (Tracked.run hpre 0).1
  | append_singleton post e ih =>
    rw [show pre ++ .abort :: (post ++ [e]) = (pre ++ .abort :: post) ++ [e] by simp,
      World.run_snoc] at hrun
    rcases hprev : (World.new segmentSize queueLen src).run (pre ++ .abort :: post) with
      _ | ⟨reps₁, w₁⟩
    · simp [hprev] at hrun
    rcases hs : w₁.step e with _ | ⟨rep, w'⟩
    · simp [hprev, hs] at hrun
    simp only [hprev, hs, Option.bind_some, Option.map_some, Option.some.injEq,
      Prod.mk.injEq] at hrun
    obtain ⟨rfl, rfl⟩ := hrun
    have hS := (Tracked.run hprev 0).1
    exact (ih hprev).step hS (hS.aborted.2 (by simp)) hs

/-- **Abort stops the broadcast.** Take any history of a broadcaster and its readers, from a new
broadcaster, that raises the abort signal in the world `wa`. From then on the signal stays
raised and raising it again changes nothing, and no reader's queue changes: nothing is queued
after the abort. If in `wa` the broadcasting thread is bound to check the signal again before
its loop can end (`broadcast` not called yet; the thread at the top of its loop; filling a
segment that the source fills, or ends short with bytes while a registration is left; or
offering a segment while a registration is left or while its fill did not end the source), then
`broadcast`, if it returned, returned aborted, and no reader's slot took the end of data or a
failure: every terminal in it was there at the abort, or is closed. -/
theorem abort_stops_broadcast {segmentSize queueLen : Nat} {src : Source} {pre post : List Event}
    {reps₀ reps : List Report} {wa w : World}
    (hpre : (World.new segmentSize queueLen src).run pre = some (reps₀, wa))
    (hrun : (World.new segmentSize queueLen src).run (pre ++ .abort :: post) = some (reps, w)) :
    w.hub.aborted = true ∧ w.step .abort = some (.quiet, w) ∧ (∀ R, w.queueOf R = wa.queueOf R) ∧
      (wa.ChecksAgain →
        (firstReturn reps = none ∨ firstReturn reps = some (.error (Error.aborted .broadcast))) ∧
        ∀ R, ∀ t ∈ w.slotOf R, t ∈ wa.slotOf R ∨ t = .closed) := by
  have h := Halting.run hpre hrun
  have hab : w.hub.aborted = true := (Tracked.run hrun 0).1.aborted.2 (by simp)
  refine ⟨hab, ?_, h.queues, fun hc => ⟨h.result hc, h.slots hc⟩⟩
  -- the signal is a flag: raising it again leaves the world as it is
  obtain ⟨hub, source, phase⟩ := w
  obtain ⟨readers, regs, segmentSize, queueLen, finished, aborted⟩ := hub
  simp only at hab
  subst hab
  rfl

/-- An abort raised while the broadcasting thread fills a segment, after it read `a` and before
the source ends short, stops a broadcast to one reader: the offer of `a` checks the signal, and
`broadcast` returns aborted with the reader's queue and slot left empty. -/
theorem abort_during_short_fill_stops_broadcast :
    ∃ reps₀ reps wa w,
      (World.new 2 32 [.data [97], .pause, .eof]).run
        [.newReader, .broadcast, .advance, .advance] = some (reps₀, wa) ∧
      (World.new 2 32 [.data [97], .pause, .eof]).run
        ([.newReader, .broadcast, .advance, .advance] ++ .abort :: List.replicate 5 .advance) =
          some (reps, w) ∧
      wa.phase = .filling [97] ∧ wa.ChecksAgain ∧
      firstReturn reps = some (.error (Error.aborted .broadcast)) ∧
      (w.hub.aborted = true ∧ w.step .abort = some (.quiet, w) ∧
        (∀ R, w.queueOf R = wa.queueOf R) ∧
        (wa.ChecksAgain →
          (firstReturn reps = none ∨ firstReturn reps = some (.error (Error.aborted .broadcast))) ∧
          ∀ R, ∀ t ∈ w.slotOf R, t ∈ wa.slotOf R ∨ t = .closed)) := by
  obtain ⟨⟨reps₀, wa⟩, hpre⟩ : ∃ p, (World.new 2 32 [.data [97], .pause, .eof]).run
      [.newReader, .broadcast, .advance, .advance] = some p := ⟨_, rfl⟩
  obtain ⟨⟨reps, w⟩, hrun⟩ : ∃ p, (World.new 2 32 [.data [97], .pause, .eof]).run
      ([.newReader, .broadcast, .advance, .advance] ++ .abort :: List.replicate 5 .advance) =
        some p := ⟨_, rfl⟩
  have hwa : ((World.new 2 32 [.data [97], .pause, .eof]).run
      [.newReader, .broadcast, .advance, .advance]).map
        (fun p => (p.2.phase, p.2.source, p.2.hub.registrations)) =
          some (.filling [97], [.pause, .eof], [0]) := rfl
  have hret : ((World.new 2 32 [.data [97], .pause, .eof]).run
      ([.newReader, .broadcast, .advance, .advance] ++ .abort :: List.replicate 5 .advance)).map
        (fun p => firstReturn p.1) = some (some (.error (Error.aborted .broadcast))) := rfl
  simp only [hpre, hrun, Option.map_some, Option.some.injEq, Prod.mk.injEq] at hwa hret
  obtain ⟨hphase, hsrc, hregs⟩ := hwa
  -- the fill ends short with the byte read, and a registration is left to offer it to
  have hagain : wa.ChecksAgain := by
    unfold World.ChecksAgain
    rw [hphase]
    exact .inr ⟨by simp [hsrc, Source.outcome], by simp [hregs]⟩
  exact ⟨reps₀, reps, wa, w, hpre, hrun, hphase, hagain, hret, abort_stops_broadcast hpre hrun⟩

/-- An abort raised while the broadcasting thread reads the source for the last time, a read
that finds the end of data, does not stop the broadcast: it returns success, and leaves the end
of data in its reader's slot. -/
theorem abort_during_last_read_returns_ok :
    let w₀ := World.new 2 32 [.data [97, 98], .pause, .eof]
    let pre : List Event := [.newReader, .broadcast] ++ List.replicate 6 .advance
    (w₀.run pre).map (fun p => p.2.phase) = some (.filling []) ∧
      (w₀.run (pre ++ .abort :: List.replicate 3 .advance)).map
        (fun p => (firstReturn p.1, p.2.slotOf 0)) = some (some (.ok ()), [.eof]) :=
  ⟨rfl, rfl⟩

end Plumbing.Broadcast
