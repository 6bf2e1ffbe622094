import Plumbing.Proofs.Broadcast.Backlog

/-!
# An offer visits each registration once

While the broadcasting thread offers a segment, `distribute` walks its deque of registrations by
position: the registration of an open reader is sent the segment and the walk moves on; that of
a closed or dropped reader is removed, the front registration taking its place, and the walk
stays where it is. Between any two of these steps the readers' threads read, close and drop
readers, and the abort signal may be raised.

`distribute_visits_each_once` proves, of every run that stays inside one offer, that the offer
visits each registration it began with exactly once (`World.offersAlong` lists the visits and
how each went), queues the segment to a reader once for each visit that sent it and never
otherwise, never sends it to a reader closed or dropped before the offer began, and, past the
last registration, keeps exactly the registrations it sent the segment to. Once the abort signal
is raised, the next visit stops the broadcast as aborted, the readers sent the segment being
those visited before.

The proof is the invariant `Visiting` of the deque alone: the registrations before the position
are those sent the segment, and those from it on, after the ones visited, are those the offer
began with. A send moves the position past one registration (`Visiting.send`); a removal puts
the front registration among those before the position and keeps those after it in order
(`Visiting.remove`, from `take_swapRemoveFront_perm` and `drop_swapRemoveFront`). Every other
thread's step leaves the deque and the position as they were (`World.step_keeps_offer`).
-/

namespace Plumbing.Broadcast

open Plumbing.Stream

/-- How the visit of one registration by an offer went. -/
inductive Offer
  /-- The segment was queued to the reader. -/
  | sent
  /-- The reader was closed or dropped: its registration was removed. -/
  | removed
  /-- The abort signal was raised: the broadcast stopped. -/
  | aborted
  deriving DecidableEq, Repr

/-- The readers a list of visits sent the segment to, in order. -/
def sentTo (offers : List (Nat × Offer)) : List Nat :=
  offers.filterMap fun o => if o.2 = .sent then some o.1 else none

@[simp] theorem sentTo_nil : sentTo [] = [] := rfl

@[simp] theorem sentTo_append (as bs : List (Nat × Offer)) :
    sentTo (as ++ bs) = sentTo as ++ sentTo bs := List.filterMap_append

@[simp] theorem sentTo_sent (R : Nat) : sentTo [(R, .sent)] = [R] := rfl

@[simp] theorem sentTo_removed (R : Nat) : sentTo [(R, .removed)] = [] := rfl

/-! ## The deque during an offer -/

/-- Where an offer that began with the registrations `L0` stands, having made the visits
`offers`, with the registrations `L` and at position `i`: the registrations before `i` are those
sent the segment, and those from `i` on, after those visited, are those the offer began with. -/
structure Visiting (L0 : List Nat) (offers : List (Nat × Offer)) (L : List Nat) (i : Nat) :
    Prop where
  le : i ≤ L.length
  sent : (sentTo offers).Perm (L.take i)
  visited : (offers.map Prod.fst ++ L.drop i).Perm L0

namespace Visiting

variable {L0 L : List Nat} {offers : List (Nat × Offer)} {i : Nat}

theorem start (L0 : List Nat) : Visiting L0 [] L0 0 :=
  ⟨Nat.zero_le _, by simp, by simp⟩

/-- Sending the segment to the registration at `i` moves the position past it. -/
theorem send (h : Visiting L0 offers L i) (hi : i < L.length) :
    Visiting L0 (offers ++ [(L[i], .sent)]) L (i + 1) := by
  refine ⟨hi, ?_, ?_⟩
  · rw [sentTo_append, sentTo_sent, List.take_add_one, List.getElem?_eq_getElem hi,
      Option.toList_some]
    exact h.sent.append_right _
  · rw [List.map_append, List.map_singleton, List.append_assoc, List.singleton_append,
      ← List.drop_eq_getElem_cons hi]
    exact h.visited

/-- Removing the registration at `i` keeps the position: the front registration joins those
before it, and those after it move down by one. -/
theorem remove (h : Visiting L0 offers L i) (hi : i < L.length) :
    Visiting L0 (offers ++ [(L[i], .removed)]) (swapRemoveFront L i) i := by
  have hlen := length_swapRemoveFront L i hi
  refine ⟨by omega, ?_, ?_⟩
  · rw [sentTo_append, sentTo_removed, List.append_nil]
    exact h.sent.trans (take_swapRemoveFront_perm hi).symm
  · rw [List.map_append, List.map_singleton, List.append_assoc, List.singleton_append,
      drop_swapRemoveFront hi, ← List.drop_eq_getElem_cons hi]
    exact h.visited

theorem progress (h : Visiting L0 offers L i) : offers.length + (L.length - i) = L0.length := by
  simpa using h.visited.length_eq

/-- Past the last registration, each registration the offer began with was visited once, and
those left are those sent the segment. -/
theorem done (h : Visiting L0 offers L i) (hi : L.length ≤ i) :
    (offers.map Prod.fst).Perm L0 ∧ (sentTo offers).Perm L := by
  have hdrop : L.drop i = [] := List.drop_eq_nil_of_le hi
  have htake : L.take i = L := List.take_of_length_le hi
  exact ⟨by simpa [hdrop] using h.visited, htake ▸ h.sent⟩

end Visiting

/-! ## The visits of a run -/

namespace World

/-- Whether reader `R` is closed or dropped, so that a visit of its registration removes it. -/
def isDetached (w : World) (R : Nat) : Bool :=
  (w.hub.reader? R).any fun r => r.detached || r.dropped

/-- Whether the broadcasting thread is offering a segment. -/
def offering? (w : World) : Bool :=
  match w.phase with
  | .offering .. => true
  | _ => false

/-- The visit the step `e` makes in `w`: when it is the broadcasting thread's visit of the
registration at position `i`, that registration's reader and how the visit goes. -/
def offerBy (w : World) : Event → Option (Nat × Offer)
  | .advance =>
    match w.phase with
    | .offering _ _ i =>
      w.hub.registrations[i]?.map fun id =>
        (id, if w.hub.aborted then .aborted else if w.isDetached id then .removed else .sent)
    | _ => none
  | _ => none

/-- The visits made along the history `evs`, in order. -/
def offersAlong (w : World) : List Event → List (Nat × Offer)
  | [] => []
  | e :: es =>
    match w.step e with
    | none => []
    | some (_, w') => (w.offerBy e).toList ++ w'.offersAlong es

/-- Whether the run of `evs` from `w` stays inside one offer: every world it passes through,
the first and the last among them, is offering a segment. -/
def staysOffering (w : World) : List Event → Bool
  | [] => w.offering?
  | e :: es =>
    w.offering? &&
      match w.step e with
      | none => true
      | some (_, w') => w'.staysOffering es

variable {w w' : World} {rep : Report} {seg : List UInt8} {ending : Option End} {i : Nat}

theorem isDetached_of_reader? {R : Nat} {r : Reader} (hr : w.hub.reader? R = some r) :
    w.isDetached R = (r.detached || r.dropped) := by
  simp [isDetached, hr]

theorem afterSegment_not_offering (ending : Option End) :
    (w.afterSegment ending).offering? = false := by
  rcases ending with _ | _ | e <;> rfl

theorem stop_not_offering (res : Except Error Unit) : (w.stop res).offering? = false := rfl

/-- **What one visit does.** A visit that leaves the broadcasting thread offering found no abort
and a reader at the registration at `i`: it removed the registration of a closed or dropped
reader, or queued the segment to an open one and moved on. -/
theorem advance_within_offer (hp : w.phase = .offering seg ending i)
    (h : w.advance = some (rep, w')) (hp' : w'.offering? = true) :
    ∃ hi : i < w.hub.registrations.length, w.hub.aborted = false ∧
      ∃ r, w.hub.reader? w.hub.registrations[i] = some r ∧
        (((r.detached || r.dropped) = true ∧
            w' = { w with hub := { w.hub with registrations := swapRemoveFront w.hub.registrations i } }) ∨
          ((r.detached || r.dropped) = false ∧
            w' = { w with hub := w.hub.enqueue w.hub.registrations[i] seg,
                          phase := .offering seg ending (i + 1) })) := by
  simp only [advance, hp] at h
  split at h
  · rename_i hi
    refine ⟨hi, ?_⟩
    split at h
    · -- the abort signal: the broadcast stops
      simp only [Option.some.injEq, Prod.mk.injEq] at h
      rw [← h.2, stop_not_offering] at hp'
      exact absurd hp' Bool.false_ne_true
    · rename_i hab
      refine ⟨Bool.eq_false_iff.2 hab, ?_⟩
      split at h
      · exact absurd h (by simp)
      · rename_i r hr
        refine ⟨r, hr, ?_⟩
        split at h
        · rename_i hdet
          simp only [Option.some.injEq, Prod.mk.injEq] at h
          exact .inl ⟨hdet, by rw [← h.2, hp]⟩
        · rename_i hdet
          simp only [Option.some.injEq, Prod.mk.injEq] at h
          exact .inr ⟨Bool.eq_false_iff.2 hdet, h.2.symm⟩
  · -- past the last registration the offer ends
    simp only [Option.some.injEq, Prod.mk.injEq] at h
    rw [← h.2, afterSegment_not_offering] at hp'
    exact absurd hp' Bool.false_ne_true

/-- Changing reader `j` in a way that keeps it closed or dropped, if it was, keeps every reader
closed or dropped that was. -/
theorem isDetached_modify {j : Nat} {f : Reader → Reader}
    (hf : ∀ r, w.hub.reader? j = some r → (r.detached || r.dropped) = true →
      ((f r).detached || (f r).dropped) = true) {R : Nat} (hR : w.isDetached R = true) :
    ({ w with hub := w.hub.modify j f } : World).isDetached R = true := by
  by_cases hj : j = R
  · subst hj
    rcases hr : w.hub.reader? j with _ | r
    · simp [isDetached, hr] at hR
    · simp only [isDetached, hr, Option.any_some] at hR
      simp [isDetached, Hub.reader?_modify_self, hr, hf r hr hR]
  · simpa [isDetached, Hub.reader?_modify_ne _ hj] using hR

/-- Every other thread's step leaves the deque and the broadcasting thread where they were, and
a reader closed or dropped stays so. -/
theorem step_keeps_offer (hp : w.phase = .offering seg ending i) {e : Event} (he : e ≠ .advance)
    (hs : w.step e = some (rep, w')) :
    w'.hub.registrations = w.hub.registrations ∧ w'.phase = w.phase ∧
      ∀ R, w.isDetached R = true → w'.isDetached R = true := by
  have hfree : w.ownerFree = false := by simp [ownerFree, hp]
  cases e with
  | newReader => simp [(step_newReader hs).1] at hfree
  | broadcast => simp [(step_broadcast hs).1] at hfree
  | dropBroadcaster => simp [(step_dropBroadcaster hs).1] at hfree
  | advance => exact absurd rfl he
  | read j k =>
    obtain ⟨r, res, r', hr, -, -, hrd, -, rfl⟩ := step_read hs
    obtain ⟨hd, hdr, -⟩ := Reader.read_shape hrd
    refine ⟨by simp, rfl, fun R hR => isDetached_modify (fun r₀ hr₀ h => ?_) hR⟩
    rw [hr, Option.some.injEq] at hr₀
    rw [hd, hdr, hr₀]
    exact h
  | close j =>
    obtain ⟨-, -, rfl⟩ := step_close hs
    refine ⟨by simp [Hub.close], rfl, fun R hR => isDetached_modify (fun r _ h => ?_) hR⟩
    split <;> simp_all
  | drop j =>
    obtain ⟨-, -, rfl⟩ := step_drop hs
    exact ⟨by simp [Hub.drop], rfl, fun R hR => isDetached_modify (fun _ _ _ => by simp) hR⟩
  | abort =>
    obtain ⟨-, rfl⟩ := step_abort hs
    exact ⟨rfl, rfl, fun R hR => hR⟩

theorem reader?_of_visit (hp : w.phase = .offering seg ending i)
    (hs : w.advance = some (rep, w')) {id : Nat} (hreg : w.hub.registrations[i]? = some id)
    (hab : w.hub.aborted = false) : ∃ r, w.hub.reader? id = some r := by
  obtain ⟨hi, rfl⟩ := List.getElem?_eq_some_iff.1 hreg
  simp only [advance, hp, dif_pos hi, hab, Bool.false_eq_true, if_false] at hs
  split at hs
  · exact absurd hs (by simp)
  · exact ⟨_, ‹_›⟩

/-- A visit queues the segment to exactly the reader it sends it to. -/
theorem queuedBy_eq_sent (hp : w.phase = .offering seg ending i) {e : Event}
    (hs : w.step e = some (rep, w')) (R : Nat) :
    w.queuedBy R e = (List.replicate ((sentTo (w.offerBy e).toList).count R) seg).flatten := by
  cases e with
  | advance =>
    simp only [queuedBy, offerBy, hp]
    rcases hreg : w.hub.registrations[i]? with _ | id
    · simp
    cases hab : w.hub.aborted
    · obtain ⟨r, hr⟩ := reader?_of_visit hp hs hreg hab
      by_cases hid : id = R
      · subst hid
        cases hd : r.detached <;> cases hdr : r.dropped <;> simp [isDetached, hr, hd, hdr]
      · simp [isDetached, hr, hid, sentTo]
        split <;> simp [hid]
    · simp [sentTo]
  | _ => simp [queuedBy, offerBy]

theorem offerBy_of_ne_advance {e : Event} (he : e ≠ .advance) : w.offerBy e = none := by
  cases e with
  | advance => exact absurd rfl he
  | _ => rfl

theorem offering?_of_stays {evs : List Event} (h : w.staysOffering evs = true) :
    w.offering? = true := by
  cases evs with
  | nil => exact h
  | cons e es => exact (Bool.and_eq_true_iff.1 h).1

theorem run_cons_eq_some {e : Event} {es : List Event} {reps : List Report}
    (h : w.run (e :: es) = some (reps, w')) :
    ∃ rep w₁ reps', w.step e = some (rep, w₁) ∧ w₁.run es = some (reps', w') := by
  simp only [run] at h
  rcases hs : w.step e with _ | ⟨o, w₁⟩
  · simp [hs] at h
  rcases hr : w₁.run es with _ | ⟨os, w₂⟩
  · simp [hs, hr] at h
  simp only [hs, hr, Option.some.injEq, Prod.mk.injEq] at h
  exact ⟨o, w₁, os, rfl, h.2 ▸ hr⟩

/-- Past the last registration the offer ends, by how the read that made the segment ended. -/
theorem advance_past_last (hp : w.phase = .offering seg ending i)
    (hi : w.hub.registrations.length ≤ i) : w.advance = some (.quiet, w.afterSegment ending) := by
  simp [advance, hp, Nat.not_lt.2 hi]

/-- Before it, a visit that finds the abort signal raised stops the broadcast as aborted. -/
theorem advance_aborted_visit (hp : w.phase = .offering seg ending i)
    (hi : i < w.hub.registrations.length) (hab : w.hub.aborted = true) :
    w.advance = some (.quiet, w.stop (.error (Error.aborted .broadcast))) := by
  simp [advance, hp, hi, hab]

end World

/-! ## Along a run inside an offer -/

/-- What an offer of `seg` that began in `w0` has done by the time it reaches `w`, having made
the visits `offers` and queued `queued R` to each reader `R`: the deque stands as `Visiting`
says at the position the broadcasting thread is at, each reader was queued the segment once for
each visit that sent it, and a reader closed or dropped before the offer began stays so and was
not sent the segment. -/
structure Offered (w0 : World) (seg : List UInt8) (ending : Option End)
    (offers : List (Nat × Offer)) (queued : Nat → List UInt8) (w : World) : Prop where
  visiting : ∃ i, w.phase = .offering seg ending i ∧
    Visiting w0.hub.registrations offers w.hub.registrations i
  queued : ∀ R, queued R = (List.replicate ((sentTo offers).count R) seg).flatten
  detached : ∀ R, w0.isDetached R = true → w.isDetached R = true ∧ R ∉ sentTo offers

namespace Offered

variable {w0 w w' : World} {seg : List UInt8} {ending : Option End} {offers : List (Nat × Offer)}
  {queued : Nat → List UInt8} {rep : Report}

theorem start (h0 : w0.phase = .offering seg ending 0) :
    Offered w0 seg ending [] (fun _ => []) w0 :=
  ⟨⟨0, h0, Visiting.start _⟩, fun _ => by simp, fun _ hR => ⟨hR, List.not_mem_nil⟩⟩

/-- **The step lemma.** Every step that keeps the broadcasting thread offering keeps the
invariant, with the visit it makes and what it queues added. -/
theorem step (h : Offered w0 seg ending offers queued w) {e : Event}
    (hs : w.step e = some (rep, w')) (hp' : w'.offering? = true) :
    Offered w0 seg ending (offers ++ (w.offerBy e).toList) (fun R => queued R ++ w.queuedBy R e)
      w' := by
  obtain ⟨⟨i, hp, hv⟩, hq, hdet⟩ := h
  have hq' : ∀ R, queued R ++ w.queuedBy R e =
      (List.replicate ((sentTo (offers ++ (w.offerBy e).toList)).count R) seg).flatten := by
    intro R
    rw [hq R, World.queuedBy_eq_sent hp hs R, sentTo_append, List.count_append,
      List.replicate_add, List.flatten_append]
  by_cases he : e = .advance
  · subst he
    obtain ⟨hi, hab, r, hr, ⟨hd, rfl⟩ | ⟨hd, rfl⟩⟩ := World.advance_within_offer hp hs hp'
    · -- the registration of a closed or dropped reader goes, the front one taking its place
      have hby : w.offerBy .advance = some (w.hub.registrations[i], .removed) := by
        simp [World.offerBy, hp, hab, World.isDetached_of_reader? hr, hd]
      refine ⟨⟨i, hp, by simpa [hby] using hv.remove hi⟩, hq', fun R hR => ?_⟩
      obtain ⟨h1, h2⟩ := hdet R hR
      exact ⟨by simpa [World.isDetached, Hub.reader?] using h1, by simpa [hby] using h2⟩
    · -- the segment goes to an open reader, and the position moves past it
      have hby : w.offerBy .advance = some (w.hub.registrations[i], .sent) := by
        simp [World.offerBy, hp, hab, World.isDetached_of_reader? hr, hd]
      refine ⟨⟨i + 1, rfl, by simpa [hby, Hub.enqueue] using hv.send hi⟩, hq', fun R hR => ?_⟩
      obtain ⟨h1, h2⟩ := hdet R hR
      have hne : w.hub.registrations[i] ≠ R := by
        rintro rfl
        rw [World.isDetached_of_reader? hr, hd] at h1
        exact Bool.false_ne_true h1
      refine ⟨?_, by simpa [hby, Ne.symm hne] using h2⟩
      simpa [World.isDetached, Hub.enqueue, Hub.reader?_modify_ne _ hne] using h1
  · -- another thread's step: no visit, the deque and the position as they were
    obtain ⟨hreg, hph, hkeep⟩ := World.step_keeps_offer hp he hs
    have hby := World.offerBy_of_ne_advance (w := w) he
    refine ⟨⟨i, hph ▸ hp, by simpa [hby, hreg] using hv⟩, hq', fun R hR => ?_⟩
    obtain ⟨h1, h2⟩ := hdet R hR
    exact ⟨hkeep R h1, by simpa [hby] using h2⟩

/-- **The run lemma.** Every run that stays inside the offer keeps the invariant, with the
visits it made and what it queued added. -/
theorem run (h : Offered w0 seg ending offers queued w) {evs : List Event} {reps : List Report}
    (hrun : w.run evs = some (reps, w')) (hin : w.staysOffering evs = true) :
    Offered w0 seg ending (offers ++ w.offersAlong evs) (fun R => queued R ++ w.queuedAlong R evs)
      w' := by
  induction evs generalizing w offers queued reps with
  | nil =>
    simp only [World.run, Option.some.injEq, Prod.mk.injEq] at hrun
    obtain ⟨-, rfl⟩ := hrun
    simpa [World.offersAlong, World.queuedAlong] using h
  | cons e es ih =>
    obtain ⟨rep, w₁, reps', hs, hr⟩ := World.run_cons_eq_some hrun
    have hin₁ : w₁.staysOffering es = true := by
      simpa [World.staysOffering, hs] using (Bool.and_eq_true_iff.1 hin).2
    have h₁ := ih (h.step hs (World.offering?_of_stays hin₁)) hr hin₁
    simpa [World.offersAlong, World.queuedAlong, hs, List.append_assoc] using h₁

end Offered

/-- What an offer of `seg` that began in `w0` did along the run of `evs`, reaching `w` with the
broadcasting thread at position `i`. -/
structure Distributed (w0 : World) (evs : List Event) (seg : List UInt8) (ending : Option End)
    (w : World) (i : Nat) : Prop where
  /-- The broadcasting thread still offers `seg`, at position `i`. -/
  phase : w.phase = .offering seg ending i
  /-- The registrations before `i` are those sent the segment; those from `i` on, after those
  visited, are those the offer began with. -/
  visiting : Visiting w0.hub.registrations (w0.offersAlong evs) w.hub.registrations i
  /-- Each reader was queued the segment once for each visit that sent it, and nothing else. -/
  queued : ∀ R, w0.queuedAlong R evs =
    (List.replicate ((sentTo (w0.offersAlong evs)).count R) seg).flatten
  /-- A reader closed or dropped before the offer began was not sent the segment. -/
  detachedBefore : ∀ R, w0.isDetached R = true → R ∉ sentTo (w0.offersAlong evs)
  /-- The visits made and those left add up to the registrations the offer began with. -/
  progress : (w0.offersAlong evs).length + (w.hub.registrations.length - i) =
    w0.hub.registrations.length
  /-- Past the last registration, each registration the offer began with was visited exactly
  once, those left are those sent the segment, and the offer ends. -/
  returns : w.hub.registrations.length ≤ i →
    ((w0.offersAlong evs).map Prod.fst).Perm w0.hub.registrations ∧
      (sentTo (w0.offersAlong evs)).Perm w.hub.registrations ∧
      w.advance = some (.quiet, w.afterSegment ending)
  /-- Before it, with the abort signal raised, the next visit stops the broadcast as aborted. -/
  aborts : i < w.hub.registrations.length → w.hub.aborted = true →
    w.advance = some (.quiet, w.stop (.error (Error.aborted .broadcast)))

/-- **An offer visits each registration once.** Take any world `w0` whose broadcasting thread
begins to offer `seg`, and any run of `evs` from it that stays inside the offer, every thread
taking its steps in any order. Then the offer visited each registration it began with at most
once, and exactly once when it is past the last one; it queued the segment to a reader once for
each visit that sent it and never otherwise, never to a reader closed or dropped before it
began; it then keeps exactly the registrations it sent the segment to; and a visit that finds
the abort signal raised stops the broadcast as aborted, the readers sent the segment being those
visited before. -/
theorem distribute_visits_each_once {w0 w : World} {seg : List UInt8} {ending : Option End}
    {evs : List Event} {reps : List Report} (h0 : w0.phase = .offering seg ending 0)
    (hrun : w0.run evs = some (reps, w)) (hin : w0.staysOffering evs = true) :
    ∃ i, Distributed w0 evs seg ending w i := by
  obtain ⟨⟨i, hp, hv⟩, hq, hdet⟩ := (Offered.start h0).run hrun hin
  rw [List.nil_append] at hv hdet
  refine ⟨i, hp, hv, fun R => by simpa using hq R, fun R hR => (hdet R hR).2, hv.progress,
    fun hi => ?_, World.advance_aborted_visit hp⟩
  exact ⟨(hv.done hi).1, (hv.done hi).2, World.advance_past_last hp hi⟩

/-- Three registrations, the first of a reader closed before the offer and the last of one closed
while it goes on: the offer removes the first, its place taken by the last, sends the segment to
the second, and removes the last. -/
theorem offer_removes_closed_readers :
    let w₀ : World := ⟨⟨#[{ Reader.new false none with detached := true },
      Reader.new false none, Reader.new false none], [0, 1, 2], 2, 4, true, false⟩, [],
      .offering [97, 98] none 0⟩
    let evs : List Event := [.advance, .advance, .close 2, .advance]
    w₀.phase = .offering [97, 98] none 0 ∧
      ∃ reps w, w₀.run evs = some (reps, w) ∧ w₀.staysOffering evs = true ∧
        w₀.offersAlong evs = [(0, .removed), (1, .sent), (2, .removed)] ∧
        ∃ i, Distributed w₀ evs [97, 98] none w i := by
  dsimp only
  exact ⟨rfl, _, _, rfl, rfl, rfl, distribute_visits_each_once rfl rfl rfl⟩

end Plumbing.Broadcast
