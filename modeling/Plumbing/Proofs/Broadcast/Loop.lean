import Mathlib.Logic.Relation
import Plumbing.Proofs.Broadcast.Segmentation

/-!
# The broadcast loop, in one go and step by step

`Hub.broadcast` runs a broadcast in one go: its loop `Hub.pump` checks the abort signal, fills a
segment (`Source.readFull`, running the actions of each pause it meets), offers a segment with
bytes to every registration (`Hub.distribute`), and goes on until the source ends; it then lets
go of the registrations (`Hub.release`). The broadcasting thread of a `World` takes the same
loop one atomic step at a time. This module relates the two.

* The loop's fuel suffices: every round that goes on consumes some of the source, so any fuel
  above the source's weight runs the loop to the same end (`Hub.pump_fuel_congr`);
  `Hub.broadcast` gives it `weight + 1`.
* A broadcast in one go that does not block, on a hub whose readers have no threads of their own
  (`Hub.Unthreaded`), is a run of the world (`World.run_of_broadcast`): the call of `broadcast`,
  the broadcasting thread's steps, and at each pause the steps that close, drop or abort as the
  pause's actions do, end with `broadcast` returning the same result and leave the same hub.

The run is assembled from the loop's parts, each a stretch of steps none of which returns from
`broadcast` (`World.Reaches`): the actions of a pause (`World.reaches_actAll`), a fill
(`World.reaches_fillFrom`), the offers of a segment (`World.reaches_distributeFrom`), the rounds
of the loop (`World.reaches_pump`) and the letting go (`World.reaches_release`).
-/

namespace Plumbing.Broadcast

open Plumbing.Stream

namespace Hub

/-! ## The loop's fuel -/

/-- Any fuel above the source's weight runs the loop to the same end. -/
theorem pump_fuel_congr {m n : Nat} {p : Paused} {src : Source} (hm : Source.weight src < m)
    (hn : Source.weight src < n) : pump m p src = pump n p src := by
  -- induction on the fuel: a round that goes on read a segment short of the end of data, which
  -- leaves less of the source
  induction m generalizing n p src with
  | zero => exact absurd hm (Nat.not_lt_zero _)
  | succ m ih =>
    obtain ⟨n, rfl⟩ : ∃ n', n = n' + 1 := ⟨n - 1, by omega⟩
    have hlt := Source.readFull_weight_lt Paused.step p (segmentLen_pos p.hub) src
    simp only [pump]
    split
    · rfl
    · generalize Source.readFull Paused.step p.hub.segmentLen p src = r at hlt
      obtain ⟨fill, rest, p₁⟩ := r
      dsimp only at hlt ⊢
      split
      · rfl
      · rfl
      · split
        · rename_i hend
          have := hlt hend
          exact ih (by omega) (by omega)
        · rfl
        · rfl

/-! ## Hubs whose readers have no threads -/

/-- No reader of the hub is read by a thread of its own: each is held by the caller. -/
def Unthreaded (h : Hub) : Prop := ∀ i r, h.reader? i = some r → r.thread = none

theorem Unthreaded.settle {h : Hub} (hth : h.Unthreaded) : h.settle = h := by
  -- `runThread` leaves a reader with no thread as it is
  have hr : h.readers.map (Reader.runThread h.aborted) = h.readers := by
    apply Array.ext_getElem?
    intro i
    rw [Array.getElem?_map]
    cases hi : h.readers[i]? with
    | none => rfl
    | some r => simp [Reader.runThread, hth i r hi]
  simp only [Hub.settle, hr]

theorem Unthreaded.modify {h : Hub} (hth : h.Unthreaded) {f : Reader → Reader}
    (hf : ∀ r, (f r).thread = r.thread) (i : Nat) : (h.modify i f).Unthreaded := by
  intro j r hr
  by_cases hij : i = j
  · subst hij
    rw [reader?_modify_self] at hr
    obtain ⟨r₀, h₀, rfl⟩ := Option.map_eq_some_iff.1 hr
    rw [hf]
    exact hth i r₀ h₀
  · rw [reader?_modify_ne _ hij] at hr
    exact hth j r hr

theorem offer_thread (r : Reader) (t : Terminal) : (r.offer t).thread = r.thread := by
  unfold Reader.offer
  split <;> rfl

theorem release_thread (t : Option Terminal) (r : Reader) :
    (Reader.release t r).thread = r.thread := by
  cases t <;> simp [Reader.release, offer_thread]

theorem Unthreaded.foldl_release {h : Hub} (hth : h.Unthreaded) (t : Option Terminal)
    (l : List Nat) :
    ({ h with readers := l.foldl (fun rs i => rs.modify i (Reader.release t)) h.readers } :
      Hub).Unthreaded := by
  induction l generalizing h with
  | nil => exact hth
  | cons i l ih => exact ih (hth.modify (release_thread t) i)

theorem act_segmentSize (h : Hub) (a : Action) : (h.act a).2.segmentSize = h.segmentSize := by
  cases a <;> simp only [act] <;> repeat' split
  all_goals rfl

theorem actAll_segmentSize (h : Hub) (acts : List Action) :
    (h.actAll acts).2.segmentSize = h.segmentSize := by
  induction acts generalizing h with
  | nil => rfl
  | cons a rest ih =>
    rcases ha : h.act a with ⟨r, h₁⟩
    have h1 := act_segmentSize h a
    rw [ha] at h1
    simp only [actAll, ha]
    rw [← h1]
    exact ih h₁

theorem Paused.step_hub (p : Paused) :
    p.step.hub = (p.hub.actAll (p.lists.headD [])).2.settle := by
  obtain ⟨h, lists, results⟩ := p
  cases lists <;> rfl

end Hub

/-! ## Stretches of steps -/

namespace World

/-- One step of some thread that is not `broadcast` returning. -/
def Moves (w w' : World) : Prop :=
  ∃ e r, w.step e = some (r, w') ∧ ∀ res, r ≠ .returned res

/-- Steps of the threads lead from one world to the other, none of them a return from
`broadcast`. -/
def Reaches : World → World → Prop := Relation.ReflTransGen Moves

theorem Reaches.of_step {w w' : World} {e : Event} (h : w.step e = some (.quiet, w')) :
    w.Reaches w' :=
  .single ⟨e, .quiet, h, fun _ h => by cases h⟩

theorem Reaches.of_advance {w w' : World} (h : w.advance = some (.quiet, w')) : w.Reaches w' :=
  .of_step (e := .advance) h

theorem Reaches.trans {w₁ w₂ w₃ : World} (h₁ : w₁.Reaches w₂) (h₂ : w₂.Reaches w₃) :
    w₁.Reaches w₃ :=
  Relation.ReflTransGen.trans h₁ h₂

/-- A stretch of steps is a run that does not return from `broadcast`. -/
theorem Reaches.run {w w' : World} (h : w.Reaches w') :
    ∃ evs reps, w.run evs = some (reps, w') ∧ firstReturn reps = none := by
  induction h using Relation.ReflTransGen.head_induction_on with
  | refl => exact ⟨[], [], rfl, rfl⟩
  | head hstep _ ih =>
    obtain ⟨e, r, hs, hr⟩ := hstep
    obtain ⟨evs, reps, hrun, hret⟩ := ih
    refine ⟨e :: evs, r :: reps, by simp [World.run, hs, hrun], ?_⟩
    cases r with
    | returned res => exact absurd rfl (hr res)
    | _ => exact hret

theorem endFill_phase (h : Hub) (src : Source) (ph ph' : Phase) (acc : List UInt8)
    (ending : Option End) :
    (World.mk h src ph).endFill acc ending = (World.mk h src ph').endFill acc ending := by
  unfold endFill afterSegment stop
  split
  · rcases ending with _ | _ | _ <;> rfl
  · rfl

/-- A read that ends the fill is a step to where the fill ends, whatever the thread stood on. -/
theorem Reaches.of_endFill {h : Hub} {src src' : Source} {acc acc' : List UInt8}
    {ending : Option End}
    (hadv : World.advance ⟨h, src, .filling acc⟩ =
      some (.quiet, World.endFill ⟨h, src', .filling acc⟩ acc' ending)) :
    Reaches ⟨h, src, .filling acc⟩ ((World.mk h src' .top).endFill acc' ending) := by
  rw [endFill_phase _ _ _ .top] at hadv
  exact .of_advance hadv

/-! ## The loop's parts -/

/-- A pause action, on a hub whose readers have no threads, is a step of the world or none:
closing and dropping a reader the caller holds, and raising the abort signal. -/
theorem reaches_act {h : Hub} (hth : h.Unthreaded) (a : Action) (src : Source) (ph : Phase) :
    Reaches ⟨h, src, ph⟩ ⟨(h.act a).2, src, ph⟩ ∧ (h.act a).2.Unthreaded := by
  cases a with
  | closeReader i =>
    by_cases hi : h.isHeld i = true
    · have hs : World.step ⟨h, src, ph⟩ (.close i) = some (.quiet, ⟨h.close i, src, ph⟩) := by
        simp [step, hi]
      simp only [Hub.act, hi, if_true]
      refine ⟨.of_step hs, hth.modify (fun r => ?_) i⟩
      split <;> simp [Hub.offer_thread]
    · simp only [Hub.act, hi]
      exact ⟨.refl, hth⟩
  | dropReader i =>
    by_cases hi : h.isHeld i = true
    · have hs : World.step ⟨h, src, ph⟩ (.drop i) = some (.quiet, ⟨h.drop i, src, ph⟩) := by
        simp [step, hi]
      simp only [Hub.act, hi, if_true]
      exact ⟨.of_step hs,
        hth.modify (f := fun r => { r with detached := true, dropped := true }) (fun _ => rfl) i⟩
    · simp only [Hub.act, hi]
      exact ⟨.refl, hth⟩
  | isClosed i =>
    have hsame : (h.act (.isClosed i)).2 = h := by
      simp only [Hub.act]
      repeat' split
      all_goals rfl
    rw [hsame]
    exact ⟨.refl, hth⟩
  | abort =>
    have hs : World.step ⟨h, src, ph⟩ .abort =
        some (.quiet, ⟨{ h with aborted := true }, src, ph⟩) := rfl
    simp only [Hub.act, Hub.abort, Hub.Unthreaded.settle (h := { h with aborted := true }) hth]
    exact ⟨.of_step hs, hth⟩
  | unknown => exact ⟨.refl, hth⟩

/-- The actions of a pause are a stretch of steps. -/
theorem reaches_actAll {h : Hub} (hth : h.Unthreaded) (acts : List Action) (src : Source)
    (ph : Phase) :
    Reaches ⟨h, src, ph⟩ ⟨(h.actAll acts).2, src, ph⟩ ∧ (h.actAll acts).2.Unthreaded := by
  induction acts generalizing h with
  | nil => exact ⟨.refl, hth⟩
  | cons a rest ih =>
    obtain ⟨hr₁, hth₁⟩ := reaches_act hth a src ph
    rcases ha : h.act a with ⟨r, h₁⟩
    rw [ha] at hr₁ hth₁
    obtain ⟨hr₂, hth₂⟩ := ih hth₁
    simp only [Hub.actAll, ha]
    exact ⟨hr₁.trans hr₂, hth₂⟩

theorem reaches_pause {p : Hub.Paused} (hth : p.hub.Unthreaded) (src : Source) (ph : Phase) :
    Reaches ⟨p.hub, src, ph⟩ ⟨p.step.hub, src, ph⟩ ∧ p.step.hub.Unthreaded ∧
      p.step.hub.segmentSize = p.hub.segmentSize := by
  obtain ⟨hr, hth'⟩ := reaches_actAll hth (p.lists.headD []) src ph
  rw [Hub.Paused.step_hub, hth'.settle]
  exact ⟨hr, hth', Hub.actAll_segmentSize _ _⟩

/-- **A fill is a stretch of steps**: the broadcasting thread's reads of the source, and at each
pause the steps of its actions. It ends where `World.endFill` takes the fill `fillFrom` answers. -/
theorem reaches_fillFrom {n : Nat} {p : Hub.Paused} {src : Source} {pieces : List (List UInt8)}
    {count : Nat} (hth : p.hub.Unthreaded) (hn : p.hub.segmentLen = n)
    (hc : pieces.reverse.flatten.length = count) (hlt : count < n) :
    Reaches ⟨p.hub, src, .filling pieces.reverse.flatten⟩
        ((World.mk (Source.fillFrom Hub.Paused.step n p src pieces count).2.2.hub
          (Source.fillFrom Hub.Paused.step n p src pieces count).2.1 .top).endFill
          (Source.fillFrom Hub.Paused.step n p src pieces count).1.bytes
          (Source.fillFrom Hub.Paused.step n p src pieces count).1.ending) ∧
      (Source.fillFrom Hub.Paused.step n p src pieces count).2.2.hub.Unthreaded ∧
      (Source.fillFrom Hub.Paused.step n p src pieces count).2.2.hub.segmentLen = n := by
  fun_induction Source.fillFrom Hub.Paused.step n p src pieces count with
  | case1 t src acc count hlt' b src' hr ih =>
    -- bytes: the segment fills up, or the thread goes on reading into it
    have hadv : World.advance ⟨t.hub, src, .filling acc.reverse.flatten⟩ =
        if count + b.length < n then
          some (.quiet, ⟨t.hub, src', .filling (acc.reverse.flatten ++ b)⟩)
        else some (.quiet, World.endFill ⟨t.hub, src', .filling acc.reverse.flatten⟩
          (acc.reverse.flatten ++ b) none) := by
      simp [advance, hn, hc, hr]
    by_cases hfull : count + b.length < n
    · rw [if_pos hfull] at hadv
      obtain ⟨hr', hth', hn'⟩ := ih hth hn (by simp [← hc]) hfull
      refine ⟨(Reaches.of_advance hadv).trans ?_, hth', hn'⟩
      simpa using hr'
    · rw [if_neg hfull] at hadv
      rw [Source.fillFrom, if_neg (by omega)]
      have hbytes : (b :: acc).reverse.flatten = acc.reverse.flatten ++ b := by simp
      rw [← hbytes] at hadv
      exact ⟨.of_endFill hadv, hth, hn⟩
  | case2 t src acc count hlt' src' hr =>
    -- the end of data
    have hadv : World.advance ⟨t.hub, src, .filling acc.reverse.flatten⟩ =
        some (.quiet, World.endFill ⟨t.hub, src', .filling acc.reverse.flatten⟩
          acc.reverse.flatten (some .eof)) := by
      simp [advance, hn, hc, hr]
    exact ⟨.of_endFill hadv, hth, hn⟩
  | case3 t src acc count hlt' src' hr ih =>
    -- an interruption: the thread reads again
    have hadv : World.advance ⟨t.hub, src, .filling acc.reverse.flatten⟩ =
        some (.quiet, ⟨t.hub, src', .filling acc.reverse.flatten⟩) := by
      simp [advance, hn, hc, hr]
    obtain ⟨hr', hth', hn'⟩ := ih hth hn hc hlt'
    exact ⟨(Reaches.of_advance hadv).trans hr', hth', hn'⟩
  | case4 t src acc count hlt' e src' hr =>
    -- a failure
    have hadv : World.advance ⟨t.hub, src, .filling acc.reverse.flatten⟩ =
        some (.quiet, World.endFill ⟨t.hub, src', .filling acc.reverse.flatten⟩
          acc.reverse.flatten (some (.failed e))) := by
      simp [advance, hn, hc, hr]
    exact ⟨.of_endFill hadv, hth, hn⟩
  | case5 t src acc count hlt' src' hr ih =>
    -- a pause: its actions' steps, then the thread reads again
    have hadv : World.advance ⟨t.hub, src, .filling acc.reverse.flatten⟩ =
        some (.quiet, ⟨t.hub, src', .filling acc.reverse.flatten⟩) := by
      simp [advance, hn, hc, hr]
    obtain ⟨hp, hthp, hsize⟩ := reaches_pause hth src' (.filling acc.reverse.flatten)
    have hnp : t.step.hub.segmentLen = n := by
      rw [← hn]
      simp only [Hub.segmentLen, hsize]
    obtain ⟨hr', hth', hn'⟩ := ih hthp hnp hc hlt'
    exact ⟨((Reaches.of_advance hadv).trans hp).trans hr', hth', hn'⟩
  | case6 t src acc count hge => exact absurd hlt hge

/-- An offer stopped by the abort signal found it raised at its first check. -/
theorem distributeFrom_aborted {h : Hub} {seg : List UInt8} {regs : List Nat} {i : Nat}
    (hd : h.distributeFrom seg regs i = .error .aborted) : h.aborted = true ∧ i < regs.length := by
  fun_induction Hub.distributeFrom h seg regs i with
  | case1 h regs i hi hab => exact ⟨hab, hi⟩
  | case2 | case4 | case6 => cases hd
  | case3 h regs i hi hab id r hr hdet _ ih => exact absurd (ih hd).1 hab
  | case5 h regs i hi hab id r hr hdet hfull ih =>
    -- queueing to a reader leaves the signal as it was
    exact absurd (ih hd).1 (by simpa [Hub.settle, Hub.enqueue, Hub.modify] using hab)

/-- **The offers of a segment are a stretch of steps**: one step of the broadcasting thread for
each registration it visits, ending past the last. -/
theorem reaches_distributeFrom {h h' : Hub} {seg : List UInt8} {regs regs' : List Nat}
    {i : Nat} (hth : h.Unthreaded) (hd : h.distributeFrom seg regs i = .ok (h', regs'))
    (src : Source) (ending : Option End) :
    ∃ j, regs'.length ≤ j ∧
      Reaches ⟨{ h with registrations := regs }, src, .offering seg ending i⟩
        ⟨{ h' with registrations := regs' }, src, .offering seg ending j⟩ ∧ h'.Unthreaded := by
  fun_induction Hub.distributeFrom h seg regs i with
  | case1 | case2 | case4 => cases hd
  | case3 h regs i hi hab id r hr hdet _ ih =>
    -- a closed or dropped reader: its registration goes, and the position is visited again
    have hr' : h.readers[regs[i]]? = some r := hr
    have hdet' : r.detached = true ∨ r.dropped = true := by simpa using hdet
    have hadv : World.advance ⟨{ h with registrations := regs }, src, .offering seg ending i⟩ =
        some (.quiet, ⟨{ h with registrations := swapRemoveFront regs i }, src,
          .offering seg ending i⟩) := by
      simp [advance, hi, hab, Hub.reader?, hr', hdet']
    obtain ⟨j, hj, hr'', hth'⟩ := ih hth hd
    exact ⟨j, hj, (Reaches.of_advance hadv).trans hr'', hth'⟩
  | case5 h regs i hi hab id r hr hdet hfull ih =>
    -- any other reader gets the segment, and the next position is visited
    have hr' : h.readers[regs[i]]? = some r := hr
    have hdet' : ¬(r.detached = true ∨ r.dropped = true) := by simpa using hdet
    have hadv : World.advance ⟨{ h with registrations := regs }, src, .offering seg ending i⟩ =
        some (.quiet, ⟨{ h.enqueue regs[i] seg with registrations := regs }, src,
          .offering seg ending (i + 1)⟩) := by
      simp [advance, hi, hab, Hub.reader?, hr', hdet', Hub.enqueue, Hub.modify]
    have hth₁ : (h.enqueue regs[i] seg).Unthreaded :=
      hth.modify (f := fun r => { r with queue := r.queue ++ [seg] }) (fun _ => rfl) _
    rw [hth₁.settle] at ih hd
    obtain ⟨j, hj, hr'', hth'⟩ := ih hth₁ hd
    exact ⟨j, hj, (Reaches.of_advance hadv).trans hr'', hth'⟩
  | case6 h regs i hi =>
    obtain ⟨rfl, rfl⟩ : h = h' ∧ regs = regs' := by simpa using hd
    exact ⟨i, Nat.le_of_not_lt hi, .refl, hth⟩

/-- A segment the loop offers, from the end of its fill to where the thread goes on after it. -/
theorem reaches_offered {p p₂ : Hub.Paused} {seg : List UInt8} {ending : Option End}
    {rest : Source} (hth : p.hub.Unthreaded)
    (hoff : (if seg.isEmpty then .ok p
      else (p.hub.distribute seg).map fun h => { p with hub := h }) = Except.ok p₂) :
    Reaches ((World.mk p.hub rest .top).endFill seg ending)
        ((World.mk p₂.hub rest .top).afterSegment ending) ∧ p₂.hub.Unthreaded := by
  split at hoff
  · -- no bytes: nothing to offer
    rename_i hempty
    obtain rfl := Except.ok.inj hoff
    rw [List.isEmpty_iff.1 hempty]
    exact ⟨.refl, hth⟩
  · rename_i hne
    simp only [Hub.distribute] at hoff
    rcases hd : p.hub.distributeFrom seg p.hub.registrations 0 with e | ⟨h', regs'⟩
    · rw [hd] at hoff
      cases hoff
    rw [hd] at hoff
    obtain rfl := Except.ok.inj hoff
    obtain ⟨j, hj, hreach, hth'⟩ := reaches_distributeFrom hth hd rest ending
    -- past the last registration the thread goes on after the segment
    have hpast : World.advance ⟨{ h' with registrations := regs' }, rest, .offering seg ending j⟩ =
        some (.quiet, (World.mk { h' with registrations := regs' } rest .top).afterSegment ending) := by
      simp only [advance, dif_neg (Nat.not_lt.2 hj)]
      rcases ending with _ | _ | _ <;> rfl
    rw [endFill_of_ne_nil _ (by simpa [List.isEmpty_iff] using hne)]
    exact ⟨hreach.trans (.of_advance hpast), hth'⟩

/-- A segment whose offers the abort signal stopped: the thread leaves the loop at once. -/
theorem reaches_offered_aborted {p : Hub.Paused} {seg : List UInt8} {ending : Option End}
    {rest : Source}
    (hoff : (if seg.isEmpty then .ok p
      else (p.hub.distribute seg).map fun h => { p with hub := h }) = Except.error Stop.aborted) :
    Reaches ((World.mk p.hub rest .top).endFill seg ending)
      ((World.mk p.hub rest .top).stop (.error (Error.aborted .broadcast))) := by
  split at hoff
  · cases hoff
  · rename_i hne
    simp only [Hub.distribute] at hoff
    rcases hd : p.hub.distributeFrom seg p.hub.registrations 0 with e | r
    swap
    · rw [hd] at hoff
      cases hoff
    rw [hd] at hoff
    obtain rfl : e = .aborted := Except.error.inj hoff
    obtain ⟨hab, hlt⟩ := distributeFrom_aborted hd
    have hadv : World.advance ⟨p.hub, rest, .offering seg ending 0⟩ =
        some (.quiet, (World.mk p.hub rest .top).stop (.error (Error.aborted .broadcast))) := by
      simp [advance, hlt, hab, stop]
    rw [endFill_of_ne_nil _ (by simpa [List.isEmpty_iff] using hne)]
    exact .of_advance hadv

/-- **The rounds of the loop are a stretch of steps**, from the top of the loop to where the
broadcasting thread leaves it with the loop's result, while the fuel lasts. -/
theorem reaches_pump {fuel : Nat} {p p' : Hub.Paused} {src : Source} {res : Except Error Unit}
    (hth : p.hub.Unthreaded) (hw : Source.weight src < fuel)
    (hp : Hub.pump fuel p src = (.ok res, p')) :
    ∃ rest, Reaches ⟨p.hub, src, .top⟩ ((World.mk p'.hub rest .top).stop res) ∧
      p'.hub.Unthreaded := by
  -- induction on the fuel; each round is the abort check, a fill, and the segment's offers
  induction fuel generalizing p src with
  | zero => exact absurd hw (Nat.not_lt_zero _)
  | succ fuel ih =>
    simp only [Hub.pump] at hp
    by_cases hab : p.hub.aborted = true
    · -- the abort check at the top of the loop
      rw [if_pos hab] at hp
      obtain ⟨rfl, rfl⟩ : Except.error (Error.aborted .broadcast) = res ∧ p = p' := by
        simpa using hp
      have hadv : World.advance ⟨p.hub, src, .top⟩ =
          some (.quiet, (World.mk p.hub src .top).stop (.error (Error.aborted .broadcast))) := by
        simp [advance, hab, stop]
      exact ⟨src, .of_advance hadv, hth⟩
    · rw [if_neg hab] at hp
      have htop : World.advance ⟨p.hub, src, .top⟩ = some (.quiet, ⟨p.hub, src, .filling []⟩) := by
        simp [advance, hab]
      have hfill : Reaches ⟨p.hub, src, .filling []⟩
            ((World.mk (Source.readFull Hub.Paused.step p.hub.segmentLen p src).2.2.hub
              (Source.readFull Hub.Paused.step p.hub.segmentLen p src).2.1 .top).endFill
              (Source.readFull Hub.Paused.step p.hub.segmentLen p src).1.bytes
              (Source.readFull Hub.Paused.step p.hub.segmentLen p src).1.ending) ∧
          (Source.readFull Hub.Paused.step p.hub.segmentLen p src).2.2.hub.Unthreaded ∧
          (Source.readFull Hub.Paused.step p.hub.segmentLen p src).2.2.hub.segmentLen =
            p.hub.segmentLen :=
        @reaches_fillFrom _ _ src [] 0 hth rfl rfl (Hub.segmentLen_pos _)
      have hlt := Source.readFull_weight_lt Hub.Paused.step p (Hub.segmentLen_pos p.hub) src
      generalize Source.readFull Hub.Paused.step p.hub.segmentLen p src = r at hp hlt hfill
      obtain ⟨fill, rest, p₁⟩ := r
      obtain ⟨hfill, hth₁, -⟩ := hfill
      have hstart := (Reaches.of_advance htop).trans hfill
      dsimp only at hp hlt
      split at hp
      · -- a full queue: the loop blocks
        simp at hp
      · -- the offers found the abort signal raised
        rename_i hoff
        obtain ⟨rfl, rfl⟩ : Except.error (Error.aborted .broadcast) = res ∧ p₁ = p' := by
          simpa using hp
        exact ⟨rest, hstart.trans (reaches_offered_aborted hoff), hth₁⟩
      · rename_i p₂ hoff
        obtain ⟨hoffer, hth₂⟩ := @reaches_offered p₁ p₂ fill.bytes fill.ending rest hth₁ hoff
        have hseg := hstart.trans hoffer
        split at hp
        · -- the segment did not end the source: the next round
          rename_i hend
          rw [hend] at hseg
          obtain ⟨rest', hnext, hth'⟩ := ih hth₂ (by have := hlt hend; omega) hp
          exact ⟨rest', hseg.trans hnext, hth'⟩
        · -- the end of data
          rename_i hend
          obtain ⟨rfl, rfl⟩ : Except.ok () = res ∧ p₂ = p' := by simpa using hp
          rw [hend] at hseg
          exact ⟨rest, hseg, hth₂⟩
        · -- a failure of the source
          rename_i e hend
          obtain ⟨rfl, rfl⟩ : Except.error (Error.io .broadcast e) = res ∧ p₂ = p' := by
            simpa using hp
          rw [hend] at hseg
          exact ⟨rest, hseg, hth₂⟩

theorem reaches_releasing (h : Hub) (src : Source) (res : Except Error Unit) (rest : List Nat) :
    Reaches ⟨h, src, .releasing res rest⟩
      ⟨{ h with readers := rest.foldl (fun rs i => rs.modify i
          (Reader.release (Hub.terminalOf res))) h.readers }, src, .releasing res []⟩ := by
  induction rest generalizing h with
  | nil => exact .refl
  | cons i rest ih => exact (Reaches.of_advance rfl).trans (ih (h.modify i _))

theorem reaches_release (h : Hub) (src : Source) (res : Except Error Unit) :
    Reaches ((World.mk h src .top).stop res)
      ⟨h.releaseAll (Hub.terminalOf res), src, .releasing res []⟩ :=
  reaches_releasing { h with registrations := [] } src res h.registrations

/-- **A broadcast in one go is a run of the world.** When `Hub.broadcast` does not block, on a
hub whose readers have no threads of their own, the world of the same hub and source has a run
that starts with the call of `broadcast`, in which `broadcast` returns the same result, and that
leaves the same hub. Its steps are the broadcasting thread's and, at each pause, those of the
pause's actions. -/
theorem run_of_broadcast {h h' : Hub} {src : Source} {lists : List (List Action)}
    {res : Except Error Unit} {results : List (List ActionResult)} (hth : h.Unthreaded)
    (hb : h.broadcast src lists = .ok (res, results, h')) :
    ∃ evs reps w', (World.mk h src .idle).run (.broadcast :: evs) = some (reps, w') ∧
      firstReturn reps = some res ∧ w'.hub = h' := by
  unfold Hub.broadcast at hb
  by_cases hfin : h.finished = true
  · -- a second broadcast: refused at once
    rw [if_pos hfin] at hb
    obtain ⟨rfl, -, rfl⟩ : Except.error (Error.closed .broadcast) = res ∧ [] = results ∧ h = h' := by
      simpa using hb
    exact ⟨[], [.returned (.error (Error.closed .broadcast))], ⟨h, src, .idle⟩,
      by simp [World.run, World.step, ownerFree, hfin], rfl, rfl⟩
  · rw [if_neg hfin] at hb
    dsimp only at hb
    rcases hp : Hub.pump (Source.weight src + 1) ⟨{ h with finished := true }, lists, []⟩ src
      with ⟨_ | r, p'⟩
    · rw [hp] at hb
      cases hb
    rw [hp] at hb
    obtain ⟨rfl, -, rfl⟩ : r = res ∧ p'.results.reverse = results ∧
        p'.hub.release (Hub.terminalOf r) = h' := by
      simpa using hb
    obtain ⟨rest, hloop, hth'⟩ := reaches_pump (p := ⟨{ h with finished := true }, lists, []⟩) hth
      (Nat.lt_succ_self _) hp
    have hthr : (p'.hub.releaseAll (Hub.terminalOf r)).Unthreaded :=
      Hub.Unthreaded.foldl_release (h := { p'.hub with registrations := [] }) hth'
        (Hub.terminalOf r) p'.hub.registrations
    obtain ⟨evs, reps, hrun, hret⟩ := (hloop.trans (reaches_release p'.hub rest r)).run
    refine ⟨evs ++ [.advance], .quiet :: (reps ++ [.returned r]),
      ⟨p'.hub.releaseAll (Hub.terminalOf r), rest, .returned r⟩, ?_, ?_, ?_⟩
    · have hcall : World.step ⟨h, src, .idle⟩ .broadcast =
          some (.quiet, ⟨{ h with finished := true }, src, .top⟩) := by
        simp [World.step, ownerFree, hfin]
      rw [World.run, hcall]
      simp only [World.run_snoc, hrun, Option.bind_some]
      rfl
    · simp [firstReturn, firstReturn_append_of_none hret]
    · exact (Hub.Unthreaded.settle hthr).symm

end World

end Plumbing.Broadcast
