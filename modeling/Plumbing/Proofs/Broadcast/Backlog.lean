import Plumbing.Proofs.Broadcast.Terminals

/-!
# No failure before the data

A read of a broadcast reader fails, closed or with the source's failure, only once the reader
has answered every byte queued to it. `reads_answer_queued_before_failure` proves this of every
history with no abort in which every read of the reader asks for at least one byte: when the
next such read fails, the reads so far answered, in order, every byte the broadcasting thread
queued to the reader (`World.queuedAlong`), and the reader holds nothing.

The proof is the reader's `Backlog`: what its reads answered, followed by what it holds, is what
was queued to it; and once it settled on closed it holds nothing. A read answers bytes from the
front of what the reader holds (`Reader.read_pending`), and one of at least one byte fails only
when the reader holds nothing (`Reader.read_fails_drained`); the broadcasting thread queues only
to a reader it keeps, which has settled on nothing. Every step keeps the backlog
(`Backlog.step`), so every run does (`Backlog.run`).

A read of no bytes takes nothing from the queue, so it finds the buffer empty while segments are
still queued: a closed reader then settles on closed and never answers them
(`zero_read_fails_before_queued_bytes`), and an open one answers the terminal in its slot.
-/

namespace Plumbing.Broadcast

open Plumbing.Stream

/-! ## What a read takes -/

/-- The bytes a read answered: none when it failed. -/
def readBytes : Except Error (List UInt8) → List UInt8
  | .ok b => b
  | .error _ => []

namespace Reader

@[simp] theorem readBytes_terminal (r : Reader) : readBytes r.terminal = [] := by
  unfold terminal
  split <;> rfl

/-- With no abort raised, every read answers bytes from the front of what the reader holds and
keeps the rest: nothing is lost, reordered or made up. -/
theorem read_pending {r r' : Reader} {k : Nat} {res : Except Error (List UInt8)}
    (hv : r.buffer.Valid) (h : r.read false k = (.done res, r')) :
    r.pending = readBytes res ++ r'.pending := by
  have hv' := valid_pull hv k
  have hpend := pending_pull hv k
  -- answering from the buffer takes its first bytes
  have hcopy : ∀ {r''}, (r.pull k).copyOut k = (.done res, r'') →
      r.pending = readBytes res ++ r''.pending := by
    intro r'' hc
    simp only [copyOut, Prod.mk.injEq, ReadStep.done.injEq] at hc
    obtain ⟨rfl, rfl⟩ := hc
    rw [← hpend]
    simp only [pending, readBytes, SegmentQueue.readInto_fst hv', SegmentQueue.toBytes_readInto hv']
    rw [← List.append_assoc, List.take_append_drop]
  unfold read at h
  split at h
  · simp only [Prod.mk.injEq, ReadStep.done.injEq] at h
    obtain ⟨rfl, rfl⟩ := h
    simp
  simp only [Bool.false_eq_true, ↓reduceIte] at h
  split at h
  · split at h
    · simp only [Prod.mk.injEq, ReadStep.done.injEq] at h
      obtain ⟨rfl, rfl⟩ := h
      rw [readBytes_terminal, List.nil_append, ← hpend]
      rfl
    · exact hcopy h
  · split at h
    · simp at h
    split at h
    · exact hcopy h
    -- nothing buffered: the answer is a terminal, and nothing is taken
    split at h
    · simp only [Prod.mk.injEq, ReadStep.done.injEq] at h
      obtain ⟨rfl, rfl⟩ := h
      rw [readBytes_terminal, List.nil_append, ← hpend]
      rfl
    · simp only [Prod.mk.injEq, ReadStep.done.injEq] at h
      obtain ⟨rfl, rfl⟩ := h
      rw [readBytes_terminal, List.nil_append, hpend]

/-- With no abort raised, a read of at least one byte fails only when the reader holds nothing,
and leaves a reader that holds nothing once it settled on closed. -/
theorem read_fails_drained {r r' : Reader} {k : Nat} {res : Except Error (List UInt8)}
    (hv : r.buffer.Valid) (hk : 0 < k) (ha : r.last ≠ some .aborted)
    (hc : r.last = some .closed → r.pending = []) (h : r.read false k = (.done res, r')) :
    (∀ e, res = .error e → r.pending = []) ∧ (r'.last = some .closed → r'.pending = []) := by
  by_cases hcl : r.last = some .closed
  · -- settled on closed: nothing held, and nothing changes
    rw [read_of_settled (.inl hcl), Prod.mk.injEq, ReadStep.done.injEq] at h
    obtain ⟨rfl, rfl⟩ := h
    exact ⟨fun _ _ => hc hcl, fun _ => hc hcl⟩
  cases hd : r.detached
  · -- an open reader: the bytes held, then the end in its slot
    have ho : r.Open := ⟨hcl, ha, hd⟩
    by_cases hp : r.pending = []
    · obtain ⟨-, hp', -⟩ := read_open_end ho hv hk hp h
      exact ⟨fun _ _ => hp, fun _ => hp'⟩
    · obtain ⟨hres, -, -, -, -, hl, -⟩ := read_open_data ho hv hk hp h
      exact ⟨fun e he => by simp [hres] at he, fun hl' => absurd (hl ▸ hl') hcl⟩
  · -- a closed reader: what is queued without waiting, then closed
    have hv' := valid_pull hv k
    have hpend := pending_pull hv k
    simp only [read, hcl, ha, hd, decide_false, Bool.or_false, Bool.false_eq_true, ↓reduceIte]
      at h
    split at h
    · rename_i hempty
      simp only [Prod.mk.injEq, ReadStep.done.injEq] at h
      obtain ⟨rfl, rfl⟩ := h
      -- an empty buffer after pulling at least one byte: the queue was empty too
      have hq : (r.pull k).queue = [] := by
        rcases pull_full_or_drained hv k with hfull | hdrained
        · simp only [SegmentQueue.isEmpty, beq_iff_eq] at hempty
          omega
        · exact hdrained
      have hnil : (r.pull k).pending = [] := by
        rw [pending, (SegmentQueue.isEmpty_iff hv').1 hempty, hq]
        rfl
      exact ⟨fun _ _ => hpend ▸ hnil, fun _ => hnil⟩
    · simp only [copyOut, Prod.mk.injEq, ReadStep.done.injEq] at h
      obtain ⟨rfl, rfl⟩ := h
      exact ⟨fun e he => (by cases he), fun hl => absurd hl hcl⟩

theorem release_keeps (r : Reader) (t : Option Terminal) :
    (r.release t).pending = r.pending ∧ (r.release t).last = r.last := by
  rcases t with _ | t
  · exact ⟨rfl, rfl⟩
  · simp only [release, offer]
    split <;> exact ⟨rfl, rfl⟩

theorem offer_keeps (r : Reader) (t : Terminal) :
    (r.offer t).pending = r.pending ∧ (r.offer t).last = r.last := by
  simp only [offer]
  split <;> exact ⟨rfl, rfl⟩

end Reader

/-! ## What the broadcaster queues -/

namespace World

/-- The bytes the step `e` queues to reader `R` in `w`: the segment on offer, when the
broadcasting thread offers it to `R`'s registration with no abort raised and `R` neither closed
nor dropped. -/
def queuedBy (w : World) (R : Nat) : Event → List UInt8
  | .advance =>
    match w.phase with
    | .offering seg _ i =>
      if w.hub.registrations[i]? = some R ∧ w.hub.aborted = false ∧
          (w.hub.reader? R).any (fun r => !r.detached && !r.dropped) then seg
      else []
    | _ => []
  | _ => []

/-- The bytes queued to reader `R` along the history `evs`, in order. -/
def queuedAlong (w : World) (R : Nat) : List Event → List UInt8
  | [] => []
  | e :: es =>
    match w.step e with
    | none => []
    | some (_, w') => w.queuedBy R e ++ w'.queuedAlong R es

theorem queuedAlong_snoc {w w' w'' : World} {evs : List Event} {reps : List Report} {e : Event}
    {rep : Report} (hrun : w.run evs = some (reps, w')) (hs : w'.step e = some (rep, w''))
    (R : Nat) : w.queuedAlong R (evs ++ [e]) = w.queuedAlong R evs ++ w'.queuedBy R e := by
  induction evs generalizing w reps with
  | nil =>
    simp only [run, Option.some.injEq, Prod.mk.injEq] at hrun
    obtain ⟨rfl, rfl⟩ := hrun
    simp [queuedAlong, hs]
  | cons e' es ih =>
    simp only [run] at hrun
    rcases hs' : w.step e' with _ | ⟨o, w1⟩
    · simp [hs'] at hrun
    rcases hr : w1.run es with _ | ⟨os, w2⟩
    · simp [hs', hr] at hrun
    simp only [hs', hr, Option.some.injEq, Prod.mk.injEq] at hrun
    obtain ⟨-, rfl⟩ := hrun
    simp [queuedAlong, hs', ih hr]

/-- What one step of the broadcasting thread does to reader `R`: nothing, queueing to it the
bytes `queuedBy` names, or letting go of it. -/
theorem advance_reader? {w w' : World} {rep : Report} (h : w.advance = some (rep, w'))
    (R : Nat) :
    (w'.hub.reader? R = w.hub.reader? R ∧ w.queuedBy R .advance = []) ∨
      (∃ r, w.hub.reader? R = some r ∧ r.detached = false ∧ w.Registers R ∧
        w.hub.aborted = false ∧
        w'.hub.reader? R = some { r with queue := r.queue ++ [w.queuedBy R .advance] }) ∨
      (∃ res rest, w.phase = .releasing res (R :: rest) ∧ w.queuedBy R .advance = [] ∧
        w'.hub.reader? R = (w.hub.reader? R).map (Reader.release (Hub.terminalOf res))) := by
  have same : ∀ w'' : World, w''.hub.readers = w.hub.readers → w''.hub.reader? R = w.hub.reader? R :=
    fun w'' hr => by simp [Hub.reader?, hr]
  unfold advance at h
  split at h
  · simp at h
  · simp at h
  · simp at h
  · rename_i hp
    split at h <;>
    · simp only [Option.some.injEq, Prod.mk.injEq] at h
      obtain ⟨rfl, rfl⟩ := h
      exact .inl ⟨same _ rfl, by simp [queuedBy, hp]⟩
  · -- a read of the source touches no reader
    rename_i acc hp
    have hfill : ∀ src acc e, ({ w with source := src }.endFill acc e).hub.readers = w.hub.readers :=
      fun _ _ _ => (endFill_hub _ _ _).1
    have hq : w.queuedBy R .advance = [] := by simp [queuedBy, hp]
    split at h
    · split at h <;>
      · simp only [Option.some.injEq, Prod.mk.injEq] at h
        obtain ⟨rfl, rfl⟩ := h
        exact .inl ⟨same _ (by simp [hfill]), hq⟩
    all_goals
      simp only [Option.some.injEq, Prod.mk.injEq] at h
      obtain ⟨rfl, rfl⟩ := h
      exact .inl ⟨same _ (by simp [hfill]), hq⟩
  · -- an offer to one registration
    rename_i seg ending i hp
    split at h
    · rename_i hi
      split at h
      · rename_i hab
        simp only [Option.some.injEq, Prod.mk.injEq] at h
        obtain ⟨rfl, rfl⟩ := h
        exact .inl ⟨same _ rfl, by simp [queuedBy, hp, hab]⟩
      · rename_i hab
        dsimp only at h
        split at h
        · simp at h
        · rename_i r hr
          have hreg : w.hub.registrations[i]? = some w.hub.registrations[i] :=
            List.getElem?_eq_getElem hi
          split at h
          · -- a closed or dropped reader is not offered the segment
            rename_i hdet
            simp only [Option.some.injEq, Prod.mk.injEq] at h
            obtain ⟨rfl, rfl⟩ := h
            refine .inl ⟨same _ rfl, ?_⟩
            by_cases hid : w.hub.registrations[i] = R
            · subst hid
              simp only [Bool.or_eq_true] at hdet
              rcases hdet with hdet | hdet <;> simp [queuedBy, hp, hr, hdet]
            · simp [queuedBy, hp, hreg, hid]
          · rename_i hdet
            simp only [Option.some.injEq, Prod.mk.injEq] at h
            obtain ⟨rfl, rfl⟩ := h
            by_cases hid : w.hub.registrations[i] = R
            · subst hid
              simp only [Bool.or_eq_true, not_or, Bool.not_eq_true] at hdet
              have hq : w.queuedBy w.hub.registrations[i] .advance = seg := by
                simp [queuedBy, hp, hreg, hr, hdet, hab]
              have hkeeps : w.Registers w.hub.registrations[i] := by
                simp only [Registers, hp]
                exact List.getElem_mem hi
              refine .inr (.inl ⟨r, hr, hdet.1, hkeeps, by simpa using hab, ?_⟩)
              simp [Hub.enqueue, Hub.reader?_modify_self, hr, hq]
            · exact .inl ⟨by simp [Hub.enqueue, Hub.reader?_modify_ne _ hid],
                by simp [queuedBy, hp, hreg, hid]⟩
    · rename_i hi
      simp only [Option.some.injEq, Prod.mk.injEq] at h
      obtain ⟨rfl, rfl⟩ := h
      exact .inl ⟨same _ (afterSegment_hub _ _).1, by simp [queuedBy, hp, hi]⟩
  · -- letting go of one registration
    rename_i res rest hp
    have hq : w.queuedBy R .advance = [] := by simp [queuedBy, hp]
    split at h
    · simp only [Option.some.injEq, Prod.mk.injEq] at h
      obtain ⟨rfl, rfl⟩ := h
      exact .inl ⟨rfl, hq⟩
    · rename_i id rest'
      simp only [Option.some.injEq, Prod.mk.injEq] at h
      obtain ⟨rfl, rfl⟩ := h
      by_cases hid : id = R
      · subst hid
        exact .inr (.inr ⟨res, rest', hp, hq, Hub.reader?_modify_self _ _ _⟩)
      · exact .inl ⟨Hub.reader?_modify_ne _ hid _, hq⟩

end World

/-! ## The backlog -/

/-- The bytes the reads of `R` in the history answered, in order. -/
def answered (R : Nat) (evs : List Event) (reps : List Report) : List UInt8 :=
  (readsOf R evs reps).flatMap fun p => readBytes p.2

theorem answered_snoc_of_ne {R : Nat} {evs : List Event} {reps : List Report} {e : Event}
    (hlen : evs.length = reps.length) (he : ∀ k, e ≠ .read R k) (rep : Report) :
    answered R (evs ++ [e]) (reps ++ [rep]) = answered R evs reps := by
  simp [answered, readsOf_snoc_of_ne hlen he]

theorem answered_snoc_read {R k : Nat} {evs : List Event} {reps : List Report}
    (hlen : evs.length = reps.length) (res : Except Error (List UInt8)) :
    answered R (evs ++ [.read R k]) (reps ++ [.read res]) = answered R evs reps ++ readBytes res := by
  simp [answered, readsOf_snoc_read hlen]

/-- The bytes reader `R` holds or has queued. -/
def World.held (w : World) (R : Nat) : List UInt8 := ((w.hub.reader? R).map Reader.pending).getD []

/-- The backlog of reader `R` after the history `evs`: the bytes its reads answered, followed by
the bytes it holds, are the bytes `queued` to it; and once it settled on closed it holds
nothing. -/
structure Backlog (R : Nat) (evs : List Event) (reps : List Report) (w : World)
    (queued : List UInt8) : Prop where
  balance : answered R evs reps ++ w.held R = queued
  drained : ∀ r, w.hub.reader? R = some r → r.last = some .closed → r.pending = []

namespace Backlog

variable {R : Nat} {evs : List Event} {reps : List Report} {w w' : World} {q : List UInt8}

theorem new (segmentSize queueLen : Nat) (src : Source) (R : Nat) :
    Backlog R [] [] (World.new segmentSize queueLen src) [] :=
  ⟨by simp [answered, readsOf, World.held, World.new, Hub.new, Hub.reader?],
    by simp [World.new, Hub.new, Hub.reader?]⟩

/-- A step that is no read of `R`, and changes `R`'s reader by a map that keeps what it holds
and what it settled on, keeps the backlog. -/
theorem map (h : Backlog R evs reps w q) (hlen : evs.length = reps.length) {e : Event}
    (he : ∀ k, e ≠ .read R k) {f : Reader → Reader}
    (hf : ∀ r, (f r).pending = r.pending ∧ (f r).last = r.last)
    (hr : w'.hub.reader? R = (w.hub.reader? R).map f) (rep : Report) :
    Backlog R (evs ++ [e]) (reps ++ [rep]) w' q := by
  refine ⟨?_, fun r' hr' hl' => ?_⟩
  · rw [answered_snoc_of_ne hlen he, ← h.balance]
    cases hw : w.hub.reader? R <;> simp [World.held, hr, hw, (hf _).1]
  · rw [hr] at hr'
    obtain ⟨r, hw, rfl⟩ := Option.map_eq_some_iff.1 hr'
    rw [(hf r).1]
    exact h.drained r hw ((hf r).2 ▸ hl')

theorem same (h : Backlog R evs reps w q) (hlen : evs.length = reps.length) {e : Event}
    (he : ∀ k, e ≠ .read R k) (hr : w'.hub.reader? R = w.hub.reader? R) (rep : Report) :
    Backlog R (evs ++ [e]) (reps ++ [rep]) w' q :=
  h.map hlen he (f := id) (fun _ => ⟨rfl, rfl⟩) (by rw [hr, Option.map_id, id]) rep

/-- Queueing `seg` to a reader not settled on closed adds it to the backlog. -/
theorem enqueue (h : Backlog R evs reps w q) (hlen : evs.length = reps.length) {r : Reader}
    (hr : w.hub.reader? R = some r) (hl : r.last ≠ some .closed) (seg : List UInt8)
    (hr' : w'.hub.reader? R = some { r with queue := r.queue ++ [seg] }) (rep : Report) :
    Backlog R (evs ++ [.advance]) (reps ++ [rep]) w' (q ++ seg) := by
  refine ⟨?_, fun r' hr'' hl' => ?_⟩
  · rw [answered_snoc_of_ne hlen (by simp), ← h.balance]
    simp [World.held, hr, hr', Reader.pending]
  · rw [hr', Option.some.injEq] at hr''
    subst hr''
    exact absurd hl' hl

/-- A read of `R` of at least one byte, with no abort raised, moves what it answers from what
`R` holds to what its reads answered. -/
theorem read (h : Backlog R evs reps w q) (hlen : evs.length = reps.length) {r r' : Reader}
    {k : Nat} {res : Except Error (List UInt8)} (hr : w.hub.reader? R = some r)
    (hv : r.buffer.Valid) (hk : 0 < k) (ha : r.last ≠ some .aborted)
    (hrd : r.read false k = (.done res, r')) (hr' : w'.hub.reader? R = some r') :
    Backlog R (evs ++ [.read R k]) (reps ++ [.read res]) w' q := by
  refine ⟨?_, fun r'' hr'' => ?_⟩
  · rw [answered_snoc_read hlen, ← h.balance]
    simp [World.held, hr, hr', Reader.read_pending hv hrd]
  · rw [hr', Option.some.injEq] at hr''
    subst hr''
    exact (Reader.read_fails_drained hv hk ha (h.drained r hr) hrd).2

/-- **Every step keeps the backlog**, with what it queues to `R` added, as long as no abort is
raised and every read of `R` asks for at least one byte. -/
theorem step (hS : Story evs reps w) (hT : Tracked R evs reps w) (h : Backlog R evs reps w q)
    (habort : .abort ∉ evs) {e : Event} (he : e ≠ .abort) (hpos : ∀ k, e = .read R k → 0 < k)
    {rep : Report} (hs : w.step e = some (rep, w')) :
    Backlog R (evs ++ [e]) (reps ++ [rep]) w' (q ++ w.queuedBy R e) := by
  have hlen := hS.length
  have hab : w.hub.aborted = false := by
    cases hb : w.hub.aborted
    · rfl
    · exact absurd (hS.aborted.1 hb) habort
  cases e with
  | newReader =>
    obtain ⟨-, rfl, rfl⟩ := World.step_newReader hs
    simp only [World.queuedBy, List.append_nil]
    by_cases hR : R = w.hub.readers.size
    · -- the reader made now holds nothing
      subst hR
      have hnone : w.hub.reader? w.hub.readers.size = none := by simp [Hub.reader?]
      refine ⟨?_, fun r hr hl => ?_⟩
      · rw [answered_snoc_of_ne hlen (by simp), ← h.balance]
        simp [World.held, Hub.reader?_addReader, hnone, Reader.new, Reader.pending]
      · simp only [Hub.reader?_addReader, ↓reduceIte, Option.some.injEq] at hr
        subst hr
        simp [Reader.new] at hl
    · exact h.same hlen (by simp) (by simp [Hub.reader?_addReader, hR]) _
  | broadcast =>
    obtain ⟨-, ⟨-, -, rfl⟩ | ⟨-, -, rfl⟩⟩ := World.step_broadcast hs
    · simpa [World.queuedBy] using h.same hlen (by simp) rfl _
    · simpa [World.queuedBy] using h.same hlen (by simp) (by simp [Hub.reader?]) _
  | advance =>
    rcases World.advance_reader? hs R with ⟨hr, hq⟩ | ⟨r, hr, hd, hkeeps, -, hr'⟩ |
        ⟨res, rest, -, hq, hr⟩
    · rw [hq, List.append_nil]
      exact h.same hlen (by simp) hr _
    · -- a reader the broadcaster keeps, neither closed nor aborted, has settled on nothing
      obtain ⟨r0, hr0, -, hfate⟩ := hT.made (Hub.lt_size_of_reader? hr)
      rw [hr, Option.some.injEq] at hr0
      subst hr0
      have hl : r.last = none := ((hfate habort hd).kept hkeeps).2.2
      exact h.enqueue hlen hr (by simp [hl]) _ hr' _
    · rw [hq, List.append_nil]
      exact h.map hlen (by simp) (Reader.release_keeps · _) hr _
  | read i k =>
    obtain ⟨r, res, r', hr, -, -, hrd, rfl, rfl⟩ := World.step_read hs
    simp only [World.queuedBy, List.append_nil]
    by_cases hi : i = R
    · subst hi
      obtain ⟨r0, hr0, hlog, -⟩ := hT.made (Hub.lt_size_of_reader? hr)
      rw [hr, Option.some.injEq] at hr0
      subst hr0
      rw [hab] at hrd hlog
      exact h.read hlen hr hlog.valid (hpos k rfl) (fun ha => by cases hlog.aborted ha) hrd
        (by simp [Hub.reader?_modify_self, hr])
    · exact h.same hlen (by simp [hi]) (Hub.reader?_modify_ne _ hi _) _
  | close i =>
    obtain ⟨-, rfl, rfl⟩ := World.step_close hs
    simp only [World.queuedBy, List.append_nil]
    by_cases hi : i = R
    · subst hi
      refine h.map hlen (by simp) (fun r => ?_) (Hub.reader?_modify_self _ _ _) _
      split
      · exact ⟨rfl, rfl⟩
      · exact Reader.offer_keeps r .closed
    · exact h.same hlen (by simp) (Hub.reader?_modify_ne _ hi _) _
  | drop i =>
    obtain ⟨-, rfl, rfl⟩ := World.step_drop hs
    simp only [World.queuedBy, List.append_nil]
    by_cases hi : i = R
    · subst hi
      exact h.map hlen (by simp) (f := fun r => { r with detached := true, dropped := true })
        (fun r => ⟨rfl, rfl⟩) (Hub.reader?_modify_self _ _ _) _
    · exact h.same hlen (by simp) (Hub.reader?_modify_ne _ hi _) _
  | abort => exact absurd rfl he
  | dropBroadcaster =>
    obtain ⟨-, rfl, rfl⟩ := World.step_dropBroadcaster hs
    simp only [World.queuedBy, List.append_nil]
    split
    · refine h.same hlen (by simp) ?_ _
      rfl
    · by_cases hR : R ∈ w.hub.registrations
      · exact h.map hlen (by simp) (Reader.release_keeps · _)
          (Hub.reader?_releaseAll_of_mem hR hS.regs_nodup _) _
      · exact h.same hlen (by simp) (Hub.reader?_releaseAll_of_not_mem hR _) _

end Backlog

/-- Every run from a new broadcaster with no abort, whose reads of `R` each ask for at least one
byte, keeps `R`'s backlog of the bytes queued to it along the run. -/
theorem Backlog.run {segmentSize queueLen : Nat} {src : Source} {evs : List Event}
    {reps : List Report} {w : World}
    (hrun : (World.new segmentSize queueLen src).run evs = some (reps, w)) (R : Nat)
    (habort : .abort ∉ evs) (hpos : ∀ k, .read R k ∈ evs → 0 < k) :
    Backlog R evs reps w ((World.new segmentSize queueLen src).queuedAlong R evs) := by
  induction evs using List.reverseRecOn generalizing reps w with
  | nil =>
    simp only [World.run, Option.some.injEq, Prod.mk.injEq] at hrun
    obtain ⟨rfl, rfl⟩ := hrun
    exact Backlog.new segmentSize queueLen src R
  | append_singleton evs e ih =>
    rw [World.run_snoc] at hrun
    rcases hprev : (World.new segmentSize queueLen src).run evs with _ | ⟨reps₀, w₀⟩
    · simp [hprev] at hrun
    rcases hs : w₀.step e with _ | ⟨rep, w'⟩
    · simp [hprev, hs] at hrun
    simp only [hprev, hs, Option.bind_some, Option.map_some, Option.some.injEq,
      Prod.mk.injEq] at hrun
    obtain ⟨rfl, rfl⟩ := hrun
    obtain ⟨hS, hT⟩ := Tracked.run hprev R
    have habort' : .abort ∉ evs := fun h => habort (List.mem_append_left _ h)
    rw [World.queuedAlong_snoc hprev hs]
    exact (ih hprev habort' fun k hk => hpos k (List.mem_append_left _ hk)).step hS hT habort'
      (fun he => habort (by simp [he])) (fun k he => hpos k (by simp [he])) hs

/-! ## No failure before the data -/

/-- **No failure before the data.** Take any history `evs` of a broadcaster and its readers, from
a new broadcaster, in which the abort signal is never raised and every read of reader `R` asks
for at least one byte. If the next read of `R`, of at least one byte too, fails (closed, or the
source's failure), then the reads of `R` in `evs` answered every byte queued to `R`, in order,
and `R` holds nothing. -/
theorem reads_answer_queued_before_failure {segmentSize queueLen : Nat} {src : Source}
    {evs : List Event} {reps : List Report} {R k : Nat} {err : Error}
    (hrun : ((World.new segmentSize queueLen src).run evs).map Prod.fst = some reps)
    (habort : .abort ∉ evs) (hpos : ∀ k', .read R k' ∈ evs → 0 < k') (hk : 0 < k)
    (hfail : (World.new segmentSize queueLen src).reportAfter evs (.read R k) =
      some (.read (.error err))) :
    answered R evs reps = (World.new segmentSize queueLen src).queuedAlong R evs ∧
      (World.new segmentSize queueLen src).pendingAfter evs R = some [] := by
  obtain ⟨⟨reps', w⟩, hw, rfl⟩ := Option.map_eq_some_iff.1 hrun
  have hb := Backlog.run hw R habort hpos
  obtain ⟨hS, hT⟩ := Tracked.run hw R
  obtain ⟨⟨rep, w'⟩, hs, hrep⟩ : ∃ p, w.step (.read R k) = some p ∧ p.1 = .read (.error err) := by
    simpa [World.reportAfter, hw] using hfail
  obtain ⟨r, res, r', hr, -, -, hrd, rfl, -⟩ := World.step_read hs
  obtain rfl : res = .error err := by simpa using hrep
  obtain ⟨r0, hr0, hlog, -⟩ := hT.made (Hub.lt_size_of_reader? hr)
  rw [hr, Option.some.injEq] at hr0
  subst hr0
  have hab : w.hub.aborted = false := by
    cases h : w.hub.aborted
    · rfl
    · exact absurd (hS.aborted.1 h) habort
  rw [hab] at hrd hlog
  -- the failing read finds `R` holding nothing
  have hnil : r.pending = [] :=
    (Reader.read_fails_drained hlog.valid hk (fun ha => by cases hlog.aborted ha)
      (hb.drained r hr) hrd).1 err rfl
  have hheld : w.held R = [] := by simp [World.held, hr, hnil]
  exact ⟨by simpa [hheld] using hb.balance, by simp [World.pendingAfter, hw, hr, hnil]⟩

/-- A reader closed after the broadcast of `ab` returned reads both bytes, then fails as closed. -/
theorem reads_answer_queued_before_closing :
    let w₀ := World.new 1 32 [.data [97, 98], .eof]
    let evs : List Event :=
      [.newReader, .broadcast] ++ List.replicate 12 .advance ++ [.close 0, .read 0 4]
    let reps : List Report :=
      [.made 0] ++ List.replicate 12 .quiet ++ [.returned (.ok ()), .quiet, .read (.ok [97, 98])]
    (w₀.run evs).map Prod.fst = some reps ∧ .abort ∉ evs ∧ (∀ k', .read 0 k' ∈ evs → 0 < k') ∧
      0 < 4 ∧ w₀.reportAfter evs (.read 0 4) = some (.read (.error (Error.closed .read))) ∧
      answered 0 evs reps = w₀.queuedAlong 0 evs ∧ w₀.pendingAfter evs 0 = some [] := by
  have hpos : ∀ k', Event.read 0 k' ∈ ([.newReader, .broadcast] ++ List.replicate 12 .advance ++
      [.close 0, .read 0 4] : List Event) → 0 < k' := by
    intro k' hk'
    simp at hk'
    omega
  dsimp only
  exact ⟨by rfl, by decide, hpos, by decide, by rfl,
    reads_answer_queued_before_failure (k := 4) (by rfl) (by decide) hpos (by decide) (by rfl)⟩

/-- A read of no bytes from a closed reader fails as closed while the two bytes queued to it are
still there, and they are never answered. -/
theorem zero_read_fails_before_queued_bytes :
    let w₀ := World.new 1 32 [.data [97, 98], .eof]
    let evs : List Event := [.newReader, .broadcast] ++ List.replicate 12 .advance ++ [.close 0]
    w₀.queuedAlong 0 evs = [97, 98] ∧ w₀.pendingAfter evs 0 = some [97, 98] ∧
      w₀.reportAfter evs (.read 0 0) = some (.read (.error (Error.closed .read))) ∧
      w₀.reportAfter (evs ++ [.read 0 0]) (.read 0 4) =
        some (.read (.error (Error.closed .read))) :=
  ⟨rfl, rfl, rfl, rfl⟩

end Plumbing.Broadcast
