import Plumbing.Proofs.Broadcast.Delivery

/-!
# What a history tells of the broadcaster

A history is the events of a run from a new broadcaster with what each step reported. `Story`
is what a history tells of the broadcaster it reaches: its flags count the steps that raised
them, its registrations are readers made, each once, and where the broadcasting thread stands
fits what `broadcast` returned. Every step keeps it (`Story.step`).

The steps are classified once, for every proof about histories: one inversion lemma for each
event (`World.step_read` and the others), and for the broadcasting thread the relation
`World.Advanced`, which says what one of its steps can do (`World.advance_advanced`).
-/

namespace Plumbing.Broadcast

open Plumbing.Stream


/-! ## What a history tells -/

/-- The number of readers made before `broadcast` was first called: readers `0, …, n - 1`. -/
def earlyReaders : List Event → Nat
  | [] => 0
  | .broadcast :: _ => 0
  | .newReader :: rest => earlyReaders rest + 1
  | _ :: rest => earlyReaders rest

/-- What `broadcast` returned the first time a call of it returned, if one did. -/
def firstReturn : List Report → Option (Except Error Unit)
  | [] => none
  | .returned r :: _ => some r
  | _ :: rest => firstReturn rest

/-- A read of reader `R` in the history answered the error `e`. -/
def Returned (R : Nat) (evs : List Event) (reps : List Report) (e : Error) : Prop :=
  ∃ k, (k, .error e) ∈ readsOf R evs reps

theorem earlyReaders_append_of_mem {evs : List Event} (h : .broadcast ∈ evs) (fs : List Event) :
    earlyReaders (evs ++ fs) = earlyReaders evs := by
  induction evs with
  | nil => simp at h
  | cons e evs ih =>
    cases e <;> simp_all [earlyReaders]

theorem earlyReaders_of_not_mem {evs : List Event} (h : .broadcast ∉ evs) :
    earlyReaders evs = evs.count .newReader := by
  induction evs with
  | nil => rfl
  | cons e evs ih =>
    cases e <;> simp_all [earlyReaders]

theorem earlyReaders_append_broadcast {evs : List Event} (h : .broadcast ∉ evs) :
    earlyReaders (evs ++ [.broadcast]) = evs.count .newReader := by
  induction evs with
  | nil => rfl
  | cons e evs ih =>
    cases e <;> simp_all [earlyReaders]

theorem earlyReaders_le (evs : List Event) : earlyReaders evs ≤ evs.count .newReader := by
  induction evs with
  | nil => exact Nat.le_refl 0
  | cons e evs ih =>
    cases e <;> simp [earlyReaders] <;> omega

theorem firstReturn_append_of_some {reps : List Report} {res : Except Error Unit}
    (h : firstReturn reps = some res) (more : List Report) :
    firstReturn (reps ++ more) = some res := by
  induction reps with
  | nil => simp [firstReturn] at h
  | cons o reps ih =>
    cases o <;> simp_all [firstReturn]

theorem firstReturn_append_of_none {reps : List Report} (h : firstReturn reps = none)
    (more : List Report) : firstReturn (reps ++ more) = firstReturn more := by
  induction reps with
  | nil => rfl
  | cons o reps ih =>
    cases o <;> simp_all [firstReturn]

theorem readsOf_snoc_of_ne {R : Nat} {evs : List Event} {reps : List Report} {e : Event}
    (hlen : evs.length = reps.length) (he : ∀ k, e ≠ .read R k) (rep : Report) :
    readsOf R (evs ++ [e]) (reps ++ [rep]) = readsOf R evs reps := by
  rw [readsOf_append hlen]
  cases e <;> cases rep <;> simp_all [readsOf]

theorem readsOf_snoc_read {R k : Nat} {evs : List Event} {reps : List Report}
    (hlen : evs.length = reps.length) (res : Except Error (List UInt8)) :
    readsOf R (evs ++ [.read R k]) (reps ++ [.read res]) = readsOf R evs reps ++ [(k, res)] := by
  rw [readsOf_append hlen]
  simp [readsOf]

theorem Returned.snoc_of_ne {R : Nat} {evs : List Event} {reps : List Report} {e : Event}
    (hlen : evs.length = reps.length) (he : ∀ k, e ≠ .read R k) (rep : Report) (err : Error) :
    Returned R (evs ++ [e]) (reps ++ [rep]) err ↔ Returned R evs reps err := by
  simp only [Returned, readsOf_snoc_of_ne hlen he rep]

theorem Returned.snoc_read {R k : Nat} {evs : List Event} {reps : List Report}
    (hlen : evs.length = reps.length) (res : Except Error (List UInt8)) (err : Error) :
    Returned R (evs ++ [.read R k]) (reps ++ [.read res]) err ↔
      Returned R evs reps err ∨ res = .error err := by
  simp only [Returned, readsOf_snoc_read hlen, List.mem_append, List.mem_singleton,
    Prod.mk.injEq, exists_or]
  constructor
  · rintro (h | ⟨k', -, h⟩)
    · exact .inl h
    · exact .inr h.symm
  · rintro (h | h)
    · exact .inl h
    · exact .inr ⟨k, rfl, h.symm⟩

/-! ## What a step can do -/

theorem World.run_snoc (w : World) (evs : List Event) (e : Event) :
    w.run (evs ++ [e]) = (w.run evs).bind fun p =>
      (p.2.step e).map fun q => (p.1 ++ [q.1], q.2) := by
  rw [World.run_append]
  congr 1
  funext p
  simp only [World.run]
  cases p.2.step e with
  | none => rfl
  | some q => rfl

namespace World

variable {w w' : World} {rep : Report}

theorem step_newReader (h : w.step .newReader = some (rep, w')) :
    w.ownerFree = true ∧ rep = .made w.hub.readers.size ∧
      w' = { w with hub := (w.hub.addReader none).1 } := by
  simp only [step] at h
  split at h
  · rename_i hfree
    simp only [Option.some.injEq, Prod.mk.injEq] at h
    exact ⟨hfree, h.1.symm, h.2.symm⟩
  · exact absurd h (by simp)

theorem step_broadcast (h : w.step .broadcast = some (rep, w')) :
    w.ownerFree = true ∧
      ((w.hub.finished = true ∧ rep = .returned (.error (Error.closed .broadcast)) ∧ w' = w) ∨
        (w.hub.finished = false ∧ rep = .quiet ∧
          w' = { w with hub := { w.hub with finished := true }, phase := .top })) := by
  simp only [step] at h
  split at h
  · rename_i hfree
    refine ⟨hfree, ?_⟩
    cases hf : w.hub.finished
    · simp only [hf, Bool.false_eq_true, ↓reduceIte, Option.some.injEq, Prod.mk.injEq] at h
      exact .inr ⟨rfl, h.1.symm, h.2.symm⟩
    · simp only [hf, ↓reduceIte, Option.some.injEq, Prod.mk.injEq] at h
      exact .inl ⟨rfl, h.1.symm, h.2.symm⟩
  · exact absurd h (by simp)

theorem step_read {i k : Nat} (h : w.step (.read i k) = some (rep, w')) :
    ∃ r res r', w.hub.reader? i = some r ∧ r.dropped = false ∧ r.thread = none ∧
      r.read w.hub.aborted k = (.done res, r') ∧ rep = .read res ∧
      w' = { w with hub := w.hub.modify i fun _ => r' } := by
  simp only [step] at h
  split at h
  · rename_i hheld
    simp only [Hub.isHeld] at hheld
    rcases hr : w.hub.reader? i with _ | r
    · simp [hr] at hheld
    simp only [hr, Bool.and_eq_true, Bool.not_eq_eq_eq_not, Bool.not_true,
      Option.isNone_iff_eq_none] at hheld
    simp only [Hub.read, hr] at h
    rcases hrd : r.read w.hub.aborted k with ⟨res | _, r'⟩
    · simp only [hrd, Option.some.injEq, Prod.mk.injEq] at h
      exact ⟨r, res, r', rfl, hheld.1, hheld.2, hrd, h.1.symm, h.2.symm⟩
    · simp [hrd] at h
  · exact absurd h (by simp)

theorem step_close {i : Nat} (h : w.step (.close i) = some (rep, w')) :
    w.hub.isHeld i = true ∧ rep = .quiet ∧ w' = { w with hub := w.hub.close i } := by
  simp only [step] at h
  split at h
  · rename_i hheld
    simp only [Option.some.injEq, Prod.mk.injEq] at h
    exact ⟨hheld, h.1.symm, h.2.symm⟩
  · exact absurd h (by simp)

theorem step_drop {i : Nat} (h : w.step (.drop i) = some (rep, w')) :
    w.hub.isHeld i = true ∧ rep = .quiet ∧ w' = { w with hub := w.hub.drop i } := by
  simp only [step] at h
  split at h
  · rename_i hheld
    simp only [Option.some.injEq, Prod.mk.injEq] at h
    exact ⟨hheld, h.1.symm, h.2.symm⟩
  · exact absurd h (by simp)

theorem step_abort (h : w.step .abort = some (rep, w')) :
    rep = .quiet ∧ w' = { w with hub := { w.hub with aborted := true } } := by
  simp only [step, Option.some.injEq, Prod.mk.injEq] at h
  exact ⟨h.1.symm, h.2.symm⟩

theorem step_dropBroadcaster (h : w.step .dropBroadcaster = some (rep, w')) :
    w.ownerFree = true ∧ rep = .quiet ∧
      w' = { w with hub := if w.hub.finished then w.hub else w.hub.releaseAll (some .closed),
                    phase := .gone } := by
  simp only [step] at h
  split at h
  · rename_i hfree
    simp only [Option.some.injEq, Prod.mk.injEq] at h
    exact ⟨hfree, h.1.symm, h.2.symm⟩
  · exact absurd h (by simp)

end World

/-- A terminal a slot can receive: the end of data, closed, or a failure of the source, never
aborted. -/
def Terminal.Offered : Terminal → Prop
  | .eof | .closed => True
  | .failed e => e.kind = .io
  | .aborted => False

/-! ## What a step of the broadcasting thread can do -/

/-- A result `broadcast` can end with: success, a failure of its source, or an abort once the
abort signal was raised. -/
def ResultOk (res : Except Error Unit) (aborted : Bool) : Prop :=
  res = .ok () ∨ (∃ f, res = .error (Error.io .broadcast f)) ∨
    (aborted = true ∧ res = .error (Error.aborted .broadcast))

namespace World

/-- The broadcasting thread is reading the source or offering a segment. -/
def Distributing (w : World) : Prop :=
  match w.phase with
  | .top | .filling _ | .offering _ _ _ => True
  | _ => False

/-- What one step of the broadcasting thread did. -/
inductive Advanced (w : World) : Report → World → Prop
  /-- Went on reading or offering, with the broadcaster as it was. -/
  | move {w' : World} : w.Distributing → w'.Distributing → w'.hub = w.hub → Advanced w .quiet w'
  /-- Removed the registration at `i` of a closed or dropped reader. -/
  | remove {w' : World} (i : Nat) (hi : i < w.hub.registrations.length) {r : Reader} :
      w.Distributing → w'.Distributing → w.hub.reader? w.hub.registrations[i] = some r →
      (r.detached || r.dropped) = true →
      w'.hub = { w.hub with registrations := swapRemoveFront w.hub.registrations i } →
      Advanced w .quiet w'
  /-- Queued a segment to a registered reader. -/
  | enqueue {w' : World} {id : Nat} (seg : List UInt8) : w.Distributing → w'.Distributing →
      id ∈ w.hub.registrations → w'.hub = w.hub.enqueue id seg → Advanced w .quiet w'
  /-- Left the loop with `res`, taking the registrations to let go. -/
  | stop {w' : World} {res : Except Error Unit} : w.Distributing → ResultOk res w.hub.aborted →
      w'.hub = { w.hub with registrations := [] } →
      w'.phase = .releasing res w.hub.registrations → Advanced w .quiet w'
  /-- Let go of one registration, leaving the end in its slot. -/
  | release {res : Except Error Unit} {id : Nat} {rest : List Nat} :
      w.phase = .releasing res (id :: rest) →
      Advanced w .quiet { w with hub := w.hub.modify id (Reader.release (Hub.terminalOf res)),
                                 phase := .releasing res rest }
  /-- Returned from `broadcast`. -/
  | finish {res : Except Error Unit} : w.phase = .releasing res [] →
      Advanced w (.returned res) { w with phase := .returned res }

theorem afterSegment_advanced {w : World} (hd : w.Distributing) (src : Source)
    (ending : Option End) : Advanced w .quiet ({ w with source := src }.afterSegment ending) := by
  rcases ending with _ | _ | e
  · exact .move hd trivial rfl
  · exact .stop hd (.inl rfl) rfl rfl
  · exact .stop hd (.inr (.inl ⟨e, rfl⟩)) rfl rfl

theorem endFill_advanced {w : World} (hd : w.Distributing) (src : Source) (acc : List UInt8)
    (ending : Option End) : Advanced w .quiet ({ w with source := src }.endFill acc ending) := by
  unfold endFill
  split
  · exact afterSegment_advanced hd src ending
  · exact .move hd trivial rfl

variable {w w' : World} {rep : Report}

/-- **What a step of the broadcasting thread can do**, once for all. -/
theorem advance_advanced (h : w.advance = some (rep, w')) : Advanced w rep w' := by
  unfold advance at h
  split at h
  · simp at h
  · simp at h
  · simp at h
  · -- the abort check at the top of the loop
    rename_i hp
    have hd : w.Distributing := by simp [Distributing, hp]
    split at h
    · rename_i hab
      simp only [Option.some.injEq, Prod.mk.injEq] at h
      obtain ⟨rfl, rfl⟩ := h
      exact .stop hd (.inr (.inr ⟨hab, rfl⟩)) rfl rfl
    · simp only [Option.some.injEq, Prod.mk.injEq] at h
      obtain ⟨rfl, rfl⟩ := h
      exact .move hd trivial rfl
  · -- one read of the source into the segment
    rename_i acc hp
    have hd : w.Distributing := by simp [Distributing, hp]
    split at h
    · split at h
      · simp only [Option.some.injEq, Prod.mk.injEq] at h
        obtain ⟨rfl, rfl⟩ := h
        exact .move hd trivial rfl
      · simp only [Option.some.injEq, Prod.mk.injEq] at h
        obtain ⟨rfl, rfl⟩ := h
        exact endFill_advanced hd _ _ _
    · simp only [Option.some.injEq, Prod.mk.injEq] at h
      obtain ⟨rfl, rfl⟩ := h
      exact endFill_advanced hd _ _ _
    · simp only [Option.some.injEq, Prod.mk.injEq] at h
      obtain ⟨rfl, rfl⟩ := h
      exact .move hd (by simpa [Distributing] using hd) rfl
    · simp only [Option.some.injEq, Prod.mk.injEq] at h
      obtain ⟨rfl, rfl⟩ := h
      exact .move hd (by simpa [Distributing] using hd) rfl
    · simp only [Option.some.injEq, Prod.mk.injEq] at h
      obtain ⟨rfl, rfl⟩ := h
      exact endFill_advanced hd _ _ _
  · -- an offer to one registration
    rename_i seg ending i hp
    have hd : w.Distributing := by simp [Distributing, hp]
    split at h
    · rename_i hi
      split at h
      · rename_i hab
        simp only [Option.some.injEq, Prod.mk.injEq] at h
        obtain ⟨rfl, rfl⟩ := h
        exact .stop hd (.inr (.inr ⟨hab, rfl⟩)) rfl rfl
      · dsimp only at h
        split at h
        · simp at h
        · rename_i r hr
          split at h
          · rename_i hdet
            simp only [Option.some.injEq, Prod.mk.injEq] at h
            obtain ⟨rfl, rfl⟩ := h
            exact .remove i hi hd (by simpa [Distributing] using hd) hr hdet rfl
          · simp only [Option.some.injEq, Prod.mk.injEq] at h
            obtain ⟨rfl, rfl⟩ := h
            exact .enqueue seg hd trivial (List.getElem_mem hi) rfl
    · simp only [Option.some.injEq, Prod.mk.injEq] at h
      obtain ⟨rfl, rfl⟩ := h
      exact afterSegment_advanced (w := w) hd w.source ending
  · -- letting go of the registrations
    rename_i res rest hp
    split at h
    · simp only [Option.some.injEq, Prod.mk.injEq] at h
      obtain ⟨rfl, rfl⟩ := h
      exact .finish (by rw [hp])
    · rename_i id rest'
      simp only [Option.some.injEq, Prod.mk.injEq] at h
      obtain ⟨rfl, rfl⟩ := h
      exact .release (by rw [hp])

end World

theorem ResultOk.raise {res : Except Error Unit} {ab : Bool} (h : ResultOk res ab) :
    ResultOk res true := by
  rcases h with h | h | ⟨-, h⟩
  · exact .inl h
  · exact .inr (.inl h)
  · exact .inr (.inr ⟨rfl, h⟩)

/-- Every terminal a broadcast that ended so leaves in a slot is one a slot can receive. -/
theorem ResultOk.offered {res : Except Error Unit} {ab : Bool} (h : ResultOk res ab) :
    ∀ t, Hub.terminalOf res = some t → t.Offered := by
  intro t ht
  rcases h with rfl | ⟨f, rfl⟩ | ⟨-, rfl⟩
  · cases ht
    trivial
  · simp only [Hub.terminalOf, Error.isAborted, Error.kind, Error.io, Fault.kind, beq_iff_eq,
      reduceCtorEq, ↓reduceIte, Option.some.injEq] at ht
    subst ht
    rfl
  · simp [Hub.terminalOf, Error.isAborted, Error.kind, Error.aborted, Fault.kind] at ht

/-- A broadcast that ended without an abort leaves its end in every slot it lets go of. -/
theorem ResultOk.terminalOf {res : Except Error Unit} (h : ResultOk res false) :
    Hub.terminalOf res = some (finalTerminal res) := by
  rcases h with rfl | ⟨f, rfl⟩ | ⟨h, -⟩
  · rfl
  · simp [Hub.terminalOf, Error.isAborted, Error.kind, Error.io, Fault.kind, finalTerminal]
  · cases h

theorem ResultOk.final_ne_aborted {res : Except Error Unit} (h : ResultOk res false) :
    finalTerminal res ≠ .aborted := by
  rcases h with rfl | ⟨f, rfl⟩ | ⟨h, -⟩
  · simp [finalTerminal]
  · simp [finalTerminal]
  · cases h

/-! ## The broadcaster's fields under its operations -/

@[simp] theorem Hub.modify_aborted (h : Hub) (i : Nat) (f : Reader → Reader) :
    (h.modify i f).aborted = h.aborted := rfl
@[simp] theorem Hub.modify_finished (h : Hub) (i : Nat) (f : Reader → Reader) :
    (h.modify i f).finished = h.finished := rfl
@[simp] theorem Hub.modify_registrations (h : Hub) (i : Nat) (f : Reader → Reader) :
    (h.modify i f).registrations = h.registrations := rfl
@[simp] theorem Hub.size_modify (h : Hub) (i : Nat) (f : Reader → Reader) :
    (h.modify i f).readers.size = h.readers.size := Array.size_modify

@[simp] theorem Hub.addReader_aborted (h : Hub) (th : Option Thread) :
    (h.addReader th).1.aborted = h.aborted := rfl
@[simp] theorem Hub.addReader_finished (h : Hub) (th : Option Thread) :
    (h.addReader th).1.finished = h.finished := rfl
@[simp] theorem Hub.size_addReader (h : Hub) (th : Option Thread) :
    (h.addReader th).1.readers.size = h.readers.size + 1 := Array.size_push _

theorem getElem?_foldl_modify_of_not_mem {l : List Nat} {R : Nat} (hR : R ∉ l)
    (f : Reader → Reader) (a : Array Reader) :
    (l.foldl (fun rs i => rs.modify i f) a)[R]? = a[R]? := by
  induction l generalizing a with
  | nil => rfl
  | cons i l ih =>
    simp only [List.mem_cons, not_or] at hR
    simp only [List.foldl_cons, ih hR.2, Array.getElem?_modify, if_neg (Ne.symm hR.1)]

theorem getElem?_foldl_modify_of_mem {l : List Nat} {R : Nat} (hR : R ∈ l) (hnd : l.Nodup)
    (f : Reader → Reader) (a : Array Reader) :
    (l.foldl (fun rs i => rs.modify i f) a)[R]? = a[R]?.map f := by
  induction l generalizing a with
  | nil => simp at hR
  | cons i l ih =>
    simp only [List.nodup_cons] at hnd
    simp only [List.foldl_cons]
    by_cases hi : i = R
    · -- `R` is changed here, and nowhere after
      subst hi
      rw [getElem?_foldl_modify_of_not_mem hnd.1, Array.getElem?_modify, if_pos rfl]
    · have hR' : R ∈ l := (List.mem_cons.1 hR).resolve_left (Ne.symm hi)
      rw [ih hR' hnd.2, Array.getElem?_modify, if_neg hi]

theorem Hub.reader?_releaseAll_of_not_mem {h : Hub} {R : Nat} (hR : R ∉ h.registrations)
    (t : Option Terminal) : (h.releaseAll t).reader? R = h.reader? R :=
  getElem?_foldl_modify_of_not_mem hR _ _

theorem Hub.reader?_releaseAll_of_mem {h : Hub} {R : Nat} (hR : R ∈ h.registrations)
    (hnd : h.registrations.Nodup) (t : Option Terminal) :
    (h.releaseAll t).reader? R = (h.reader? R).map (Reader.release t) :=
  getElem?_foldl_modify_of_mem hR hnd _ _

theorem Hub.size_releaseAll (h : Hub) (t : Option Terminal) :
    (h.releaseAll t).readers.size = h.readers.size := by
  simp only [Hub.releaseAll]
  generalize h.readers = a
  induction h.registrations generalizing a with
  | nil => rfl
  | cons i l ih => simp [ih]

/-! ## The broadcaster's history -/

namespace World

/-- `broadcast` returned, or the broadcaster is gone. -/
def Over (w : World) : Prop :=
  match w.phase with
  | .returned _ | .gone => True
  | _ => False

end World

/-- What the events `evs`, with reports `reps`, tell of the world `w` they reach: its flags
count the steps that raised them, its registrations are readers made, at most once each, and
its phase is where `broadcast` stands: not called (the broadcaster maybe dropped), inside it
(nothing returned yet), or returned with the first `returned` report. -/
structure Story (evs : List Event) (reps : List Report) (w : World) : Prop where
  length : evs.length = reps.length
  aborted : w.hub.aborted = true ↔ .abort ∈ evs
  finished : w.hub.finished = true ↔ .broadcast ∈ evs
  size : w.hub.readers.size = evs.count .newReader
  regs_lt : ∀ i ∈ w.hub.registrations, i < w.hub.readers.size
  regs_nodup : w.hub.registrations.Nodup
  unstarted : .broadcast ∉ evs → firstReturn reps = none ∧
    ((w.phase = .idle ∧ .dropBroadcaster ∉ evs) ∨ (w.phase = .gone ∧ .dropBroadcaster ∈ evs))
  started : .broadcast ∈ evs → w.phase ≠ .idle
  distributing : w.Distributing → firstReturn reps = none
  releasing : ∀ res rest, w.phase = .releasing res rest →
    rest.Nodup ∧ ResultOk res w.hub.aborted ∧ firstReturn reps = none
  returned : ∀ res, w.phase = .returned res → firstReturn reps = some res
  gone : w.phase = .gone → .broadcast ∈ evs → firstReturn reps ≠ none

theorem Story.new (segmentSize queueLen : Nat) (src : Source) :
    Story [] [] (World.new segmentSize queueLen src) := by
  refine ⟨rfl, by simp [World.new, Hub.new], by simp [World.new, Hub.new], rfl,
    by simp [World.new, Hub.new], List.nodup_nil, fun _ => ⟨rfl, .inl ⟨rfl, by simp⟩⟩,
    by simp, ?_, ?_, ?_, ?_⟩ <;> simp [World.new, World.Distributing]

theorem firstReturn_snoc_of_ne (reps : List Report) (rep : Report)
    (hr : ∀ res, rep ≠ .returned res) : firstReturn (reps ++ [rep]) = firstReturn reps := by
  cases h : firstReturn reps with
  | none =>
    rw [firstReturn_append_of_none h]
    cases rep <;> simp_all [firstReturn]
  | some res => exact firstReturn_append_of_some h _

namespace Story

variable {evs : List Event} {reps : List Report} {w w' : World} {rep : Report}

/-- A step that changes one reader only, and raises no flag, keeps the story. -/
theorem modify (h : Story evs reps w) {e : Event} (he : e ≠ .abort ∧ e ≠ .broadcast ∧
      e ≠ .newReader ∧ e ≠ .dropBroadcaster) (hr : ∀ res, rep ≠ .returned res) {i : Nat}
    {f : Reader → Reader} (hw : w' = { w with hub := w.hub.modify i f }) :
    Story (evs ++ [e]) (reps ++ [rep]) w' := by
  subst hw
  obtain ⟨ha, hb, hn, hd⟩ := he
  have hret := firstReturn_snoc_of_ne reps rep hr
  refine ⟨by simp [h.length], ?_, ?_, ?_, ?_, h.regs_nodup, ?_, ?_, ?_, ?_, ?_, ?_⟩
  · simpa [Ne.symm ha] using h.aborted
  · simpa [Ne.symm hb] using h.finished
  · simp [h.size, List.count_append, hn]
  · intro j hj
    simpa using h.regs_lt j hj
  · intro hnb
    rw [hret]
    simpa [Ne.symm hd] using h.unstarted (by simp_all)
  · intro hin
    exact h.started (by simpa [Ne.symm hb] using hin)
  · intro hd'
    rw [hret]
    exact h.distributing hd'
  · intro res rest hp
    rw [hret]
    exact h.releasing res rest hp
  · intro res hp
    rw [hret]
    exact h.returned res hp
  · intro hp hin
    rw [hret]
    exact h.gone hp (by simpa [Ne.symm hb] using hin)

theorem newReader (h : Story evs reps w) (hs : w.step .newReader = some (rep, w')) :
    Story (evs ++ [.newReader]) (reps ++ [rep]) w' := by
  obtain ⟨-, rfl, rfl⟩ := World.step_newReader hs
  have hret := firstReturn_snoc_of_ne reps (.made w.hub.readers.size) (by simp)
  -- the new reader's id is fresh: every registration is a reader made before it
  have hfresh : w.hub.readers.size ∉ w.hub.registrations :=
    fun hm => Nat.lt_irrefl _ (h.regs_lt _ hm)
  have hregs : (w.hub.addReader none).1.registrations =
      if w.hub.finished then w.hub.registrations else w.hub.registrations ++ [w.hub.readers.size] :=
    rfl
  refine ⟨by simp [h.length], by simpa using h.aborted, by simpa using h.finished,
    by simp [h.size, List.count_append], ?_, ?_, ?_, ?_, ?_, ?_, ?_, ?_⟩
  · intro j hj
    rw [Hub.size_addReader]
    rw [hregs] at hj
    split at hj
    · exact Nat.lt_succ_of_lt (h.regs_lt j hj)
    · rcases List.mem_append.1 hj with hj | hj
      · exact Nat.lt_succ_of_lt (h.regs_lt j hj)
      · rw [List.mem_singleton.1 hj]
        exact Nat.lt_succ_self _
  · rw [hregs]
    split
    · exact h.regs_nodup
    · exact List.nodup_append.2 ⟨h.regs_nodup, List.nodup_singleton _,
        fun a ha b hb => by rw [List.mem_singleton.1 hb]; rintro rfl; exact hfresh ha⟩
  · intro hnb
    rw [hret]
    simpa using h.unstarted (by simp_all)
  · intro hin
    exact h.started (by simpa using hin)
  · intro hd
    rw [hret]
    exact h.distributing hd
  · intro res rest hp
    rw [hret]
    exact h.releasing res rest hp
  · intro res hp
    rw [hret]
    exact h.returned res hp
  · intro hp hin
    rw [hret]
    exact h.gone hp (by simpa using hin)

theorem broadcast (h : Story evs reps w) (hs : w.step .broadcast = some (rep, w')) :
    Story (evs ++ [.broadcast]) (reps ++ [rep]) w' := by
  obtain ⟨hfree, ⟨hfin, rfl, hw⟩ | ⟨hfin, rfl, rfl⟩⟩ := World.step_broadcast hs
  · -- a second call: `broadcast` returned already, and the call changes nothing
    rw [hw]
    have hin : .broadcast ∈ evs := h.finished.1 hfin
    obtain ⟨res, hp⟩ : ∃ res, w.phase = .returned res := by
      have := h.started hin
      simp only [World.ownerFree] at hfree
      split at hfree <;> simp_all
    have hret := firstReturn_append_of_some (h.returned res hp)
      [.returned (.error (Error.closed .broadcast))]
    refine ⟨by simp [h.length], by simpa using h.aborted, by simp [hfin],
      by simp [h.size, List.count_append], h.regs_lt, h.regs_nodup, fun hnb => by simp at hnb,
      fun _ => h.started hin, fun hd => by simp [World.Distributing, hp] at hd,
      fun _ _ hp' => by simp [hp] at hp', fun res' hp' => ?_, fun _ _ => by simp [hret]⟩
    rw [hret]
    simpa [hp] using hp'
  · -- the first call starts the broadcasting thread
    have hnin : .broadcast ∉ evs := fun hin => by simp [h.finished.2 hin] at hfin
    obtain ⟨hnone, hidle | hgone⟩ := h.unstarted hnin
    rotate_left
    · simp [World.ownerFree, hgone.1] at hfree
    have hret := firstReturn_snoc_of_ne reps .quiet (by simp)
    refine ⟨by simp [h.length], by simpa using h.aborted, by simp, by simp [h.size, List.count_append],
      h.regs_lt, h.regs_nodup, fun hnb => by simp at hnb, fun _ => by simp, fun _ => by rw [hret, hnone],
      fun _ _ hp => by simp at hp, fun _ hp => by simp at hp, fun hp => by simp at hp⟩

theorem abort (h : Story evs reps w) (hs : w.step .abort = some (rep, w')) :
    Story (evs ++ [.abort]) (reps ++ [rep]) w' := by
  obtain ⟨rfl, rfl⟩ := World.step_abort hs
  have hret := firstReturn_snoc_of_ne reps .quiet (by simp)
  refine ⟨by simp [h.length], by simp, by simpa using h.finished, by simp [h.size, List.count_append],
    h.regs_lt, h.regs_nodup, ?_, fun hin => h.started (by simpa using hin), ?_, ?_, ?_, ?_⟩
  · intro hnb
    rw [hret]
    simpa using h.unstarted (by simpa using hnb)
  · intro hd
    rw [hret]
    exact h.distributing hd
  · intro res rest hp
    obtain ⟨hnd, hres, hnone⟩ := h.releasing res rest hp
    exact ⟨hnd, hres.raise, by rw [hret, hnone]⟩
  · intro res hp
    rw [hret]
    exact h.returned res hp
  · intro hp hin
    rw [hret]
    exact h.gone hp (by simpa using hin)

theorem dropBroadcaster (h : Story evs reps w) (hs : w.step .dropBroadcaster = some (rep, w')) :
    Story (evs ++ [.dropBroadcaster]) (reps ++ [rep]) w' := by
  obtain ⟨hfree, rfl, rfl⟩ := World.step_dropBroadcaster hs
  have hret := firstReturn_snoc_of_ne reps .quiet (by simp)
  -- the hub after the drop: as it was after `broadcast`, its registrations let go before
  have hhub : ∀ {P : Hub → Prop}, P w.hub → P (w.hub.releaseAll (some .closed)) →
      P (if w.hub.finished then w.hub else w.hub.releaseAll (some .closed)) := by
    intro P h1 h2
    split
    · exact h1
    · exact h2
  refine ⟨by simp [h.length], ?_, ?_, ?_, ?_, ?_, ?_, fun hin => by simp, fun hd => by
    simp [World.Distributing] at hd, fun _ _ hp => by simp at hp, fun _ hp => by simp at hp, ?_⟩
  · exact hhub (P := fun x => x.aborted = true ↔ _) (by simpa using h.aborted)
      (by simpa [Hub.releaseAll] using h.aborted)
  · exact hhub (P := fun x => x.finished = true ↔ _) (by simpa using h.finished)
      (by simpa [Hub.releaseAll] using h.finished)
  · exact hhub (P := fun x => x.readers.size = _) (by simp [h.size, List.count_append])
      (by simp [Hub.size_releaseAll, h.size, List.count_append])
  · exact hhub (P := fun x => ∀ i ∈ x.registrations, i < x.readers.size) h.regs_lt
      (by simp [Hub.releaseAll])
  · exact hhub (P := fun x => x.registrations.Nodup) h.regs_nodup (by simp [Hub.releaseAll])
  · intro hnb
    rw [hret]
    exact ⟨(h.unstarted (by simpa using hnb)).1, .inr ⟨rfl, by simp⟩⟩
  · intro _ hin
    rw [hret]
    -- outside `broadcast`, after it was called, the broadcaster had returned
    have hin' : .broadcast ∈ evs := by simpa using hin
    have := h.started hin'
    simp only [World.ownerFree] at hfree
    split at hfree
    · contradiction
    · rename_i res hp
      simp [h.returned res hp]
    · contradiction

theorem started_of_phase (h : Story evs reps w) (hi : w.phase ≠ .idle) (hg : w.phase ≠ .gone) :
    .broadcast ∈ evs := by
  by_contra hnb
  rcases (h.unstarted hnb).2 with ⟨hp, -⟩ | ⟨hp, -⟩
  · exact hi hp
  · exact hg hp

theorem started_of_distributing (h : Story evs reps w) (hd : w.Distributing) :
    .broadcast ∈ evs :=
  h.started_of_phase (fun hp => by simp [World.Distributing, hp] at hd)
    (fun hp => by simp [World.Distributing, hp] at hd)

theorem returned_of_ownerFree (h : Story evs reps w) (hfree : w.ownerFree = true)
    (hin : .broadcast ∈ evs) : ∃ res, w.phase = .returned res := by
  have := h.started hin
  simp only [World.ownerFree] at hfree
  split at hfree <;> simp_all

theorem idle_of_ownerFree (h : Story evs reps w) (hfree : w.ownerFree = true)
    (hin : .broadcast ∉ evs) : w.phase = .idle := by
  rcases (h.unstarted hin).2 with ⟨hp, -⟩ | ⟨hp, -⟩
  · exact hp
  · simp [World.ownerFree, hp] at hfree

/-- Between two positions of the broadcasting thread inside its loop, with the flags and the
readers made as they were, the story goes on when the registrations stay sound. -/
theorem inLoop (h : Story evs reps w) (hd : w.Distributing) (hd' : w'.Distributing)
    (ha : w'.hub.aborted = w.hub.aborted) (hf : w'.hub.finished = w.hub.finished)
    (hsize : w'.hub.readers.size = w.hub.readers.size)
    (hlt : ∀ i ∈ w'.hub.registrations, i < w'.hub.readers.size)
    (hnd : w'.hub.registrations.Nodup) :
    Story (evs ++ [.advance]) (reps ++ [.quiet]) w' := by
  have hret := firstReturn_snoc_of_ne reps .quiet (by simp)
  have hin := h.started_of_distributing hd
  refine ⟨by simp [h.length], by simpa [ha] using h.aborted, by simpa [hf] using h.finished,
    by simp [hsize, h.size, List.count_append], hlt, hnd, fun hnb => absurd (by simp [hin]) hnb,
    fun _ hp => by simp [World.Distributing, hp] at hd', fun _ => by rw [hret]; exact h.distributing hd,
    fun _ _ hp => by simp [World.Distributing, hp] at hd', fun _ hp => by
      simp [World.Distributing, hp] at hd', fun hp => by simp [World.Distributing, hp] at hd'⟩

/-- A step of the broadcasting thread keeps the story. -/
theorem advanced (h : Story evs reps w) (ha : World.Advanced w rep w') :
    Story (evs ++ [.advance]) (reps ++ [rep]) w' := by
  cases ha with
  | move hd hd' hw =>
    exact h.inLoop hd hd' (by rw [hw]) (by rw [hw]) (by rw [hw]) (by rw [hw]; exact h.regs_lt)
      (by rw [hw]; exact h.regs_nodup)
  | remove i hi hd hd' _ _ hw =>
    -- the deque loses one registration, keeping the others
    have hsub : swapRemoveFront w.hub.registrations i ⊆ w.hub.registrations :=
      fun _ hj => List.eraseIdx_subset ((swapRemoveFront_perm hi).subset hj)
    refine h.inLoop hd hd' (by rw [hw]) (by rw [hw]) (by rw [hw]) ?_ ?_
    · rw [hw]
      exact fun j hj => h.regs_lt j (hsub hj)
    · rw [hw]
      exact nodup_swapRemoveFront h.regs_nodup hi
  | enqueue seg hd hd' _ hw =>
    refine h.inLoop hd hd' (by simp [hw, Hub.enqueue]) (by simp [hw, Hub.enqueue])
      (by simp [hw, Hub.enqueue]) ?_ ?_
    · simpa [hw, Hub.enqueue] using h.regs_lt
    · simpa [hw, Hub.enqueue] using h.regs_nodup
  | stop hd hres hw hp =>
    have hret := firstReturn_snoc_of_ne reps .quiet (by simp)
    have hin := h.started_of_distributing hd
    refine ⟨by simp [h.length], by simpa [hw] using h.aborted, by simpa [hw] using h.finished,
      by simp [hw, h.size, List.count_append], by simp [hw], by simp [hw],
      fun hnb => absurd (by simp [hin]) hnb, fun _ => by simp [hp],
      fun hd' => by simp [World.Distributing, hp] at hd', ?_, fun _ hp' => by simp [hp] at hp',
      fun hp' => by simp [hp] at hp'⟩
    intro res' rest hp'
    simp only [hp, Phase.releasing.injEq] at hp'
    obtain ⟨rfl, rfl⟩ := hp'
    exact ⟨h.regs_nodup, by simpa [hw] using hres, by rw [hret]; exact h.distributing hd⟩
  | release hp =>
    have hret := firstReturn_snoc_of_ne reps .quiet (by simp)
    have hin := h.started_of_phase (by simp [hp]) (by simp [hp])
    obtain ⟨hnd, hres, hnone⟩ := h.releasing _ _ hp
    refine ⟨by simp [h.length], by simpa using h.aborted, by simpa using h.finished,
      by simp [h.size, List.count_append], by simpa using h.regs_lt, by simpa using h.regs_nodup,
      fun hnb => absurd (by simp [hin]) hnb, fun _ => by simp, fun hd' => by
        simp [World.Distributing] at hd', ?_, fun _ hp' => by simp at hp', fun hp' => by simp at hp'⟩
    intro res' rest' hp'
    simp only [Phase.releasing.injEq] at hp'
    obtain ⟨rfl, rfl⟩ := hp'
    exact ⟨(List.nodup_cons.1 hnd).2, by simpa using hres, by rw [hret, hnone]⟩
  | @finish res hp =>
    have hin := h.started_of_phase (by simp [hp]) (by simp [hp])
    obtain ⟨-, -, hnone⟩ := h.releasing _ _ hp
    have hret := firstReturn_append_of_none hnone [.returned res]
    refine ⟨by simp [h.length], by simpa using h.aborted, by simpa using h.finished,
      by simp [h.size, List.count_append], h.regs_lt, h.regs_nodup,
      fun hnb => absurd (by simp [hin]) hnb, fun _ => by simp, fun hd' => by
        simp [World.Distributing] at hd', fun _ _ hp' => by simp at hp', ?_, fun hp' => by simp at hp'⟩
    intro res' hp'
    simp only [Phase.returned.injEq] at hp'
    subst hp'
    rw [hret]
    rfl

/-- **Every step keeps the story.** -/
theorem step (h : Story evs reps w) {e : Event} (hs : w.step e = some (rep, w')) :
    Story (evs ++ [e]) (reps ++ [rep]) w' := by
  cases e with
  | newReader => exact h.newReader hs
  | broadcast => exact h.broadcast hs
  | advance => exact h.advanced (World.advance_advanced hs)
  | read i k =>
    obtain ⟨-, -, r', -, -, -, -, rfl, hw⟩ := World.step_read hs
    exact h.modify (by simp) (by simp) hw
  | close i =>
    obtain ⟨-, rfl, hw⟩ := World.step_close hs
    exact h.modify (by simp) (by simp) hw
  | drop i =>
    obtain ⟨-, rfl, hw⟩ := World.step_drop hs
    exact h.modify (by simp) (by simp) hw
  | abort => exact h.abort hs
  | dropBroadcaster => exact h.dropBroadcaster hs

end Story

end Plumbing.Broadcast
