import Mathlib.Data.List.Induction
import Plumbing.Proofs.Broadcast.History

/-!
# How a reader's reads end

Take any history of a broadcast: readers made, `broadcast` called (or not), the threads taking
their steps in any order, readers closed or dropped, the abort signal raised, the broadcaster
dropped. Then a read of a reader `R` that is still held answers, at once and without waiting
(`reader_terminal_outcomes`):

* after the abort signal, an aborted error, unless `R` already answered closed;
* with no abort, once a reader that was closed, or made after `broadcast`, or of a broadcaster
  dropped without broadcasting has no bytes left, a closed error;
* with no abort, once a reader made before `broadcast` and never closed has no bytes left and
  `broadcast` has returned, the end `broadcast` returned: no bytes, or its failure;
* once `R` answered closed or aborted, the same again.

The proof is an invariant of the history: `Story` for the broadcaster, and `Tracked` for `R`,
its `ReaderLog` (what the history tells of it whatever the broadcaster does) and, while it is
neither closed nor aborted, its `Fate` (where the broadcaster left it). Every step keeps both
(`Tracked.step`), so every run does (`Tracked.run`), and each answer is read off by the lemmas
on `Reader.read`.
-/

namespace Plumbing.Broadcast

open Plumbing.Stream

/-! ## What a read can do -/

namespace Reader

/-- The reader ends with `t`: `t` waits alone in its slot, or it settled on `t` with the slot
empty. -/
def EndsWith (r : Reader) (t : Terminal) : Prop :=
  (r.slot = [t] ∧ r.last = none) ∨ (r.slot = [] ∧ r.last = some t)

/-- What a read that returns changes: never the reader's flags or registration; its slot loses
at most its front, which it settles on; or it settles on aborted after the abort signal, or on
closed when it was closed. Its answer is what it settled on, or bytes with nothing settled. -/
theorem read_shape {r r' : Reader} {ab : Bool} {k : Nat} {res : Except Error (List UInt8)}
    (h : r.read ab k = (.done res, r')) :
    r'.detached = r.detached ∧ r'.dropped = r.dropped ∧ r'.registered = r.registered ∧
      r'.thread = r.thread ∧
      ((r'.slot = r.slot ∧ r'.last = r.last) ∨ (∃ t, r.slot = t :: r'.slot ∧ r'.last = some t) ∨
        (r'.slot = r.slot ∧ ((r'.last = some .aborted ∧ ab = true) ∨
          (r'.last = some .closed ∧ r.detached = true)))) ∧
      (res = r'.terminal ∨ ∃ out, res = .ok out ∧ r'.slot = r.slot ∧ r'.last = r.last) := by
  unfold read at h
  split at h
  · simp only [Prod.mk.injEq, ReadStep.done.injEq] at h
    obtain ⟨rfl, rfl⟩ := h
    exact ⟨rfl, rfl, rfl, rfl, .inl ⟨rfl, rfl⟩, .inl rfl⟩
  · split at h
    · rename_i hab
      simp only [abortRead, Prod.mk.injEq, ReadStep.done.injEq] at h
      obtain ⟨rfl, rfl⟩ := h
      exact ⟨rfl, rfl, rfl, rfl, .inr (.inr ⟨rfl, .inl ⟨rfl, hab⟩⟩), .inl rfl⟩
    · split at h
      · -- a closed reader: what is queued, then closed
        rename_i hd
        dsimp only at h
        split at h
        · simp only [Prod.mk.injEq, ReadStep.done.injEq] at h
          obtain ⟨rfl, rfl⟩ := h
          exact ⟨rfl, rfl, rfl, rfl, .inr (.inr ⟨rfl, .inr ⟨rfl, hd⟩⟩), .inl rfl⟩
        · simp only [copyOut, Prod.mk.injEq, ReadStep.done.injEq] at h
          obtain ⟨rfl, rfl⟩ := h
          exact ⟨rfl, rfl, rfl, rfl, .inl ⟨rfl, rfl⟩, .inr ⟨_, rfl, rfl, rfl⟩⟩
      · dsimp only at h
        split at h
        · simp at h
        · split at h
          · simp only [copyOut, Prod.mk.injEq, ReadStep.done.injEq] at h
            obtain ⟨rfl, rfl⟩ := h
            exact ⟨rfl, rfl, rfl, rfl, .inl ⟨rfl, rfl⟩, .inr ⟨_, rfl, rfl, rfl⟩⟩
          · split at h
            · rename_i t rest hs
              simp only [Prod.mk.injEq, ReadStep.done.injEq] at h
              obtain ⟨rfl, rfl⟩ := h
              exact ⟨rfl, rfl, rfl, rfl, .inr (.inl ⟨t, hs, rfl⟩), .inl rfl⟩
            · simp only [Prod.mk.injEq, ReadStep.done.injEq] at h
              obtain ⟨rfl, rfl⟩ := h
              exact ⟨rfl, rfl, rfl, rfl, .inl ⟨rfl, rfl⟩, .inl rfl⟩

theorem read_valid {r r' : Reader} {ab : Bool} {k : Nat} {res : Except Error (List UInt8)}
    (hv : r.buffer.Valid) (h : r.read ab k = (.done res, r')) : r'.buffer.Valid := by
  have hp := valid_pull hv k
  unfold read at h
  split at h
  · simp only [Prod.mk.injEq, ReadStep.done.injEq] at h
    rw [← h.2]
    exact hv
  · split at h
    · simp only [abortRead, Prod.mk.injEq, ReadStep.done.injEq] at h
      rw [← h.2]
      exact SegmentQueue.valid_empty
    · split at h
      · dsimp only at h
        split at h
        · simp only [Prod.mk.injEq, ReadStep.done.injEq] at h
          rw [← h.2]
          exact hp
        · simp only [copyOut, Prod.mk.injEq, ReadStep.done.injEq] at h
          rw [← h.2]
          exact hp.readInto k
      · dsimp only at h
        split at h
        · simp at h
        · split at h
          · simp only [copyOut, Prod.mk.injEq, ReadStep.done.injEq] at h
            rw [← h.2]
            exact hp.readInto k
          · split at h
            · simp only [Prod.mk.injEq, ReadStep.done.injEq] at h
              rw [← h.2]
              exact hp
            · simp only [Prod.mk.injEq, ReadStep.done.injEq] at h
              rw [← h.2]
              exact hp

/-- A reader settled on closed or aborted answers it again, at once, and stays as it is. -/
theorem read_of_settled {r : Reader} (h : r.last = some .closed ∨ r.last = some .aborted)
    (ab : Bool) (k : Nat) : r.read ab k = (.done r.terminal, r) := by
  rcases h with h | h <;> simp [read, h]

/-- After the abort signal, a reader settled on neither closed nor aborted drops its buffer and
answers aborted. -/
theorem read_of_aborted {r : Reader} (hc : r.last ≠ some .closed) (ha : r.last ≠ some .aborted)
    (k : Nat) :
    r.read true k =
      (.done (.error (Error.aborted .read)), { r with buffer := .empty, last := some .aborted }) := by
  simp [read, hc, ha, abortRead, terminal]

/-- A closed reader with nothing left answers closed. -/
theorem read_detached_of_pending_nil {r : Reader} (hc : r.last ≠ some .closed)
    (ha : r.last ≠ some .aborted) (hd : r.detached = true) (hv : r.buffer.Valid)
    (hp : r.pending = []) (k : Nat) :
    ∃ r', r.read false k = (.done (.error (Error.closed .read)), r') := by
  have hempty : (r.pull k).buffer.isEmpty = true := by
    rw [SegmentQueue.isEmpty_iff (valid_pull hv k)]
    have := pending_pull hv k
    rw [hp] at this
    exact (List.append_eq_nil_iff.1 this).1
  refine ⟨{ r.pull k with last := some .closed }, ?_⟩
  simp only [read, hc, ha, hd, hempty, decide_false, Bool.or_false, Bool.false_eq_true, ↓reduceIte]
  rfl

/-- A reader let go of, not closed, with nothing left, answers the terminal it ends with, and
goes on ending with it. -/
theorem read_of_endsWith {r : Reader} {t : Terminal} (he : r.EndsWith t) (ht : t ≠ .aborted)
    (hd : r.detached = false) (hreg : r.registered = false) (hv : r.buffer.Valid)
    (hp : r.pending = []) (k : Nat) :
    ∃ r', r.read false k = (.done { r with last := some t }.terminal, r') ∧ r'.EndsWith t := by
  -- nothing comes out of the queue, and an empty buffer of a reader let go does not wait
  have hlen : (r.pull k).buffer.len = 0 := by
    have hpull := pending_pull hv k
    rw [hp] at hpull
    rw [(valid_pull hv k).len_eq, (List.append_eq_nil_iff.1 hpull).1]
    rfl
  have hempty : (r.pull k).buffer.isEmpty = true := by simp [SegmentQueue.isEmpty, hlen]
  have hreg' : (r.pull k).registered = false := hreg
  rcases he with ⟨hslot, hlast⟩ | ⟨hslot, hlast⟩
  · -- the terminal waits in the slot: the read settles on it
    have hslot' : (r.pull k).slot = [t] := hslot
    refine ⟨{ r.pull k with slot := [], last := some t }, ?_, .inr ⟨rfl, rfl⟩⟩
    simp only [read, hlast, hd, hreg', hempty, hslot', reduceCtorEq, decide_false, Bool.or_false,
      Bool.false_eq_true, ↓reduceIte, Bool.and_false, Bool.not_true]
    rfl
  · by_cases htc : t = .closed
    · subst htc
      refine ⟨r, ?_, .inr ⟨hslot, hlast⟩⟩
      rw [read_of_settled (.inl hlast)]
      rw [← hlast]
    · have hslot' : (r.pull k).slot = [] := hslot
      refine ⟨r.pull k, ?_, .inr ⟨hslot, hlast⟩⟩
      simp only [read, hlast, hd, hreg', hempty, hslot', Option.some.injEq, htc, ht, decide_false,
        Bool.or_false, Bool.false_eq_true, ↓reduceIte, Bool.and_false, Bool.not_true]
      rw [← hlast]
      rfl

/-- With every terminal it holds offered or aborted, a reader answers closed exactly when it
settled on closed. -/
theorem terminal_eq_closed_iff {r : Reader} (h : ∀ t, r.last = some t → t.Offered ∨ t = .aborted) :
    r.terminal = .error (Error.closed .read) ↔ r.last = some .closed := by
  rcases hl : r.last with _ | t
  · simp [terminal, hl]
  · have ht := h t hl
    cases t with
    | failed e =>
      simp only [Terminal.Offered, reduceCtorEq, or_false] at ht
      simp only [terminal, hl, Except.error.injEq, Option.some.injEq, reduceCtorEq, iff_false]
      rintro rfl
      simp [Error.kind, Error.closed, Fault.kind] at ht
    | _ => simp [terminal, hl, Error.closed, Error.aborted]

theorem terminal_eq_aborted_iff {r : Reader} (h : ∀ t, r.last = some t → t.Offered ∨ t = .aborted) :
    r.terminal = .error (Error.aborted .read) ↔ r.last = some .aborted := by
  rcases hl : r.last with _ | t
  · simp [terminal, hl]
  · have ht := h t hl
    cases t with
    | failed e =>
      simp only [Terminal.Offered, reduceCtorEq, or_false] at ht
      simp only [terminal, hl, Except.error.injEq, Option.some.injEq, reduceCtorEq, iff_false]
      rintro rfl
      simp [Error.kind, Error.aborted, Fault.kind] at ht
    | _ => simp [terminal, hl, Error.closed, Error.aborted]

@[simp] theorem release_detached (t : Option Terminal) (r : Reader) :
    (r.release t).detached = r.detached := by
  rcases t with _ | t
  · rfl
  · simp only [release, offer]
    split <;> rfl

@[simp] theorem release_dropped (t : Option Terminal) (r : Reader) :
    (r.release t).dropped = r.dropped := by
  rcases t with _ | t
  · rfl
  · simp only [release, offer]
    split <;> rfl

@[simp] theorem release_last (t : Option Terminal) (r : Reader) :
    (r.release t).last = r.last := by
  rcases t with _ | t
  · rfl
  · simp only [release, offer]
    split <;> rfl

@[simp] theorem release_buffer (t : Option Terminal) (r : Reader) :
    (r.release t).buffer = r.buffer := by
  rcases t with _ | t
  · rfl
  · simp only [release, offer]
    split <;> rfl

@[simp] theorem release_thread (t : Option Terminal) (r : Reader) :
    (r.release t).thread = r.thread := by
  rcases t with _ | t
  · rfl
  · simp only [release, offer]
    split <;> rfl

/-- With no abort raised, a read of a reader that is not closed keeps its slot and what it
settled on, or settles on the slot's front. -/
theorem read_settles {r r' : Reader} {k : Nat} {res : Except Error (List UInt8)}
    (hd : r.detached = false) (h : r.read false k = (.done res, r')) :
    (r'.slot = r.slot ∧ r'.last = r.last) ∨ ∃ t, r.slot = t :: r'.slot ∧ r'.last = some t := by
  obtain ⟨-, -, -, -, hs, -⟩ := read_shape h
  rcases hs with hs | hs | ⟨-, ⟨-, hab⟩ | ⟨-, hdet⟩⟩
  · exact .inl hs
  · exact .inr hs
  · cases hab
  · rw [hd] at hdet
    cases hdet

theorem EndsWith.read {r r' : Reader} {t : Terminal} {k : Nat} {res : Except Error (List UInt8)}
    (he : r.EndsWith t) (hd : r.detached = false) (h : r.read false k = (.done res, r')) :
    r'.EndsWith t := by
  rcases read_settles hd h with ⟨hs, hl⟩ | ⟨t', hs, hl⟩
  · rw [EndsWith, hs, hl]
    exact he
  · rcases he with ⟨hslot, -⟩ | ⟨hslot, -⟩
    · rw [hslot, List.cons.injEq] at hs
      obtain ⟨rfl, hnil⟩ := hs
      exact .inr ⟨hnil.symm, hl⟩
    · rw [hslot] at hs
      cases hs

theorem read_of_slot_nil {r r' : Reader} {k : Nat} {res : Except Error (List UInt8)}
    (hs : r.slot = []) (hd : r.detached = false) (h : r.read false k = (.done res, r')) :
    r'.slot = [] ∧ r'.last = r.last ∧ r'.registered = r.registered := by
  obtain ⟨-, -, hreg, -⟩ := read_shape h
  rcases read_settles hd h with ⟨hs', hl⟩ | ⟨t, hs', -⟩
  · exact ⟨hs'.trans hs, hl, hreg⟩
  · rw [hs] at hs'
    cases hs'

/-- What a read settles on is in its slot, aborted, or closed. -/
theorem read_last {r r' : Reader} {ab : Bool} {k : Nat} {res : Except Error (List UInt8)}
    (hslot : ∀ t ∈ r.slot, t.Offered) (hl : ∀ t, r.last = some t → t.Offered ∨ t = .aborted)
    (h : r.read ab k = (.done res, r')) :
    (∀ t, r'.last = some t → t.Offered ∨ t = .aborted) ∧
      (r'.last = some .aborted → r.last = some .aborted ∨ ab = true) := by
  obtain ⟨-, -, -, -, hs, -⟩ := read_shape h
  rcases hs with ⟨-, hl'⟩ | ⟨t, hs, hl'⟩ | ⟨-, ⟨hl', hab⟩ | ⟨hl', -⟩⟩
  · rw [hl']
    exact ⟨hl, .inl⟩
  · have ht : t.Offered := hslot t (by simp [hs])
    rw [hl']
    refine ⟨fun t' ht' => .inl (Option.some.inj ht' ▸ ht), fun ha => ?_⟩
    rw [Option.some.inj ha] at ht
    exact ht.elim
  · rw [hl']
    exact ⟨fun t ht => .inr (Option.some.inj ht).symm, fun _ => .inr hab⟩
  · rw [hl']
    exact ⟨fun t ht => .inl (Option.some.inj ht ▸ trivial), fun ha => by cases ha⟩

/-- A read settles on closed, or on aborted, exactly when it answers so or had settled on it. -/
theorem read_last_iff {r r' : Reader} {ab : Bool} {k : Nat} {res : Except Error (List UInt8)}
    (hslot : ∀ t ∈ r.slot, t.Offered) (hl : ∀ t, r.last = some t → t.Offered ∨ t = .aborted)
    (h : r.read ab k = (.done res, r')) :
    (r'.last = some .closed ↔ r.last = some .closed ∨ res = .error (Error.closed .read)) ∧
      (r'.last = some .aborted ↔ r.last = some .aborted ∨ res = .error (Error.aborted .read)) := by
  have hl' := (read_last hslot hl h).1
  -- a reader settled on closed or aborted reads as it is
  have hsettled : r.last = some .closed ∨ r.last = some .aborted → r' = r ∧ res = r.terminal := by
    intro hs
    rw [read_of_settled hs, Prod.mk.injEq, ReadStep.done.injEq] at h
    exact ⟨h.2.symm, h.1.symm⟩
  obtain ⟨-, -, -, -, -, hres | ⟨out, rfl, -, hlast⟩⟩ := read_shape h
  · subst hres
    constructor
    · rw [terminal_eq_closed_iff hl']
      refine ⟨.inr, fun h' => h'.elim (fun hc => by rw [(hsettled (.inl hc)).1]; exact hc) id⟩
    · rw [terminal_eq_aborted_iff hl']
      refine ⟨.inr, fun h' => h'.elim (fun ha => by rw [(hsettled (.inr ha)).1]; exact ha) id⟩
  · rw [hlast]
    simp

end Reader

/-! ## What the history tells of one reader -/

/-- What the history `evs`, `reps` tells of reader `R`, whatever the broadcaster does: it has no
thread; it was closed or dropped exactly as the history says; its slot holds terminals a slot
can receive, and it settled on one of them, or on aborted once the abort signal `ab` was raised;
and it settled on closed, or on aborted, exactly when a read of it answered so. -/
structure ReaderLog (R : Nat) (evs : List Event) (reps : List Report) (ab : Bool) (r : Reader) :
    Prop where
  thread : r.thread = none
  dropped : r.dropped = true → .drop R ∈ evs ∧ r.detached = true
  closed : .close R ∈ evs → r.detached = true
  detached : r.detached = true → .close R ∈ evs ∨ .drop R ∈ evs
  valid : r.buffer.Valid
  slot : ∀ t ∈ r.slot, t.Offered
  last : ∀ t, r.last = some t → t.Offered ∨ t = .aborted
  aborted : r.last = some .aborted → ab = true
  last_closed : r.last = some .closed ↔ Returned R evs reps (Error.closed .read)
  last_aborted : r.last = some .aborted ↔ Returned R evs reps (Error.aborted .read)

namespace ReaderLog

variable {R : Nat} {evs : List Event} {reps : List Report} {ab : Bool} {r : Reader}

/-- A reader made with no step of its own in the history. -/
theorem new (hc : .close R ∉ evs) (hreads : readsOf R evs reps = [])
    (fin : Bool) : ReaderLog R evs reps ab (Reader.new fin none) := by
  have hnone : ∀ e, ¬ Returned R evs reps e := by
    rintro e ⟨k, hk⟩
    rw [hreads] at hk
    cases hk
  refine ⟨rfl, fun h => (Bool.false_ne_true h).elim, fun h => absurd h hc,
    fun h => (Bool.false_ne_true h).elim, SegmentQueue.valid_empty, ?_,
    fun t h => absurd h (by simp [Reader.new]), fun h => absurd h (by simp [Reader.new]), ?_, ?_⟩
  · intro t ht
    cases fin <;> simp_all [Reader.new, Terminal.Offered]
  · exact ⟨fun h => absurd h (by simp [Reader.new]), fun h => absurd h (hnone _)⟩
  · exact ⟨fun h => absurd h (by simp [Reader.new]), fun h => absurd h (hnone _)⟩

/-- A step that is no read, close or drop of `R` and lowers no flag keeps the log of an
unchanged reader. -/
theorem frame (h : ReaderLog R evs reps ab r) (hlen : evs.length = reps.length) {e : Event}
    (he : e ≠ .close R ∧ e ≠ .drop R ∧ ∀ k, e ≠ .read R k) (rep : Report) {ab' : Bool}
    (hab : ab = true → ab' = true) : ReaderLog R (evs ++ [e]) (reps ++ [rep]) ab' r := by
  have hc : .close R ∈ evs ++ [e] ↔ .close R ∈ evs := by simp [Ne.symm he.1]
  have hd : .drop R ∈ evs ++ [e] ↔ .drop R ∈ evs := by simp [Ne.symm he.2.1]
  refine ⟨h.thread, ?_, fun hm => h.closed (hc.1 hm), ?_, h.valid, h.slot, h.last,
    fun ha => hab (h.aborted ha), ?_, ?_⟩
  · rw [hd]
    exact h.dropped
  · rw [hc, hd]
    exact h.detached
  · rw [Returned.snoc_of_ne hlen he.2.2]
    exact h.last_closed
  · rw [Returned.snoc_of_ne hlen he.2.2]
    exact h.last_aborted

theorem enqueue (h : ReaderLog R evs reps ab r) (seg : List UInt8) :
    ReaderLog R evs reps ab { r with queue := r.queue ++ [seg] } :=
  ⟨h.thread, h.dropped, h.closed, h.detached, h.valid, h.slot, h.last, h.aborted, h.last_closed,
    h.last_aborted⟩

/-- Letting go of the registration leaves a terminal a slot can receive, if any. -/
theorem release (h : ReaderLog R evs reps ab r) {t : Option Terminal}
    (ht : ∀ t', t = some t' → t'.Offered) : ReaderLog R evs reps ab (r.release t) := by
  have hslot : ∀ t' ∈ (r.release t).slot, t'.Offered := by
    rcases t with _ | t
    · exact h.slot
    · simp only [Reader.release, Reader.offer]
      split
      · intro t' ht'
        rcases List.mem_append.1 ht' with ht' | ht'
        · exact h.slot t' ht'
        · rw [List.mem_singleton.1 ht']
          exact ht t rfl
      · exact h.slot
  refine ⟨by simpa using h.thread, by simpa using h.dropped, by simpa using h.closed,
    by simpa using h.detached, by simpa using h.valid, hslot, by simpa using h.last,
    by simpa using h.aborted, by simpa using h.last_closed, by simpa using h.last_aborted⟩

/-- A read of `R` that returns keeps its log, with its answer added. -/
theorem read (h : ReaderLog R evs reps ab r) (hlen : evs.length = reps.length) {k : Nat}
    {res : Except Error (List UInt8)} {r' : Reader} (hr : r.read ab k = (.done res, r')) :
    ReaderLog R (evs ++ [.read R k]) (reps ++ [.read res]) ab r' := by
  obtain ⟨hdet, hdr, -, hth, -⟩ := Reader.read_shape hr
  obtain ⟨hl, hab⟩ := Reader.read_last h.slot h.last hr
  obtain ⟨hclosed, haborted⟩ := Reader.read_last_iff h.slot h.last hr
  have hc : .close R ∈ evs ++ [.read R k] ↔ .close R ∈ evs := by simp
  have hd : .drop R ∈ evs ++ [.read R k] ↔ .drop R ∈ evs := by simp
  refine ⟨hth ▸ h.thread, ?_, fun hm => hdet ▸ h.closed (hc.1 hm), ?_, Reader.read_valid h.valid hr,
    ?_, hl, fun ha => (hab ha).elim h.aborted id, ?_, ?_⟩
  · rw [hd, hdr, hdet]
    exact h.dropped
  · rw [hc, hd, hdet]
    exact h.detached
  · -- the slot loses at most its front
    obtain ⟨-, -, -, -, hs, -⟩ := Reader.read_shape hr
    rcases hs with ⟨hs, -⟩ | ⟨t, hs, -⟩ | ⟨hs, -⟩
    · exact hs ▸ h.slot
    · exact fun t' ht' => h.slot t' (by simp [hs, ht'])
    · exact hs ▸ h.slot
  · rw [hclosed, Returned.snoc_read hlen, h.last_closed]
  · rw [haborted, Returned.snoc_read hlen, h.last_aborted]

/-- Closing `R` raises its detach signal, leaving closed in its slot the first time. -/
theorem close (h : ReaderLog R evs reps ab r) (hlen : evs.length = reps.length) :
    ReaderLog R (evs ++ [.close R]) (reps ++ [.quiet]) ab
      (if r.detached then r else { r.offer .closed with detached := true }) := by
  have hret : ∀ err, Returned R (evs ++ [.close R]) (reps ++ [.quiet]) err ↔ Returned R evs reps err :=
    Returned.snoc_of_ne hlen (by simp) .quiet
  have hd : .drop R ∈ evs ++ [.close R] ↔ .drop R ∈ evs := by simp
  split
  · rename_i hdet
    refine ⟨h.thread, fun hm => ?_, fun _ => hdet, fun _ => .inl (by simp), h.valid, h.slot, h.last,
      h.aborted, by rw [hret]; exact h.last_closed, by rw [hret]; exact h.last_aborted⟩
    exact ⟨hd.2 (h.dropped hm).1, hdet⟩
  · -- the slot takes closed if it has room
    have hslot : ∀ t ∈ (r.offer .closed).slot, t.Offered := by
      simp only [Reader.offer]
      split
      · intro t ht
        rcases List.mem_append.1 ht with ht | ht
        · exact h.slot t ht
        · rw [List.mem_singleton.1 ht]
          trivial
      · exact h.slot
    have hsame : (r.offer .closed).last = r.last ∧ (r.offer .closed).buffer = r.buffer ∧
        (r.offer .closed).dropped = r.dropped ∧ (r.offer .closed).thread = r.thread := by
      simp only [Reader.offer]
      split <;> exact ⟨rfl, rfl, rfl, rfl⟩
    obtain ⟨hl, hb, hdr, hth⟩ := hsame
    refine ⟨hth ▸ h.thread, fun hm => ⟨hd.2 (h.dropped (hdr ▸ hm)).1, rfl⟩, fun _ => rfl,
      fun _ => .inl (by simp), hb ▸ h.valid, hslot, hl ▸ h.last, hl ▸ h.aborted, ?_, ?_⟩
    · rw [hret]
      exact hl ▸ h.last_closed
    · rw [hret]
      exact hl ▸ h.last_aborted

/-- Dropping `R` raises its detach signal and marks it gone. -/
theorem drop (h : ReaderLog R evs reps ab r) (hlen : evs.length = reps.length) :
    ReaderLog R (evs ++ [.drop R]) (reps ++ [.quiet]) ab
      { r with detached := true, dropped := true } := by
  have hret : ∀ err, Returned R (evs ++ [.drop R]) (reps ++ [.quiet]) err ↔ Returned R evs reps err :=
    Returned.snoc_of_ne hlen (by simp) .quiet
  refine ⟨h.thread, fun _ => ⟨by simp, rfl⟩, fun _ => rfl, fun _ => .inr (by simp), h.valid, h.slot,
    h.last, h.aborted, ?_, ?_⟩
  · rw [hret]
    exact h.last_closed
  · rw [hret]
    exact h.last_aborted

end ReaderLog

/-! ## Where a reader that is neither closed nor aborted stands -/

namespace World

/-- The broadcaster keeps `R`'s registration: in its deque until the loop ends, then among the
registrations still to let go of. -/
def Registers (w : World) (R : Nat) : Prop :=
  match w.phase with
  | .idle | .top | .filling _ | .offering _ _ _ => R ∈ w.hub.registrations
  | .releasing _ rest => R ∈ rest
  | .returned _ | .gone => False

/-- The broadcasting thread let go of `R` after its loop ended with `res`. -/
def Released (w : World) (R : Nat) (reps : List Report) (res : Except Error Unit) : Prop :=
  match w.phase with
  | .releasing res' rest => R ∉ rest ∧ res' = res
  | .returned _ | .gone => firstReturn reps = some res
  | _ => False

theorem registers_congr {w w' : World} (hp : w'.phase = w.phase)
    (hregs : w'.hub.registrations = w.hub.registrations) (R : Nat) :
    w'.Registers R ↔ w.Registers R := by
  simp only [Registers, hp, hregs]

theorem released_congr {w w' : World} {reps reps' : List Report} (hp : w'.phase = w.phase)
    (hret : firstReturn reps' = firstReturn reps) (R : Nat) (res : Except Error Unit) :
    w'.Released R reps' res ↔ w.Released R reps res := by
  simp only [Released, hp, hret]

theorem not_released_of_distributing {w : World} (hd : w.Distributing) {R : Nat}
    {reps : List Report} {res : Except Error Unit} : ¬ w.Released R reps res := by
  unfold Distributing at hd
  unfold Released
  split at hd <;> simp_all

theorem not_over_of_distributing {w : World} (hd : w.Distributing) : ¬ w.Over := by
  unfold Distributing at hd
  unfold Over
  split at hd <;> simp_all

theorem registers_of_distributing {w : World} (hd : w.Distributing) (R : Nat) :
    w.Registers R ↔ R ∈ w.hub.registrations := by
  unfold Distributing at hd
  unfold Registers
  split at hd <;> simp_all

theorem running_of_distributing {w : World} (hd : w.Distributing) :
    w.phase ≠ .idle ∧ w.phase ≠ .gone ∧ ¬ w.Over := by
  unfold Distributing at hd
  unfold Over
  split at hd <;> simp_all

end World

/-- Where reader `R` stands while it is neither closed nor aborted: kept by the broadcaster with
its slot empty; let go of with the broadcast's end in its slot; or holding closed, made after
the broadcast, or let go of by a broadcaster dropped before broadcasting. -/
structure Fate (R : Nat) (evs : List Event) (reps : List Report) (w : World) (r : Reader) :
    Prop where
  kept : w.Registers R → r.registered = true ∧ r.slot = [] ∧ r.last = none
  waiting : w.phase = .idle → w.Registers R
  dropped : .broadcast ∉ evs → w.phase = .gone → r.registered = false ∧ r.EndsWith .closed
  early : .broadcast ∈ evs → R < earlyReaders evs → w.Registers R ∨
    ∃ res, ResultOk res false ∧ w.Released R reps res ∧ r.registered = false ∧
      r.EndsWith (finalTerminal res)
  late : .broadcast ∈ evs → earlyReaders evs ≤ R →
    r.registered = false ∧ r.EndsWith .closed ∧ w.Over

namespace Fate

variable {R : Nat} {evs : List Event} {reps : List Report} {w w' : World} {r r' : Reader}
  {rep : Report}

theorem early_of_not_over (h : Fate R evs reps w r) (hb : .broadcast ∈ evs) (hover : ¬ w.Over) :
    R < earlyReaders evs :=
  Nat.lt_of_not_le fun hle => hover (h.late hb hle).2.2

/-- A step that keeps the phase, `R`'s registration, whether `broadcast` was called and what it
returned first, keeps the fate of a reader changed only where reads change it. -/
theorem frame (h : Fate R evs reps w r) {e : Event}
    (hb : .broadcast ∈ evs ++ [e] ↔ .broadcast ∈ evs)
    (hret : firstReturn (reps ++ [rep]) = firstReturn reps) (hp : w'.phase = w.phase)
    (hregs : w'.Registers R ↔ w.Registers R) (hreg : r'.registered = r.registered)
    (hkept : r.slot = [] → r.last = none → r'.slot = [] ∧ r'.last = none)
    (hends : ∀ t, r.EndsWith t → r'.EndsWith t) :
    Fate R (evs ++ [e]) (reps ++ [rep]) w' r' := by
  have hearly : .broadcast ∈ evs → earlyReaders (evs ++ [e]) = earlyReaders evs :=
    fun hin => earlyReaders_append_of_mem hin _
  have hover : w'.Over ↔ w.Over := by simp only [World.Over, hp]
  refine ⟨?_, ?_, ?_, ?_, ?_⟩
  · intro hk
    obtain ⟨hr, hs, hl⟩ := h.kept (hregs.1 hk)
    exact ⟨hreg ▸ hr, hkept hs hl⟩
  · intro hi
    exact hregs.2 (h.waiting (hp ▸ hi))
  · intro hnb hg
    obtain ⟨hr, he'⟩ := h.dropped (fun hin => hnb (hb.2 hin)) (hp ▸ hg)
    exact ⟨hreg ▸ hr, hends _ he'⟩
  · intro hin hlt
    rw [hb] at hin
    rw [hearly hin] at hlt
    rcases h.early hin hlt with hk | ⟨res, hres, hrel, hr, he'⟩
    · exact .inl (hregs.2 hk)
    · exact .inr ⟨res, hres, (World.released_congr hp hret R res).2 hrel, hreg ▸ hr, hends _ he'⟩
  · intro hin hle
    rw [hb] at hin
    rw [hearly hin] at hle
    obtain ⟨hr, he', hov⟩ := h.late hin hle
    exact ⟨hreg ▸ hr, hends _ he', hover.2 hov⟩

/-- A read of `R` with no abort raised keeps its fate. -/
theorem read (h : Fate R evs reps w r) (hd : r.detached = false) {k : Nat}
    {res : Except Error (List UInt8)} (hr : r.read false k = (.done res, r'))
    (hp : w'.phase = w.phase) (hregs : w'.hub.registrations = w.hub.registrations) :
    Fate R (evs ++ [.read R k]) (reps ++ [.read res]) w' r' :=
  h.frame (by simp) (firstReturn_snoc_of_ne _ _ (by simp)) hp (World.registers_congr hp hregs R)
    (Reader.read_shape hr).2.2.1
    (fun hs hl => ⟨(Reader.read_of_slot_nil hs hd hr).1, (Reader.read_of_slot_nil hs hd hr).2.1.trans hl⟩)
    (fun _ he => he.read hd hr)

theorem other (h : Fate R evs reps w r) {e : Event}
    (hb : .broadcast ∈ evs ++ [e] ↔ .broadcast ∈ evs)
    (hret : firstReturn (reps ++ [rep]) = firstReturn reps) (hp : w'.phase = w.phase)
    (hregs : w'.Registers R ↔ w.Registers R) (hr : r'.registered = r.registered)
    (hs : r'.slot = r.slot) (hl : r'.last = r.last) :
    Fate R (evs ++ [e]) (reps ++ [rep]) w' r' :=
  h.frame hb hret hp hregs hr (fun hs' hl' => ⟨hs ▸ hs', hl ▸ hl'⟩)
    (fun _ he' => by rw [Reader.EndsWith, hs, hl]; exact he')

/-- A reader made now: kept while `broadcast` was not called, holding closed after. -/
theorem made (hS : Story evs reps w) (hfree : w.ownerFree = true) :
    Fate w.hub.readers.size (evs ++ [.newReader]) (reps ++ [.made w.hub.readers.size])
      { w with hub := (w.hub.addReader none).1 } (Reader.new w.hub.finished none) := by
  have hregs : (w.hub.addReader none).1.registrations =
      if w.hub.finished then w.hub.registrations else w.hub.registrations ++ [w.hub.readers.size] :=
    rfl
  by_cases hin : .broadcast ∈ evs
  · -- after `broadcast`: not registered, closed in the slot, and `broadcast` returned
    have hfin : w.hub.finished = true := hS.finished.2 hin
    obtain ⟨res, hp⟩ : ∃ res, w.phase = .returned res := by
      have := hS.started hin
      simp only [World.ownerFree] at hfree
      split at hfree <;> simp_all
    have hover : w.Over := by simp [World.Over, hp]
    refine ⟨fun hk => by simp [World.Registers, hp] at hk, fun hi => absurd hi (hS.started hin),
      fun hnb => absurd (by simp [hin]) hnb, ?_, ?_⟩
    · intro _ hlt
      rw [earlyReaders_append_of_mem hin] at hlt
      exact absurd (Nat.lt_of_lt_of_le hlt (hS.size ▸ earlyReaders_le evs)) (Nat.lt_irrefl _)
    · intro _ _
      exact ⟨by simp [Reader.new, hfin], .inl ⟨by simp [Reader.new, hfin], rfl⟩, hover⟩
  · -- before `broadcast`: registered, at the back of the deque
    have hfin : w.hub.finished = false := by
      cases hf : w.hub.finished
      · rfl
      · exact absurd (hS.finished.1 hf) hin
    have hidle : w.phase = .idle := by
      rcases (hS.unstarted hin).2 with ⟨hp, -⟩ | ⟨hp, -⟩
      · exact hp
      · simp [World.ownerFree, hp] at hfree
    have hkept : ({ w with hub := (w.hub.addReader none).1 } : World).Registers w.hub.readers.size := by
      simp [World.Registers, hidle, hregs, hfin]
    refine ⟨fun _ => ⟨by simp [Reader.new, hfin], by simp [Reader.new, hfin], rfl⟩,
      fun _ => hkept, fun _ hg => by simp [hidle] at hg, fun hb => absurd hb (by simp [hin]),
      fun hb => absurd hb (by simp [hin])⟩

/-- A reader made before keeps its fate when another is made. -/
theorem newReader (h : Fate R evs reps w r) (hR : R < w.hub.readers.size) :
    Fate R (evs ++ [.newReader]) (reps ++ [.made w.hub.readers.size])
      { w with hub := (w.hub.addReader none).1 } r := by
  have hregs : (w.hub.addReader none).1.registrations =
      if w.hub.finished then w.hub.registrations else w.hub.registrations ++ [w.hub.readers.size] :=
    rfl
  have hmem : R ∈ (w.hub.addReader none).1.registrations ↔ R ∈ w.hub.registrations := by
    rw [hregs]
    split
    · rfl
    · simp [Nat.ne_of_lt hR]
  refine h.other (by simp) (firstReturn_snoc_of_ne _ _ (by simp)) rfl ?_ rfl rfl rfl
  simp only [World.Registers]
  split <;> simp_all

/-- The call to `broadcast` keeps each reader's registration, made before it. -/
theorem broadcast (hS : Story evs reps w) (h : Fate R evs reps w r) (hR : R < w.hub.readers.size)
    (hin : .broadcast ∉ evs) (hidle : w.phase = .idle) :
    Fate R (evs ++ [.broadcast]) (reps ++ [.quiet])
      { w with hub := { w.hub with finished := true }, phase := .top } r := by
  have hk : w.Registers R := h.waiting hidle
  have hk' : ({ w with hub := { w.hub with finished := true }, phase := .top } : World).Registers R := by
    simpa [World.Registers, hidle] using hk
  refine ⟨fun _ => h.kept hk, fun hi => by simp at hi, fun hb => absurd (by simp) hb,
    fun _ _ => .inl hk', ?_⟩
  intro _ hle
  rw [earlyReaders_append_broadcast hin, ← hS.size] at hle
  exact absurd hR (Nat.not_lt_of_le hle)

/-- Dropping a broadcaster that never broadcast leaves closed in each reader it kept. -/
theorem dropUnstarted (h : Fate R evs reps w r) (hin : .broadcast ∉ evs) (hidle : w.phase = .idle) :
    Fate R (evs ++ [.dropBroadcaster]) (reps ++ [.quiet])
      { w with hub := w.hub.releaseAll (some .closed), phase := .gone } (r.release (some .closed)) := by
  obtain ⟨hr, hs, hl⟩ := h.kept (h.waiting hidle)
  rw [Reader.release_of_slot_nil hs]
  refine ⟨fun hk => by simp [World.Registers] at hk, fun hi => by simp at hi, ?_,
    fun hb => absurd hb (by simp [hin]), fun hb => absurd hb (by simp [hin])⟩
  intro _ _
  exact ⟨rfl, .inl ⟨rfl, hl⟩⟩

/-- Dropping a broadcaster after `broadcast` returned changes no reader's fate. -/
theorem dropFinished (hS : Story evs reps w) (h : Fate R evs reps w r) (hin : .broadcast ∈ evs)
    (hfree : w.ownerFree = true) :
    Fate R (evs ++ [.dropBroadcaster]) (reps ++ [.quiet]) { w with phase := .gone } r := by
  obtain ⟨res, hp⟩ : ∃ res, w.phase = .returned res := by
    have := hS.started hin
    simp only [World.ownerFree] at hfree
    split at hfree <;> simp_all
  have hret := firstReturn_snoc_of_ne reps .quiet (by simp)
  have hearly := earlyReaders_append_of_mem hin [.dropBroadcaster]
  refine ⟨fun hk => by simp [World.Registers] at hk, fun hi => by simp at hi,
    fun hb => absurd (by simp [hin]) hb, ?_, ?_⟩
  · intro _ hlt
    rw [hearly] at hlt
    rcases h.early hin hlt with hk | ⟨res', hres, hrel, hr, he⟩
    · simp [World.Registers, hp] at hk
    · refine .inr ⟨res', hres, ?_, hr, he⟩
      simp only [World.Released, hp] at hrel
      simp only [World.Released, hret, hrel]
  · intro _ hle
    rw [hearly] at hle
    obtain ⟨hr, he, -⟩ := h.late hin hle
    exact ⟨hr, he, trivial⟩

/-- A step of the broadcasting thread out of its loop, into the loop or to letting go, keeps the
fate of a reader it leaves as it was, and whose registration it keeps. -/
theorem fromLoop (hS : Story evs reps w) (h : Fate R evs reps w r) (hd : w.Distributing)
    (hregs : w'.Registers R ↔ w.Registers R)
    (hnot : w'.phase ≠ .idle ∧ w'.phase ≠ .gone ∧ ¬ w'.Over) (hr : r'.registered = r.registered)
    (hs : r'.slot = r.slot) (hl : r'.last = r.last) :
    Fate R (evs ++ [.advance]) (reps ++ [rep]) w' r' := by
  have hin := hS.started_of_distributing hd
  have hlt := h.early_of_not_over hin (World.not_over_of_distributing hd)
  have hearly := earlyReaders_append_of_mem hin [.advance]
  -- inside the loop the reader is kept
  have hk : w.Registers R := (h.early hin hlt).resolve_right
    fun ⟨_, _, hrel, _⟩ => World.not_released_of_distributing hd hrel
  refine ⟨fun hk' => ?_, fun hi => absurd hi hnot.1, fun _ hg => absurd hg hnot.2.1,
    fun _ _ => .inl (hregs.2 hk), fun _ hle => absurd (hearly ▸ hle) (Nat.not_le_of_lt hlt)⟩
  obtain ⟨h1, h2, h3⟩ := h.kept (hregs.1 hk')
  exact ⟨hr ▸ h1, hs ▸ h2, hl ▸ h3⟩

/-- Letting go of `R` leaves the broadcast's end in its slot. -/
theorem releaseSelf (hS : Story evs reps w) (h : Fate R evs reps w r) {res : Except Error Unit}
    {rest : List Nat} (hp : w.phase = .releasing res (R :: rest)) (ha : w.hub.aborted = false) :
    Fate R (evs ++ [.advance]) (reps ++ [.quiet])
      { w with hub := w.hub.modify R (Reader.release (Hub.terminalOf res)),
               phase := .releasing res rest } (r.release (Hub.terminalOf res)) := by
  obtain ⟨hnd, hres, -⟩ := hS.releasing _ _ hp
  rw [ha] at hres
  have hin := hS.started_of_phase (by simp [hp]) (by simp [hp])
  have hlt := h.early_of_not_over hin (by simp [World.Over, hp])
  have hearly := earlyReaders_append_of_mem hin [.advance]
  obtain ⟨-, hs, hl⟩ := h.kept (by simp [World.Registers, hp])
  have hnotin : R ∉ rest := (List.nodup_cons.1 hnd).1
  rw [hres.terminalOf, Reader.release_of_slot_nil hs]
  refine ⟨fun hk => absurd hk (by simpa [World.Registers] using hnotin), fun hi => by simp at hi,
    fun _ hg => by simp at hg, fun _ _ => .inr ⟨res, hres, ⟨hnotin, rfl⟩, rfl, .inl ⟨rfl, hl⟩⟩,
    fun _ hle => absurd (hearly ▸ hle) (Nat.not_le_of_lt hlt)⟩

/-- Letting go of another reader keeps `R`'s fate. -/
theorem releaseOther (hS : Story evs reps w) (h : Fate R evs reps w r) {res : Except Error Unit}
    {id : Nat} {rest : List Nat} (hp : w.phase = .releasing res (id :: rest)) (hne : id ≠ R)
    {hub' : Hub} :
    Fate R (evs ++ [.advance]) (reps ++ [.quiet]) { w with hub := hub', phase := .releasing res rest } r := by
  have hin := hS.started_of_phase (by simp [hp]) (by simp [hp])
  have hlt := h.early_of_not_over hin (by simp [World.Over, hp])
  have hearly := earlyReaders_append_of_mem hin [.advance]
  have hret := firstReturn_snoc_of_ne reps .quiet (by simp)
  have hmem : R ∈ rest ↔ R ∈ id :: rest := by simp [Ne.symm hne]
  refine ⟨fun hk => ?_, fun hi => by simp at hi, fun _ hg => by simp at hg, fun _ _ => ?_,
    fun _ hle => absurd (hearly ▸ hle) (Nat.not_le_of_lt hlt)⟩
  · simp only [World.Registers] at hk
    exact h.kept (by simp only [World.Registers, hp]; exact hmem.1 hk)
  rcases h.early hin hlt with hk | ⟨res', hres, hrel, hr, he⟩
  · simp only [World.Registers, hp] at hk
    exact .inl (hmem.2 hk)
  · refine .inr ⟨res', hres, ?_, hr, he⟩
    simp only [World.Released, hp] at hrel
    simp only [World.Released]
    exact ⟨fun hm => hrel.1 (hmem.1 hm), hrel.2⟩

/-- `broadcast` returning leaves every reader it let go of with its end. -/
theorem finish (hS : Story evs reps w) (h : Fate R evs reps w r) {res : Except Error Unit}
    (hp : w.phase = .releasing res []) :
    Fate R (evs ++ [.advance]) (reps ++ [.returned res]) { w with phase := .returned res } r := by
  have hin := hS.started_of_phase (by simp [hp]) (by simp [hp])
  have hlt := h.early_of_not_over hin (by simp [World.Over, hp])
  have hearly := earlyReaders_append_of_mem hin [.advance]
  obtain ⟨-, -, hnone⟩ := hS.releasing _ _ hp
  refine ⟨fun hk => by simp [World.Registers] at hk, fun hi => by simp at hi,
    fun _ hg => by simp at hg, fun _ _ => ?_,
    fun _ hle => absurd (hearly ▸ hle) (Nat.not_le_of_lt hlt)⟩
  rcases h.early hin hlt with hk | ⟨res', hres, hrel, hr, he⟩
  · simp [World.Registers, hp] at hk
  · refine .inr ⟨res', hres, ?_, hr, he⟩
    simp only [World.Released, hp] at hrel
    simp only [World.Released, firstReturn_append_of_none hnone, hrel.2]
    rfl

end Fate

/-! ## One reader along a run -/

theorem Hub.reader?_addReader (h : Hub) (th : Option Thread) (R : Nat) :
    (h.addReader th).1.reader? R =
      if R = h.readers.size then some (Reader.new h.finished th) else h.reader? R := by
  simp [Hub.addReader, Hub.reader?, Array.getElem?_push]

theorem Hub.lt_size_of_reader? {h : Hub} {R : Nat} {r : Reader} (hr : h.reader? R = some r) :
    R < h.readers.size :=
  (Array.getElem?_eq_some_iff.1 hr).1

theorem Hub.reader?_of_isHeld {h : Hub} {R : Nat} (hh : h.isHeld R = true) :
    ∃ r, h.reader? R = some r := by
  simp only [Hub.isHeld] at hh
  split at hh
  · rename_i r hr
    exact ⟨r, hr⟩
  · cases hh

/-- What the history tells of reader `R`: once it is made, its log and, while it is neither
closed nor aborted, its fate; before, that no step of it was taken. -/
structure Tracked (R : Nat) (evs : List Event) (reps : List Report) (w : World) : Prop where
  made : R < w.hub.readers.size → ∃ r, w.hub.reader? R = some r ∧
    ReaderLog R evs reps w.hub.aborted r ∧ (.abort ∉ evs → r.detached = false → Fate R evs reps w r)
  unmade : w.hub.readers.size ≤ R → .close R ∉ evs ∧ .drop R ∉ evs ∧ readsOf R evs reps = []

namespace Tracked

variable {R : Nat} {evs : List Event} {reps : List Report} {w w' : World} {rep : Report}

theorem new (segmentSize queueLen : Nat) (src : Source) (R : Nat) :
    Tracked R [] [] (World.new segmentSize queueLen src) :=
  ⟨fun h => absurd h (by simp [World.new, Hub.new]), fun _ => ⟨by simp, by simp, rfl⟩⟩

/-- A step that is no step of `R`, and leaves its reader as it was, keeps what is told of `R`
once it keeps its fate. -/
theorem keep (hS : Story evs reps w) (h : Tracked R evs reps w) {e : Event}
    (he : e ≠ .close R ∧ e ≠ .drop R ∧ ∀ k, e ≠ .read R k)
    (hsize : w'.hub.readers.size = w.hub.readers.size) (hr : w'.hub.reader? R = w.hub.reader? R)
    (hab : w.hub.aborted = true → w'.hub.aborted = true)
    (hfate : ∀ r, w.hub.reader? R = some r → ReaderLog R evs reps w.hub.aborted r →
      .abort ∉ evs ++ [e] → r.detached = false → Fate R evs reps w r →
      Fate R (evs ++ [e]) (reps ++ [rep]) w' r) :
    Tracked R (evs ++ [e]) (reps ++ [rep]) w' := by
  have habort : .abort ∉ evs ++ [e] → .abort ∉ evs := fun hn hm => hn (List.mem_append_left _ hm)
  refine ⟨fun hR => ?_, fun hR => ?_⟩
  · obtain ⟨r, hr0, hlog, hf⟩ := h.made (hsize ▸ hR)
    exact ⟨r, hr.trans hr0, hlog.frame hS.length he rep hab,
      fun hn hd => hfate r hr0 hlog hn hd (hf (habort hn) hd)⟩
  · obtain ⟨hc, hd, hreads⟩ := h.unmade (hsize ▸ hR)
    exact ⟨by simp [hc, Ne.symm he.1], by simp [hd, Ne.symm he.2.1],
      (readsOf_snoc_of_ne hS.length he.2.2 rep).trans hreads⟩

/-- A step that changes `R`'s reader keeps what is told of `R` once the new reader has its log
and keeps its fate. -/
theorem change (h : Tracked R evs reps w) {e : Event}
    (hsize : w'.hub.readers.size = w.hub.readers.size) {r : Reader}
    (hr : w.hub.reader? R = some r) (r' : Reader) (hr' : w'.hub.reader? R = some r')
    (hlog : ReaderLog R evs reps w.hub.aborted r →
      ReaderLog R (evs ++ [e]) (reps ++ [rep]) w'.hub.aborted r')
    (hfate : .abort ∉ evs ++ [e] → r'.detached = false → ReaderLog R evs reps w.hub.aborted r →
      (.abort ∉ evs → r.detached = false → Fate R evs reps w r) →
      Fate R (evs ++ [e]) (reps ++ [rep]) w' r') :
    Tracked R (evs ++ [e]) (reps ++ [rep]) w' := by
  have hR := Hub.lt_size_of_reader? hr
  obtain ⟨r₀, hr₀, hlog₀, hf₀⟩ := h.made hR
  rw [hr, Option.some.injEq] at hr₀
  subst hr₀
  exact ⟨fun _ => ⟨r', hr', hlog hlog₀, fun hn hd => hfate hn hd hlog₀ hf₀⟩,
    fun hle => absurd hR (Nat.not_lt_of_le (hsize ▸ hle))⟩

theorem newReader (hS : Story evs reps w) (h : Tracked R evs reps w)
    (hs : w.step .newReader = some (rep, w')) :
    Tracked R (evs ++ [.newReader]) (reps ++ [rep]) w' := by
  obtain ⟨hfree, rfl, rfl⟩ := World.step_newReader hs
  have habort : .abort ∉ evs ++ [.newReader] → .abort ∉ evs :=
    fun hn hm => hn (List.mem_append_left _ hm)
  rcases Nat.lt_trichotomy R w.hub.readers.size with hlt | rfl | hgt
  · -- a reader made before: as it was
    obtain ⟨r, hr, hlog, hf⟩ := h.made hlt
    refine ⟨fun _ => ⟨r, ?_, ?_, fun hn hd => (hf (habort hn) hd).newReader hlt⟩,
      fun hle => absurd hlt (by simp at hle; omega)⟩
    · simpa [Hub.reader?_addReader, Nat.ne_of_lt hlt] using hr
    · simpa using hlog.frame hS.length (by simp) (.made w.hub.readers.size) id
  · -- the reader made now
    obtain ⟨hc, -, hreads⟩ := h.unmade (Nat.le_refl _)
    refine ⟨fun _ => ⟨Reader.new w.hub.finished none, by simp [Hub.reader?_addReader], ?_,
      fun _ _ => Fate.made hS hfree⟩, fun hle => absurd hle (by simp)⟩
    exact ReaderLog.new (by simpa using hc)
      ((readsOf_snoc_of_ne hS.length (by simp) _).trans hreads) _
  · -- a reader still to be made
    obtain ⟨hc, hd, hreads⟩ := h.unmade (Nat.le_of_lt hgt)
    refine ⟨fun hlt => absurd hlt (by simp; omega), fun _ => ⟨by simpa using hc, by simpa using hd,
      (readsOf_snoc_of_ne hS.length (by simp) _).trans hreads⟩⟩

theorem broadcast (hS : Story evs reps w) (h : Tracked R evs reps w)
    (hs : w.step .broadcast = some (rep, w')) :
    Tracked R (evs ++ [.broadcast]) (reps ++ [rep]) w' := by
  obtain ⟨hfree, ⟨hfin, rfl, hw⟩ | ⟨hfin, rfl, rfl⟩⟩ := World.step_broadcast hs
  · -- a second call changes nothing
    subst hw
    have hin := hS.finished.1 hfin
    obtain ⟨res, hp⟩ := hS.returned_of_ownerFree hfree hin
    exact h.keep hS (by simp) rfl rfl id fun _ _ _ _ _ hf =>
      hf.other (by simp [hin])
        (by rw [firstReturn_append_of_some (hS.returned res hp), hS.returned res hp]) rfl Iff.rfl
        rfl rfl rfl
  · have hnin : .broadcast ∉ evs := fun hin => by simp [hS.finished.2 hin] at hfin
    have hidle := hS.idle_of_ownerFree hfree hnin
    exact h.keep hS (by simp) rfl rfl id fun _ hr _ _ _ hf =>
      hf.broadcast hS (Hub.lt_size_of_reader? hr) hnin hidle

theorem advanced (hS : Story evs reps w) (h : Tracked R evs reps w)
    (hadv : World.Advanced w rep w') : Tracked R (evs ++ [.advance]) (reps ++ [rep]) w' := by
  have he : Event.advance ≠ .close R ∧ Event.advance ≠ .drop R ∧ ∀ k, Event.advance ≠ .read R k :=
    by simp
  cases hadv with
  | move hd hd' hw =>
    refine h.keep hS he (by rw [hw]) (by rw [hw]) (by rw [hw]; exact id) fun _ _ _ _ _ hf =>
      hf.fromLoop hS hd ?_ (World.running_of_distributing hd') rfl rfl rfl
    rw [World.registers_of_distributing hd', World.registers_of_distributing hd, hw]
  | remove i hi hd hd' hri hdet hw =>
    refine h.keep hS he (by rw [hw]) (by rw [hw]; rfl) (by rw [hw]; exact id)
      fun r hr hlog _ hdr hf => hf.fromLoop hS hd ?_ (World.running_of_distributing hd') rfl rfl rfl
    -- the registration removed is not `R`'s: `R` is neither closed nor dropped
    have hne : w.hub.registrations[i] ≠ R := by
      intro heq
      rw [heq, hr, Option.some.injEq] at hri
      subst hri
      cases hdrop : r.dropped
      · simp [hdr, hdrop] at hdet
      · rw [(hlog.dropped hdrop).2] at hdr
        cases hdr
    rw [World.registers_of_distributing hd', World.registers_of_distributing hd, hw]
    exact (mem_swapRemoveFront hi hne).1
  | @enqueue _ id seg hd hd' _ hw =>
    have hregs : w'.Registers R ↔ w.Registers R := by
      rw [World.registers_of_distributing hd', World.registers_of_distributing hd, hw]
      rfl
    by_cases hid : id = R
    · -- the segment goes to `R`'s queue
      subst hid
      obtain ⟨r, hr⟩ : ∃ r, w.hub.reader? id = some r := by
        obtain ⟨r, hr, -⟩ := h.made (hS.regs_lt id ‹_›)
        exact ⟨r, hr⟩
      refine h.change (by simp [hw, Hub.enqueue]) hr { r with queue := r.queue ++ [seg] }
        (by simp [hw, Hub.enqueue, Hub.reader?_modify_self, hr])
        (fun hlog => (hlog.enqueue seg).frame hS.length he _ (by simp [hw, Hub.enqueue]))
        fun _ _ _ hf => ?_
      have hn : Event.abort ∉ evs := by simp_all
      exact (hf hn (by simpa using ‹_›)).fromLoop hS hd hregs (World.running_of_distributing hd')
        rfl rfl rfl
    · exact h.keep hS he (by simp [hw, Hub.enqueue]) (by simp [hw, Hub.enqueue, Hub.reader?_modify_ne _ hid])
        (by simp [hw, Hub.enqueue]) fun _ _ _ _ _ hf =>
          hf.fromLoop hS hd hregs (World.running_of_distributing hd') rfl rfl rfl
  | stop hd hres hw hp =>
    refine h.keep hS he (by rw [hw]) (by simp [hw, Hub.reader?]) (by rw [hw]; exact id)
      fun _ _ _ _ _ hf => hf.fromLoop hS hd ?_ ⟨by simp [hp], by simp [hp], by simp [World.Over, hp]⟩
        rfl rfl rfl
    rw [World.registers_of_distributing hd]
    simp [World.Registers, hp]
  | @release res id rest hp =>
    by_cases hid : id = R
    · -- `R` is let go of
      subst hid
      rcases hr : w.hub.reader? id with _ | r
      · exact h.keep hS he (by simp) (by simp [Hub.reader?_modify_self, hr]) (by simp)
          fun _ hr' => by simp [hr] at hr'
      refine h.change (by simp) hr (r.release (Hub.terminalOf res))
        (by simp [Hub.reader?_modify_self, hr])
        (fun hlog => (hlog.release (hS.releasing _ _ hp).2.1.offered).frame hS.length he _ (by simp))
        fun hn hd _ hf => ?_
      have hn' : .abort ∉ evs := fun hm => hn (List.mem_append_left _ hm)
      have ha : w.hub.aborted = false := by
        cases hab : w.hub.aborted
        · rfl
        · exact absurd (hS.aborted.1 hab) hn'
      exact (hf hn' (by simpa using hd)).releaseSelf hS hp ha
    · exact h.keep hS he (by simp) (by simp [Hub.reader?_modify_ne _ hid]) (by simp)
        fun _ _ _ _ _ hf => hf.releaseOther hS hp hid
  | finish hp =>
    exact h.keep hS he rfl rfl id fun _ _ _ _ _ hf => hf.finish hS hp

theorem read (hS : Story evs reps w) (h : Tracked R evs reps w) {i k : Nat}
    (hs : w.step (.read i k) = some (rep, w')) :
    Tracked R (evs ++ [.read i k]) (reps ++ [rep]) w' := by
  obtain ⟨r, res, r', hr, -, -, hrd, rfl, rfl⟩ := World.step_read hs
  by_cases hi : i = R
  · -- a read of `R`
    subst hi
    refine h.change (by simp) hr r' (by simp [Hub.reader?_modify_self, hr])
      (fun hlog => by simpa using hlog.read hS.length hrd) fun hn hd _ hf => ?_
    have hn' : .abort ∉ evs := fun hm => hn (List.mem_append_left _ hm)
    have ha : w.hub.aborted = false := by
      cases hab : w.hub.aborted
      · rfl
      · exact absurd (hS.aborted.1 hab) hn'
    rw [ha] at hrd
    have hd' : r.detached = false := (Reader.read_shape hrd).1 ▸ hd
    exact (hf hn' hd').read hd' hrd rfl rfl
  · exact h.keep hS (by simp [hi]) (by simp) (by simp [Hub.reader?_modify_ne _ hi]) (by simp)
      fun _ _ _ _ _ hf => hf.other (by simp) (firstReturn_snoc_of_ne _ _ (by simp)) rfl
        (World.registers_congr rfl rfl R) rfl rfl rfl

theorem close (hS : Story evs reps w) (h : Tracked R evs reps w) {i : Nat}
    (hs : w.step (.close i) = some (rep, w')) :
    Tracked R (evs ++ [.close i]) (reps ++ [rep]) w' := by
  obtain ⟨hheld, rfl, rfl⟩ := World.step_close hs
  by_cases hi : i = R
  · -- closing `R` raises its detach signal: no fate to keep
    subst hi
    obtain ⟨r, hr⟩ := Hub.reader?_of_isHeld hheld
    refine h.change (by simp [Hub.close]) hr
      (if r.detached then r else { r.offer .closed with detached := true })
      (by simp [Hub.close, Hub.reader?_modify_self, hr])
      (fun hlog => by simpa [Hub.close] using hlog.close hS.length) fun _ hd _ _ => ?_
    exfalso
    split at hd <;> simp_all
  · exact h.keep hS (by simp [hi]) (by simp [Hub.close])
      (by simp [Hub.close, Hub.reader?_modify_ne _ hi]) (by simp [Hub.close])
      fun _ _ _ _ _ hf => hf.other (by simp) (firstReturn_snoc_of_ne _ _ (by simp)) rfl
        (World.registers_congr rfl rfl R) rfl rfl rfl

theorem drop (hS : Story evs reps w) (h : Tracked R evs reps w) {i : Nat}
    (hs : w.step (.drop i) = some (rep, w')) :
    Tracked R (evs ++ [.drop i]) (reps ++ [rep]) w' := by
  obtain ⟨hheld, rfl, rfl⟩ := World.step_drop hs
  by_cases hi : i = R
  · subst hi
    obtain ⟨r, hr⟩ := Hub.reader?_of_isHeld hheld
    refine h.change (by simp [Hub.drop]) hr { r with detached := true, dropped := true }
      (by simp [Hub.drop, Hub.reader?_modify_self, hr])
      (fun hlog => by simpa [Hub.drop] using hlog.drop hS.length) fun _ hd _ _ => ?_
    cases hd
  · exact h.keep hS (by simp [hi]) (by simp [Hub.drop])
      (by simp [Hub.drop, Hub.reader?_modify_ne _ hi]) (by simp [Hub.drop])
      fun _ _ _ _ _ hf => hf.other (by simp) (firstReturn_snoc_of_ne _ _ (by simp)) rfl
        (World.registers_congr rfl rfl R) rfl rfl rfl

theorem abort (hS : Story evs reps w) (h : Tracked R evs reps w)
    (hs : w.step .abort = some (rep, w')) : Tracked R (evs ++ [.abort]) (reps ++ [rep]) w' := by
  obtain ⟨rfl, rfl⟩ := World.step_abort hs
  exact h.keep hS (by simp) rfl rfl (fun _ => rfl) fun _ _ _ hn => absurd (by simp) hn

theorem dropBroadcaster (hS : Story evs reps w) (h : Tracked R evs reps w)
    (hs : w.step .dropBroadcaster = some (rep, w')) :
    Tracked R (evs ++ [.dropBroadcaster]) (reps ++ [rep]) w' := by
  obtain ⟨hfree, rfl, rfl⟩ := World.step_dropBroadcaster hs
  have he : Event.dropBroadcaster ≠ .close R ∧ Event.dropBroadcaster ≠ .drop R ∧
      ∀ k, Event.dropBroadcaster ≠ .read R k := by simp
  cases hfin : w.hub.finished
  · -- no broadcast: every registered reader is let go of with closed in its slot
    have hnin : .broadcast ∉ evs := fun hin => by simp [hS.finished.2 hin] at hfin
    have hidle := hS.idle_of_ownerFree hfree hnin
    simp only [Bool.false_eq_true, ↓reduceIte]
    by_cases hmem : R ∈ w.hub.registrations
    · obtain ⟨r, hr, -⟩ := h.made (hS.regs_lt R hmem)
      refine h.change (by simp [Hub.size_releaseAll]) hr (r.release (some .closed))
        (by simp [Hub.reader?_releaseAll_of_mem hmem hS.regs_nodup, hr])
        (fun hlog => (hlog.release (fun t ht => by cases ht; trivial)).frame hS.length he _
          (by simp [Hub.releaseAll]))
        fun hn hd _ hf => ?_
      have hn' : .abort ∉ evs := fun hm => hn (List.mem_append_left _ hm)
      exact (hf hn' (by simpa using hd)).dropUnstarted hnin hidle
    · refine h.keep hS he (by simp [Hub.size_releaseAll])
        (by simp [Hub.reader?_releaseAll_of_not_mem hmem]) (by simp [Hub.releaseAll])
        fun _ _ _ _ _ hf => absurd ?_ hmem
      simpa [World.Registers, hidle] using hf.waiting hidle
  · have hin := hS.finished.1 hfin
    simp only [↓reduceIte]
    exact h.keep hS he rfl rfl id fun _ _ _ _ _ hf => hf.dropFinished hS hin hfree

/-- **Every step keeps what is told of `R`.** -/
theorem step (hS : Story evs reps w) (h : Tracked R evs reps w) {e : Event}
    (hs : w.step e = some (rep, w')) : Tracked R (evs ++ [e]) (reps ++ [rep]) w' := by
  cases e with
  | newReader => exact h.newReader hS hs
  | broadcast => exact h.broadcast hS hs
  | advance => exact h.advanced hS (World.advance_advanced hs)
  | read i k => exact h.read hS hs
  | close i => exact h.close hS hs
  | drop i => exact h.drop hS hs
  | abort => exact h.abort hS hs
  | dropBroadcaster => exact h.dropBroadcaster hS hs

end Tracked

/-- Every run from a new broadcaster tells its story, and what it tells of each reader. -/
theorem Tracked.run {segmentSize queueLen : Nat} {src : Source} {evs : List Event}
    {reps : List Report} {w : World}
    (hrun : (World.new segmentSize queueLen src).run evs = some (reps, w)) (R : Nat) :
    Story evs reps w ∧ Tracked R evs reps w := by
  induction evs using List.reverseRecOn generalizing reps w with
  | nil =>
    simp only [World.run, Option.some.injEq, Prod.mk.injEq] at hrun
    obtain ⟨rfl, rfl⟩ := hrun
    exact ⟨Story.new segmentSize queueLen src, Tracked.new segmentSize queueLen src R⟩
  | append_singleton evs e ih =>
    rw [World.run_snoc] at hrun
    rcases hprev : (World.new segmentSize queueLen src).run evs with _ | ⟨reps₀, w₀⟩
    · simp [hprev] at hrun
    rcases hs : w₀.step e with _ | ⟨rep, w'⟩
    · simp [hprev, hs] at hrun
    simp only [hprev, hs, Option.bind_some, Option.map_some, Option.some.injEq,
      Prod.mk.injEq] at hrun
    obtain ⟨rfl, rfl⟩ := hrun
    obtain ⟨hS, hT⟩ := ih hprev
    exact ⟨hS.step hs, hT.step hS hs⟩

/-! ## How a reader's reads end -/

namespace World

/-- What the step `e` reports after the history `evs`; `none` when the history, or the step
after it, cannot be taken. -/
def reportAfter (w : World) (evs : List Event) (e : Event) : Option Report :=
  (w.run evs).bind fun p => (p.2.step e).map Prod.fst

/-- The bytes reader `R` holds or has queued after the history `evs`. -/
def pendingAfter (w : World) (evs : List Event) (R : Nat) : Option (List UInt8) :=
  (w.run evs).bind fun p => (p.2.hub.reader? R).map Reader.pending

theorem step_read_of {w : World} {R k : Nat} {r r' : Reader} {res : Except Error (List UInt8)}
    (hr : w.hub.reader? R = some r) (hdr : r.dropped = false) (hth : r.thread = none)
    (hrd : r.read w.hub.aborted k = (.done res, r')) :
    w.step (.read R k) = some (.read res, { w with hub := w.hub.modify R fun _ => r' }) := by
  simp [step, Hub.isHeld, Hub.read, hr, hdr, hth, hrd]

end World

theorem Hub.modify_of_reader? {h : Hub} {R : Nat} {r : Reader} (hr : h.reader? R = some r) :
    h.modify R (fun _ => r) = h := by
  simp only [Hub.reader?] at hr
  cases h
  simp only [Hub.modify, Hub.mk.injEq, and_true]
  apply Array.ext_getElem?
  intro j
  rw [Array.getElem?_modify]
  split
  · rename_i hj
    subst hj
    simp [hr]
  · rfl

/-- A closed reader with nothing left, and no abort raised, answers closed. -/
theorem ReaderLog.read_closed {R : Nat} {evs : List Event} {reps : List Report} {r : Reader}
    (hlog : ReaderLog R evs reps false r) (hd : r.detached = true) (hp : r.pending = [])
    (k : Nat) : ∃ r', r.read false k = (.done (.error (Error.closed .read)), r') := by
  by_cases hc : r.last = some .closed
  · exact ⟨r, by rw [Reader.read_of_settled (.inl hc)]; simp [Reader.terminal, hc]⟩
  · exact Reader.read_detached_of_pending_nil hc (fun ha => by cases hlog.aborted ha) hd
      hlog.valid hp k

/-- A reader let go of with `t` in its slot, not closed, with nothing left, answers `t`. -/
theorem ReaderLog.read_ends {R : Nat} {evs : List Event} {reps : List Report} {r : Reader}
    {t : Terminal} (hlog : ReaderLog R evs reps false r) (he : r.EndsWith t)
    (ht : t ≠ .aborted) (hd : r.detached = false) (hreg : r.registered = false)
    (hp : r.pending = []) (k : Nat) :
    ∃ r', r.read false k = (.done { r with last := some t }.terminal, r') :=
  (Reader.read_of_endsWith he ht hd hreg hlog.valid hp k).imp fun _ h => h.1

/-- After the abort signal, a reader that did not answer closed answers aborted. -/
theorem ReaderLog.read_after_abort {R : Nat} {evs : List Event} {reps : List Report} {r : Reader}
    (hlog : ReaderLog R evs reps true r) (hnc : ¬ Returned R evs reps (Error.closed .read))
    (k : Nat) : ∃ r', r.read true k = (.done (.error (Error.aborted .read)), r') := by
  have hc : r.last ≠ some .closed := fun h => hnc (hlog.last_closed.1 h)
  by_cases ha : r.last = some .aborted
  · refine ⟨r, ?_⟩
    rw [Reader.read_of_settled (.inr ha)]
    simp [Reader.terminal, ha]
  · exact ⟨_, Reader.read_of_aborted hc ha k⟩

namespace Story

variable {R : Nat} {evs : List Event} {reps : List Report} {w : World} {r : Reader}

/-- With no abort, a reader with nothing left answers closed when it was closed, was made after
`broadcast` was called, or belongs to a broadcaster dropped before broadcasting. -/
theorem read_closed_of (hS : Story evs reps w) (hlog : ReaderLog R evs reps false r)
    (hfate : r.detached = false → Fate R evs reps w r)
    (hwhy : .close R ∈ evs ∨ (.broadcast ∈ evs ∧ earlyReaders evs ≤ R) ∨
      (.dropBroadcaster ∈ evs ∧ .broadcast ∉ evs))
    (hp : r.pending = []) (k : Nat) :
    ∃ r', r.read false k = (.done (.error (Error.closed .read)), r') := by
  cases hd : r.detached
  · have hf := hfate hd
    -- not closed: the reader ends with closed in its slot
    have hends : r.registered = false ∧ r.EndsWith .closed := by
      rcases hwhy with hc | ⟨hin, hle⟩ | ⟨hdb, hnb⟩
      · exact absurd (hlog.closed hc) (by simp [hd])
      · exact ⟨(hf.late hin hle).1, (hf.late hin hle).2.1⟩
      · have hgone : w.phase = .gone := by
          rcases (hS.unstarted hnb).2 with ⟨-, hndb⟩ | ⟨hg, -⟩
          · exact absurd hdb hndb
          · exact hg
        exact hf.dropped hnb hgone
    exact hlog.read_ends hends.2 (by simp) hd hends.1 hp k
  · exact hlog.read_closed hd hp k

/-- Once `broadcast` returned, the broadcaster keeps no registration. -/
theorem not_registers_of_returned (hS : Story evs reps w) (hin : .broadcast ∈ evs)
    {res : Except Error Unit} (hres : firstReturn reps = some res) : ¬ w.Registers R := by
  intro hk
  unfold World.Registers at hk
  split at hk
  · exact hS.started hin ‹_›
  · rw [hS.distributing (by simp [World.Distributing, *])] at hres
    cases hres
  · rw [hS.distributing (by simp [World.Distributing, *])] at hres
    cases hres
  · rw [hS.distributing (by simp [World.Distributing, *])] at hres
    cases hres
  · rw [(hS.releasing _ _ ‹_›).2.2] at hres
    cases hres
  · exact hk
  · exact hk

/-- The end a reader was let go of with is the one `broadcast` first returned. -/
theorem released_eq (hS : Story evs reps w) {res res' : Except Error Unit}
    (hrel : w.Released R reps res') (hres : firstReturn reps = some res) : res' = res := by
  unfold World.Released at hrel
  split at hrel
  · rw [(hS.releasing _ _ ‹_›).2.2] at hres
    cases hres
  · rw [hrel] at hres
    exact Option.some.inj hres
  · rw [hrel] at hres
    exact Option.some.inj hres
  · exact hrel.elim

/-- With no abort, a reader made before `broadcast` and never closed, once it has nothing left,
answers the end `broadcast` returned: no bytes, or its failure. -/
theorem read_early (hS : Story evs reps w) (hlog : ReaderLog R evs reps false r)
    (hf : Fate R evs reps w r) (hd : r.detached = false) (hlt : R < earlyReaders evs)
    {res : Except Error Unit} (hres : firstReturn reps = some res) (hp : r.pending = [])
    (k : Nat) : ∃ r', r.read false k = (.done (res.map fun _ => []), r') := by
  have hin : .broadcast ∈ evs := by
    by_contra hnb
    rw [(hS.unstarted hnb).1] at hres
    cases hres
  obtain ⟨res', hres', hrel, hreg, hends⟩ :=
    (hf.early hin hlt).resolve_left (hS.not_registers_of_returned hin hres)
  obtain rfl := hS.released_eq hrel hres
  obtain ⟨r', hrd⟩ := hlog.read_ends hends hres'.final_ne_aborted hd hreg hp k
  rw [terminal_of_final rfl] at hrd
  exact ⟨r', hrd⟩

end Story

/-- **How a reader's reads end.** Take any history `evs` of a broadcaster and its readers,
from a new broadcaster, and a reader `R` made in it and not dropped. The next read of `R`:

* after the abort signal, answers aborted, unless `R` already answered closed;
* with no abort, once `R` has nothing left, answers closed when `R` was closed, was made after
  `broadcast` was called, or belongs to a broadcaster dropped before broadcasting;
* with no abort, once `R` has nothing left, answers the end `broadcast` returned, no bytes or
  its failure, when `R` was made before `broadcast` and never closed;
* after `R` answered closed or aborted, answers it again and changes nothing. -/
theorem reader_terminal_outcomes {segmentSize queueLen : Nat} {src : Source} {evs : List Event}
    {reps : List Report} {R : Nat}
    (hrun : ((World.new segmentSize queueLen src).run evs).map Prod.fst = some reps)
    (hR : R < evs.count .newReader) (hdrop : .drop R ∉ evs) (k : Nat) :
    let w₀ := World.new segmentSize queueLen src
    (.abort ∈ evs → ¬ Returned R evs reps (Error.closed .read) →
      w₀.reportAfter evs (.read R k) = some (.read (.error (Error.aborted .read)))) ∧
    (.abort ∉ evs →
      (.close R ∈ evs ∨ (.broadcast ∈ evs ∧ earlyReaders evs ≤ R) ∨
        (.dropBroadcaster ∈ evs ∧ .broadcast ∉ evs)) →
      w₀.pendingAfter evs R = some [] →
      w₀.reportAfter evs (.read R k) = some (.read (.error (Error.closed .read)))) ∧
    (.abort ∉ evs → .close R ∉ evs → R < earlyReaders evs → w₀.pendingAfter evs R = some [] →
      ∀ res, firstReturn reps = some res →
        w₀.reportAfter evs (.read R k) = some (.read (res.map fun _ => []))) ∧
    (∀ e, e = Error.closed .read ∨ e = Error.aborted .read → Returned R evs reps e →
      w₀.run (evs ++ [.read R k]) = (w₀.run evs).map fun p => (p.1 ++ [.read (.error e)], p.2)) := by
  intro w₀
  obtain ⟨⟨reps', w⟩, hw, rfl⟩ := Option.map_eq_some_iff.1 hrun
  obtain ⟨hS, hT⟩ := Tracked.run hw R
  obtain ⟨r, hr, hlog, hfate⟩ := hT.made (hS.size ▸ hR)
  have hdr : r.dropped = false := by
    cases h : r.dropped
    · rfl
    · exact absurd (hlog.dropped h).1 hdrop
  -- the next read of `R` is taken, and reports what `R`'s own read answers
  have hreport : ∀ {res} (r' : Reader), r.read w.hub.aborted k = (.done res, r') →
      w₀.reportAfter evs (.read R k) = some (.read res) := by
    intro res r' hrd
    simp [World.reportAfter, w₀, hw, World.step_read_of hr hdr hlog.thread hrd]
  have hpending : w₀.pendingAfter evs R = some [] → r.pending = [] := by
    intro hp
    simpa [World.pendingAfter, w₀, hw, hr] using hp
  have hnot_aborted : .abort ∉ evs → w.hub.aborted = false := by
    intro hn
    cases hab : w.hub.aborted
    · rfl
    · exact absurd (hS.aborted.1 hab) hn
  refine ⟨fun hin hnc => ?_, fun hn hwhy hp => ?_, fun hn hnc hlt hp res hres => ?_, ?_⟩
  · -- after the abort signal
    rw [hS.aborted.2 hin] at hlog hreport
    obtain ⟨r', hrd⟩ := hlog.read_after_abort hnc k
    exact hreport r' hrd
  · -- closed, made late, or of a broadcaster dropped before broadcasting
    rw [hnot_aborted hn] at hlog hreport
    obtain ⟨r', hrd⟩ := hS.read_closed_of hlog (hfate hn) hwhy (hpending hp) k
    exact hreport r' hrd
  · -- registered at the broadcast and never closed
    rw [hnot_aborted hn] at hlog hreport
    have hd : r.detached = false := by
      cases h : r.detached
      · rfl
      · rcases hlog.detached h with h' | h'
        · exact absurd h' hnc
        · exact absurd h' hdrop
    obtain ⟨r', hrd⟩ := hS.read_early hlog (hfate hn hd) hd hlt hres (hpending hp) k
    exact hreport r' hrd
  · -- closed and aborted are where a reader stays
    intro e he hret
    have hsettled : r.last = some .closed ∨ r.last = some .aborted := by
      rcases he with rfl | rfl
      · exact .inl (hlog.last_closed.2 hret)
      · exact .inr (hlog.last_aborted.2 hret)
    have hterm : r.terminal = .error e := by
      rcases he with rfl | rfl
      · simp [Reader.terminal, hlog.last_closed.2 hret]
      · simp [Reader.terminal, hlog.last_aborted.2 hret]
    have hstep := World.step_read_of hr hdr hlog.thread (Reader.read_of_settled hsettled _ k)
    rw [hterm, Hub.modify_of_reader? hr] at hstep
    simp [w₀, World.run_snoc, hw, hstep]

/-- Reader `0` of a broadcast of three bytes in segments of two, with a second reader closed
before it, reads one byte before the abort signal is raised. -/
theorem reader_terminal_outcomes_after_abort :
    let evs : List Event := [.newReader, .newReader, .close 1, .broadcast, .advance, .advance,
      .advance, .read 0 1, .abort]
    let reps : List Report := [.made 0, .made 1, .quiet, .quiet, .quiet, .quiet, .quiet,
      .read (.ok [1]), .quiet]
    let w₀ := World.new 2 1 [.data [1, 2, 3], .eof]
    (.abort ∈ evs → ¬ Returned 0 evs reps (Error.closed .read) →
      w₀.reportAfter evs (.read 0 4) = some (.read (.error (Error.aborted .read)))) ∧
    (.abort ∉ evs →
      (.close 0 ∈ evs ∨ (.broadcast ∈ evs ∧ earlyReaders evs ≤ 0) ∨
        (.dropBroadcaster ∈ evs ∧ .broadcast ∉ evs)) →
      w₀.pendingAfter evs 0 = some [] →
      w₀.reportAfter evs (.read 0 4) = some (.read (.error (Error.closed .read)))) ∧
    (.abort ∉ evs → .close 0 ∉ evs → 0 < earlyReaders evs → w₀.pendingAfter evs 0 = some [] →
      ∀ res, firstReturn reps = some res →
        w₀.reportAfter evs (.read 0 4) = some (.read (res.map fun _ => []))) ∧
    (∀ e, e = Error.closed .read ∨ e = Error.aborted .read → Returned 0 evs reps e →
      w₀.run (evs ++ [.read 0 4]) = (w₀.run evs).map fun p => (p.1 ++ [.read (.error e)], p.2)) :=
  reader_terminal_outcomes rfl (by decide) (by decide) 4

example : (World.new 2 1 [.data [1, 2, 3], .eof]).reportAfter [.newReader, .dropBroadcaster]
    (.read 0 4) = some (.read (.error (Error.closed .read))) := rfl

end Plumbing.Broadcast
