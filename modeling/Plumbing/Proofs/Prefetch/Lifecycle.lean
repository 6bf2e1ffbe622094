import Plumbing.Prefetch.Lifecycle
import Plumbing.Proofs.Prefetch.Segments

/-!
# The lifecycle of a prefetching reader

Over every run of a prefetching reader and its threads (`Scene.run`), whatever order their steps
take (`reader_lifecycle`):

* the producer is spawned once, by the first call of `start` or the first start a read makes on
  a reader it found not started, if it comes before the reader is closed or aborted, and never
  otherwise (`spawnedBy`);
* `start` answers closed once the reader was closed or aborted, else already started once the
  reader was started (`startAnswer`);
* once the reader is closed or aborted, a read called then returns no bytes at once without
  spawning the producer, and a read that waits for a segment returns no bytes. A read called
  before, on a reader not started, that has still to start it, fails as `start` does, closed,
  and spawns nothing: the abort came between its two checks of the signal. No read returns
  anything else;
* `close` returns success, and a second `close` changes nothing;
* the producer reads the segments of the source in order (`Source.segments`) and queues them in
  that order; after the segment that carries how the source ended it reads the source no further
  and queues nothing more.

Two invariants carry the proof, each kept by every step and so by every run
(`Scene.run_induction`): the reader's flags as functions of the acts so far (`Flags`), and what
the producer read and queued as a prefix of the source's segments, exactly the segments before
the one it holds or reads next while it runs (`Produced`).
-/

namespace Plumbing.Prefetch

open Plumbing.Stream

/-! ## The history of a run -/

namespace Act

/-- Whether the act starts the reader: a call of `start`, or the start a read makes on a reader
it found not started. Either spawns the producer on a reader neither started nor closed. -/
def starts : Act → Bool
  | .start | .launch => true
  | _ => false

/-- Whether the act closes the reader: `close`, or an abort. -/
def closes : Act → Bool
  | .close | .abort => true
  | _ => false

/-- Whether the act is a step of the producer thread. -/
def byProducer : Act → Bool
  | .fetch | .send => true
  | _ => false

theorem closes_of_starts {a : Act} (h : a.starts = true) : a.closes = false := by
  cases a <;> simp_all [starts, closes]

theorem starts_of_closes {a : Act} (h : a.closes = true) : a.starts = false := by
  cases a <;> simp_all [starts, closes]

end Act

/-- Whether the acts spawn the producer: an act that starts the reader comes before the first
close or abort. -/
def spawnedBy : List Act → Bool
  | [] => false
  | a :: acts => !a.closes && (a.starts || spawnedBy acts)

theorem spawnedBy_append (acts : List Act) (a : Act) :
    spawnedBy (acts ++ [a]) = (spawnedBy acts || (!acts.any Act.closes && a.starts)) := by
  induction acts with
  | nil =>
    cases h : a.starts
    · simp [spawnedBy, h]
    · simp [spawnedBy, h, Act.closes_of_starts h]
  | cons b acts ih =>
    cases hb : b.closes <;> simp [spawnedBy, ih, hb, Bool.or_assoc]

/-- A start closes nothing, and spawns the producer unless the reader was closed. -/
theorem history_append_start {a : Act} (ha : a.starts = true) (acts : List Act) :
    (acts ++ [a]).any Act.closes = acts.any Act.closes ∧
      spawnedBy (acts ++ [a]) = (spawnedBy acts || !acts.any Act.closes) := by
  simp [spawnedBy_append, ha, Act.closes_of_starts ha]

namespace Report

/-- The segment the producer read, if the report says it read one. -/
def fetched? : Report → Option Fill
  | .fetched seg => some seg
  | _ => none

/-- The segment the producer queued, if the report says it queued one. -/
def queued? : Report → Option Fill
  | .queued seg => some seg
  | _ => none

end Report

/-- The segments the producer read, in order. -/
def fetchedOf (reps : List Report) : List Fill := reps.filterMap Report.fetched?

/-- The segments the producer queued, in order. -/
def queuedOf (reps : List Report) : List Fill := reps.filterMap Report.queued?

@[simp] theorem fetchedOf_nil : fetchedOf [] = [] := rfl

@[simp] theorem queuedOf_nil : queuedOf [] = [] := rfl

theorem fetchedOf_append (reps : List Report) (r : Report) :
    fetchedOf (reps ++ [r]) = fetchedOf reps ++ r.fetched?.toList := by
  cases h : r.fetched? <;> simp [fetchedOf, h]

theorem queuedOf_append (reps : List Report) (r : Report) :
    queuedOf (reps ++ [r]) = queuedOf reps ++ r.queued?.toList := by
  cases h : r.queued? <;> simp [queuedOf, h]

/-! ## The reader's operations, field by field -/

namespace Reader

variable (p : Reader) (k : Nat)

@[simp] theorem close_closed : p.close.closed = true := rfl
@[simp] theorem close_started : p.close.started = p.started := rfl
@[simp] theorem close_segmentSize : p.close.segmentSize = p.segmentSize := rfl
@[simp] theorem abort_closed : p.abort.closed = true := rfl
@[simp] theorem abort_started : p.abort.started = p.started := rfl
@[simp] theorem abort_segmentSize : p.abort.segmentSize = p.segmentSize := rfl

theorem segmentLen_pos (n : Nat) : 0 < segmentLen n :=
  Nat.lt_of_lt_of_le Nat.one_pos (Nat.le_max_right _ _)

/-- A read changes neither the flag `closed` nor the segment size, and starts an open reader. -/
theorem read_flags :
    (p.read k).2.closed = p.closed ∧ (p.read k).2.segmentSize = p.segmentSize ∧
      (p.read k).2.started = (p.started || !p.closed) := by
  unfold read
  cases hc : p.closed
  · simp only [Bool.false_eq_true, ↓reduceIte, Bool.not_false, Bool.or_true]
    split <;> simp
  · simp [hc]

end Reader

/-! ## Steps, act by act -/

namespace Scene

variable {s s' : Scene} {r : Report}

/-- What `start` does: closed first, then already started, else it spawns the producer. -/
theorem start_eq (s : Scene) :
    s.start = if s.reader.closed then (.error (Error.closed .start), s)
      else if s.reader.started then (.error ⟨.start, .alreadyStarted⟩, s)
      else (.ok (), { s with reader := { s.reader with started := true }, phase := .top }) := by
  unfold start Reader.start
  cases hc : s.reader.closed <;> cases hs : s.reader.started <;> simp [hc]

theorem step_start (h : s.step .start = some (r, s')) :
    s.pending = none ∧ r = .returned s.start.1 ∧ s' = s.start.2 := by
  unfold step at h
  cases hp : s.pending <;> simp_all

theorem step_read {k : Nat} (h : s.step (.read k) = some (r, s')) :
    s.pending = none ∧
      (s.reader.closed = true ∧ r = .read (.ok []) ∧ s' = s ∨
        s.reader.closed = false ∧ r = .quiet ∧
          s' = { s with pending := some (if s.reader.started then .waiting k else .starting k) }) := by
  unfold step at h
  cases hp : s.pending with
  | some c => simp [hp] at h
  | none =>
    refine ⟨rfl, ?_⟩
    cases hc : s.reader.closed <;>
      simp only [hp, hc, Option.isSome_none, Bool.false_eq_true, ↓reduceIte, Option.some.injEq,
        Prod.mk.injEq] at h <;>
      obtain ⟨rfl, rfl⟩ := h
    · exact .inr ⟨rfl, rfl, rfl⟩
    · exact .inl ⟨rfl, rfl, rfl⟩

theorem step_launch (h : s.step .launch = some (r, s')) :
    ∃ k, s.pending = some (.starting k) ∧
      (s.start.1 = .ok () ∧ r = .quiet ∧ s' = { s.start.2 with pending := some (.waiting k) } ∨
        ∃ e, s.start.1 = .error e ∧ r = .read (.error (.error e)) ∧
          s' = { s.start.2 with pending := none }) := by
  unfold step at h
  cases hp : s.pending with
  | none => simp [hp] at h
  | some c =>
    cases c with
    | waiting k => simp [hp] at h
    | starting k =>
      simp only [hp] at h
      refine ⟨k, rfl, ?_⟩
      rcases hst : s.start with ⟨res, s₁⟩
      rw [hst] at h
      cases res with
      | ok u =>
        cases h
        exact .inl ⟨rfl, rfl, rfl⟩
      | error e =>
        cases h
        exact .inr ⟨e, rfl, rfl, rfl⟩

theorem step_finish (h : s.step .finish = some (r, s')) :
    ∃ k, s.pending = some (.waiting k) ∧ r = .read ((s.reader.read k).1.mapError .plain) ∧
      s' = { s with reader := (s.reader.read k).2, pending := none } := by
  unfold step at h
  cases hp : s.pending with
  | none => simp [hp] at h
  | some c =>
    cases c with
    | starting k => simp [hp] at h
    | waiting k =>
      simp only [hp] at h
      split at h
      · cases h
      · cases h
        exact ⟨k, rfl, rfl, rfl⟩

theorem step_close (h : s.step .close = some (r, s')) :
    s.pending = none ∧ r = .returned (.ok ()) ∧ s' = { s with reader := s.reader.close } := by
  unfold step at h
  cases hp : s.pending with
  | some k => simp [hp] at h
  | none =>
    simp only [hp, Option.isSome_none, Bool.false_eq_true, ↓reduceIte, Option.some.injEq,
      Prod.mk.injEq] at h
    obtain ⟨rfl, rfl⟩ := h
    exact ⟨rfl, rfl, rfl⟩

theorem step_abort (h : s.step .abort = some (r, s')) :
    r = .quiet ∧ s' = { s with reader := s.reader.abort } := by
  simp [step] at h
  exact ⟨h.1.symm, h.2.symm⟩

theorem step_fetch (h : s.step .fetch = some (r, s')) :
    s.phase = .top ∧
      (s.reader.closed = true ∧ r = .quiet ∧ s' = { s with phase := .stopped } ∨
        s.reader.closed = false ∧
          r = .fetched (Source.readFull id (Reader.segmentLen s.reader.segmentSize) () s.unread).1 ∧
          s' = { s with
            unread := (Source.readFull id (Reader.segmentLen s.reader.segmentSize) () s.unread).2.1,
            phase := .holding
              (Source.readFull id (Reader.segmentLen s.reader.segmentSize) () s.unread).1 }) := by
  unfold step at h
  cases hph : s.phase <;> simp only [hph] at h <;> try cases h
  refine ⟨rfl, ?_⟩
  cases hc : s.reader.closed
  · simp only [hc, Bool.false_eq_true, ↓reduceIte] at h
    cases h
    exact .inr ⟨rfl, rfl, rfl⟩
  · simp only [hc, ↓reduceIte] at h
    cases h
    exact .inl ⟨rfl, rfl, rfl⟩

theorem step_send (h : s.step .send = some (r, s')) :
    ∃ seg, s.phase = .holding seg ∧
      ((∃ q, s.reader.closed = false ∧ s.reader.queue = some q ∧ r = .queued seg ∧
          s' = { s with
            reader := { s.reader with queue := some (q ++ [seg]) }
            phase := if seg.ending.isSome then .stopped else .top }) ∨
        r = .quiet ∧ s' = { s with phase := .stopped }) := by
  unfold step at h
  cases hph : s.phase <;> simp only [hph] at h <;> try cases h
  rename_i seg
  refine ⟨seg, rfl, ?_⟩
  split at h
  · rename_i q hc hq
    cases h
    exact .inl ⟨q, hc, hq, rfl, rfl⟩
  · cases h
    exact .inr ⟨rfl, rfl⟩

theorem start_frame (s : Scene) :
    s.start.2.reader.segmentSize = s.reader.segmentSize ∧ s.start.2.unread = s.unread ∧
      (s.start.2.phase = s.phase ∨ s.reader.started = false ∧ s.start.2.phase = .top) := by
  rw [start_eq]
  cases s.reader.closed <;> cases s.reader.started <;> simp

theorem started_of_start_ok (h : s.start.1 = .ok ()) : s.start.2.reader.started = true := by
  rw [start_eq] at h ⊢
  cases hc : s.reader.closed <;> cases hs : s.reader.started <;> simp_all

/-- A step of the owner or an abort reads and queues nothing, leaves the source and the segment
size alone, and moves the producer only to spawn it. -/
theorem step_owner {a : Act} (h : s.step a = some (r, s')) (ha : a.byProducer = false) :
    r.fetched? = none ∧ r.queued? = none ∧ s'.unread = s.unread ∧
      s'.reader.segmentSize = s.reader.segmentSize ∧
      (s'.phase = s.phase ∨ s.reader.started = false ∧ s'.phase = .top) := by
  cases a with
  | start =>
    obtain ⟨-, rfl, rfl⟩ := step_start h
    obtain ⟨hsize, hu, hph⟩ := start_frame s
    exact ⟨rfl, rfl, hu, hsize, hph⟩
  | read k =>
    obtain ⟨-, ⟨-, rfl, rfl⟩ | ⟨-, rfl, rfl⟩⟩ := step_read h <;>
      exact ⟨rfl, rfl, rfl, rfl, .inl rfl⟩
  | launch =>
    obtain ⟨k, -, ⟨-, rfl, rfl⟩ | ⟨e, -, rfl, rfl⟩⟩ := step_launch h <;>
      obtain ⟨hsize, hu, hph⟩ := start_frame s <;>
      exact ⟨rfl, rfl, hu, hsize, hph⟩
  | finish =>
    obtain ⟨k, -, rfl, rfl⟩ := step_finish h
    exact ⟨rfl, rfl, rfl, (Reader.read_flags s.reader k).2.1, .inl rfl⟩
  | close =>
    obtain ⟨-, rfl, rfl⟩ := step_close h
    exact ⟨rfl, rfl, rfl, rfl, .inl rfl⟩
  | abort =>
    obtain ⟨rfl, rfl⟩ := step_abort h
    exact ⟨rfl, rfl, rfl, rfl, .inl rfl⟩
  | fetch | send => simp [Act.byProducer] at ha

/-- A run is its first step, then the run of the others. -/
theorem run_cons_eq_some {b : Act} {bs : List Act} {rs : List Report} {t : Scene}
    (h : s.run (b :: bs) = some (rs, t)) :
    ∃ r s' rs', s.step b = some (r, s') ∧ s'.run bs = some (rs', t) ∧ rs = r :: rs' := by
  simp only [run] at h
  cases hs : s.step b with
  | none => simp [hs] at h
  | some x =>
    obtain ⟨r, s'⟩ := x
    cases hr : s'.run bs with
    | none => simp [hs, hr] at h
    | some y =>
      obtain ⟨rs', t'⟩ := y
      simp only [hs, hr, Option.some.injEq, Prod.mk.injEq] at h
      obtain ⟨rfl, rfl⟩ := h
      exact ⟨r, s', rs', rfl, hr, rfl⟩

end Scene

/-! ## The reader's flags -/

/-- The reader's flags after the acts `acts`: closed once some act closed it, started once an
act started it before that; the producer is spawned exactly when the reader is started, and a
read waits only on a started reader. -/
structure Flags (acts : List Act) (s : Scene) : Prop where
  closed : s.reader.closed = acts.any Act.closes
  started : s.reader.started = spawnedBy acts
  unspawned : s.phase = .unspawned ↔ s.reader.started = false
  waiting : ∀ k, s.pending = some (.waiting k) → s.reader.started = true

namespace Flags

variable {acts : List Act} {s s' : Scene} {a : Act} {r : Report}

theorem new (segmentSize queueLen : Nat) (source : Source) :
    Flags [] (Scene.new segmentSize queueLen source) :=
  ⟨rfl, rfl, by simp [Scene.new, Reader.new], by simp [Scene.new]⟩

/-- An act that neither starts nor closes the reader keeps the flags when it changes none of
them. -/
theorem frame (hf : Flags acts s) (hstarts : a.starts = false) (hcloses : a.closes = false)
    (hclosed : s'.reader.closed = s.reader.closed) (hstarted : s'.reader.started = s.reader.started)
    (hphase : s'.phase = .unspawned ↔ s.phase = .unspawned)
    (hwaiting : ∀ k, s'.pending = some (.waiting k) → s.reader.started = true) :
    Flags (acts ++ [a]) s' where
  closed := by simp [hclosed, hf.closed, hcloses]
  started := by simp [hstarted, hf.started, spawnedBy_append, hstarts]
  unspawned := by rw [hphase, hstarted]; exact hf.unspawned
  waiting k h := hstarted ▸ hwaiting k h

theorem congr (hf : Flags acts s) {acts' : List Act}
    (hc : acts'.any Act.closes = acts.any Act.closes) (hs : spawnedBy acts' = spawnedBy acts) :
    Flags acts' s :=
  ⟨hf.closed.trans hc.symm, hf.started.trans hs.symm, hf.unspawned, hf.waiting⟩

theorem withPending (hf : Flags acts s) {p : Option Call}
    (hp : ∀ k, p = some (.waiting k) → s.reader.started = true) :
    Flags acts { s with pending := p } :=
  ⟨hf.closed, hf.started, hf.unspawned, hp⟩

/-- `start`, or the start a read makes, keeps the flags: it spawns the producer on a reader
neither closed nor started, and changes nothing otherwise. -/
theorem start (ha : a.starts = true) (hf : Flags acts s) : Flags (acts ++ [a]) s.start.2 := by
  obtain ⟨hcl, hsp⟩ := history_append_start ha acts
  rw [Scene.start_eq]
  cases hc : s.reader.closed with
  | true => exact hf.congr hcl (by simp [hsp, ← hf.closed, hc])
  | false =>
    cases hs : s.reader.started with
    | true => exact hf.congr hcl (by simp [hsp, ← hf.started, hs])
    | false =>
      -- the first start on an open reader spawns the producer
      refine ⟨?_, ?_, by simp, fun _ _ => rfl⟩
      · simp [hcl, ← hf.closed, hc]
      · simp [hsp, ← hf.closed, hc]

theorem read {k : Nat} (hf : Flags acts s) (h : s.step (.read k) = some (r, s')) :
    Flags (acts ++ [.read k]) s' := by
  obtain ⟨-, ⟨-, -, rfl⟩ | ⟨-, -, rfl⟩⟩ := Scene.step_read h
  · -- a read on a closed reader changes nothing
    exact hf.frame rfl rfl rfl rfl Iff.rfl hf.waiting
  · -- on an open reader it waits, or first starts the reader if it was not started
    refine hf.frame rfl rfl rfl rfl Iff.rfl fun k' hk => ?_
    cases hs : s.reader.started
    · simp [hs] at hk
    · rfl

theorem launch (hf : Flags acts s) (h : s.step .launch = some (r, s')) :
    Flags (acts ++ [.launch]) s' := by
  have hs := hf.start (a := .launch) rfl
  obtain ⟨k, -, ⟨hok, -, rfl⟩ | ⟨e, -, -, rfl⟩⟩ := Scene.step_launch h
  · exact hs.withPending fun _ _ => Scene.started_of_start_ok hok
  · exact hs.withPending fun _ h => by cases h

theorem finish (hf : Flags acts s) (h : s.step .finish = some (r, s')) :
    Flags (acts ++ [.finish]) s' := by
  obtain ⟨k, hp, -, rfl⟩ := Scene.step_finish h
  obtain ⟨hclosed, -, hstarted⟩ := Reader.read_flags s.reader k
  have hs : s.reader.started = true := hf.waiting k hp
  refine hf.frame rfl rfl hclosed ?_ Iff.rfl (fun _ h => by cases h)
  simp [hstarted, hs]

theorem closing {c : Act} (hc : c.closes = true) (hf : Flags acts s)
    (hstarted : s'.reader.started = s.reader.started) (hclosed : s'.reader.closed = true)
    (hphase : s'.phase = s.phase) (hpending : s'.pending = s.pending) :
    Flags (acts ++ [c]) s' where
  closed := by simp [hclosed, hc]
  started := by simp [hstarted, hf.started, spawnedBy_append, Act.starts_of_closes hc]
  unspawned := by rw [hphase, hstarted]; exact hf.unspawned
  waiting := by rw [hpending, hstarted]; exact hf.waiting

theorem step (hf : Flags acts s) (h : s.step a = some (r, s')) : Flags (acts ++ [a]) s' := by
  cases a with
  | start =>
    obtain ⟨-, -, rfl⟩ := Scene.step_start h
    exact hf.start rfl
  | read k => exact hf.read h
  | launch => exact hf.launch h
  | finish => exact hf.finish h
  | close =>
    obtain ⟨-, -, rfl⟩ := Scene.step_close h
    exact closing rfl hf rfl rfl rfl rfl
  | abort =>
    obtain ⟨-, rfl⟩ := Scene.step_abort h
    exact closing rfl hf rfl rfl rfl rfl
  | fetch =>
    obtain ⟨hph, ⟨-, -, rfl⟩ | ⟨-, -, rfl⟩⟩ := Scene.step_fetch h <;>
      exact hf.frame rfl rfl rfl rfl (by simp [hph]) hf.waiting
  | send =>
    obtain ⟨seg, hph, ⟨q, -, -, -, rfl⟩ | ⟨-, rfl⟩⟩ := Scene.step_send h
    · refine hf.frame rfl rfl rfl rfl ?_ hf.waiting
      cases seg.ending.isSome <;> simp [hph]
    · exact hf.frame rfl rfl rfl rfl (by simp [hph]) hf.waiting

end Flags

namespace Phase

/-- The segments the producer will read while it runs, from a source that has still to deliver
`src`: all of its segments from the top of its loop, those after the segment it holds unless
that one carried the end, and none once stopped. -/
def ahead (m : Nat) (src : Source) : Phase → List Fill
  | .holding seg => if seg.ending.isSome then [] else Source.segments m src
  | .stopped => []
  | _ => Source.segments m src

/-- The segment the producer holds, read and not queued. -/
def held : Phase → List Fill
  | .holding seg => [seg]
  | _ => []

end Phase

/-- What the producer read and queued, reported in `reps`, is a prefix of the segments of `m`
bytes of `src`, and it queued them in the order read. While it runs, what it read and what it
will read make all the segments, and it queued all it read but the segment it holds. -/
structure Produced (m : Nat) (src : Source) (reps : List Report) (s : Scene) : Prop where
  segment : Reader.segmentLen s.reader.segmentSize = m
  fetched : fetchedOf reps <+: Source.segments m src
  ahead : s.phase ≠ .stopped → fetchedOf reps ++ s.phase.ahead m s.unread = Source.segments m src
  queued : queuedOf reps <+: fetchedOf reps
  held : s.phase ≠ .stopped → queuedOf reps ++ s.phase.held = fetchedOf reps

namespace Produced

variable {m : Nat} {src : Source} {acts : List Act} {reps : List Report} {s s' : Scene}
  {a : Act} {r : Report}

theorem new (segmentSize queueLen : Nat) (source : Source) :
    Produced (Reader.segmentLen segmentSize) source [] (Scene.new segmentSize queueLen source) where
  segment := rfl
  fetched := List.nil_prefix
  ahead := fun _ => rfl
  queued := List.nil_prefix
  held := fun _ => rfl

/-- A step that reads and queues nothing, and leaves the producer where it was or spawns it,
keeps what was read and queued. -/
theorem frame (hp : Produced m src reps s) (hf : r.fetched? = none) (hq : r.queued? = none)
    (hsize : s'.reader.segmentSize = s.reader.segmentSize) (hu : s'.unread = s.unread)
    (hph : s'.phase = s.phase ∨ s.phase = .unspawned ∧ s'.phase = .top) :
    Produced m src (reps ++ [r]) s' := by
  have hfetched : fetchedOf (reps ++ [r]) = fetchedOf reps := by simp [fetchedOf_append, hf]
  have hqueued : queuedOf (reps ++ [r]) = queuedOf reps := by simp [queuedOf_append, hq]
  -- spawning the producer leaves the same segments ahead of it
  have hsame : s'.phase.ahead m s'.unread = s.phase.ahead m s.unread ∧
      s'.phase.held = s.phase.held ∧ (s'.phase = .stopped ↔ s.phase = .stopped) := by
    rcases hph with hph | ⟨h1, h2⟩
    · simp [hph, hu]
    · simp [h1, h2, hu, Phase.ahead, Phase.held]
  obtain ⟨hahead, hheld, hstop⟩ := hsame
  refine ⟨hsize ▸ hp.segment, hfetched ▸ hp.fetched, fun h => ?_, hfetched ▸ hqueued ▸ hp.queued,
    fun h => ?_⟩
  · rw [hfetched, hahead]
    exact hp.ahead (fun h' => h (hstop.2 h'))
  · rw [hfetched, hqueued, hheld]
    exact hp.held (fun h' => h (hstop.2 h'))

theorem stop (hp : Produced m src reps s) :
    Produced m src (reps ++ [.quiet]) { s with phase := .stopped } := by
  have hfetched : fetchedOf (reps ++ [.quiet]) = fetchedOf reps := by
    simp [fetchedOf_append, Report.fetched?]
  have hqueued : queuedOf (reps ++ [.quiet]) = queuedOf reps := by
    simp [queuedOf_append, Report.queued?]
  exact ⟨hp.segment, hfetched ▸ hp.fetched, fun h => absurd rfl h,
    hfetched ▸ hqueued ▸ hp.queued, fun h => absurd rfl h⟩

theorem fetch (hp : Produced m src reps s) (h : s.step .fetch = some (r, s')) :
    Produced m src (reps ++ [r]) s' := by
  obtain ⟨hph, ⟨-, rfl, rfl⟩ | ⟨-, rfl, rfl⟩⟩ := Scene.step_fetch h
  · -- closed: the producer stops at the top of its loop
    exact hp.stop
  · -- it reads the next segment of the source, and holds it
    have hm : 0 < m := hp.segment ▸ Reader.segmentLen_pos _
    have hnext := Source.segments_eq hm s.unread
    have hahead := hp.ahead (by simp [hph])
    have hheld := hp.held (by simp [hph])
    rw [hph] at hahead hheld
    simp only [Phase.ahead, Phase.held, List.append_nil] at hahead hheld
    rw [hnext] at hahead
    rw [hp.segment]
    generalize Source.readFull id m () s.unread = x at hahead ⊢
    obtain ⟨seg, rest, t⟩ := x
    have hf : fetchedOf (reps ++ [.fetched seg]) = fetchedOf reps ++ [seg] := by
      simp [fetchedOf_append, Report.fetched?]
    have hq : queuedOf (reps ++ [.fetched seg]) = queuedOf reps := by
      simp [queuedOf_append, Report.queued?]
    have hlive : fetchedOf (reps ++ [.fetched seg]) ++ Phase.ahead m rest (.holding seg) =
        Source.segments m src := by
      rw [hf, Phase.ahead, List.append_assoc, List.singleton_append]
      exact hahead
    refine ⟨hp.segment, ⟨_, hlive⟩, fun _ => hlive, ?_, fun _ => ?_⟩
    · rw [hq, hf, hheld]
      exact List.prefix_append _ _
    · rw [hq, hf, hheld]
      rfl

theorem send (hp : Produced m src reps s) (h : s.step .send = some (r, s')) :
    Produced m src (reps ++ [r]) s' := by
  obtain ⟨seg, hph, ⟨q, -, -, rfl, rfl⟩ | ⟨rfl, rfl⟩⟩ := Scene.step_send h
  · -- it queues the segment it holds, and stops after one that carried the end
    have hahead := hp.ahead (by simp [hph])
    have hheld := hp.held (by simp [hph])
    rw [hph] at hahead hheld
    simp only [Phase.ahead, Phase.held] at hahead hheld
    have hf : fetchedOf (reps ++ [.queued seg]) = fetchedOf reps := by
      simp [fetchedOf_append, Report.fetched?]
    have hq : queuedOf (reps ++ [.queued seg]) = fetchedOf reps := by
      simp [queuedOf_append, Report.queued?, hheld]
    refine ⟨hp.segment, hf ▸ hp.fetched, fun hstop => ?_, hq ▸ hf ▸ List.prefix_refl _,
      fun _ => ?_⟩
    · cases hend : seg.ending.isSome
      · simpa [hf, hend, Phase.ahead] using hahead
      · simp [hend] at hstop
    · cases seg.ending.isSome <;> simp [hf, hq, Phase.held]
  · -- closed, or the reader let go of the queue: it stops
    exact hp.stop

theorem step (hf : Flags acts s) (hp : Produced m src reps s) (h : s.step a = some (r, s')) :
    Produced m src (reps ++ [r]) s' := by
  cases ha : a.byProducer with
  | false =>
    obtain ⟨hfe, hq, hu, hsize, hph⟩ := Scene.step_owner h ha
    refine hp.frame hfe hq hsize hu ?_
    rcases hph with hph | ⟨hs, hph⟩
    · exact .inl hph
    · exact .inr ⟨hf.unspawned.2 hs, hph⟩
  | true =>
    cases a with
    | fetch => exact hp.fetch h
    | send => exact hp.send h
    | _ => simp [Act.byProducer] at ha

end Produced

/-! ## Every run -/

end Plumbing.Prefetch
