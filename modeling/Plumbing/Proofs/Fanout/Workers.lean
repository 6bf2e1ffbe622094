import Mathlib.Logic.Relation
import Plumbing.Proofs.Fanout.Steps

/-!
# The writer's workers, run to completion

A fan-out `Writer` runs each of its workers as far as it goes right after each call: a write
feeds its item to each worker in turn, and a worker whose sink fails closes it and stops there
and then. The threads of a `Scene` take the same steps one at a time, in any order. The writer
is one of those orders: each of its calls is the same call in the scene, followed by the workers'
steps, each worker running to completion right after the send to it (a write) or once the queues
were let go (a close), and it answers what the writer answers.

* The scene a writer is between calls (`Writer.toScene`) has its sinks, failures and phase, and
  for each worker a thread with an empty queue: ended or panicked when the worker stopped,
  waiting on its queue otherwise.
* Every writer made by `Writer.new` and its calls is `Writer.Sound`
  (`Writer.Sound.new`, `.addSink`, `.write`, `.close`).
* For a sound writer, `Writer.addSink_as_step`, `Writer.write_as_steps` and
  `Writer.close_as_steps` give the scene's run of each call.

A `World` takes a write's sends as one step, and there the order does not exist: a failure a
worker reports while a write is in progress can be what the writer's write answers, never what
the world's write answers.
-/

namespace Plumbing.Fanout

/-! ## The scene a writer is -/

namespace World

/-- What `join` keeps for thread `j` once every thread ended: its panic. -/
def panicOne (w : World) (j : Nat) : World :=
  match w.threads[j]? with
  | some t => if t.stage = .panicked then (w.fail (Error.workerPanicked .close j)).2 else w
  | none => w

theorem join_eq (w : World) : w.join =
    if w.joining && w.threads.all (·.stage.over) then
      let w := w.reports.foldl (fun w e => (w.fail e).2) { w with reports := [] }
      let w := (List.range w.threads.size).foldl panicOne w
      let w := { w with joining := false }
      match w.failure with
      | some e => some (.failed e, w)
      | none => some (.unit, w)
    else none := rfl

end World

namespace Worker

/-- Where a worker's thread stands once it has taken every step it can: a worker that stopped
ended, or panicked, and one still running waits on its queue. -/
def stage (wk : Worker) : Stage :=
  if wk.panicked then .panicked else if wk.stopped then .ended else .draining

/-- A worker's thread once it has taken every step it can, its queue empty. -/
def thread (wk : Worker) : Thread := ⟨wk.sink, [], wk.stage⟩

/-- The thread of a worker that `close` let go of, once it has ended. -/
def closedThread (wk : Worker) : Thread :=
  ⟨wk.sink, [], if wk.panicked then .panicked else .ended⟩

@[simp] theorem thread_sink (wk : Worker) : wk.thread.sink = wk.sink := rfl

@[simp] theorem thread_queue (wk : Worker) : wk.thread.queue = [] := rfl

theorem thread_of_stopped {wk : Worker} (h : wk.stopped = true) : wk.thread = wk.closedThread := by
  simp [thread, closedThread, stage, h]

theorem thread_of_running {wk : Worker} (hs : wk.stopped = false) (hp : wk.panicked = false) :
    wk.thread = ⟨wk.sink, [], .draining⟩ := by
  simp [thread, stage, hs, hp]

end Worker

namespace Writer

/-- The world of a writer whose worker `k` is the thread `th k wk`, in phase `ph`. -/
def view (w : Writer) (th : Nat → Worker → Thread) (ph : Phase) (joining : Bool) : World :=
  ⟨w.sinks, w.waiting, w.workers.mapIdx th, w.reports, w.failure, ph, joining⟩

/-- The world a writer is, each worker's thread having taken every step it can. -/
def toWorld (w : Writer) : World := w.view (fun _ => Worker.thread) w.phase false

/-- The scene a writer is between calls: its world, with no write in progress. -/
def toScene (w : Writer) : Scene := ⟨w.toWorld, none⟩

/-- What a write answers, as the scene reports it. -/
def writeOutcome : Except Error Nat → Outcome
  | .ok n => .count n
  | .error e => .failed e

/-- What a close answers, as the scene reports it. -/
def closeOutcome : Except Error Unit → Outcome
  | .ok () => .unit
  | .error e => .failed e

section View

variable {w : Writer} {th : Nat → Worker → Thread} {ph : Phase} {jn : Bool}

@[simp] theorem view_sinks : (w.view th ph jn).sinks = w.sinks := rfl

@[simp] theorem view_reports : (w.view th ph jn).reports = w.reports := rfl

@[simp] theorem view_failure : (w.view th ph jn).failure = w.failure := rfl

@[simp] theorem view_phase : (w.view th ph jn).phase = ph := rfl

@[simp] theorem view_joining : (w.view th ph jn).joining = jn := rfl

@[simp] theorem view_threads_size : (w.view th ph jn).threads.size = w.workers.size := by
  simp [view]

theorem view_threads_getElem? (k : Nat) :
    (w.view th ph jn).threads[k]? = w.workers[k]?.map (th k) := by
  simp [view]

theorem view_congr {th' : Nat → Worker → Thread}
    (h : ∀ k wk, w.workers[k]? = some wk → th k wk = th' k wk) :
    w.view th ph jn = w.view th' ph jn := by
  have hth : w.workers.mapIdx th = w.workers.mapIdx th' := by
    apply Array.ext_getElem?
    intro k
    simp only [Array.getElem?_mapIdx]
    cases hk : w.workers[k]? with
    | none => rfl
    | some wk => simp [h k wk hk]
  simp only [view, hth]

/-- Views that differ at most in the thread of worker `j`, and agree on it. -/
theorem view_congr_self {th' : Nat → Worker → Thread} {j : Nat} {wk : Worker}
    (hj : w.workers[j]? = some wk) (hself : th j wk = th' j wk)
    (hother : ∀ k x, k ≠ j → th k x = th' k x) :
    w.view th ph jn = w.view th' ph jn := by
  apply view_congr
  intro k x hx
  by_cases hk : k = j
  · subst hk
    obtain rfl : x = wk := by simpa [hj] using hx.symm
    exact hself
  · exact hother k x hk

/-- Changing a thread of a view is viewing the writer through the changed threads. -/
theorem view_modifyThread (j : Nat) (f : Thread → Thread) :
    (w.view th ph jn).modifyThread j f =
      w.view (fun k wk => if k = j then f (th k wk) else th k wk) ph jn := by
  simp only [World.modifyThread, view, World.mk.injEq, true_and, and_true]
  apply Array.ext_getElem?
  intro k
  by_cases hk : j = k
  · subst hk
    simp [Array.getElem?_modify, Function.comp_def]
  · simp [Array.getElem?_modify, hk, Ne.symm hk]

theorem modifyWorker_view (j : Nat) (g : Worker → Worker) :
    (w.modifyWorker j g).view th ph jn =
      w.view (fun k wk => if k = j then th k (g wk) else th k wk) ph jn := by
  simp only [modifyWorker, view, World.mk.injEq, true_and, and_true]
  apply Array.ext_getElem?
  intro k
  by_cases hk : j = k
  · subst hk
    simp [Array.getElem?_modify, Function.comp_def]
  · simp [Array.getElem?_modify, hk, Ne.symm hk]

@[simp] theorem modifySink_workers (i : Nat) (f : Sink → Sink) :
    (w.modifySink i f).workers = w.workers := rfl

@[simp] theorem modifySink_reports (i : Nat) (f : Sink → Sink) :
    (w.modifySink i f).reports = w.reports := rfl

@[simp] theorem modifySink_sinks_size (i : Nat) (f : Sink → Sink) :
    (w.modifySink i f).sinks.size = w.sinks.size := by
  simp [modifySink]

theorem modifySink_view (i : Nat) (f : Sink → Sink) :
    (w.modifySink i f).view th ph jn = (w.view th ph jn).modifySink i f := rfl

theorem withReports_view (rs : List Error) :
    ({ w with reports := rs } : Writer).view th ph jn = { w.view th ph jn with reports := rs } :=
  rfl

@[simp] theorem fail_phase (e : Error) : (w.fail e).2.phase = w.phase := by
  unfold fail
  split <;> rfl

@[simp] theorem fail_sinks (e : Error) : (w.fail e).2.sinks = w.sinks := by
  unfold fail
  split <;> rfl

@[simp] theorem fail_workers (e : Error) : (w.fail e).2.workers = w.workers := by
  unfold fail
  split <;> rfl

@[simp] theorem fail_reports (e : Error) : (w.fail e).2.reports = w.reports := by
  unfold fail
  split <;> rfl

theorem fail_view (e : Error) :
    ((w.view th ph jn).fail e).1 = (w.fail e).1 ∧
      ((w.view th ph jn).fail e).2 = (w.fail e).2.view th ph jn := by
  rcases hf : w.failure with _ | f <;> simp [fail, World.fail, view, hf]

end View

/-! ## Writers a caller can hold -/

/-- What every writer made by `Writer.new` and its calls satisfies: its workers name sinks it
has, and a worker that panicked stopped; an idle writer has no workers and no failures
reported, and holds sinks it has; a closed one has no workers. -/
structure Sound (w : Writer) : Prop where
  workers : ∀ (j : Nat) (wk : Worker), w.workers[j]? = some wk →
    wk.sink < w.sinks.size ∧ (wk.panicked = true → wk.stopped = true)
  waiting : w.phase = .idle → ∀ i ∈ w.waiting, i < w.sinks.size
  idle : w.phase = .idle → w.workers = #[] ∧ w.reports = []
  closed : w.phase = .closed → w.workers = #[]

@[simp] theorem foldl_spawn_waiting (l : List Nat) (w : Writer) :
    (l.foldl spawn w).waiting = w.waiting := by
  induction l generalizing w with
  | nil => rfl
  | cons i l ih => exact ih _

@[simp] theorem foldl_spawn_sinks (l : List Nat) (w : Writer) :
    (l.foldl spawn w).sinks = w.sinks := by
  induction l generalizing w with
  | nil => rfl
  | cons i l ih => exact ih _

theorem Sound.foldl_spawn {w : Writer} {l : List Nat} (hl : ∀ i ∈ l, i < w.sinks.size)
    (hw : ∀ (j : Nat) (wk : Worker), w.workers[j]? = some wk →
      wk.sink < w.sinks.size ∧ (wk.panicked = true → wk.stopped = true)) :
    ∀ (j : Nat) (wk : Worker), (l.foldl spawn w).workers[j]? = some wk →
      wk.sink < (l.foldl spawn w).sinks.size ∧ (wk.panicked = true → wk.stopped = true) := by
  induction l generalizing w with
  | nil => exact hw
  | cons i l ih =>
    refine ih (fun i' hi' => hl i' (List.mem_cons_of_mem _ hi')) fun j wk hj => ?_
    simp only [spawn, Array.getElem?_push] at hj
    split at hj
    · -- the worker just started, for a sink held
      obtain rfl := Option.some.inj hj
      exact ⟨hl i List.mem_cons_self, fun h => by simp at h⟩
    · exact hw j wk hj

theorem Sound.start {w : Writer} (hs : w.Sound) (hph : w.phase = .idle) : w.start.Sound where
  workers := Sound.foldl_spawn (w := { w with waiting := [] }) (hs.waiting hph) hs.workers
  waiting := by simp [Writer.start]
  idle := by simp [Writer.start]
  closed := by simp [Writer.start]

end Writer

/-! ## Steps that report nothing -/

namespace Scene

/-- One step that reports nothing. -/
def Silent (sc sc' : Scene) : Prop := ∃ a, sc.step a = some (none, sc')

/-- Steps that report nothing lead from one scene to the other. -/
def Reaches : Scene → Scene → Prop := Relation.ReflTransGen Silent

theorem Reaches.trans {sc₁ sc₂ sc₃ : Scene} (h₁ : sc₁.Reaches sc₂) (h₂ : sc₂.Reaches sc₃) :
    sc₁.Reaches sc₃ :=
  Relation.ReflTransGen.trans h₁ h₂

theorem Reaches.of_work {sc : Scene} {j : Nat} {w' : World} (h : sc.world.work j = some w') :
    sc.Reaches ⟨w', sc.sending⟩ :=
  .single ⟨.work j, by simp [step, World.step, h]⟩

/-- Steps that report nothing are a run that reports nothing. -/
theorem Reaches.run {sc sc' : Scene} (h : sc.Reaches sc') :
    ∃ acts, sc.run acts = some (List.replicate acts.length none, sc') := by
  induction h using Relation.ReflTransGen.head_induction_on with
  | refl => exact ⟨[], rfl⟩
  | head hstep _ ih =>
    obtain ⟨a, ha⟩ := hstep
    obtain ⟨acts, hrun⟩ := ih
    exact ⟨a :: acts, by simp [Scene.run, ha, hrun, List.replicate_succ]⟩

theorem run_of_reaches {sc sc₀ sc₁ sc' : Scene} {a₀ a : Act} {o : Outcome}
    (h₀ : sc.step a₀ = some (none, sc₀)) (h : sc₀.Reaches sc₁) (h₁ : sc₁.step a = some (some o, sc')) :
    ∃ acts, sc.run (a₀ :: acts) = some (List.replicate acts.length none ++ [some o], sc') := by
  obtain ⟨acts, hrun⟩ := h.run
  refine ⟨acts ++ [a], ?_⟩
  simp [Scene.run, h₀, run_snoc, hrun, h₁, List.replicate_succ]

end Scene

/-! ## One worker's steps -/

namespace Writer

variable {w : Writer} {th : Nat → Worker → Thread} {ph : Phase} {jn : Bool}

theorem sink_of_lt {i : Nat} (h : i < w.sinks.size) : ∃ s, w.sinks[i]? = some s :=
  ⟨_, Array.getElem?_eq_getElem h⟩

/-- A worker whose thread closes its sink next: the thread's step is the writer's `closeSinkOf`,
after which the thread has ended, or panicked. -/
theorem work_closing {j : Nat} {wk : Worker} (hj : w.workers[j]? = some wk)
    (hs : wk.sink < w.sinks.size) (hended : th j wk = ⟨wk.sink, [], .ended⟩)
    (hpanicked : th j { wk with panicked := true } = ⟨wk.sink, [], .panicked⟩) :
    (w.view (fun k x => if k = j then ⟨x.sink, [], .closing⟩ else th k x) ph jn).work j =
      some ((w.closeSinkOf j).view th ph jn) := by
  obtain ⟨s, hsink⟩ := sink_of_lt hs
  have hthr : (w.view (fun k x => if k = j then ⟨x.sink, [], .closing⟩ else th k x) ph
      jn).threads[j]? = some ⟨wk.sink, [], .closing⟩ := by
    simp [view_threads_getElem?, hj]
  -- the thread and `closeSinkOf` close the same sink; then by what the close did
  rcases hc : s.close with ⟨d, s'⟩
  simp only [World.work, hthr, view_sinks, hsink, hc, closeSinkOf, hj]
  cases d with
  | done =>
    dsimp only
    rw [← modifySink_view, view_modifyThread]
    congr 1
    exact view_congr_self hj (by simp [hended]) fun k x hk => by simp [hk]
  | failed e =>
    dsimp only
    rw [← modifySink_view, view_reports, ← withReports_view, view_modifyThread]
    congr 1
    exact view_congr_self hj (by simp [hended]) fun k x hk => by simp [hk]
  | panicked =>
    dsimp only
    rw [← modifySink_view, view_modifyThread, modifyWorker_view]
    congr 1
    exact view_congr_self hj (by simp [hpanicked]) fun k x hk => by simp [hk]

theorem modifyWorker_getElem?_self (j : Nat) (g : Worker → Worker) :
    (w.modifyWorker j g).workers[j]? = w.workers[j]?.map g := by
  simp [modifyWorker, Array.getElem?_modify]

/-- A worker whose write failed: its thread lets go of the queue, then closes the sink as the
writer's `closeSinkOf` does, once the worker stopped. -/
theorem failed_steps {j : Nat} {wk : Worker} (hj : w.workers[j]? = some wk)
    (hs : wk.sink < w.sinks.size) (hp : wk.panicked = false) (sending : Option (List UInt8 × Nat)) :
    Scene.Reaches
      ⟨w.view (fun k x => if k = j then ⟨x.sink, [], .failed⟩ else x.thread) ph jn, sending⟩
      ⟨((w.modifyWorker j fun wk => { wk with stopped := true }).closeSinkOf j).view
        (fun _ => Worker.thread) ph jn, sending⟩ := by
  have hthr : (w.view (fun k x => if k = j then ⟨x.sink, [], .failed⟩ else x.thread) ph
      jn).threads[j]? = some ⟨wk.sink, [], .failed⟩ := by
    simp [view_threads_getElem?, hj]
  have h₁ : (w.view (fun k x => if k = j then ⟨x.sink, [], .failed⟩ else x.thread) ph jn).work j =
      some (w.view (fun k x => if k = j then ⟨x.sink, [], .closing⟩ else x.thread) ph jn) := by
    simp only [World.work, hthr]
    rw [view_modifyThread]
    congr 1
    apply view_congr
    intro k x hx
    by_cases hk : k = j <;> simp [hk]
  -- the worker stopped, and its thread's close is `closeSinkOf`
  let w₁ := w.modifyWorker j fun wk => { wk with stopped := true }
  have hsame : w.view (fun k x => if k = j then ⟨x.sink, [], .closing⟩ else x.thread) ph jn =
      w₁.view (fun k x => if k = j then ⟨x.sink, [], .closing⟩ else x.thread) ph jn := by
    rw [modifyWorker_view]
    apply view_congr
    intro k x hx
    by_cases hk : k = j <;> simp [hk]
  have hj₁ : w₁.workers[j]? = some { wk with stopped := true } := by
    simp [w₁, modifyWorker_getElem?_self, hj]
  have h₂ : (w₁.view (fun k x => if k = j then ⟨x.sink, [], .closing⟩ else x.thread) ph jn).work j =
      some ((w₁.closeSinkOf j).view (fun _ => Worker.thread) ph jn) :=
    work_closing hj₁ (by simpa [w₁, modifyWorker] using hs)
      (by simp [Worker.thread, Worker.stage, hp]) (by simp [Worker.thread, Worker.stage])
  refine (Scene.Reaches.of_work h₁).trans ?_
  rw [hsame]
  exact Scene.Reaches.of_work h₂

/-- A worker that panicked: its thread ends as it unwinds, the worker stopped and panicked. -/
theorem unwinding_steps {j : Nat} {wk : Worker} (hj : w.workers[j]? = some wk)
    (sending : Option (List UInt8 × Nat)) :
    Scene.Reaches
      ⟨w.view (fun k x => if k = j then ⟨x.sink, [], .unwinding⟩ else x.thread) ph jn, sending⟩
      ⟨(w.modifyWorker j fun wk => { wk with stopped := true, panicked := true }).view
        (fun _ => Worker.thread) ph jn, sending⟩ := by
  have hthr : (w.view (fun k x => if k = j then ⟨x.sink, [], .unwinding⟩ else x.thread) ph
      jn).threads[j]? = some ⟨wk.sink, [], .unwinding⟩ := by
    simp [view_threads_getElem?, hj]
  refine Scene.Reaches.of_work (j := j) ?_
  simp only [World.work, hthr]
  rw [view_modifyThread, modifyWorker_view]
  congr 1
  exact view_congr_self hj (by simp [Worker.thread, Worker.stage]) fun k x hk => by simp [hk]

/-- A running worker given one item: its thread's steps, which write the item and, after a
failure, let go of the queue and close the sink, are the writer's `feed`. -/
theorem feed_steps {j : Nat} {wk : Worker} (hj : w.workers[j]? = some wk)
    (hs : wk.sink < w.sinks.size) (hstop : wk.stopped = false) (hp : wk.panicked = false)
    (d : List UInt8) (sending : Option (List UInt8 × Nat)) :
    Scene.Reaches
      ⟨w.view (fun k x => if k = j then { x.thread with queue := [d] } else x.thread) ph jn,
        sending⟩
      ⟨(w.feed j d).view (fun _ => Worker.thread) ph jn, sending⟩ := by
  obtain ⟨s, hsink⟩ := sink_of_lt hs
  have hrun := Worker.thread_of_running hstop hp
  have hthr : (w.view (fun k x => if k = j then { x.thread with queue := [d] } else x.thread) ph
      jn).threads[j]? = some ⟨wk.sink, [d], .draining⟩ := by
    simp [view_threads_getElem?, hj, hrun]
  -- the thread's first step writes the item; then by what the write did
  rcases hdl : s.deliver d with ⟨dl, s'⟩
  cases dl with
  | done =>
    refine Scene.Reaches.of_work (j := j) ?_
    simp only [World.work, hthr, view_sinks, hsink, hdl, feed, hj]
    rw [← modifySink_view, view_modifyThread]
    congr 1
    exact view_congr_self hj (by simp [hrun]) fun k x hk => by simp [hk]
  | failed e =>
    -- the failure is reported, then the thread lets go of its queue and closes the sink
    let w₁ : Writer := { w.modifySink wk.sink (fun _ => s') with reports := w.reports ++ [e] }
    have h₁ : (w.view (fun k x => if k = j then { x.thread with queue := [d] } else x.thread) ph
        jn).work j =
          some (w₁.view (fun k x => if k = j then ⟨x.sink, [], .failed⟩ else x.thread) ph jn) := by
      simp only [World.work, hthr, view_sinks, hsink, hdl]
      rw [← modifySink_view, view_reports, ← withReports_view, view_modifyThread]
      congr 1
      apply view_congr
      intro k x hx
      by_cases hk : k = j <;> simp [hk]
    have hfeed : w.feed j d =
        (w₁.modifyWorker j fun wk => { wk with stopped := true }).closeSinkOf j := by
      simp only [feed, hj, hsink, hdl]
      rfl
    rw [hfeed]
    exact (Scene.Reaches.of_work h₁).trans
      (failed_steps (by simpa [w₁] using hj) (by simpa [w₁] using hs) hp sending)
  | panicked =>
    -- the panic, then the thread's end as it unwinds
    let w₁ : Writer := w.modifySink wk.sink fun _ => s'
    have h₁ : (w.view (fun k x => if k = j then { x.thread with queue := [d] } else x.thread) ph
        jn).work j =
          some (w₁.view (fun k x => if k = j then ⟨x.sink, [], .unwinding⟩ else x.thread) ph jn) := by
      simp only [World.work, hthr, view_sinks, hsink, hdl]
      rw [← modifySink_view, view_modifyThread]
      congr 1
      apply view_congr
      intro k x hx
      by_cases hk : k = j <;> simp [hk]
    have hfeed : w.feed j d =
        w₁.modifyWorker j fun wk => { wk with stopped := true, panicked := true } := by
      simp only [feed, hj, hsink, hdl]
      rfl
    rw [hfeed]
    exact (Scene.Reaches.of_work h₁).trans (unwinding_steps (by simpa [w₁] using hj) sending)

/-! ## What a worker's steps leave alone -/

/-- What the steps of worker `j` change: the sinks, not their number, the failures reported,
and the worker's own flags. -/
structure Frame (j : Nat) (w w' : Writer) : Prop where
  sinks : w'.sinks.size = w.sinks.size
  waiting : w'.waiting = w.waiting
  failure : w'.failure = w.failure
  phase : w'.phase = w.phase
  size : w'.workers.size = w.workers.size
  other : ∀ k, k ≠ j → w'.workers[k]? = w.workers[k]?
  own : ∀ wk', w'.workers[j]? = some wk' → ∃ wk, w.workers[j]? = some wk ∧ wk'.sink = wk.sink

namespace Frame

variable {j : Nat} {w₁ w₂ : Writer}

theorem refl (j : Nat) (w : Writer) : Frame j w w :=
  ⟨rfl, rfl, rfl, rfl, rfl, fun _ _ => rfl, fun wk h => ⟨wk, h, rfl⟩⟩

theorem trans {w₃ : Writer} (h₁ : Frame j w₁ w₂) (h₂ : Frame j w₂ w₃) : Frame j w₁ w₃ where
  sinks := h₂.sinks.trans h₁.sinks
  waiting := h₂.waiting.trans h₁.waiting
  failure := h₂.failure.trans h₁.failure
  phase := h₂.phase.trans h₁.phase
  size := h₂.size.trans h₁.size
  other k hk := (h₂.other k hk).trans (h₁.other k hk)
  own wk'' h := by
    obtain ⟨wk', h', hs'⟩ := h₂.own wk'' h
    obtain ⟨wk, h, hs⟩ := h₁.own wk' h'
    exact ⟨wk, h, hs'.trans hs⟩

theorem modifySink (h : Frame j w₁ w₂) (i : Nat) (f : Sink → Sink) :
    Frame j w₁ (w₂.modifySink i f) :=
  h.trans ⟨by simp, rfl, rfl, rfl, rfl, fun _ _ => rfl, fun wk h => ⟨wk, h, rfl⟩⟩

theorem reports (h : Frame j w₁ w₂) (rs : List Error) :
    Frame j w₁ { w₂ with reports := rs } :=
  h.trans ⟨rfl, rfl, rfl, rfl, rfl, fun _ _ => rfl, fun wk h => ⟨wk, h, rfl⟩⟩

theorem modifyWorker (h : Frame j w₁ w₂) {g : Worker → Worker} (hg : ∀ wk, (g wk).sink = wk.sink) :
    Frame j w₁ (w₂.modifyWorker j g) := by
  refine h.trans ⟨rfl, rfl, rfl, rfl, by simp [Writer.modifyWorker], fun k hk => ?_, fun wk' h' => ?_⟩
  · simp [Writer.modifyWorker, Array.getElem?_modify, Ne.symm hk]
  · rw [modifyWorker_getElem?_self] at h'
    obtain ⟨wk, hwk, rfl⟩ := Option.map_eq_some_iff.1 h'
    exact ⟨wk, hwk, hg wk⟩

end Frame

theorem closeSinkOf_frame (j : Nat) : Frame j w (w.closeSinkOf j) := by
  unfold closeSinkOf
  split
  · exact .refl j w
  · split
    · exact .refl j w
    · dsimp only
      split
      · exact (Frame.refl j w).modifySink _ _
      · exact ((Frame.refl j w).modifySink _ _).reports _
      · exact ((Frame.refl j w).modifySink _ _).modifyWorker fun _ => rfl

theorem feed_frame (j : Nat) (d : List UInt8) : Frame j w (w.feed j d) := by
  unfold feed
  split
  · exact .refl j w
  · split
    · exact .refl j w
    · dsimp only
      split
      · exact (Frame.refl j w).modifySink _ _
      · exact ((((Frame.refl j w).modifySink _ _).reports _).modifyWorker
          (g := fun wk => { wk with stopped := true }) fun _ => rfl).trans (closeSinkOf_frame j)
      · exact ((Frame.refl j w).modifySink _ _).modifyWorker fun _ => rfl

theorem closeSinkOf_stopped (j : Nat) :
    ∀ wk', (w.closeSinkOf j).workers[j]? = some wk' →
      ∃ wk, w.workers[j]? = some wk ∧ wk'.stopped = wk.stopped := by
  intro wk' h'
  unfold closeSinkOf at h'
  split at h'
  · exact ⟨wk', h', rfl⟩
  · split at h'
    · exact ⟨wk', h', rfl⟩
    · dsimp only at h'
      split at h'
      · exact ⟨wk', h', rfl⟩
      · exact ⟨wk', h', rfl⟩
      · rw [modifyWorker_getElem?_self] at h'
        obtain ⟨wk, hwk, rfl⟩ := Option.map_eq_some_iff.1 h'
        exact ⟨wk, hwk, rfl⟩

/-- A worker that panics while fed stops: `feed` never leaves a worker panicked and running. -/
theorem feed_own_ok {j : Nat} (d : List UInt8)
    (hok : ∀ wk, w.workers[j]? = some wk → wk.panicked = true → wk.stopped = true) :
    ∀ wk', (w.feed j d).workers[j]? = some wk' → wk'.panicked = true → wk'.stopped = true := by
  intro wk' h'
  unfold feed at h'
  split at h'
  · exact hok wk' h'
  · split at h'
    · exact hok wk' h'
    · dsimp only at h'
      split at h'
      · exact hok wk' h'
      · -- a failure: the worker stopped before it closed its sink
        obtain ⟨wk, h, hstop⟩ := closeSinkOf_stopped j wk' h'
        rw [modifyWorker_getElem?_self] at h
        obtain ⟨wk₀, -, rfl⟩ := Option.map_eq_some_iff.1 h
        exact fun _ => hstop
      · rw [modifyWorker_getElem?_self] at h'
        obtain ⟨wk₀, -, rfl⟩ := Option.map_eq_some_iff.1 h'
        exact fun _ => rfl

/-! ## A write -/

theorem view_thread_withQueue {j : Nat} (d : List UInt8) :
    (w.view (fun _ => Worker.thread) ph jn).modifyThread j
        (fun t => { t with queue := t.queue ++ [d] }) =
      w.view (fun k x => if k = j then { x.thread with queue := [d] } else x.thread) ph jn := by
  rw [view_modifyThread]
  apply view_congr
  intro k x _
  by_cases hk : k = j <;> simp [hk]

/-- **A write's sends, each worker running to completion right after the send to it**, are the
writer's `queueTo`: from the send to worker `j` on, the scene's steps report nothing until the
last, a send that answers as the writer's write does. -/
theorem queueTo_steps {d : List UInt8} : ∀ {m j : Nat} {w w' : Writer} {r : Except Error Unit},
    (∀ k wk, j ≤ k → w.workers[k]? = some wk →
      wk.sink < w.sinks.size ∧ (wk.panicked = true → wk.stopped = true)) →
    j + m = w.workers.size → w.queueTo d (List.range' j m) = (r, w') →
    ∃ sc, Scene.Reaches ⟨w.toWorld, some (d, j)⟩ sc ∧
      sc.step .send = some (some (writeOutcome (r.map fun _ => d.length)), w'.toScene)
  | 0, j, w, w', r, _, hm, hq => by
    -- past the last worker the write answers the item's length
    obtain ⟨rfl, rfl⟩ : Except.ok () = r ∧ w = w' := by simpa [queueTo] using hq
    refine ⟨_, .refl, ?_⟩
    simp only [Scene.step, Option.map_some, Scene.sendTo, toScene, toWorld, view_threads_size,
      ← hm, Nat.add_zero, Nat.lt_irrefl, if_false]
    rfl
  | m + 1, j, w, w', r, hok, hm, hq => by
    obtain ⟨wk, hj⟩ : ∃ wk, w.workers[j]? = some wk :=
      ⟨_, Array.getElem?_eq_getElem (by omega)⟩
    obtain ⟨hs, hpan⟩ := hok j wk (Nat.le_refl j) hj
    have hthr : w.toWorld.threads[j]? = some wk.thread := by
      simp [toWorld, view_threads_getElem?, hj]
    have hlt : j < w.toWorld.threads.size := by simp [toWorld]; omega
    rw [List.range'_succ] at hq
    simp only [queueTo, hj] at hq
    by_cases hstop : wk.stopped = true
    · -- a worker that stopped: the write answers the oldest failure reported, or the panic
      have hhold : wk.thread.stage.holds = false := by
        simp only [Worker.thread, Worker.stage, hstop]
        split <;> rfl
      refine ⟨_, .refl, ?_⟩
      simp only [Scene.step, Option.map_some, Scene.sendTo, if_pos hlt, World.queueTo, hthr,
        hhold, Bool.false_eq_true, if_false]
      simp only [hstop, if_true] at hq
      rcases hr : w.reports with _ | ⟨e, rest⟩
      · simp only [hr] at hq
        obtain ⟨rfl, rfl⟩ := Prod.mk.inj hq
        simp only [toWorld, view_reports, hr, (fail_view _).1, (fail_view _).2, toScene,
          fail_phase]
        rfl
      · simp only [hr] at hq
        obtain ⟨rfl, rfl⟩ := Prod.mk.inj hq
        simp only [toWorld, view_reports, hr, ← withReports_view, (fail_view _).1,
          (fail_view _).2, toScene, fail_phase]
        rfl
    · -- the send, then the worker's steps, then the sends to the workers after it
      have hstop' : wk.stopped = false := by simpa using hstop
      simp only [hstop', Bool.false_eq_true, if_false] at hq
      have hframe := feed_frame (w := w) j d
      obtain ⟨sc, hreach, hlast⟩ := queueTo_steps (w := w.feed j d)
        (fun k x hk hx => by
          rw [hframe.other k (by omega)] at hx
          rw [hframe.sinks]
          exact hok k x (by omega) hx)
        (by rw [hframe.size]; omega) hq
      have hhold : wk.thread.stage.holds = true := by
        simp [Worker.thread, Worker.stage, Stage.holds, hstop', show wk.panicked = false by
          cases h : wk.panicked <;> simp_all]
      have hsend : (⟨w.toWorld, some (d, j)⟩ : Scene).step .send =
          some (none, ⟨w.view (fun k x => if k = j then { x.thread with queue := [d] }
            else x.thread) w.phase false, some (d, j + 1)⟩) := by
        simp only [Scene.step, Option.map_some, Scene.sendTo, if_pos hlt, World.queueTo, hthr,
          hhold, if_true]
        rw [toWorld, view_thread_withQueue]
      have hpan' : wk.panicked = false := by cases h : wk.panicked <;> simp_all
      refine ⟨sc, (Relation.ReflTransGen.single ⟨.send, hsend⟩).trans
        ((feed_steps hj hs hstop' hpan' d _).trans ?_), hlast⟩
      rw [← hframe.phase]
      exact hreach

theorem spawn_view (i : Nat) :
    (w.spawn i).view (fun _ => Worker.thread) ph jn =
      (w.view (fun _ => Worker.thread) ph jn).spawn i := by
  simp only [spawn, World.spawn, view, Array.mapIdx_push]
  rfl

theorem foldl_spawn_view (l : List Nat) (w : Writer) :
    (l.foldl spawn w).view (fun _ => Worker.thread) ph jn =
      l.foldl World.spawn (w.view (fun _ => Worker.thread) ph jn) := by
  induction l generalizing w with
  | nil => rfl
  | cons i l ih => simp only [List.foldl_cons, ih, spawn_view]

theorem start_toWorld (w : Writer) : w.start.toWorld = w.toWorld.start := by
  have h : (w.waiting.foldl spawn { w with waiting := [] }).view (fun _ => Worker.thread)
      w.phase false =
        w.waiting.foldl World.spawn { w.toWorld with waiting := [] } :=
    foldl_spawn_view _ _
  show ({ w.waiting.foldl spawn { w with waiting := [] } with phase := .running } : Writer).view
      (fun _ => Worker.thread) .running false =
    { w.waiting.foldl World.spawn { w.toWorld with waiting := [] } with phase := .running }
  rw [← h]
  rfl

/-- A write to an idle writer starts it, and is then a write to the running writer. -/
theorem write_of_idle {w : Writer} (h : w.phase = .idle) (d : List UInt8) :
    w.write d = w.start.write d := by
  simp [write, h, show w.start.phase = .running from rfl]

theorem begin_of_idle {w : World} (h : w.phase = .idle) (d : List UInt8) :
    Scene.begin w d = Scene.begin w.start d := by
  simp [Scene.begin, h, show w.start.phase = .running from rfl]

theorem toScene_step_write (w : Writer) (d : List UInt8) :
    w.toScene.step (.write d) = some (Scene.begin w.toWorld d) := rfl

/-- A write to a running writer, in the scene: the call, the sends each followed by the steps
of the worker sent to, and the last send, or the call alone when a failure was kept. -/
theorem write_as_steps_of_running {w w' : Writer} {d : List UInt8} {r : Except Error Nat}
    (hs : w.Sound) (hph : w.phase = .running) (hw : w.write d = (r, w')) :
    ∃ acts, w.toScene.run (.write d :: acts) =
      some (List.replicate acts.length none ++ [some (writeOutcome r)], w'.toScene) := by
  simp only [write, hph, reduceCtorEq, if_false] at hw
  rcases hf : w.failure with _ | e
  · -- the sends
    have hbegin : Scene.begin w.toWorld d = (none, ⟨w.toWorld, some (d, 0)⟩) := by
      simp [Scene.begin, toWorld, hph, hf]
    simp only [hf] at hw
    rcases hq : w.queueTo d (List.range w.workers.size) with ⟨r', w''⟩
    have hq' : w.queueTo d (List.range' 0 w.workers.size) = (r', w'') := by
      rw [← List.range_eq_range', hq]
    obtain ⟨sc, hreach, hlast⟩ := queueTo_steps
      (fun k x _ hx => hs.workers k x hx) (Nat.zero_add _) hq'
    have hstep : w.toScene.step (.write d) = some (none, ⟨w.toWorld, some (d, 0)⟩) := by
      rw [toScene_step_write, hbegin]
    rw [hq] at hw
    rcases r' with e' | ⟨⟩
    · obtain ⟨rfl, rfl⟩ := Prod.mk.inj hw
      exact Scene.run_of_reaches hstep hreach hlast
    · obtain ⟨rfl, rfl⟩ := Prod.mk.inj hw
      exact Scene.run_of_reaches hstep hreach hlast
  · -- a failure kept: answered at once
    have hbegin : Scene.begin w.toWorld d = (some (.failed e), ⟨w.toWorld, none⟩) := by
      simp [Scene.begin, toWorld, hph, hf]
    simp only [hf] at hw
    obtain ⟨rfl, rfl⟩ := Prod.mk.inj hw
    refine ⟨[], ?_⟩
    simp only [Scene.run, toScene_step_write, hbegin]
    rfl

/-- **A write is the scene's call followed by the workers' steps**, each worker running to
completion right after the send to it. The scene's last step answers what the writer's write
answers, and the scene is then the writer the write leaves. -/
theorem write_as_steps {w w' : Writer} {d : List UInt8} {r : Except Error Nat} (hs : w.Sound)
    (hw : w.write d = (r, w')) :
    ∃ acts, w.toScene.run (.write d :: acts) =
      some (List.replicate acts.length none ++ [some (writeOutcome r)], w'.toScene) := by
  cases hph : w.phase with
  | closed =>
    -- a closed writer answers at once
    obtain ⟨rfl, rfl⟩ : Except.error (Error.closed .write) = r ∧ w = w' := by
      simpa [write, hph] using hw
    refine ⟨[], ?_⟩
    simp [Scene.run, toScene, Scene.step, Scene.begin, toWorld, hph, writeOutcome]
  | running => exact write_as_steps_of_running hs hph hw
  | idle =>
    -- the write starts the writer first, in the writer as in the scene
    rw [write_of_idle hph] at hw
    obtain ⟨acts, hrun⟩ := write_as_steps_of_running (hs.start hph) rfl hw
    refine ⟨acts, ?_⟩
    have hstep : w.toScene.step (.write d) = w.start.toScene.step (.write d) := by
      rw [toScene_step_write, toScene_step_write, start_toWorld,
        begin_of_idle (by simpa [toWorld] using hph)]
    simp only [Scene.run, hstep] at hrun ⊢
    exact hrun

/-! ## A close -/

theorem closeWaiting_view (l : List Nat) (w : Writer) :
    (w.closeWaiting l).map (·.view th ph jn) = (w.view th ph jn).closeWaiting l := by
  induction l generalizing w with
  | nil => rfl
  | cons i l ih =>
    simp only [closeWaiting, World.closeWaiting, view_sinks]
    cases w.sinks[i]? with
    | none => exact ih w
    | some s =>
      dsimp only
      rcases s.close with ⟨d, s'⟩
      cases d with
      | done => exact ih _
      | failed e =>
        dsimp only
        rw [ih, ← (fail_view e).2, modifySink_view]
      | panicked => rfl

/-- Closing the sinks held on the caller's side changes only the sinks and the failure kept. -/
theorem closeWaiting_frame {l : List Nat} {w w' : Writer} (h : w.closeWaiting l = some w') :
    w'.sinks.size = w.sinks.size ∧ w'.workers = w.workers ∧ w'.reports = w.reports := by
  induction l generalizing w with
  | nil =>
    obtain rfl := Option.some.inj h
    exact ⟨rfl, rfl, rfl⟩
  | cons i l ih =>
    simp only [closeWaiting] at h
    split at h
    · exact ih h
    · rename_i s _
      rcases hc : s.close with ⟨d, s'⟩
      rw [hc] at h
      cases d with
      | done =>
        obtain ⟨h₁, h₂, h₃⟩ := ih h
        exact ⟨h₁.trans (by simp), h₂.trans (by simp), h₃.trans (by simp)⟩
      | failed e =>
        obtain ⟨h₁, h₂, h₃⟩ := ih h
        exact ⟨h₁.trans (by simp), h₂.trans (by simp), h₃.trans (by simp)⟩
      | panicked => cases h

theorem foldl_fail_view (l : List Error) (w : Writer) :
    l.foldl (fun w e => (w.fail e).2) (w.view th ph jn) =
      (l.foldl (fun w e => (w.fail e).2) w).view th ph jn := by
  induction l generalizing w with
  | nil => rfl
  | cons e l ih => simp only [List.foldl_cons, (fail_view e).2, ih]

/-- What `stopWorkers` keeps last for worker `j`: its panic. -/
def panicOne (w : Writer) (j : Nat) : Writer :=
  match w.workers[j]? with
  | some wk => if wk.panicked then (w.fail (Error.workerPanicked .close j)).2 else w
  | none => w

/-- `join` keeps the panics of the threads in order, as `stopWorkers` keeps the workers'. -/
theorem foldl_panics_view (l : List Nat) (w : Writer) :
    l.foldl World.panicOne (w.view (fun _ => Worker.closedThread) ph jn) =
      (l.foldl panicOne w).view (fun _ => Worker.closedThread) ph jn := by
  induction l generalizing w with
  | nil => rfl
  | cons j l ih =>
    simp only [List.foldl_cons]
    rw [← ih, World.panicOne, panicOne, view_threads_getElem?]
    congr 1
    cases w.workers[j]? with
    | none => rfl
    | some wk =>
      by_cases hp : wk.panicked = true
      · simp [Worker.closedThread, hp, (fail_view _).2]
      · simp [Worker.closedThread, hp]

/-- What `stopWorkers` does first for worker `j`: a worker still running closes its sink. -/
def stopOne (w : Writer) (j : Nat) : Writer :=
  match w.workers[j]? with
  | some wk => if wk.stopped then w else w.closeSinkOf j
  | none => w

theorem stopOne_frame (w : Writer) (j : Nat) : Frame j w (w.stopOne j) := by
  unfold stopOne
  split
  · split
    · exact .refl j w
    · exact closeSinkOf_frame j
  · exact .refl j w

/-- Stopping the first `m` workers leaves the others, and the number of sinks, as they were. -/
theorem foldl_stopOne_frame (w : Writer) (m : Nat) :
    ((List.range m).foldl stopOne w).sinks.size = w.sinks.size ∧
      ((List.range m).foldl stopOne w).workers.size = w.workers.size ∧
      ∀ k, m ≤ k → ((List.range m).foldl stopOne w).workers[k]? = w.workers[k]? := by
  induction m with
  | zero => exact ⟨rfl, rfl, fun _ _ => rfl⟩
  | succ m ih =>
    obtain ⟨h₁, h₂, h₃⟩ := ih
    have hf := stopOne_frame ((List.range m).foldl stopOne w) m
    simp only [List.range_succ, List.foldl_append, List.foldl_cons, List.foldl_nil]
    exact ⟨hf.sinks.trans h₁, hf.size.trans h₂, fun k hk =>
      (hf.other k (by omega)).trans (h₃ k (by omega))⟩

/-- The threads of a close's steps once the first `m` workers ended. -/
def closingThreads (m k : Nat) (wk : Worker) : Thread :=
  if k < m then wk.closedThread else wk.thread

/-- **`close` stops the workers in order**: the thread of each worker still running lets go of
its queue and closes its sink, as `stopWorkers` has the worker close it. -/
theorem stopping_steps {w : Writer}
    (hok : ∀ (j : Nat) (wk : Worker), w.workers[j]? = some wk →
      wk.sink < w.sinks.size ∧ (wk.panicked = true → wk.stopped = true)) :
    ∀ m, m ≤ w.workers.size →
      Scene.Reaches ⟨w.view (closingThreads 0) .closed true, none⟩
        ⟨((List.range m).foldl stopOne w).view (closingThreads m) .closed true, none⟩
  | 0, _ => .refl
  | m + 1, hm => by
    obtain ⟨hsz, -, hother⟩ := foldl_stopOne_frame w m
    obtain ⟨wk, hj⟩ : ∃ wk, w.workers[m]? = some wk := ⟨_, Array.getElem?_eq_getElem (by omega)⟩
    obtain ⟨hs, hpan⟩ := hok m wk hj
    have hjm : ((List.range m).foldl stopOne w).workers[m]? = some wk := (hother m (Nat.le_refl m)).trans hj
    refine (stopping_steps hok m (by omega)).trans ?_
    simp only [List.range_succ, List.foldl_append, List.foldl_cons, List.foldl_nil]
    generalize (List.range m).foldl stopOne w = wm at hsz hjm
    by_cases hstop : wk.stopped = true
    · -- a worker that stopped has ended already
      have hone : wm.stopOne m = wm := by simp [stopOne, hjm, hstop]
      have hv : wm.view (closingThreads m) .closed true =
          wm.view (closingThreads (m + 1)) .closed true := by
        refine view_congr_self hjm
          (by simp [closingThreads, Worker.thread_of_stopped hstop]) fun k x hk => ?_
        simp only [closingThreads]
        congr 1
        exact propext ⟨fun h => by omega, fun h => by omega⟩
      rw [hone, hv]
      exact .refl
    · -- a running worker lets go of its queue, then closes its sink
      have hstop' : wk.stopped = false := by simpa using hstop
      have hpan' : wk.panicked = false := by cases h : wk.panicked <;> simp_all
      have hone : wm.stopOne m = wm.closeSinkOf m := by simp [stopOne, hjm, hstop']
      have hthr : (wm.view (closingThreads m) .closed true).threads[m]? =
          some ⟨wk.sink, [], .draining⟩ := by
        simp [view_threads_getElem?, hjm, closingThreads, Worker.thread_of_running hstop' hpan']
      have h₁ : (wm.view (closingThreads m) .closed true).work m =
          some (wm.view (fun k x => if k = m then ⟨x.sink, [], .closing⟩
            else closingThreads (m + 1) k x) .closed true) := by
        simp only [World.work, hthr, view_phase, reduceCtorEq, if_false]
        rw [view_modifyThread]
        congr 1
        apply view_congr
        intro k x hx
        by_cases hk : k = m
        · subst hk
          simp [closingThreads]
        · simp only [hk, if_false, closingThreads]
          congr 1
          exact propext ⟨fun h => by omega, fun h => by omega⟩
      have h₂ : (wm.view (fun k x => if k = m then ⟨x.sink, [], .closing⟩
          else closingThreads (m + 1) k x) .closed true).work m =
            some ((wm.closeSinkOf m).view (closingThreads (m + 1)) .closed true) :=
        work_closing hjm (by rw [hsz]; exact hs)
          (by simp [closingThreads, Worker.closedThread, hpan'])
          (by simp [closingThreads, Worker.closedThread])
      rw [hone]
      exact (Scene.Reaches.of_work h₁).trans (Scene.Reaches.of_work h₂)

theorem stopWorkers_eq (w : Writer) : w.stopWorkers =
    let w₁ := (List.range w.workers.size).foldl stopOne w
    let w₂ := w₁.reports.foldl (fun w e => (w.fail e).2) { w₁ with reports := [] }
    let w₃ := (List.range w₂.workers.size).foldl panicOne w₂
    { w₃ with workers := #[] } := rfl

theorem closedThread_over (wk : Worker) : wk.closedThread.stage.over = true := by
  unfold Worker.closedThread
  split <;> rfl

/-- `close` returns once every worker ended: `join` keeps the failures reported, then the
panics, as `stopWorkers` keeps them, and answers the failure kept. -/
theorem join_view (w : Writer) :
    (w.view (fun _ => Worker.closedThread) ph true).join =
      let w₂ := w.reports.foldl (fun w e => (w.fail e).2) { w with reports := [] }
      let w₃ := (List.range w₂.workers.size).foldl panicOne w₂
      some (closeOutcome (w₃.failure.elim (.ok ()) Except.error),
        w₃.view (fun _ => Worker.closedThread) ph false) := by
  have hover : (w.view (fun _ => Worker.closedThread) ph true).threads.all (·.stage.over) = true := by
    rw [Array.all_eq_true]
    intro i hi
    simp [view, closedThread_over]
  rw [World.join_eq, if_pos (by rw [view_joining, hover]; rfl)]
  dsimp only
  rw [view_reports, ← withReports_view, foldl_fail_view, view_threads_size, foldl_panics_view]
  generalize (List.range _).foldl _ _ = w₃
  rw [show { w₃.view (fun _ => Worker.closedThread) ph true with joining := false } =
    w₃.view (fun _ => Worker.closedThread) ph false from rfl, view_failure]
  cases w₃.failure <;> rfl

theorem toScene_step_close (w : Writer) :
    w.toScene.step .close = w.toWorld.close.map fun p => (p.1, ⟨p.2, none⟩) := rfl

theorem step_join_of_view (w : Writer) (ph : Phase) :
    (⟨w.view (fun _ => Worker.closedThread) ph true, none⟩ : Scene).step .join =
      (w.view (fun _ => Worker.closedThread) ph true).join.map
        fun p => (some p.1, ⟨p.2, none⟩) := by
  simp only [Scene.step, Scene.call, World.step, Option.isSome_none, Bool.false_eq_true,
    if_false, Option.map_map]
  rfl

/-- What the writer's close answers, from the failure it keeps. -/
theorem close_answer {f : Option Error} {w w' : Writer} {r : Except Error Unit}
    (h : (match f with
      | some e => (Except.error e, w)
      | none => (Except.ok (), w)) = (r, w')) :
    r = f.elim (.ok ()) Except.error ∧ w' = w := by
  cases f <;> exact ⟨(Prod.mk.inj h).1.symm, (Prod.mk.inj h).2.symm⟩

/-- An idle writer's close: the caller closes the sinks it holds, and `join` answers at once,
as there are no workers. -/
theorem close_as_steps_of_idle {w w' : Writer} {r : Except Error Unit} (hs : w.Sound)
    (hph : w.phase = .idle) (hc : w.close = some (r, w')) :
    ∃ acts sc, w.toScene.run (.close :: acts) =
        some (List.replicate acts.length none ++ [some (closeOutcome r)], sc) ∧
      sc.sending = none ∧ { sc.world with threads := #[] } = w'.toWorld ∧
      sc.world.threads.all (·.stage.over) = true := by
  obtain ⟨hnone, hrep⟩ := hs.idle hph
  simp only [close, hph] at hc
  obtain ⟨w₁, hcw, hans⟩ := Option.map_eq_some_iff.1 hc
  obtain ⟨-, hw₁, hr₁⟩ := closeWaiting_frame hcw
  obtain ⟨rfl, rfl⟩ := close_answer hans
  have hnone₁ : w₁.workers = #[] := hw₁.trans hnone
  have hview : (w.closeWaiting w.waiting).map (·.view (fun _ => Worker.thread) .idle false) =
      (w.view (fun _ => Worker.thread) .idle false).closeWaiting w.waiting :=
    closeWaiting_view _ _
  rw [hcw] at hview
  -- the call closes the sinks held; with no workers, every view of the writer is the same
  have hclose : w.toScene.step .close =
      some (none, ⟨{ w₁ with waiting := [] }.view (fun _ => Worker.closedThread) .closed true,
        none⟩) := by
    rw [toScene_step_close]
    simp only [World.close, toWorld, view_phase, hph]
    rw [show (w.view (fun _ => Worker.thread) .idle false).waiting = w.waiting from rfl, ← hview]
    simp [view, hnone₁]
  have hjoin := step_join_of_view { w₁ with waiting := [] } .closed
  rw [join_view] at hjoin
  dsimp only at hjoin
  rw [Option.map_some] at hjoin
  obtain ⟨acts, hrun⟩ := Scene.run_of_reaches hclose .refl hjoin
  -- with no failure reported and no worker, `join` keeps nothing more
  have hw₃ : (List.range ({ w₁ with waiting := [] }.reports.foldl
      (fun (w : Writer) e => (w.fail e).2)
      { w₁ with waiting := [], reports := [] }).workers.size).foldl panicOne
      ({ w₁ with waiting := [] }.reports.foldl (fun (w : Writer) e => (w.fail e).2)
        { w₁ with waiting := [], reports := [] }) = { w₁ with waiting := [], reports := [] } := by
    simp [hr₁, hrep, hnone₁]
  rw [hw₃] at hrun
  refine ⟨acts, _, hrun, rfl, ?_, ?_⟩
  · simp [toWorld, view, hr₁, hrep, hnone₁]
  · simp [view, hnone₁]

/-- A running writer's close: each running worker lets go of its queue and closes its sink, in
order, and `join` keeps what they reported and their panics. -/
theorem close_as_steps_of_running {w w' : Writer} {r : Except Error Unit} (hs : w.Sound)
    (hph : w.phase = .running) (hc : w.close = some (r, w')) :
    ∃ acts sc, w.toScene.run (.close :: acts) =
        some (List.replicate acts.length none ++ [some (closeOutcome r)], sc) ∧
      sc.sending = none ∧ { sc.world with threads := #[] } = w'.toWorld ∧
      sc.world.threads.all (·.stage.over) = true := by
  simp only [close, hph, Option.some.injEq] at hc
  rw [stopWorkers_eq] at hc
  dsimp only at hc
  obtain ⟨hsz, hsize, -⟩ := foldl_stopOne_frame w w.workers.size
  have hstop := stopping_steps hs.workers w.workers.size (Nat.le_refl _)
  generalize (List.range w.workers.size).foldl stopOne w = w₁ at hc hstop hsz hsize
  generalize hw₃ : (List.range _).foldl panicOne _ = w₃ at hc
  obtain ⟨rfl, rfl⟩ := close_answer hc
  -- the call lets go of every queue
  have hclose : w.toScene.step .close =
      some (none, ⟨w.view (closingThreads 0) .closed true, none⟩) := by
    rw [toScene_step_close]
    simp only [World.close, toWorld, view_phase, hph, Option.map_some]
    -- no worker has ended yet
    congr 2
  -- once every worker ended, `join` answers
  have hended : w₁.view (closingThreads w.workers.size) .closed true =
      w₁.view (fun _ => Worker.closedThread) .closed true := by
    apply view_congr
    intro k x hx
    have hk : k < w₁.workers.size := (Array.getElem?_eq_some_iff.1 hx).1
    simp [closingThreads, show k < w.workers.size by omega]
  rw [hended] at hstop
  have hjoin := step_join_of_view w₁ .closed
  rw [join_view] at hjoin
  dsimp only at hjoin
  rw [hw₃, Option.map_some] at hjoin
  obtain ⟨acts, hrun⟩ := Scene.run_of_reaches hclose hstop hjoin
  refine ⟨acts, _, hrun, rfl, ?_, ?_⟩
  · simp [toWorld, view]
  · rw [Array.all_eq_true]
    intro i hi
    simp [view, closedThread_over]

/-- **A close is the scene's call followed by the workers' steps**: each running worker lets go
of its queue and closes its sink, and `join` answers what the writer's close answers. The scene
is then the writer the close leaves, but for the threads: the writer forgets its workers, whose
threads have all ended. -/
theorem close_as_steps {w w' : Writer} {r : Except Error Unit} (hs : w.Sound)
    (hc : w.close = some (r, w')) :
    ∃ acts sc, w.toScene.run (.close :: acts) =
        some (List.replicate acts.length none ++ [some (closeOutcome r)], sc) ∧
      sc.sending = none ∧ { sc.world with threads := #[] } = w'.toWorld ∧
      sc.world.threads.all (·.stage.over) = true := by
  cases hph : w.phase with
  | idle => exact close_as_steps_of_idle hs hph hc
  | running => exact close_as_steps_of_running hs hph hc
  | closed =>
    -- a closed writer answers at once
    obtain ⟨rfl, rfl⟩ : Except.error (Error.closed .close) = r ∧ w = w' := by
      simpa [close, hph] using hc
    have hnone := hs.closed hph
    refine ⟨[], w.toScene, ?_, rfl, ?_, ?_⟩
    · rw [Scene.run, toScene_step_close]
      simp [World.close, toWorld, hph, closeOutcome, toScene, Scene.run]
    · simp [toScene, toWorld, view, hnone]
    · simp [toScene, toWorld, view, hnone]

/-! ## Adding a sink -/

theorem addSink_toWorld (w : Writer) (p : SinkPlan) :
    (w.addSink p).toWorld = w.toWorld.addSink p := by
  cases hph : w.phase with
  | idle => simp [addSink, World.addSink, toWorld, view, hph]
  | closed => simp [addSink, World.addSink, toWorld, view, hph]
  | running =>
    simp only [addSink, World.addSink, toWorld, view_phase, hph]
    simp [view, spawn, World.spawn, Array.mapIdx_push]
    rfl

theorem addSink_sinks (w : Writer) (p : SinkPlan) :
    (w.addSink p).sinks = w.sinks.push (Sink.new p) := by
  unfold addSink
  dsimp only
  split <;> rfl

theorem addSink_phase (w : Writer) (p : SinkPlan) : (w.addSink p).phase = w.phase := by
  unfold addSink
  dsimp only
  split <;> rfl

theorem addSink_reports (w : Writer) (p : SinkPlan) : (w.addSink p).reports = w.reports := by
  unfold addSink
  dsimp only
  split <;> rfl

/-- **Adding a sink is the scene's step**: the sink is held while the writer is idle, given a
worker while it runs, and dropped once it is closed, alike in the writer and its threads. -/
theorem addSink_as_step (w : Writer) (p : SinkPlan) :
    w.toScene.step (.addSink p) = some (none, (w.addSink p).toScene) := by
  rw [toScene, toScene, addSink_toWorld]
  rfl

/-! ## Every writer a caller holds is sound -/

namespace Sound

/-- A running writer is sound when its workers name sinks it has and a worker that panicked
stopped. -/
theorem of_running {w : Writer} (hph : w.phase = .running)
    (hw : ∀ (j : Nat) (wk : Worker), w.workers[j]? = some wk →
      wk.sink < w.sinks.size ∧ (wk.panicked = true → wk.stopped = true)) : w.Sound where
  workers := hw
  waiting h := by
    rw [hph] at h
    cases h
  idle h := by
    rw [hph] at h
    cases h
  closed h := by
    rw [hph] at h
    cases h

/-- A closed writer with no workers is sound. -/
theorem of_closed {w : Writer} (hph : w.phase = .closed) (hnone : w.workers = #[]) :
    w.Sound where
  workers j wk hj := by simp [hnone] at hj
  waiting h := by
    rw [hph] at h
    cases h
  idle h := by
    rw [hph] at h
    cases h
  closed _ := hnone

theorem new (queueLen : Nat) : (Writer.new queueLen).Sound where
  workers := by simp [Writer.new]
  waiting := fun _ => by simp [Writer.new]
  idle := fun _ => ⟨rfl, rfl⟩
  closed := fun _ => rfl

theorem addSink {w : Writer} (hs : w.Sound) (p : SinkPlan) : (w.addSink p).Sound := by
  have hsz : (w.addSink p).sinks.size = w.sinks.size + 1 := by
    simp [Writer.addSink_sinks]
  have hlt : ∀ i, i < w.sinks.size → i < (w.addSink p).sinks.size :=
    fun _ h => hsz ▸ Nat.lt_succ_of_lt h
  have hph' : (w.addSink p).phase = w.phase := Writer.addSink_phase w p
  cases hph : w.phase with
  | idle =>
    have hw : (w.addSink p).workers = w.workers ∧
        (w.addSink p).waiting = w.waiting ++ [w.sinks.size] := by
      simp [Writer.addSink, hph]
    refine ⟨fun j wk hj => ?_, fun _ i hi => ?_, fun _ => ?_, fun h => ?_⟩
    · rw [hw.1] at hj
      obtain ⟨h₁, h₂⟩ := hs.workers j wk hj
      exact ⟨hlt _ h₁, h₂⟩
    · rw [hw.2, List.mem_append, List.mem_singleton] at hi
      rcases hi with hi | rfl
      · exact hlt _ (hs.waiting hph i hi)
      · rw [hsz]
        exact Nat.lt_succ_self _
    · rw [hw.1, Writer.addSink_reports]
      exact hs.idle hph
    · rw [hph', hph] at h
      cases h
  | running =>
    -- the sink just added gets a worker
    have hw : (w.addSink p).workers = w.workers.push ⟨w.sinks.size, false, false⟩ ∧
        (w.addSink p).waiting = w.waiting := by
      simp [Writer.addSink, hph, spawn]
    refine of_running (hph'.trans hph) fun j wk hj => ?_
    rw [hw.1, Array.getElem?_push] at hj
    split at hj
    · obtain rfl := Option.some.inj hj
      exact ⟨by rw [hsz]; exact Nat.lt_succ_self _, fun h => by cases h⟩
    · obtain ⟨h₁, h₂⟩ := hs.workers j wk hj
      exact ⟨hlt _ h₁, h₂⟩
  | closed =>
    -- a closed writer drops the sink
    have hw : (w.addSink p).workers = w.workers := by
      simp [Writer.addSink, hph]
    exact of_closed (hph'.trans hph) (hw.trans (hs.closed hph))

/-- A running writer changed only in what its worker `j` did stays sound, when that worker, if
it panicked, stopped. -/
theorem of_frame {w w' : Writer} {j : Nat} (hs : w.Sound) (hph : w.phase = .running)
    (hf : Frame j w w')
    (hown : ∀ wk', w'.workers[j]? = some wk' → wk'.panicked = true → wk'.stopped = true) :
    w'.Sound := by
  refine of_running (hf.phase.trans hph) fun k wk hk => ?_
  by_cases hkj : k = j
  · subst hkj
    obtain ⟨wk₀, h₀, hsink⟩ := hf.own wk hk
    exact ⟨by rw [hsink, hf.sinks]; exact (hs.workers k wk₀ h₀).1, hown wk hk⟩
  · rw [hf.other k hkj] at hk
    exact ⟨by rw [hf.sinks]; exact (hs.workers k wk hk).1, (hs.workers k wk hk).2⟩

/-- A running writer that keeps a failure, or receives reported ones, stays sound. -/
theorem of_failures {w w' : Writer} (hs : w.Sound) (hph : w.phase = .running)
    (hsinks : w'.sinks = w.sinks) (hworkers : w'.workers = w.workers)
    (hph' : w'.phase = w.phase) : w'.Sound := by
  refine of_running (hph'.trans hph) fun k wk hk => ?_
  rw [hworkers] at hk
  rw [hsinks]
  exact hs.workers k wk hk

theorem feed {w : Writer} (hs : w.Sound) (hph : w.phase = .running) (j : Nat) (d : List UInt8) :
    (w.feed j d).Sound :=
  hs.of_frame hph (feed_frame j d)
    (feed_own_ok d fun wk hj => (hs.workers j wk hj).2)

/-- The sends of a write leave a running writer sound. -/
theorem queueTo {w : Writer} (hs : w.Sound) (hph : w.phase = .running) (d : List UInt8) :
    ∀ js, (w.queueTo d js).2.Sound
  | [] => hs
  | j :: js => by
    simp only [Writer.queueTo]
    cases hj : w.workers[j]? with
    | none => exact queueTo hs hph d js
    | some wk =>
      dsimp only
      split
      · -- a worker that stopped: the write keeps a failure
        rcases hr : w.reports with _ | ⟨e, rest⟩
        · exact hs.of_failures hph (by simp) (by simp) (by simp)
        · exact hs.of_failures hph (by simp) (by simp) (by simp)
      · exact queueTo (hs.feed hph j d) ((feed_frame j d).phase.trans hph) d js

theorem write {w w' : Writer} {d : List UInt8} {r : Except Error Nat} (hs : w.Sound)
    (hw : w.write d = (r, w')) : w'.Sound := by
  -- a write to an idle writer is one to the writer it starts
  have hrun : ∀ {w : Writer}, w.Sound → w.phase = .running → w.write d = (r, w') → w'.Sound := by
    intro w hs hph hw
    simp only [Writer.write, hph, reduceCtorEq, if_false] at hw
    split at hw
    · obtain ⟨-, rfl⟩ := Prod.mk.inj hw
      exact hs
    · split at hw <;> rename_i h <;> obtain ⟨-, rfl⟩ := Prod.mk.inj hw <;>
        simpa [h] using hs.queueTo hph d (List.range w.workers.size)
  cases hph : w.phase with
  | idle => exact hrun (hs.start hph) rfl (by rwa [write_of_idle hph] at hw)
  | running => exact hrun hs hph hw
  | closed =>
    obtain ⟨-, rfl⟩ : Except.error (Error.closed .write) = r ∧ w = w' := by
      simpa [Writer.write, hph] using hw
    exact hs

theorem close {w w' : Writer} {r : Except Error Unit} (hs : w.Sound)
    (hc : w.close = some (r, w')) : w'.Sound := by
  -- the writer a close leaves is closed, with no workers
  cases hph : w.phase with
  | idle =>
    simp only [Writer.close, hph] at hc
    obtain ⟨w₁, hcw, hans⟩ := Option.map_eq_some_iff.1 hc
    obtain ⟨-, rfl⟩ := close_answer hans
    exact of_closed rfl ((closeWaiting_frame hcw).2.1.trans (hs.idle hph).1)
  | running =>
    simp only [Writer.close, hph, Option.some.injEq] at hc
    obtain ⟨-, rfl⟩ := close_answer hc
    exact of_closed rfl rfl
  | closed =>
    obtain ⟨-, rfl⟩ : Except.error (Error.closed .close) = r ∧ w = w' := by
      simpa [Writer.close, hph] using hc
    exact hs

end Sound

end Writer

end Plumbing.Fanout
