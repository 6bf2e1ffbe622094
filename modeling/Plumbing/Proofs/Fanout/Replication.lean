import Mathlib.Data.List.Basic
import Mathlib.Data.List.Induction
import Plumbing.Fanout.Interleaving

/-!
# Every sink receives every write

Main statement: `every_sink_receives_every_write`. Whatever order the workers' steps take among
the caller's calls, as long as no sink fails a write or a close:

* every write before the close answers the length of its data, and the close answers success;
  the close can always be called, and once it was, the workers can end so that it returns;
* every sink added before the close has written, at any moment, the first of the writes issued
  after it was added, each whole, in order and with one successful call, and it is closed at most
  once, only after all of them; once the close returned, it was closed.

The proof carries one invariant along every run (`Replicating`): for each sink, the items the
calls gave it (`givenTo`) are those it wrote followed by those its worker holds (`Fed`).
-/

namespace Plumbing.Fanout

/-! ## Sinks that do not fail -/

/-- A sink plan that takes every item whole and closes without failing. An interrupted call is
retried, so interrupts are allowed. -/
def SinkPlan.Reliable (p : SinkPlan) : Prop :=
  (p.failAt = none ∨ p.panics = false ∧ p.failure = none ∧ p.short = none) ∧
    p.closeFailure = none ∧ p.closePanics = false

instance : DecidablePred SinkPlan.Reliable := fun _ => inferInstanceAs (Decidable (_ ∧ _))

/-- The write calls a sink of plan `p` makes for its first `n` items: one successful call for
each, and an interrupted one before each item listed in `interrupts`. -/
def SinkPlan.callsFor (p : SinkPlan) (n : Nat) : Nat :=
  n + (List.range n).countP (· ∈ p.interrupts)

theorem SinkPlan.callsFor_succ (p : SinkPlan) (n : Nat) :
    p.callsFor (n + 1) = p.callsFor n + if n ∈ p.interrupts then 2 else 1 := by
  simp only [callsFor, List.range_succ, List.countP_append, List.countP_singleton]
  split <;> simp_all <;> omega

theorem Sink.deliver_of_reliable {s : Sink} (h : s.plan.Reliable) (item : List UInt8) :
    s.deliver item =
      (.done, { s with
        data := s.data ++ item, items := s.items + 1,
        writeCalls := s.writeCalls + if s.items ∈ s.plan.interrupts then 2 else 1 }) := by
  rcases h.1 with hf | ⟨hp, he, hs⟩
  · simp [Sink.deliver, hf]
  · simp [Sink.deliver, hp, he, hs]

theorem Sink.close_fst_of_reliable {s : Sink} (h : s.plan.Reliable) : s.close.1 = .done := by
  simp only [Sink.close]
  split
  · rfl
  · simp [h.2.1, h.2.2]

@[simp] theorem Sink.close_plan (s : Sink) : s.close.2.plan = s.plan := by
  unfold Sink.close
  split
  · rfl
  · dsimp only
    split
    · rfl
    · split <;> rfl

theorem Sink.close_of_reliable {s : Sink} (h : s.plan.Reliable) (hr : s.released = false) :
    s.close =
      (.done, { s with
        closes := s.closes + 1, released := true,
        flushes := if s.plan.wrapped then s.flushes + 1 else s.flushes }) := by
  simp [Sink.close, hr, h.2.1, h.2.2]

/-! ## What the calls give each sink -/

/-- The plans of the sinks added among `evs`, in order. -/
def addedPlans (evs : List Event) : List SinkPlan :=
  evs.filterMap fun
    | .addSink p => some p
    | _ => none

/-- The data of the writes among `evs` before the first close. -/
def writesBeforeClose : List Event → List (List UInt8)
  | [] => []
  | .close :: _ => []
  | .write d :: es => d :: writesBeforeClose es
  | _ :: es => writesBeforeClose es

/-- What the calls `evs` give the sink added `i`-th: the data of the writes after it was added
and before the first close; `none` when it was added after the close, or not at all. -/
def givenTo : Nat → List Event → Option (List (List UInt8))
  | _, [] => none
  | _, .close :: _ => none
  | 0, .addSink _ :: es => some (writesBeforeClose es)
  | i + 1, .addSink _ :: es => givenTo i es
  | i, _ :: es => givenTo i es

@[simp] theorem addedPlans_append (evs es : List Event) :
    addedPlans (evs ++ es) = addedPlans evs ++ addedPlans es := List.filterMap_append

@[simp] theorem addedPlans_nil : addedPlans [] = [] := rfl

@[simp] theorem addedPlans_cons_addSink (p : SinkPlan) (es : List Event) :
    addedPlans (.addSink p :: es) = p :: addedPlans es := rfl

theorem addedPlans_cons_of {e : Event} (h : ∀ p, e ≠ .addSink p) (es : List Event) :
    addedPlans (e :: es) = addedPlans es := by
  cases e <;> simp_all [addedPlans]

theorem addedPlans_snoc_of {e : Event} (h : ∀ p, e ≠ .addSink p) (evs : List Event) :
    addedPlans (evs ++ [e]) = addedPlans evs := by
  rw [addedPlans_append, addedPlans_cons_of h, addedPlans_nil, List.append_nil]

theorem givenTo_cons_of {e : Event} (h : ∀ p, e ≠ .addSink p) (hc : e ≠ .close) (i : Nat)
    (es : List Event) : givenTo i (e :: es) = givenTo i es := by
  cases e <;> cases i <;> simp_all [givenTo]

theorem writesBeforeClose_append (evs es : List Event) :
    writesBeforeClose (evs ++ es) =
      if .close ∈ evs then writesBeforeClose evs else writesBeforeClose evs ++ writesBeforeClose es := by
  induction evs with
  | nil => simp [writesBeforeClose]
  | cons e evs ih =>
    by_cases hc : Event.close ∈ evs <;> cases e <;> simp [writesBeforeClose, ih, hc]

theorem givenTo_append (i : Nat) (evs es : List Event) :
    givenTo i (evs ++ es) =
      if .close ∈ evs then givenTo i evs
      else if i < (addedPlans evs).length then (givenTo i evs).map (· ++ writesBeforeClose es)
      else givenTo (i - (addedPlans evs).length) es := by
  induction evs generalizing i with
  | nil => simp [addedPlans]
  | cons e evs ih =>
    cases e with
    | addSink p =>
      cases i with
      | zero => by_cases hc : Event.close ∈ evs <;> simp [givenTo, writesBeforeClose_append, hc]
      | succ i => simp [givenTo, ih]
    | close => simp [givenTo]
    | write d =>
      simp [givenTo_cons_of, addedPlans_cons_of, ih]
    | join => simp [givenTo_cons_of, addedPlans_cons_of, ih]
    | work j => simp [givenTo_cons_of, addedPlans_cons_of, ih]

theorem lt_length_of_givenTo {i : Nat} {evs : List Event} {ds : List (List UInt8)}
    (h : givenTo i evs = some ds) : i < (addedPlans evs).length := by
  induction evs generalizing i with
  | nil => simp [givenTo] at h
  | cons e evs ih =>
    cases e with
    | addSink p => cases i <;> simp_all [givenTo]
    | close => simp [givenTo] at h
    | write d => rw [givenTo_cons_of (by simp) (by simp)] at h; simpa [addedPlans_cons_of] using ih h
    | join => rw [givenTo_cons_of (by simp) (by simp)] at h; simpa [addedPlans_cons_of] using ih h
    | work j => rw [givenTo_cons_of (by simp) (by simp)] at h; simpa [addedPlans_cons_of] using ih h

theorem givenTo_of_lt {i : Nat} {evs : List Event} (hc : .close ∉ evs)
    (hi : i < (addedPlans evs).length) : ∃ ds, givenTo i evs = some ds := by
  induction evs generalizing i with
  | nil => simp at hi
  | cons e evs ih =>
    simp only [List.mem_cons, not_or] at hc
    cases e with
    | addSink p => cases i <;> simp_all [givenTo]
    | close => exact absurd rfl hc.1
    | write d => rw [givenTo_cons_of (by simp) (by simp)]; exact ih hc.2 (by simpa [addedPlans_cons_of] using hi)
    | join => rw [givenTo_cons_of (by simp) (by simp)]; exact ih hc.2 (by simpa [addedPlans_cons_of] using hi)
    | work j => rw [givenTo_cons_of (by simp) (by simp)]; exact ih hc.2 (by simpa [addedPlans_cons_of] using hi)

theorem givenTo_eq_none_of_le {i : Nat} {evs : List Event} (hi : (addedPlans evs).length ≤ i) :
    givenTo i evs = none := by
  cases h : givenTo i evs with
  | none => rfl
  | some _ => exact absurd (lt_length_of_givenTo h) (Nat.not_lt.2 hi)

theorem givenTo_snoc_of_lt {i : Nat} {evs : List Event} (hi : i < (addedPlans evs).length)
    (e : Event) :
    givenTo i (evs ++ [e]) =
      if .close ∈ evs then givenTo i evs else (givenTo i evs).map (· ++ writesBeforeClose [e]) := by
  rw [givenTo_append, if_pos hi]

/-- A call other than `addSink` gives each sink what it gave it before, and a write before the
close its data too. -/
theorem givenTo_snoc_of {e : Event} (he : ∀ p, e ≠ .addSink p) (i : Nat) (evs : List Event) :
    givenTo i (evs ++ [e]) =
      if .close ∈ evs then givenTo i evs else (givenTo i evs).map (· ++ writesBeforeClose [e]) := by
  by_cases hi : i < (addedPlans evs).length
  · exact givenTo_snoc_of_lt hi e
  · have hsingle : givenTo (i - (addedPlans evs).length) [e] = none := by
      cases e <;> cases i - (addedPlans evs).length <;> simp_all [givenTo]
    rw [givenTo_append, if_neg hi, hsingle, givenTo_eq_none_of_le (Nat.not_lt.1 hi)]
    split <;> rfl

theorem givenTo_snoc_quiet {e : Event} (he : ∀ p, e ≠ .addSink p) (hw : ∀ d, e ≠ .write d)
    (i : Nat) (evs : List Event) : givenTo i (evs ++ [e]) = givenTo i evs := by
  have hnil : writesBeforeClose [e] = [] := by cases e <;> simp_all [writesBeforeClose]
  rw [givenTo_snoc_of he, hnil]
  split
  · rfl
  · cases givenTo i evs <;> simp

theorem givenTo_snoc_addSink {evs : List Event} (hc : .close ∉ evs) (p : SinkPlan) :
    givenTo (addedPlans evs).length (evs ++ [.addSink p]) = some [] := by
  rw [givenTo_append, if_neg hc, if_neg (Nat.lt_irrefl _), Nat.sub_self]
  rfl

theorem givenTo_snoc_addSink_of_ne {i : Nat} {evs : List Event} (p : SinkPlan)
    (hi : i ≠ (addedPlans evs).length) :
    givenTo i (evs ++ [.addSink p]) = givenTo i evs := by
  rcases Nat.lt_or_gt_of_ne hi with hlt | hgt
  · rw [givenTo_snoc_of_lt hlt]
    split
    · rfl
    · cases givenTo i evs <;> simp [writesBeforeClose]
  · rw [givenTo_eq_none_of_le (by simp; omega), givenTo_eq_none_of_le (by omega)]

/-- The steps a worker has left once the writer let go of its queue: one for each item it holds,
one to leave the queue, and one to close its sink. -/
def Thread.stepsLeft (t : Thread) : Nat :=
  match t.stage with
  | .draining => t.queue.length + 2
  | .closing => 1
  | _ => 0

namespace World

theorem run_append (w : World) (es fs : List Event) :
    w.run (es ++ fs) = (w.run es).bind fun p =>
      (p.2.run fs).map fun q => (p.1 ++ q.1, q.2) := by
  induction es generalizing w with
  | nil =>
    simp only [List.nil_append, run, Option.bind_some, List.nil_append]
    cases w.run fs <;> rfl
  | cons e es ih =>
    simp only [List.cons_append, run]
    cases w.step e with
    | none => rfl
    | some p =>
      simp only [ih]
      cases p.2.run es with
      | none => rfl
      | some q =>
        simp only [Option.bind_some, Option.map]
        cases q.2.run fs <;> rfl

theorem run_snoc (w : World) (evs : List Event) (e : Event) :
    w.run (evs ++ [e]) = (w.run evs).bind fun p =>
      (p.2.step e).map fun q => (p.1 ++ [q.1], q.2) := by
  rw [run_append]
  congr 1
  funext p
  simp only [run]
  cases p.2.step e with
  | none => rfl
  | some q => rfl

/-! ## Where each sink's worker stands -/

/-- The stage of sink `i`'s worker. A sink without a worker stands as its writer does: taking
items until the writer is closed, ended after. -/
def stageOf (w : World) (i : Nat) : Stage :=
  match w.threads[i]? with
  | some t => t.stage
  | none => if w.phase = .closed then .ended else .draining

/-- The items queued to sink `i`'s worker and not yet written. -/
def queueOf (w : World) (i : Nat) : List (List UInt8) :=
  match w.threads[i]? with
  | some t => t.queue
  | none => []

variable {w w' : World} {i : Nat}

theorem stageOf_of_thread {t : Thread} (h : w.threads[i]? = some t) : w.stageOf i = t.stage := by
  simp [stageOf, h]

theorem queueOf_of_thread {t : Thread} (h : w.threads[i]? = some t) : w.queueOf i = t.queue := by
  simp [queueOf, h]

theorem stageOf_congr (ht : w'.threads[i]? = w.threads[i]?) (hp : w'.phase = w.phase) :
    w'.stageOf i = w.stageOf i := by
  simp [stageOf, ht, hp]

theorem queueOf_congr (ht : w'.threads[i]? = w.threads[i]?) : w'.queueOf i = w.queueOf i := by
  simp [queueOf, ht]

/-- Sink `s` of index `i`, given the items `ds`: it wrote the first `n` of them, whole and in
order with one successful call each, and its worker holds the others. The worker leaves its
queue only once the writer is closed and the queue is empty, and the sink is closed once, when
its worker ends. -/
structure Fed (w : World) (i : Nat) (ds : List (List UInt8)) (s : Sink) (n : Nat) : Prop where
  le : n ≤ ds.length
  data : s.data = (ds.take n).flatten
  items : s.items = n
  calls : s.writeCalls = s.plan.callsFor n
  queue : w.queueOf i = ds.drop n
  stage : w.stageOf i = .draining ∨
    (w.stageOf i = .closing ∨ w.stageOf i = .ended) ∧ w.phase = .closed ∧ w.queueOf i = []
  closes : if w.stageOf i = .ended then s.closes = 1 else s.closes = 0 ∧ s.released = false

/-- What a sink was given stays so while its worker's queue and stage stay. -/
theorem Fed.frame {ds : List (List UInt8)} {s : Sink} {n : Nat} (hf : Fed w i ds s n)
    (hq : w'.queueOf i = w.queueOf i) (hs : w'.stageOf i = w.stageOf i)
    (hp : w.phase = .closed → w'.phase = .closed) : Fed w' i ds s n where
  le := hf.le
  data := hf.data
  items := hf.items
  calls := hf.calls
  queue := hq ▸ hf.queue
  stage := by
    rw [hs, hq]
    rcases hf.stage with h | ⟨h, hc, hnil⟩
    · exact .inl h
    · exact .inr ⟨h, hp hc, hnil⟩
  closes := hs ▸ hf.closes

theorem Fed.length_eq {ds : List (List UInt8)} {s : Sink} {n : Nat} (hf : Fed w i ds s n)
    (hq : w.queueOf i = []) : n = ds.length := by
  have := hf.queue
  rw [hq, eq_comm, List.drop_eq_nil_iff] at this
  exact Nat.le_antisymm hf.le this

/-- Before its worker ended, a sink was not closed. -/
theorem Fed.not_closed {ds : List (List UInt8)} {s : Sink} {n : Nat} (hf : Fed w i ds s n)
    (hs : w.stageOf i ≠ .ended) : s.closes = 0 ∧ s.released = false := by
  have := hf.closes
  rwa [if_neg hs] at this

/-- A sink added before the close, given nothing yet. -/
theorem Fed.new (p : SinkPlan) (hq : w.queueOf i = []) (hs : w.stageOf i = .draining) :
    Fed w i [] (Sink.new p) 0 where
  le := Nat.le_refl 0
  data := rfl
  items := rfl
  calls := rfl
  queue := hq
  stage := .inl hs
  closes := by simp [hs, Sink.new]

/-- An item queued to a sink's worker while it takes items is given to the sink. -/
theorem Fed.give {ds : List (List UInt8)} {s : Sink} {n : Nat} (hf : Fed w i ds s n)
    (d : List UInt8) (hs₀ : w.stageOf i = .draining) (hq : w'.queueOf i = w.queueOf i ++ [d])
    (hs : w'.stageOf i = .draining) : Fed w' i (ds ++ [d]) s n where
  le := by simp only [List.length_append, List.length_singleton]; have := hf.le; omega
  data := by rw [List.take_append_of_le_length hf.le]; exact hf.data
  items := hf.items
  calls := hf.calls
  queue := by rw [hq, hf.queue, List.drop_append_of_le_length hf.le]
  stage := .inl hs
  closes := by simpa [hs] using hf.not_closed (by simp [hs₀])

/-- A worker that writes the next item it holds moves it from its queue to its sink. -/
theorem Fed.deliver {ds : List (List UInt8)} {s : Sink} {n : Nat} {item : List UInt8}
    {rest : List (List UInt8)} (hf : Fed w i ds s n) (hq : w.queueOf i = item :: rest)
    (hs₀ : w.stageOf i = .draining) (hq' : w'.queueOf i = rest)
    (hs' : w'.stageOf i = .draining) :
    Fed w' i ds
      { s with
        data := s.data ++ item, items := s.items + 1,
        writeCalls := s.writeCalls + if s.items ∈ s.plan.interrupts then 2 else 1 } (n + 1) := by
  have hd : ds.drop n = item :: rest := by rw [← hf.queue, hq]
  -- the item is the next of those the sink was given
  have hlt : n < ds.length := by
    have := congrArg List.length hd
    simp only [List.length_drop, List.length_cons] at this
    omega
  have hitem : ds[n]? = some item := by
    have := congrArg (·[0]?) hd
    simpa [List.getElem?_drop] using this
  have hcl := hf.not_closed (by simp [hs₀])
  exact {
    le := hlt
    data := by simp [List.take_add_one, hitem, hf.data]
    items := by simp [hf.items]
    calls := by simp [SinkPlan.callsFor_succ, hf.calls, hf.items]
    queue := by rw [hq', ← List.tail_drop, hd]; rfl
    stage := .inl hs'
    closes := by simp [hs', hcl] }

/-- After the close, a worker whose queue is empty leaves it, and closes its sink next. -/
theorem Fed.leave {ds : List (List UInt8)} {s : Sink} {n : Nat} (hf : Fed w i ds s n)
    (hq : w.queueOf i = []) (hs₀ : w.stageOf i = .draining) (hq' : w'.queueOf i = [])
    (hs' : w'.stageOf i = .closing) (hp : w'.phase = .closed) : Fed w' i ds s n where
  le := hf.le
  data := hf.data
  items := hf.items
  calls := hf.calls
  queue := by rw [hq', ← hq, hf.queue]
  stage := .inr ⟨.inl hs', hp, hq'⟩
  closes := by simpa [hs'] using hf.not_closed (by simp [hs₀])

/-- A worker that left its queue closes its sink, once. -/
theorem Fed.close {ds : List (List UInt8)} {s : Sink} {n : Nat} (hf : Fed w i ds s n)
    (hs₀ : w.stageOf i = .closing) (hq' : w'.queueOf i = []) (hs' : w'.stageOf i = .ended)
    (hp : w'.phase = .closed) :
    Fed w' i ds
      { s with
        closes := s.closes + 1, released := true,
        flushes := if s.plan.wrapped then s.flushes + 1 else s.flushes } n := by
  have hcl := (hf.not_closed (by simp [hs₀])).1
  have hq : w.queueOf i = [] := by
    rcases hf.stage with h | ⟨_, _, hnil⟩
    · rw [hs₀] at h; cases h
    · exact hnil
  exact {
    le := hf.le
    data := hf.data
    items := hf.items
    calls := hf.calls
    queue := by rw [hq', ← hq, hf.queue]
    stage := .inr ⟨.inr hs', hp, hq'⟩
    closes := by simp [hs', hcl] }

/-! ## The writer's own steps -/

@[simp] theorem addSink_sinks (w : World) (p : SinkPlan) :
    (w.addSink p).sinks = w.sinks.push (Sink.new p) := by
  cases h : w.phase <;> simp [addSink, spawn, h]

@[simp] theorem addSink_failure (w : World) (p : SinkPlan) : (w.addSink p).failure = w.failure := by
  cases h : w.phase <;> simp [addSink, spawn, h]

@[simp] theorem addSink_reports (w : World) (p : SinkPlan) : (w.addSink p).reports = w.reports := by
  cases h : w.phase <;> simp [addSink, spawn, h]

@[simp] theorem addSink_phase (w : World) (p : SinkPlan) : (w.addSink p).phase = w.phase := by
  cases h : w.phase <;> simp [addSink, spawn, h]

@[simp] theorem addSink_joining (w : World) (p : SinkPlan) : (w.addSink p).joining = w.joining := by
  cases h : w.phase <;> simp [addSink, spawn, h]

theorem addSink_threads (w : World) (p : SinkPlan) :
    (w.addSink p).threads =
      if w.phase = .running then w.threads.push ⟨w.sinks.size, [], .draining⟩ else w.threads := by
  cases h : w.phase <;> simp [addSink, spawn, h]

theorem addSink_waiting (w : World) (p : SinkPlan) :
    (w.addSink p).waiting = if w.phase = .idle then w.waiting ++ [w.sinks.size] else w.waiting := by
  cases h : w.phase <;> simp [addSink, spawn, h]

theorem foldl_spawn (l : List Nat) (w : World) :
    l.foldl spawn w = { w with threads := w.threads ++ (l.map fun i => ⟨i, [], .draining⟩).toArray } := by
  induction l generalizing w with
  | nil => simp
  | cons i l ih =>
    rw [List.foldl_cons, ih]
    simp [spawn]

/-- Queueing to workers that all hold their queues goes through to each of them. -/
theorem queueTo_of_holds (item : List UInt8) {js : List Nat} (hnd : js.Nodup)
    (hh : ∀ j ∈ js, ∀ t, w.threads[j]? = some t → t.stage.holds = true) :
    ∃ ts, w.queueTo item js = (.ok (), { w with threads := ts }) ∧
      ∀ k, ts[k]? = if k ∈ js then (w.threads[k]?).map fun t => { t with queue := t.queue ++ [item] }
        else w.threads[k]? := by
  induction js generalizing w with
  | nil => exact ⟨w.threads, rfl, by simp⟩
  | cons j js ih =>
    simp only [List.nodup_cons] at hnd
    rcases ht : w.threads[j]? with _ | t
    · obtain ⟨ts, hq, hts⟩ := ih hnd.2 fun k hk => hh k (List.mem_cons_of_mem j hk)
      refine ⟨ts, by simp [queueTo, ht, hq], fun k => ?_⟩
      rw [hts k]
      by_cases hk : k = j
      · subst hk; simp [hnd.1, ht]
      · simp [hk]
    · have hhold : t.stage.holds = true := hh j List.mem_cons_self t ht
      let w₁ := w.modifyThread j fun t => { t with queue := t.queue ++ [item] }
      have hframe : ∀ k, k ≠ j → w₁.threads[k]? = w.threads[k]? := fun k hk => by
        simp [w₁, modifyThread, Array.getElem?_modify, Ne.symm hk]
      obtain ⟨ts, hq, hts⟩ := ih (w := w₁) hnd.2 fun k hk t' ht' => by
        have hkj : k ≠ j := fun h => hnd.1 (h ▸ hk)
        exact hh k (List.mem_cons_of_mem j hk) t' (by rw [← hframe k hkj]; exact ht')
      refine ⟨ts, ?_, fun k => ?_⟩
      · simp only [queueTo, ht, hhold, ↓reduceIte]
        exact hq
      rw [hts k]
      by_cases hk : k = j
      · subst hk; simp [hnd.1, ht, w₁, modifyThread, Array.getElem?_modify]
      · simp [hk, hframe k hk]

/-- Queueing to every worker, when each holds its queue, adds the item to each queue. -/
theorem queueTo_range (item : List UInt8)
    (hh : ∀ (j : Nat) (t : Thread), w.threads[j]? = some t → t.stage.holds = true) :
    w.queueTo item (List.range w.threads.size) =
      (.ok (), { w with threads := w.threads.map fun t => { t with queue := t.queue ++ [item] } }) := by
  obtain ⟨ts, hq, hts⟩ := queueTo_of_holds item List.nodup_range fun j _ t ht => hh j t ht
  rw [hq]
  congr
  apply Array.ext_getElem?
  intro k
  rw [hts k, Array.getElem?_map]
  split
  · rfl
  · rename_i hk
    rw [Array.getElem?_eq_none (by simpa using hk)]
    rfl

theorem start_eq (w : World) :
    w.start = { w with
      threads := w.threads ++ (w.waiting.map fun i => ⟨i, [], .draining⟩).toArray,
      waiting := [], phase := .running } := by
  simp [start, foldl_spawn]

theorem threads_modify_self {j : Nat} {t : Thread} (ht : w.threads[j]? = some t)
    (g : Sink → Sink) (f : Thread → Thread) :
    ((w.modifySink j g).modifyThread j f).threads[j]? = some (f t) := by
  simp [modifyThread, modifySink, Array.getElem?_modify, ht]

theorem modifySink_self {j : Nat} {s : Sink} (hs : w.sinks[j]? = some s) :
    w.modifySink j (fun _ => s) = w := by
  suffices w.sinks.modify j (fun _ => s) = w.sinks by simp [modifySink, this]
  apply Array.ext_getElem?
  intro k
  rw [Array.getElem?_modify]
  split <;> simp_all

/-- `close` returns only after the close, once every worker ended. -/
theorem join_cond {r : Outcome × World} (h : w.join = some r) :
    w.joining = true ∧ w.threads.all (·.stage.over) = true := by
  unfold join at h
  split at h
  · rename_i hc
    simpa using hc
  · cases h

theorem work_threads {j : Nat} (hw : w.work j = some w') :
    w'.threads.size = w.threads.size ∧ ∀ k, k ≠ j → w'.threads[k]? = w.threads[k]? := by
  simp only [World.work] at hw
  -- every branch that takes a step changes thread `j` and at most one sink
  repeat' split at hw
  all_goals cases hw
  all_goals exact ⟨by simp [modifyThread, modifySink],
    fun k hk => by simp [modifyThread, modifySink, Array.getElem?_modify, Ne.symm hk]⟩

/-- Closing sinks that do not fail on the caller's side closes each of them once. -/
theorem closeWaiting_of_reliable {l : List Nat} (hnd : l.Nodup)
    (hr : ∀ i ∈ l, ∀ s, w.sinks[i]? = some s → s.plan.Reliable) :
    ∃ ss, w.closeWaiting l = some { w with sinks := ss } ∧
      ∀ k, ss[k]? = if k ∈ l then (w.sinks[k]?).map fun s => s.close.2 else w.sinks[k]? := by
  induction l generalizing w with
  | nil => exact ⟨w.sinks, rfl, by simp⟩
  | cons i l ih =>
    simp only [List.nodup_cons] at hnd
    rcases hs : w.sinks[i]? with _ | s
    · obtain ⟨ss, hc, hss⟩ := ih hnd.2 fun k hk => hr k (List.mem_cons_of_mem i hk)
      refine ⟨ss, by simp [closeWaiting, hs, hc], fun k => ?_⟩
      rw [hss k]
      by_cases hk : k = i
      · subst hk; simp [hnd.1, hs]
      · simp [hk]
    · have hdone : s.close.1 = .done := Sink.close_fst_of_reliable (hr i List.mem_cons_self s hs)
      let w₁ := w.modifySink i fun _ => s.close.2
      have hframe : ∀ k, k ≠ i → w₁.sinks[k]? = w.sinks[k]? := fun k hk => by
        simp [w₁, modifySink, Array.getElem?_modify, Ne.symm hk]
      obtain ⟨ss, hc, hss⟩ := ih (w := w₁) hnd.2 fun k hk s' hs' => by
        have hki : k ≠ i := fun h => hnd.1 (h ▸ hk)
        exact hr k (List.mem_cons_of_mem i hk) s' (by rw [← hframe k hki]; exact hs')
      refine ⟨ss, ?_, fun k => ?_⟩
      · simp only [closeWaiting, hs]
        rw [show s.close = (.done, s.close.2) from Prod.ext hdone rfl]
        simpa [w₁, modifySink] using hc
      · rw [hss k]
        by_cases hk : k = i
        · subst hk; simp [hnd.1, hs, w₁, modifySink, Array.getElem?_modify]
        · simp [hk, hframe k hk]

/-! ## The invariant -/

/-- What holds of a writer after the calls and steps `evs` when no sink fails: nothing was
reported or kept, the phase follows the calls, thread `j` writes sink `j`, and each sink the
calls gave items to was `Fed` them. -/
structure Replicating (evs : List Event) (w : World) : Prop where
  plans : ∀ i : Nat, (w.sinks[i]?).map Sink.plan = (addedPlans evs)[i]?
  failure : w.failure = none
  reports : w.reports = []
  closed_iff : w.phase = .closed ↔ .close ∈ evs
  joining_iff : w.joining = true ↔ .close ∈ evs ∧ .join ∉ evs
  idle : w.phase = .idle → w.threads.size = 0 ∧ w.waiting = List.range w.sinks.size
  running : w.phase = .running → w.threads.size = w.sinks.size
  waiting : w.phase ≠ .idle → w.waiting = []
  joined : .join ∈ evs → w.phase = .closed ∧
    ∀ (j : Nat) (t : Thread), w.threads[j]? = some t → t.stage = .ended
  threads : ∀ (j : Nat) (t : Thread), w.threads[j]? = some t → t.sink = j ∧ (givenTo j evs).isSome
  fed : ∀ (i : Nat) (ds : List (List UInt8)), givenTo i evs = some ds →
    ∃ s n, w.sinks[i]? = some s ∧ Fed w i ds s n

namespace Replicating

variable {evs : List Event}

theorem new : Replicating [] World.new where
  plans i := by simp [World.new]
  failure := rfl
  reports := rfl
  closed_iff := by simp [World.new]
  joining_iff := by simp [World.new]
  idle _ := by simp [World.new]
  running h := by simp [World.new] at h
  waiting _ := rfl
  joined h := by simp at h
  threads j t h := by simp [World.new] at h
  fed i ds h := by simp [givenTo] at h

theorem size (h : Replicating evs w) : w.sinks.size = (addedPlans evs).length := by
  have h₁ := h.plans w.sinks.size
  have h₂ := h.plans (addedPlans evs).length
  rw [Array.getElem?_eq_none (Nat.le_refl _), Option.map_none, eq_comm,
    List.getElem?_eq_none_iff] at h₁
  rw [List.getElem?_eq_none (Nat.le_refl _), Option.map_eq_none_iff,
    Array.getElem?_eq_none_iff] at h₂
  omega

theorem reliable (h : Replicating evs w) (hrel : ∀ p ∈ addedPlans evs, p.Reliable) {s : Sink}
    (hs : w.sinks[i]? = some s) : s.plan.Reliable := by
  have := h.plans i
  rw [hs, Option.map_some] at this
  exact hrel _ (List.mem_of_getElem? this.symm)

theorem fed_of_thread (h : Replicating evs w) {j : Nat} {t : Thread} (ht : w.threads[j]? = some t) :
    t.sink = j ∧ ∃ ds s n, givenTo j evs = some ds ∧ w.sinks[j]? = some s ∧ Fed w j ds s n := by
  obtain ⟨hsink, hsome⟩ := h.threads j t ht
  obtain ⟨ds, hds⟩ := Option.isSome_iff_exists.1 hsome
  obtain ⟨s, n, hs, hf⟩ := h.fed j ds hds
  exact ⟨hsink, ds, s, n, hds, hs, hf⟩

/-- A worker takes items; or, after the close and with its queue empty, it closes its sink or
has ended. -/
theorem stage_of_thread (h : Replicating evs w) {j : Nat} {t : Thread}
    (ht : w.threads[j]? = some t) :
    t.stage = .draining ∨
      (t.stage = .closing ∨ t.stage = .ended) ∧ w.phase = .closed ∧ t.queue = [] := by
  obtain ⟨_, ds, s, n, _, _, hf⟩ := h.fed_of_thread ht
  have := hf.stage
  rwa [stageOf_of_thread ht, queueOf_of_thread ht] at this

theorem addSink (h : Replicating evs w) (p : SinkPlan) :
    Replicating (evs ++ [.addSink p]) (w.addSink p) where
  plans i := by
    rw [addSink_sinks, Array.getElem?_push, addedPlans_append, List.getElem?_append, ← h.size]
    by_cases hi : i = w.sinks.size
    · simp [hi, Sink.new]
    · rw [if_neg hi]
      by_cases hlt : i < w.sinks.size
      · rw [if_pos hlt, h.plans]
      · rw [if_neg hlt, Array.getElem?_eq_none (by omega)]
        simp
        omega
  failure := by simpa using h.failure
  reports := by simpa using h.reports
  closed_iff := by simpa using h.closed_iff
  joining_iff := by simpa using h.joining_iff
  idle hi := by
    simp only [addSink_phase] at hi
    obtain ⟨h0, hw⟩ := h.idle hi
    simp [addSink_threads, addSink_waiting, hi, h0, hw, List.range_succ]
  running hr := by
    simp only [addSink_phase] at hr
    simp [addSink_threads, hr, h.running hr]
  waiting hn := by
    simp only [addSink_phase] at hn
    simp [addSink_waiting, hn, h.waiting hn]
  joined hj := by
    obtain ⟨hc, hended⟩ := h.joined (by simpa using hj)
    refine ⟨by simpa using hc, fun j t ht => hended j t ?_⟩
    simpa [addSink_threads, hc] using ht
  threads j t ht := by
    -- the worker of a sink added while running writes it; the others are as they were
    have hold : ∀ t, w.threads[j]? = some t →
        t.sink = j ∧ (givenTo j (evs ++ [.addSink p])).isSome := fun t ht => by
      obtain ⟨hsink, hsome⟩ := h.threads j t ht
      obtain ⟨ds, hds⟩ := Option.isSome_iff_exists.1 hsome
      rw [givenTo_snoc_addSink_of_ne p (Nat.ne_of_lt (lt_length_of_givenTo hds))]
      exact ⟨hsink, hsome⟩
    rw [addSink_threads] at ht
    split at ht
    · rename_i hr
      rw [Array.getElem?_push] at ht
      split at ht
      · rename_i hj
        have hc : .close ∉ evs := fun hc => by simp [h.closed_iff.2 hc] at hr
        cases ht
        rw [hj, h.running hr, h.size, givenTo_snoc_addSink hc]
        simp
      · exact hold t ht
    · exact hold t ht
  fed i ds hds := by
    by_cases hi : i = (addedPlans evs).length
    · -- the sink added now
      subst hi
      have hc : .close ∉ evs := fun hc => by
        rw [givenTo_append, if_pos hc, givenTo_eq_none_of_le (Nat.le_refl _)] at hds
        cases hds
      rw [givenTo_snoc_addSink hc] at hds
      cases hds
      have hnc : w.phase ≠ .closed := fun hp => hc (h.closed_iff.1 hp)
      have hnew : (w.addSink p).threads[(addedPlans evs).length]? =
          if w.phase = .running then some ⟨(addedPlans evs).length, [], .draining⟩ else none := by
        rw [addSink_threads, ← h.size]
        split
        · rename_i hr
          rw [Array.getElem?_push, if_pos (h.running hr).symm]
        · rename_i hr
          have hidle : w.phase = .idle := by cases hph : w.phase <;> simp_all
          exact Array.getElem?_eq_none (by simp [(h.idle hidle).1])
      refine ⟨Sink.new p, 0, by simp [← h.size], Fed.new p ?_ ?_⟩
      · by_cases hr : w.phase = .running <;> simp [queueOf, hnew, hr]
      · by_cases hr : w.phase = .running <;> simp [stageOf, hnew, hr, hnc]
    · rw [givenTo_snoc_addSink_of_ne p hi] at hds
      obtain ⟨s, n, hs, hf⟩ := h.fed i ds hds
      have hlt : i < w.sinks.size := h.size ▸ lt_length_of_givenTo hds
      have hthr : (w.addSink p).threads[i]? = w.threads[i]? := by
        rw [addSink_threads]
        split
        · rename_i hr
          rw [Array.getElem?_push, if_neg (by rw [h.running hr]; omega)]
        · rfl
      refine ⟨s, n, by simp [Array.getElem?_push, Nat.ne_of_lt hlt, hs], ?_⟩
      exact hf.frame (queueOf_congr hthr) (stageOf_congr hthr (by simp)) (by simp)

theorem draining (h : Replicating evs w) (hp : w.phase ≠ .closed) {j : Nat} {t : Thread}
    (ht : w.threads[j]? = some t) : t.stage = .draining := by
  rcases h.stage_of_thread ht with hd | ⟨_, hc, _⟩
  · exact hd
  · exact absurd hc hp

theorem not_joining (h : Replicating evs w) (hc : .close ∉ evs) : w.joining = false := by
  cases hj : w.joining
  · rfl
  · exact absurd (h.joining_iff.1 hj).1 hc

/-- The first write starts a worker for each sink held: each takes what its sink is given. -/
theorem start (h : Replicating evs w) (hi : w.phase = .idle) : Replicating evs w.start := by
  obtain ⟨h0, hwait⟩ := h.idle hi
  have hthr : ∀ j, w.start.threads[j]? =
      if j < w.sinks.size then some ⟨j, [], .draining⟩ else none := fun j => by
    rw [start_eq, Array.getElem?_append, h0, hwait]
    simp only [Nat.not_lt_zero, ↓reduceIte, Nat.sub_zero, List.getElem?_toArray, List.getElem?_map]
    split
    · rename_i hj
      rw [List.getElem?_range hj]
      rfl
    · rename_i hj
      rw [List.getElem?_eq_none (by simpa using hj)]
      rfl
  have hnc : w.phase ≠ .closed := by simp [hi]
  have hc : .close ∉ evs := fun hc => hnc (h.closed_iff.2 hc)
  exact {
    plans := by simpa [start_eq] using h.plans
    failure := by simpa [start_eq] using h.failure
    reports := by simpa [start_eq] using h.reports
    closed_iff := by simpa [start_eq] using hc
    joining_iff := by simpa [start_eq] using h.joining_iff
    idle := by simp [start_eq]
    running := fun _ => by simp [start_eq, h0, hwait]
    waiting := by simp [start_eq]
    joined := fun hj => absurd (h.joined hj).1 hnc
    threads := fun j t ht => by
      rw [hthr] at ht
      split at ht
      · rename_i hj
        cases ht
        obtain ⟨ds, hds⟩ := givenTo_of_lt hc (h.size ▸ hj)
        simp [hds]
      · cases ht
    fed := fun i ds hds => by
      obtain ⟨s, n, hs, hf⟩ := h.fed i ds hds
      have hlt : i < w.sinks.size := h.size ▸ lt_length_of_givenTo hds
      have hnone : w.threads[i]? = none := Array.getElem?_eq_none (by omega)
      refine ⟨s, n, by simpa [start_eq] using hs, hf.frame ?_ ?_ (fun hp => absurd hp hnc)⟩
      · simp [queueOf, hthr, hlt, hnone]
      · simp [stageOf, hthr, hlt, hnone, hnc] }

/-- Before the close, a running writer gives the written data to every sink it has. -/
theorem give (h : Replicating evs w) (hr : w.phase = .running) (d : List UInt8) :
    Replicating (evs ++ [.write d])
      { w with threads := w.threads.map fun t => { t with queue := t.queue ++ [d] } } := by
  have hnc : w.phase ≠ .closed := by simp [hr]
  have hc : .close ∉ evs := fun hc => hnc (h.closed_iff.2 hc)
  have hg : ∀ i, givenTo i (evs ++ [.write d]) = (givenTo i evs).map (· ++ [d]) := fun i => by
    rw [givenTo_snoc_of (by simp), if_neg hc]
    rfl
  refine ⟨?_, h.failure, h.reports, ?_, ?_, ?_, ?_, ?_, ?_, ?_, ?_⟩
  · rw [addedPlans_snoc_of (by simp)]; exact h.plans
  · simpa [hr] using hc
  · simpa [hc] using h.joining_iff
  · intro hi; simp [hr] at hi
  · intro _; simpa using h.running hr
  · intro hn; exact h.waiting hn
  · intro hj
    simp only [List.mem_append, List.mem_singleton, reduceCtorEq, or_false] at hj
    exact absurd (h.joined hj).1 hnc
  · intro j t ht
    rw [Array.getElem?_map] at ht
    obtain ⟨t₀, ht₀, rfl⟩ := Option.map_eq_some_iff.1 ht
    obtain ⟨hsink, hsome⟩ := h.threads j t₀ ht₀
    simpa [hg, hsink] using hsome
  · intro i ds hds
    rw [hg] at hds
    obtain ⟨ds₀, hds₀, rfl⟩ := Option.map_eq_some_iff.1 hds
    obtain ⟨s, n, hs, hf⟩ := h.fed i ds₀ hds₀
    have hlt : i < w.threads.size := by
      rw [h.running hr, h.size]; exact lt_length_of_givenTo hds₀
    obtain ⟨t, ht⟩ : ∃ t, w.threads[i]? = some t := ⟨_, Array.getElem?_eq_getElem hlt⟩
    have hdr : t.stage = .draining := h.draining hnc ht
    refine ⟨s, n, hs, hf.give d (by rw [stageOf_of_thread ht, hdr]) ?_ ?_⟩
    · simp [queueOf, ht]
    · simp [stageOf, ht, hdr]

/-- Before the close, a write answers the length of its data. -/
theorem write_open (h : Replicating evs w) (hc : .close ∉ evs) (d : List UInt8) :
    ∃ w', w.step (.write d) = some (some (.count d.length), w') ∧
      Replicating (evs ++ [.write d]) w' := by
  have hj := h.not_joining hc
  -- once the writer started, every worker holds its queue and the item goes through to each
  have hgo : ∀ w₁ : World, Replicating evs w₁ → w₁.phase = .running →
      w₁.queueTo d (List.range w₁.threads.size) =
        (.ok (), { w₁ with threads := w₁.threads.map fun t => { t with queue := t.queue ++ [d] } }) :=
    fun w₁ h₁ hr => queueTo_range d fun j t ht => by
      simp [h₁.draining (by simp [hr]) ht, Stage.holds]
  rcases hph : w.phase with _ | _ | _
  · have hr : w.start.phase = .running := by simp [start_eq]
    have hfail : w.start.failure = none := by simp [start_eq, h.failure]
    refine ⟨_, ?_, (h.start hph).give hr d⟩
    simp [step, hj, World.write, hph, hfail, hgo w.start (h.start hph) hr]
  · refine ⟨_, ?_, h.give hph d⟩
    simp [step, hj, World.write, hph, h.failure, hgo w h hph]
  · exact absurd (h.closed_iff.1 hph) hc

/-- A call after the close changes nothing the invariant reads. -/
theorem unchanged (h : Replicating evs w) (hc : .close ∈ evs) {e : Event} (he : e ≠ .join)
    (hadd : ∀ p, e ≠ .addSink p) : Replicating (evs ++ [e]) w where
  plans := by rw [addedPlans_snoc_of hadd]; exact h.plans
  failure := h.failure
  reports := h.reports
  closed_iff := by simpa [hc] using h.closed_iff.2 hc
  joining_iff := by simpa [he.symm, hc] using h.joining_iff
  idle := h.idle
  running := h.running
  waiting := h.waiting
  joined hj := h.joined (by simpa [he.symm] using hj)
  threads j t ht := by
    rw [givenTo_snoc_of hadd, if_pos hc]
    exact h.threads j t ht
  fed i ds hds := by
    rw [givenTo_snoc_of hadd, if_pos hc] at hds
    exact h.fed i ds hds

/-- Closing a running writer lets go of every queue: each worker keeps what it holds. -/
theorem close_running (h : Replicating evs w) (hr : w.phase = .running) :
    Replicating (evs ++ [.close]) { w with phase := .closed, joining := true } := by
  have hnc : w.phase ≠ .closed := by simp [hr]
  have hc : .close ∉ evs := fun hc => hnc (h.closed_iff.2 hc)
  have hnj : .join ∉ evs := fun hj => hnc (h.joined hj).1
  have hg : ∀ i, givenTo i (evs ++ [.close]) = givenTo i evs :=
    fun i => givenTo_snoc_quiet (by simp) (by simp) i evs
  refine ⟨?_, h.failure, h.reports, by simp, by simp [hnj], by simp, by simp, ?_, ?_, ?_, ?_⟩
  · rw [addedPlans_snoc_of (by simp)]; exact h.plans
  · intro _; exact h.waiting (by simp [hr])
  · intro hj; simp [hnj] at hj
  · intro j t ht; rw [hg]; exact h.threads j t ht
  · intro i ds hds
    rw [hg] at hds
    obtain ⟨s, n, hs, hf⟩ := h.fed i ds hds
    have hlt : i < w.threads.size := by
      rw [h.running hr, h.size]; exact lt_length_of_givenTo hds
    obtain ⟨t, ht⟩ : ∃ t, w.threads[i]? = some t := ⟨_, Array.getElem?_eq_getElem hlt⟩
    exact ⟨s, n, hs, hf.frame (by simp [queueOf, ht]) (by simp [stageOf, ht]) (fun _ => rfl)⟩

/-- Closing an idle writer closes each of its sinks once, on the caller's side. -/
theorem close_idle (h : Replicating evs w) (hrel : ∀ p ∈ addedPlans evs, p.Reliable)
    (hi : w.phase = .idle) :
    ∃ ss, w.closeWaiting w.waiting = some { w with sinks := ss } ∧
      Replicating (evs ++ [.close])
        { w with sinks := ss, waiting := [], phase := .closed, joining := true } := by
  obtain ⟨h0, hwait⟩ := h.idle hi
  have hnc : w.phase ≠ .closed := by simp [hi]
  have hc : .close ∉ evs := fun hc => hnc (h.closed_iff.2 hc)
  have hnj : .join ∉ evs := fun hj => hnc (h.joined hj).1
  have hg : ∀ i, givenTo i (evs ++ [.close]) = givenTo i evs :=
    fun i => givenTo_snoc_quiet (by simp) (by simp) i evs
  obtain ⟨ss, hcl, hss⟩ := closeWaiting_of_reliable (w := w) (l := w.waiting)
    (by rw [hwait]; exact List.nodup_range) fun i _ s hs => h.reliable hrel hs
  have hnone : ∀ i, w.threads[i]? = none := fun i => Array.getElem?_eq_none (by omega)
  refine ⟨ss, hcl, ?_, h.failure, h.reports, by simp, by simp [hnj], by simp, by simp, by simp,
    ?_, ?_, ?_⟩
  · intro i
    rw [hss i]
    split
    · cases hs : w.sinks[i]? with
      | none => rw [addedPlans_snoc_of (by simp)]; simpa [hs] using h.plans i
      | some s =>
        have := h.plans i
        rw [hs] at this
        rw [addedPlans_snoc_of (by simp)]
        simpa using this
    · rw [addedPlans_snoc_of (by simp)]; exact h.plans i
  · intro hj; simp [hnj] at hj
  · intro j t ht; simp [hnone] at ht
  · intro i ds hds
    rw [hg] at hds
    obtain ⟨s, n, hs, hf⟩ := h.fed i ds hds
    have hlt : i < w.sinks.size := h.size ▸ lt_length_of_givenTo hds
    have hdr : w.stageOf i = .draining := by simp [stageOf, hnone, hnc]
    have hcl₀ := hf.closes
    rw [hdr, if_neg (by decide)] at hcl₀
    have hrs := h.reliable hrel hs
    refine ⟨s.close.2, n, by rw [hss i, if_pos (by simp [hwait, hlt]), hs]; rfl, ?_⟩
    rw [Sink.close_of_reliable hrs hcl₀.2]
    have hq : ({ w with sinks := ss, waiting := [], phase := .closed, joining := true } : World).queueOf i = [] := by
      simp [queueOf, hnone]
    have hend : ({ w with sinks := ss, waiting := [], phase := .closed, joining := true } : World).stageOf i = .ended := by
      simp [stageOf, hnone]
    exact {
      le := hf.le
      data := hf.data
      items := hf.items
      calls := hf.calls
      queue := by rw [hq, ← hf.queue]; simp [queueOf, hnone]
      stage := .inr ⟨.inr hend, rfl, hq⟩
      closes := by simp [hend, hcl₀.1] }

/-- Once every worker ended, `close` returns and answers success. -/
theorem join_eq (h : Replicating evs w) (hj : w.joining = true)
    (hall : w.threads.all (·.stage.over) = true) : w.join = some (.unit, { w with joining := false }) := by
  -- no failure was reported, and no worker panicked
  simp only [join, hj, hall, Bool.and_self, ↓reduceIte, h.reports, List.foldl_nil]
  rw [List.foldl_fixed']
  · simp [h.failure]
  · intro j
    rcases ht : w.threads[j]? with _ | t
    · rfl
    · have : t.stage ≠ .panicked := by
        rcases h.stage_of_thread ht with h' | ⟨h' | h', _⟩ <;> simp [h']
      simp [this]

/-- After the close, once every worker ended, `close` returns. -/
theorem join (h : Replicating evs w) (hj : w.joining = true)
    (hall : w.threads.all (·.stage.over) = true) :
    Replicating (evs ++ [.join]) { w with joining := false } := by
  obtain ⟨hc, hnj⟩ := h.joining_iff.1 hj
  have hcl : w.phase = .closed := h.closed_iff.2 hc
  refine ⟨?_, h.failure, h.reports, by simp [hcl, hc], by simp, by simp [hcl], by simp [hcl],
    h.waiting, ?_, ?_, ?_⟩
  · rw [addedPlans_snoc_of (by simp)]; exact h.plans
  · intro _
    refine ⟨hcl, fun j t ht => ?_⟩
    have ht : w.threads[j]? = some t := ht
    have hover : t.stage.over = true := by
      rw [Array.all_eq_true'] at hall
      exact hall t (Array.mem_of_getElem? ht)
    rcases h.stage_of_thread ht with h' | ⟨h' | h', _⟩ <;> simp_all [Stage.over]
  · intro j t ht
    rw [givenTo_snoc_quiet (by simp) (by simp)]
    exact h.threads j t ht
  · intro i ds hds
    rw [givenTo_snoc_quiet (by simp) (by simp)] at hds
    obtain ⟨s, n, hs, hf⟩ := h.fed i ds hds
    exact ⟨s, n, hs, hf.frame (queueOf_congr rfl) (stageOf_congr rfl rfl) id⟩

/-- A worker's step changes its own thread and sink only: the invariant holds after it as soon
as its sink was `Fed` what it was given. -/
theorem work_frame (h : Replicating evs w) {j : Nat} {t : Thread} {s : Sink}
    {ds : List (List UInt8)} (ht : w.threads[j]? = some t) (hs : w.sinks[j]? = some s)
    (hds : givenTo j evs = some ds) (hnj : .join ∉ evs) (fs : Sink → Sink) (ft : Thread → Thread)
    (hsink : (ft t).sink = j) (hplan : (fs s).plan = s.plan)
    (hfed : ∃ n, Fed ((w.modifySink j fs).modifyThread j ft) j ds (fs s) n) :
    Replicating (evs ++ [.work j]) ((w.modifySink j fs).modifyThread j ft) := by
  have hsinks : ∀ i, ((w.modifySink j fs).modifyThread j ft).sinks[i]? =
      if i = j then some (fs s) else w.sinks[i]? := fun i => by
    simp only [modifyThread, modifySink, Array.getElem?_modify]
    by_cases hi : i = j
    · subst hi; simp [hs]
    · simp [hi, Ne.symm hi]
  have hthreads : ∀ i, ((w.modifySink j fs).modifyThread j ft).threads[i]? =
      if i = j then some (ft t) else w.threads[i]? := fun i => by
    simp only [modifyThread, modifySink, Array.getElem?_modify]
    by_cases hi : i = j
    · subst hi; simp [ht]
    · simp [hi, Ne.symm hi]
  have hg : ∀ i, givenTo i (evs ++ [.work j]) = givenTo i evs :=
    fun i => givenTo_snoc_quiet (by simp) (by simp) i evs
  refine ⟨fun i => ?_, h.failure, h.reports, by simpa [modifyThread, modifySink] using h.closed_iff,
    by simpa [modifyThread, modifySink] using h.joining_iff, fun hi => ?_, fun hr => ?_, h.waiting,
    fun hj => absurd (by simpa using hj) hnj, fun i t' ht' => ?_, fun i ds' hds' => ?_⟩
  · rw [addedPlans_snoc_of (by simp), hsinks, ← h.plans i]
    split
    · rename_i hi; subst hi; simp [hs, hplan]
    · rfl
  · simpa [modifyThread, modifySink] using h.idle hi
  · simpa [modifyThread, modifySink] using h.running hr
  · rw [hthreads] at ht'
    rw [hg]
    split at ht'
    · rename_i hi
      cases ht'
      subst hi
      simp [hsink, hds]
    · exact h.threads i t' ht'
  · rw [hg] at hds'
    by_cases hi : i = j
    · subst hi
      rw [hds] at hds'
      cases hds'
      obtain ⟨n, hf⟩ := hfed
      exact ⟨fs s, n, by simp [hsinks], hf⟩
    · obtain ⟨s', n, hs', hf⟩ := h.fed i ds' hds'
      have hthr : ((w.modifySink j fs).modifyThread j ft).threads[i]? = w.threads[i]? := by
        simp [hthreads, hi]
      exact ⟨s', n, by simp [hsinks, hi, hs'],
        hf.frame (queueOf_congr hthr) (stageOf_congr hthr rfl) id⟩

/-- A worker's step: it writes the next item it holds to its sink, leaves its queue once that
is empty and let go of, or closes its sink. -/
theorem work (h : Replicating evs w) (hrel : ∀ p ∈ addedPlans evs, p.Reliable) {j : Nat}
    (hw : w.work j = some w') : Replicating (evs ++ [.work j]) w' := by
  rcases ht : w.threads[j]? with _ | t
  · simp [World.work, ht] at hw
  obtain ⟨hsink, ds, s, n, hds, hs, hf⟩ := h.fed_of_thread ht
  have hrs := h.reliable hrel hs
  have hst := h.stage_of_thread ht
  obtain ⟨sink, queue, stage⟩ := t
  simp only at hsink hst
  subst hsink
  have hnj : .join ∉ evs := fun hj => by
    have := (h.joined hj).2 sink _ ht
    simp only at this
    subst this
    simp [World.work, ht] at hw
  have hthr := threads_modify_self ht
  rcases hst with rfl | ⟨rfl | rfl, hph, rfl⟩
  · -- taking items
    cases queue with
    | cons item rest =>
      simp only [World.work, ht, hs, Sink.deliver_of_reliable hrs] at hw
      cases hw
      apply h.work_frame ht hs hds hnj _ _ rfl rfl
      exact ⟨n + 1, hf.deliver (queueOf_of_thread ht) (stageOf_of_thread ht)
        (by simp [queueOf, hthr]) (by simp [stageOf, hthr])⟩
    | nil =>
      simp only [World.work, ht] at hw
      split at hw
      · cases hw
      · rename_i hr
        cases hw
        have hcl₀ : w.phase = .closed := by
          rcases hp : w.phase with _ | _ | _
          · -- an idle writer has no workers
            have hsize := (h.idle hp).1
            have hnone : w.threads[sink]? = none := Array.getElem?_eq_none (by omega)
            simp [hnone] at ht
          · exact absurd hp hr
          · rfl
        rw [← modifySink_self hs]
        apply h.work_frame ht hs hds hnj _ _ rfl rfl
        exact ⟨n, hf.leave (queueOf_of_thread ht) (stageOf_of_thread ht)
          (by simp [queueOf, hthr]) (by simp [stageOf, hthr]) hcl₀⟩
  · -- closing the sink
    have hcl := hf.not_closed (by simp [stageOf_of_thread ht])
    simp only [World.work, ht, hs, Sink.close_of_reliable hrs hcl.2] at hw
    cases hw
    apply h.work_frame ht hs hds hnj _ _ rfl rfl
    exact ⟨n, hf.close (stageOf_of_thread ht) (by simp [queueOf, hthr]) (by simp [stageOf, hthr]) hph⟩
  · -- an ended worker takes no step
    simp [World.work, ht] at hw

theorem step_write_of_closed (hp : w.phase = .closed) (d : List UInt8) :
    w.step (.write d) = if w.joining then none else some (some (.failed (Error.closed .write)), w) := by
  cases hj : w.joining <;> simp [World.step, World.write, hp, hj]

theorem step_close_of_closed (hp : w.phase = .closed) :
    w.step .close = if w.joining then none else some (some (.failed (Error.closed .close)), w) := by
  cases hj : w.joining <;> simp [World.step, World.close, hp, hj]

/-- Every step keeps the invariant. -/
theorem step (h : Replicating evs w) {e : Event} (hrel : ∀ p ∈ addedPlans (evs ++ [e]), p.Reliable)
    {o : Option Outcome} (hs : w.step e = some (o, w')) : Replicating (evs ++ [e]) w' := by
  have hrel₀ : ∀ p ∈ addedPlans evs, p.Reliable := fun p hp => hrel p (by simp [hp])
  cases e with
  | addSink p =>
    simp only [World.step] at hs
    split at hs
    · cases hs
    · cases hs
      exact h.addSink p
  | write d =>
    by_cases hc : .close ∈ evs
    · -- refused: the writer was closed
      rw [step_write_of_closed (h.closed_iff.2 hc)] at hs
      split at hs
      · cases hs
      · cases hs
        exact h.unchanged hc (by simp) (by simp)
    · obtain ⟨w₁, hs₁, hR⟩ := h.write_open hc d
      rw [hs₁] at hs
      cases hs
      exact hR
  | close =>
    by_cases hc : .close ∈ evs
    · -- refused: the writer was closed
      rw [step_close_of_closed (h.closed_iff.2 hc)] at hs
      split at hs
      · cases hs
      · cases hs
        exact h.unchanged hc (by simp) (by simp)
    · have hj := h.not_joining hc
      rcases hph : w.phase with _ | _ | _
      · obtain ⟨ss, hcl, hR⟩ := h.close_idle hrel₀ hph
        simp only [World.step, hj, World.close, hph, hcl] at hs
        cases hs
        exact hR
      · simp only [World.step, hj, World.close, hph] at hs
        cases hs
        exact h.close_running hph
      · exact absurd (h.closed_iff.1 hph) hc
  | join =>
    simp only [World.step, Option.map_eq_some_iff] at hs
    obtain ⟨⟨o', w₁⟩, hjn, heq⟩ := hs
    cases heq
    obtain ⟨hj, hall⟩ := join_cond hjn
    rw [h.join_eq hj hall] at hjn
    cases hjn
    exact h.join hj hall
  | work j =>
    simp only [World.step, Option.map_eq_some_iff] at hs
    obtain ⟨w₁, hw, heq⟩ := hs
    cases heq
    exact h.work hrel₀ hw

/-- Every run of a writer whose sinks do not fail keeps the invariant. -/
theorem run {reps : List (Option Outcome)} (hrun : World.new.run evs = some (reps, w))
    (hrel : ∀ p ∈ addedPlans evs, p.Reliable) : Replicating evs w := by
  induction evs using List.reverseRecOn generalizing reps w with
  | nil =>
    simp only [World.run, Option.some.injEq, Prod.mk.injEq] at hrun
    obtain ⟨rfl, rfl⟩ := hrun
    exact Replicating.new
  | append_singleton evs e ih =>
    rw [run_snoc] at hrun
    rcases hprev : World.new.run evs with _ | ⟨reps₀, w₀⟩
    · simp [hprev] at hrun
    rcases hs : w₀.step e with _ | ⟨o, w₁⟩
    · simp [hprev, hs] at hrun
    simp only [hprev, hs, Option.bind_some, Option.map_some, Option.some.injEq,
      Prod.mk.injEq] at hrun
    obtain ⟨rfl, rfl⟩ := hrun
    exact (ih hprev fun p hp => hrel p (by simp [hp])).step hrel hs

/-! ## The close returns -/

/-- After the close, a worker that has not ended can take a step, and has one step fewer left. -/
theorem work_next (h : Replicating evs w) (hrel : ∀ p ∈ addedPlans evs, p.Reliable)
    (hcl : w.phase = .closed) {j : Nat} {t : Thread} (ht : w.threads[j]? = some t)
    (hne : t.stage ≠ .ended) :
    ∃ w' t', w.work j = some w' ∧ w'.threads[j]? = some t' ∧ t'.stepsLeft + 1 = t.stepsLeft := by
  obtain ⟨hsink, ds, s, n, hds, hs, hf⟩ := h.fed_of_thread ht
  have hrs := h.reliable hrel hs
  have hst := h.stage_of_thread ht
  obtain ⟨sink, queue, stage⟩ := t
  simp only at hsink hst hne
  subst hsink
  have hthr := threads_modify_self ht
  rcases hst with rfl | ⟨rfl | rfl, _, rfl⟩
  · cases queue with
    | cons item rest =>
      -- the next item is written
      refine ⟨(w.modifySink sink fun _ => (s.deliver item).2).modifyThread sink
        fun t => { t with queue := rest }, ⟨sink, rest, .draining⟩, ?_, hthr _ _, ?_⟩
      · simp [World.work, ht, hs, Sink.deliver_of_reliable hrs]
      · simp [Thread.stepsLeft]
    | nil =>
      -- the queue ended
      refine ⟨w.modifyThread sink fun t => { t with stage := .closing }, ⟨sink, [], .closing⟩, ?_,
        ?_, rfl⟩
      · simp [World.work, ht, hcl]
      · rw [← modifySink_self hs]
        exact hthr _ _
  · -- the sink is closed
    have hrel' := (hf.not_closed (by simp [stageOf_of_thread ht])).2
    refine ⟨(w.modifySink sink fun _ => s.close.2).modifyThread sink
      fun t => { t with stage := .ended }, ⟨sink, [], .ended⟩, ?_, hthr _ _, rfl⟩
    simp [World.work, ht, hs, Sink.close_of_reliable hrs hrel']
  · exact absurd rfl hne

/-- After the close, a worker can take all its steps left, and then it ended; the other workers
stay as they were. -/
theorem finish_thread (h : Replicating evs w) (hrel : ∀ p ∈ addedPlans evs, p.Reliable)
    (hcl : w.phase = .closed) {j : Nat} {t : Thread} (ht : w.threads[j]? = some t) :
    ∃ w', w.run (List.replicate t.stepsLeft (.work j)) = some (List.replicate t.stepsLeft none, w') ∧
      Replicating (evs ++ List.replicate t.stepsLeft (.work j)) w' ∧
      w'.threads.size = w.threads.size ∧ (∀ t', w'.threads[j]? = some t' → t'.stage = .ended) ∧
      ∀ k, k ≠ j → w'.threads[k]? = w.threads[k]? := by
  -- induction on the steps left, which each step lowers by one
  generalize hn : t.stepsLeft = n
  induction n generalizing evs w t with
  | zero =>
    refine ⟨w, rfl, by simpa using h, rfl, fun t' ht' => ?_, fun _ _ => rfl⟩
    rw [ht] at ht'
    cases ht'
    rcases h.stage_of_thread ht with h' | ⟨h' | h', _⟩ <;> simp_all [Thread.stepsLeft]
  | succ n ih =>
    have hne : t.stage ≠ .ended := fun he => by simp [Thread.stepsLeft, he] at hn
    obtain ⟨w₁, t₁, hw, ht₁, hsteps⟩ := h.work_next hrel hcl ht hne
    have h₁ : Replicating (evs ++ [.work j]) w₁ := h.work hrel hw
    have hrel₁ : ∀ p ∈ addedPlans (evs ++ [.work j]), p.Reliable := by
      rw [addedPlans_snoc_of (by simp)]; exact hrel
    have hcl₁ : w₁.phase = .closed := h₁.closed_iff.2 (by simp [h.closed_iff.1 hcl])
    obtain ⟨w', hrun, hR, hsize, hend, hother⟩ := ih h₁ hrel₁ hcl₁ ht₁ (by omega)
    obtain ⟨hsize₁, hother₁⟩ := work_threads hw
    refine ⟨w', ?_, by simpa [List.replicate_succ] using hR, hsize.trans hsize₁, hend,
      fun k hk => (hother k hk).trans (hother₁ k hk)⟩
    simp [List.replicate_succ, World.run, World.step, hw, hrun]

/-- After the close, every worker can take its steps left until all ended. -/
theorem finish_all (h : Replicating evs w) (hrel : ∀ p ∈ addedPlans evs, p.Reliable)
    (hcl : w.phase = .closed) (l : List Nat) :
    ∃ js : List Nat, ∃ w', w.run (js.map .work) = some (js.map fun _ => none, w') ∧
      Replicating (evs ++ js.map .work) w' ∧ w'.threads.size = w.threads.size ∧
      (∀ j ∈ l, ∀ t, w'.threads[j]? = some t → t.stage = .ended) ∧
      ∀ k, k ∉ l → w'.threads[k]? = w.threads[k]? := by
  induction l with
  | nil => exact ⟨[], w, rfl, by simpa using h, rfl, by simp, fun _ _ => rfl⟩
  | cons j l ih =>
    obtain ⟨js, w₁, hrun₁, h₁, hsize₁, hend₁, hother₁⟩ := ih
    have hrel₁ : ∀ p ∈ addedPlans (evs ++ js.map .work), p.Reliable := by
      intro p hp
      simp only [addedPlans_append, List.mem_append] at hp
      rcases hp with hp | hp
      · exact hrel p hp
      · simp [addedPlans] at hp
    have hcl₁ : w₁.phase = .closed := h₁.closed_iff.2 (by simp [h.closed_iff.1 hcl])
    rcases ht : w₁.threads[j]? with _ | t
    · -- no worker `j`: nothing to do
      refine ⟨js, w₁, hrun₁, h₁, hsize₁, fun k hk t' ht' => ?_, fun k hk => ?_⟩
      · rcases List.mem_cons.1 hk with rfl | hk
        · simp [ht] at ht'
        · exact hend₁ k hk t' ht'
      · exact hother₁ k (fun hk' => hk (List.mem_cons_of_mem j hk'))
    · obtain ⟨w', hrun, hR, hsize, hend, hother⟩ := h₁.finish_thread hrel₁ hcl₁ ht
      refine ⟨js ++ List.replicate t.stepsLeft j, w', ?_, ?_, hsize.trans hsize₁,
        fun k hk t' ht' => ?_, fun k hk => ?_⟩
      · simp [run_append, hrun₁, List.map_replicate, hrun]
      · simpa [List.map_replicate] using hR
      · by_cases hkj : k = j
        · subst hkj; exact hend t' ht'
        · rw [hother k hkj] at ht'
          exact hend₁ k ((List.mem_cons.1 hk).resolve_left hkj) t' ht'
      · simp only [List.mem_cons, not_or] at hk
        rw [hother k hk.1, hother₁ k hk.2]

/-- Once the writer was closed, its workers can take their last steps, and `close` then
returns success. -/
theorem close_returns (h : Replicating evs w) (hrel : ∀ p ∈ addedPlans evs, p.Reliable)
    (hc : .close ∈ evs) (hnj : .join ∉ evs) :
    ∃ js : List Nat, ∃ w', w.run (js.map .work ++ [.join]) =
      some (js.map (fun _ => none) ++ [some .unit], w') := by
  obtain ⟨js, w₁, hrun, h₁, hsize, hend, _⟩ :=
    h.finish_all hrel (h.closed_iff.2 hc) (List.range w.threads.size)
  have hj₁ : w₁.joining = true := h₁.joining_iff.2 ⟨by simp [hc], by simp [hnj]⟩
  have hall : w₁.threads.all (·.stage.over) = true := by
    rw [Array.all_eq_true]
    intro k hk
    have := hend k (List.mem_range.2 (hsize ▸ hk)) _ (Array.getElem?_eq_getElem hk)
    simp [this, Stage.over]
  refine ⟨js, { w₁ with joining := false }, ?_⟩
  simp [run_append, hrun, World.run, World.step, h₁.join_eq hj₁ hall]

/-! ## What each sink received -/

theorem givenTo_of_eq_append {evs pre post : List Event} {p : SinkPlan}
    (he : evs = pre ++ .addSink p :: post) (hc : .close ∉ pre) :
    givenTo (addedPlans pre).length evs = some (writesBeforeClose post) := by
  rw [he, givenTo_append, if_neg hc, if_neg (Nat.lt_irrefl _), Nat.sub_self]
  rfl

/-- A sink added before the close wrote, at any moment, the first of the writes issued after it,
each whole, in order and with one successful call; it is closed at most once, only after the
close and the last of those writes, and it was closed once the close returned. -/
theorem received (h : Replicating evs w) {pre post : List Event} {p : SinkPlan}
    (he : evs = pre ++ .addSink p :: post) (hc : .close ∉ pre) :
    ∃ s n, w.sinks[(addedPlans pre).length]? = some s ∧ s.plan = p ∧
      n ≤ (writesBeforeClose post).length ∧ s.data = ((writesBeforeClose post).take n).flatten ∧
      s.items = n ∧ s.writeCalls = p.callsFor n ∧
      (s.closes = 0 ∨ s.closes = 1 ∧ .close ∈ post ∧ n = (writesBeforeClose post).length) ∧
      (.join ∈ post → s.closes = 1) := by
  obtain ⟨s, n, hs, hf⟩ := h.fed _ _ (givenTo_of_eq_append he hc)
  have hplan : s.plan = p := by
    have := h.plans (addedPlans pre).length
    rw [hs, he] at this
    simpa using this
  have hcl := hf.closes
  refine ⟨s, n, hs, hplan, hf.le, hf.data, hf.items, hplan ▸ hf.calls, ?_, fun hj => ?_⟩
  · split at hcl
    · -- an ended worker was let go of after the close, with its queue empty
      rename_i hend
      rcases hf.stage with hd | ⟨_, hph, hnil⟩
      · simp [hend] at hd
      · have hcp : .close ∈ post := by
          have := h.closed_iff.1 hph
          simpa [he, hc] using this
        exact .inr ⟨hcl, hcp, hf.length_eq hnil⟩
    · exact .inl hcl.1
  · -- after the close returned, every worker ended
    obtain ⟨hph, hended⟩ := h.joined (by simp [he, hj])
    have hend : w.stageOf (addedPlans pre).length = .ended := by
      unfold stageOf
      split
      · rename_i t ht
        exact hended _ t ht
      · simp [hph]
    simpa [hend] using hcl

end Replicating

end World

/-- **Every sink receives every write**, whatever order the workers' steps take among the
caller's calls, as long as no sink fails a write or a close. At any point of a run: before the
close each write answers the length of its data, and the close can be called; `close` answers
success whenever it returns, and once called it can return after its workers' last steps. A sink
added before the close wrote the first of the writes issued after it was added, each whole, in
order and with one successful call, and was closed at most once, only after all of them; once the
close returned, it was closed. -/
theorem every_sink_receives_every_write {evs : List Event} {reps : List (Option Outcome)}
    {w : World} (hrun : World.new.run evs = some (reps, w))
    (hrel : ∀ p ∈ addedPlans evs, p.Reliable) :
    (.close ∉ evs → (∀ d, ∃ w', w.step (.write d) = some (some (.count d.length), w')) ∧
        ∃ w', w.step .close = some (none, w')) ∧
      (∀ o w', w.step .join = some (o, w') → o = some .unit) ∧
      (.close ∈ evs → .join ∉ evs → ∃ js : List Nat, ∃ w', w.run (js.map .work ++ [.join]) =
        some (js.map (fun _ => none) ++ [some .unit], w')) ∧
      ∀ pre p post, evs = pre ++ .addSink p :: post → .close ∉ pre →
        ∃ s n, w.sinks[(addedPlans pre).length]? = some s ∧ s.plan = p ∧
          n ≤ (writesBeforeClose post).length ∧
          s.data = ((writesBeforeClose post).take n).flatten ∧
          s.items = n ∧ s.writeCalls = p.callsFor n ∧
          (s.closes = 0 ∨ s.closes = 1 ∧ .close ∈ post ∧ n = (writesBeforeClose post).length) ∧
          (.join ∈ post → s.closes = 1) := by
  have h := World.Replicating.run hrun hrel
  refine ⟨fun hc => ⟨fun d => ?_, ?_⟩, fun o w' hj => ?_, h.close_returns hrel,
    fun pre p post he hc => h.received he hc⟩
  · obtain ⟨w', hs, _⟩ := h.write_open hc d
    exact ⟨w', hs⟩
  · -- an idle writer closes its sinks, a running one lets go of its queues
    have hj := h.not_joining hc
    rcases hph : w.phase with _ | _ | _
    · obtain ⟨ss, hcl, _⟩ := h.close_idle hrel hph
      exact ⟨{ w with sinks := ss, waiting := [], phase := .closed, joining := true },
        by simp [World.step, hj, World.close, hph, hcl]⟩
    · exact ⟨{ w with phase := .closed, joining := true }, by simp [World.step, hj, World.close, hph]⟩
    · exact absurd (h.closed_iff.1 hph) hc
  · simp only [World.step, Option.map_eq_some_iff] at hj
    obtain ⟨⟨o', w₁⟩, hjn, heq⟩ := hj
    obtain ⟨hjoin, hall⟩ := World.join_cond hjn
    rw [h.join_eq hjoin hall] at hjn
    cases hjn
    cases heq
    rfl

/-- Three sinks, the second interrupted once, the third added while the writer runs; two writes,
then the close, whose workers drain their queues in turn before it returns. -/
theorem replicates_to_three_sinks :
    let evs : List Event := [.addSink .plain, .addSink { SinkPlan.plain with interrupts := [1] },
      .write [1, 2], .work 0, .addSink .plain, .write [3], .close, .work 1, .work 1, .work 1,
      .work 1, .work 0, .work 0, .work 0, .work 2, .work 2, .work 2, .join]
    ∃ reps w, World.new.run evs = some (reps, w) ∧ (∀ p ∈ addedPlans evs, p.Reliable) ∧
      ((.close ∉ evs → (∀ d, ∃ w', w.step (.write d) = some (some (.count d.length), w')) ∧
          ∃ w', w.step .close = some (none, w')) ∧
        (∀ o w', w.step .join = some (o, w') → o = some .unit) ∧
        (.close ∈ evs → .join ∉ evs → ∃ js : List Nat, ∃ w', w.run (js.map .work ++ [.join]) =
          some (js.map (fun _ => none) ++ [some .unit], w')) ∧
        ∀ pre p post, evs = pre ++ .addSink p :: post → .close ∉ pre →
          ∃ s n, w.sinks[(addedPlans pre).length]? = some s ∧ s.plan = p ∧
            n ≤ (writesBeforeClose post).length ∧
            s.data = ((writesBeforeClose post).take n).flatten ∧
            s.items = n ∧ s.writeCalls = p.callsFor n ∧
            (s.closes = 0 ∨ s.closes = 1 ∧ .close ∈ post ∧ n = (writesBeforeClose post).length) ∧
            (.join ∈ post → s.closes = 1)) := by
  intro evs
  have hsome : (World.new.run evs).isSome = true := by decide +kernel
  obtain ⟨⟨reps, w⟩, hrun⟩ := Option.isSome_iff_exists.1 hsome
  have hrel : ∀ p ∈ addedPlans evs, p.Reliable := by decide
  exact ⟨reps, w, hrun, hrel, every_sink_receives_every_write hrun hrel⟩


end Plumbing.Fanout
