import Plumbing.Proofs.Fanout.Steps

/-!
# The first failure propagates

A fan-out writer whose sinks may fail writes and closes, though none panics, and whose threads
take their steps one send at a time in any order (`Scene.step`). Whatever the order:

* each sink took, in order, the first of the writes called after it was added, wrote each of them
  whole but the last, and took nothing after a failed write;
* each sink is closed at most once and takes nothing once closed, and once `close` returned every
  sink added before it was closed;
* the failure the writer keeps is the first one its workers reported, or, for a writer closed
  before it wrote, the first failing close in the order the sinks were added; every later write
  before the close answers it at once, and so does the close;
* the close answers success exactly when no sink failed a write or its close.

The invariant `Propagating` is carried along every run by `Propagating.step`.
-/

namespace Plumbing.Fanout

/-! ## One sink and its worker -/

/-- Worker `t` of sink `s`, after the writes `ds` called since the sink was added: the worker was
given `given`, the first of those writes. The sink took the first `s.items` of them in order and
wrote each whole but the last, the worker holds the others while it holds its queue, and the sink
was closed once, when its worker ended. -/
structure Taking (ds given : List (List UInt8)) (t : Thread) (s : Sink) : Prop where
  ahead : given <+: ds
  le : s.items ≤ given.length
  fed : s.unclosed = (Sink.new s.plan).feed (given.take s.items)
  ok_but_last : (Sink.new s.plan).feedOk (given.take s.items).dropLast = true
  ok : t.stage = .draining → (Sink.new s.plan).feedOk (given.take s.items) = true
  failed : t.stage = .failed → (Sink.new s.plan).feedOk (given.take s.items) = false
  queue : t.stage.holds → t.queue = given.drop s.items
  calm : t.stage ≠ .unwinding ∧ t.stage ≠ .panicked
  closes : s.closes = if t.stage = .ended then 1 else 0
  released : s.closes = 0 → s.released = false

/-- While a write is in progress, the workers it already sent to were given every write `ds`, and
the others all but the one in progress; with no write in progress, every worker was given them
all. -/
def Complete (sending : Option (List UInt8 × Nat)) (i : Nat) (ds given : List (List UInt8)) :
    Prop :=
  (ds = given ∧ ∀ d k, sending = some (d, k) → i < k) ∨
    ∃ d k, sending = some (d, k) ∧ k ≤ i ∧ ds = given ++ [d]

/-- A sink without a worker took nothing; it was closed on the caller's side if it was added
before an idle writer was closed. -/
structure Bare (acts : List Act) (i : Nat) (s : Sink) : Prop where
  fresh : s.unclosed = Sink.new s.plan
  closes : s.closes = if .close ∈ acts ∧ i < (plansAdded (beforeClose acts)).length then 1 else 0
  released : s.closes = 0 → s.released = false

namespace Taking

variable {ds given : List (List UInt8)} {t : Thread} {s : Sink}

theorem take_eq (h : Taking ds given t s) : ds.take s.items = given.take s.items := by
  obtain ⟨rest, rfl⟩ := h.ahead
  exact List.take_append_of_le_length h.le

theorem items_le (h : Taking ds given t s) : s.items ≤ ds.length :=
  Nat.le_trans h.le h.ahead.length_le

theorem write (h : Taking ds given t s) (d : List UInt8) : Taking (ds ++ [d]) given t s :=
  { h with ahead := h.ahead.trans (List.prefix_append ds [d]) }

/-- A send to a worker that holds its queue gives it the write in progress. -/
theorem give (h : Taking ds given t s) (ht : t.stage.holds) {d : List UInt8}
    (hd : given ++ [d] <+: ds) : Taking ds (given ++ [d]) { t with queue := t.queue ++ [d] } s where
  ahead := hd
  le := by simp only [List.length_append, List.length_singleton]; have := h.le; omega
  fed := by rw [List.take_append_of_le_length h.le]; exact h.fed
  ok_but_last := by rw [List.take_append_of_le_length h.le]; exact h.ok_but_last
  ok hs := by rw [List.take_append_of_le_length h.le]; exact h.ok hs
  failed hs := by rw [List.take_append_of_le_length h.le]; exact h.failed hs
  queue _ := by rw [h.queue ht, List.drop_append_of_le_length h.le]
  calm := h.calm
  closes := h.closes
  released := h.released

theorem deliver_fst (h : Taking ds given t s) (item : List UInt8) :
    (s.deliver item).1 = (((Sink.new s.plan).feed (given.take s.items)).deliver item).1 := by
  rw [← h.fed, Sink.deliver_unclosed]

/-- A sink whose worker still takes items failed neither a write nor its close. -/
theorem not_failed (h : Taking ds given t s) (hd : t.stage = .draining) :
    ¬ s.Failed (ds.take s.items) := by
  rw [h.take_eq]
  rintro (hf | ⟨hc, _⟩)
  · rw [h.ok hd] at hf; cases hf
  · exact hc (by simpa [hd] using h.closes)

/-- A worker takes the next item it holds and writes it; after a failed write it stops taking
items, still holding its queue. -/
theorem deliver (h : Taking ds given t s) {item : List UInt8} {rest : List (List UInt8)}
    (hq : t.queue = item :: rest) (hd : t.stage = .draining) (stage : Stage)
    (hstage : stage = if (s.deliver item).1 = .done then .draining else .failed) :
    Taking ds given { t with queue := rest, stage := stage } (s.deliver item).2 := by
  have hdrop : given.drop s.items = item :: rest := by rw [← h.queue (by rw [hd]; rfl), hq]
  have hlt : s.items < given.length := by
    have := congrArg List.length hdrop
    simp only [List.length_drop, List.length_cons] at this
    omega
  have hitem : given[s.items] = item := by
    have := congrArg List.head? hdrop
    rwa [List.head?_drop, List.head?_cons, List.getElem?_eq_getElem hlt, Option.some_inj] at this
  have htake : given.take (s.items + 1) = given.take s.items ++ [item] := by
    rw [List.take_add_one, List.getElem?_eq_getElem hlt, hitem, Option.toList_some]
  have hok := h.ok hd
  have hfeed : (Sink.new s.plan).feedOk (given.take (s.items + 1)) =
      ((s.deliver item).1 == .done) := by
    rw [htake, Sink.feedOk_snoc, hok, ← h.deliver_fst, Bool.true_and]
  refine ⟨h.ahead, by simp; omega, ?_, ?_, ?_, ?_, ?_, ?_, ?_, ?_⟩
  · rw [Sink.deliver_items, htake, Sink.deliver_plan, Sink.feed_snoc, ← h.fed,
      Sink.deliver_unclosed]
  · rw [Sink.deliver_items, htake, Sink.deliver_plan, List.dropLast_concat]
    exact hok
  · intro hs
    have hdone : (s.deliver item).1 = .done := by
      by_contra hne
      rw [hstage, if_neg hne] at hs
      cases hs
    rw [Sink.deliver_items, Sink.deliver_plan, hfeed, hdone]
    rfl
  · intro hs
    have hne : (s.deliver item).1 ≠ .done := fun hdone => by
      rw [hstage, if_pos hdone] at hs
      cases hs
    rw [Sink.deliver_items, Sink.deliver_plan, hfeed]
    simpa using hne
  · intro _
    rw [Sink.deliver_items, ← List.drop_drop, hdrop, List.drop_one, List.tail_cons]
  · constructor <;> (rw [hstage]; split <;> simp)
  · have hend : stage ≠ .ended := by rw [hstage]; split <;> simp
    obtain ⟨m, hm⟩ := Sink.deliver_snd s item
    rw [hm, if_neg hend]
    simpa [hd] using h.closes
  · obtain ⟨m, hm⟩ := Sink.deliver_snd s item
    rw [hm]
    exact h.released

/-- A worker lets go of its queue: it stops taking items and holds none. -/
theorem leave (h : Taking ds given t s) (hd : t.stage ≠ .ended) :
    Taking ds given { t with queue := [], stage := .closing } s where
  ahead := h.ahead
  le := h.le
  fed := h.fed
  ok_but_last := h.ok_but_last
  ok hs := by cases hs
  failed hs := by cases hs
  queue hs := absurd hs (by simp [Stage.holds])
  calm := by simp
  closes := by simpa [hd] using h.closes
  released := h.released

/-- A worker that let go of its queue closes its sink, once. -/
theorem close (h : Taking ds given t s) (hc : t.stage = .closing) (hs : s.plan.Calm) :
    Taking ds given { t with stage := .ended } s.close.2 := by
  have hcl : s.closes = 0 := by simpa [hc] using h.closes
  have hcls := Sink.close_of_calm hs (h.released hcl)
  have hunc : s.close.2.unclosed = s.unclosed := Sink.close_unclosed s
  have hplan : s.close.2.plan = s.plan := Sink.close_plan s
  have hitems : s.close.2.items = s.items := Sink.close_items s
  refine ⟨h.ahead, hitems ▸ h.le, ?_, ?_, (fun hs => by cases hs), (fun hs => by cases hs),
    (fun hs => absurd hs (by simp [Stage.holds])), by simp, ?_, ?_⟩
  · rw [hunc, hplan, hitems]; exact h.fed
  · rw [hplan, hitems]; exact h.ok_but_last
  · rw [hcls]; simp [hcl]
  · rw [hcls]; simp

end Taking

namespace Bare

variable {acts : List Act} {i : Nat} {s : Sink}

theorem again (h : Bare acts i s) (hc : .close ∈ acts) : Bare (acts ++ [.close]) i s := by
  refine ⟨h.fresh, ?_, h.released⟩
  rw [h.closes, beforeClose_snoc, if_pos hc]
  simp [hc]

theorem quiet (h : Bare acts i s) {a : Act} (ha : a ≠ .close) : Bare (acts ++ [a]) i s := by
  refine ⟨h.fresh, ?_, h.released⟩
  rw [h.closes, beforeClose_snoc]
  by_cases hc : Act.close ∈ acts
  · simp [hc]
  · simp [hc, Ne.symm ha]

theorem items (h : Bare acts i s) : s.items = 0 := by
  have := congrArg Sink.items h.fresh
  simpa [Sink.new] using this

/-- A sink just added has no worker and took nothing; a close before it did not close it. -/
theorem new (acts : List Act) (p : SinkPlan) :
    Bare (acts ++ [.addSink p]) (plansAdded acts).length (Sink.new p) := by
  refine ⟨rfl, ?_, fun _ => rfl⟩
  simp only [Sink.new, beforeClose_snoc]
  split
  · rw [if_neg]
    rintro ⟨_, hlt⟩
    have := plansAdded_beforeClose_le acts
    omega
  · rename_i hc
    simp [hc]

/-- A sink without a worker that was not closed gets a fresh worker, given no write yet. -/
theorem spawn (h : Bare acts i s) (hc : s.closes = 0) (ds : List (List UInt8)) :
    Taking ds [] ⟨i, [], .draining⟩ s where
  ahead := List.nil_prefix
  le := by simp [h.items]
  fed := by rw [h.items]; exact h.fresh
  ok_but_last := by rw [h.items]; rfl
  ok _ := by rw [h.items]; rfl
  failed hs := by cases hs
  queue _ := by simp [h.items]
  calm := by simp
  closes := by simp [hc]
  released := h.released

end Bare

/-! ## The invariant -/

/-- What holds of a writer whose sinks do not panic after the steps `acts`, along which the
workers reported the failures `hist`. The phase follows the calls; thread `j` writes sink `j`;
a worker stopped taking items while the writer runs only after a failure was reported. Until the
writer keeps a failure every report waits on the channel, and the failure it keeps is the first
report, or the first failing close of an idle writer. Every report is a sink's failure, and every
sink that failed was noticed. Each sink with a worker is `Taking` the writes, each without one is
`Bare`. -/
structure Propagating (acts : List Act) (hist : List Error) (sc : Scene) : Prop where
  plans : ∀ i : Nat, (sc.world.sinks[i]?).map Sink.plan = (plansAdded acts)[i]?
  closed_iff : sc.world.phase = .closed ↔ .close ∈ acts
  joining_iff : sc.world.joining = true ↔ .close ∈ acts ∧ .join ∉ acts
  idle : sc.world.phase = .idle →
    sc.world.threads.size = 0 ∧ sc.world.waiting = List.range sc.world.sinks.size ∧
      writesIn acts = [] ∧ sc.world.failure = none
  running : sc.world.phase = .running → sc.world.threads.size = sc.world.sinks.size
  threads_le : sc.world.threads.size ≤ sc.world.sinks.size
  waiting : sc.world.phase ≠ .idle → sc.world.waiting = []
  sending : ∀ (d : List UInt8) (k : Nat), sc.sending = some (d, k) →
    sc.world.phase = .running ∧ sc.world.failure = none ∧ k ≤ sc.world.threads.size
  joined : .join ∈ acts → sc.world.phase = .closed ∧
    ∀ (j : Nat) (t : Thread), sc.world.threads[j]? = some t → t.stage = .ended
  threads : ∀ (j : Nat) (t : Thread), sc.world.threads[j]? = some t → t.sink = j
  stopped : sc.world.phase = .running → ∀ (j : Nat) (t : Thread), sc.world.threads[j]? = some t →
    t.stage ≠ .draining → hist ≠ []
  reports : sc.world.failure = none → sc.world.reports = hist
  kept : ∀ f, sc.world.failure = some f → hist.head? = some f ∨
    hist = [] ∧ sc.world.threads.size = 0 ∧ .close ∈ acts ∧ writesIn (beforeClose acts) = [] ∧
      ∃ m, (plansAdded (beforeClose acts)).findSome? SinkPlan.closeFailure = some m ∧
        f = Error.io .close ⟨.other, some m⟩
  forms : ∀ e ∈ hist, e.FromSink
  noticed : ∀ (i : Nat) (s : Sink), sc.world.sinks[i]? = some s → s.Failed ((writesAfter i acts).take s.items) →
    hist ≠ [] ∨ sc.world.failure ≠ none
  traced : hist ≠ [] → ∃ (i : Nat) (s : Sink), sc.world.sinks[i]? = some s ∧
    s.Failed ((writesAfter i acts).take s.items)
  worked : ∀ (i : Nat) (s : Sink) (t : Thread), sc.world.sinks[i]? = some s → sc.world.threads[i]? = some t →
    ∃ given, Taking (writesAfter i acts) given t s ∧
      (sc.world.phase = .running → sc.world.failure = none →
        Complete sc.sending i (writesAfter i acts) given)
  bare : ∀ (i : Nat) (s : Sink), sc.world.sinks[i]? = some s → sc.world.threads[i]? = none → Bare acts i s

namespace Propagating

variable {acts : List Act} {hist : List Error} {sc : Scene}

theorem new : Propagating [] [] Scene.new where
  plans i := by simp [Scene.new, World.new]
  closed_iff := by simp [Scene.new, World.new]
  joining_iff := by simp [Scene.new, World.new]
  idle _ := by simp [Scene.new, World.new]
  running h := by simp [Scene.new, World.new] at h
  threads_le := by simp [Scene.new, World.new]
  waiting _ := rfl
  sending d k h := by simp [Scene.new] at h
  joined h := by simp at h
  threads j t h := by simp [Scene.new, World.new] at h
  stopped h := by simp [Scene.new, World.new] at h
  reports _ := rfl
  kept f h := by simp [Scene.new, World.new] at h
  forms e h := by simp at h
  noticed i s h := by simp [Scene.new, World.new] at h
  traced h := absurd rfl h
  worked i s t h := by simp [Scene.new, World.new] at h
  bare i s h := by simp [Scene.new, World.new] at h

theorem size (h : Propagating acts hist sc) : sc.world.sinks.size = (plansAdded acts).length := by
  have h₁ := h.plans sc.world.sinks.size
  have h₂ := h.plans (plansAdded acts).length
  rw [Array.getElem?_eq_none (Nat.le_refl _), Option.map_none, eq_comm,
    List.getElem?_eq_none_iff] at h₁
  rw [List.getElem?_eq_none (Nat.le_refl _), Option.map_eq_none_iff,
    Array.getElem?_eq_none_iff] at h₂
  omega

theorem calm (h : Propagating acts hist sc) (hcalm : ∀ p ∈ plansAdded acts, p.Calm) {i : Nat}
    {s : Sink} (hs : sc.world.sinks[i]? = some s) : s.plan.Calm := by
  have := h.plans i
  rw [hs, Option.map_some] at this
  exact hcalm _ (List.mem_of_getElem? this.symm)

theorem items_le (h : Propagating acts hist sc) {i : Nat} {s : Sink}
    (hs : sc.world.sinks[i]? = some s) : s.items ≤ (writesAfter i acts).length := by
  rcases ht : sc.world.threads[i]? with _ | t
  · rw [(h.bare i s hs ht).items]; exact Nat.zero_le _
  · obtain ⟨given, hg, _⟩ := h.worked i s t hs ht
    exact hg.items_le

theorem take_snoc (h : Propagating acts hist sc) {i : Nat} {s : Sink}
    (hs : sc.world.sinks[i]? = some s) (a : Act) :
    (writesAfter i (acts ++ [a])).take s.items = (writesAfter i acts).take s.items := by
  have hi : i < (plansAdded acts).length := by
    rw [← h.size]; exact (Array.getElem?_eq_some_iff.1 hs).1
  rw [writesAfter_snoc hi, List.take_append_of_le_length (h.items_le hs)]

/-- Nothing was reported while the writer is idle: it has no workers. -/
theorem hist_of_idle (h : Propagating acts hist sc) (hi : sc.world.phase = .idle) : hist = [] := by
  by_contra hne
  obtain ⟨i, s, hs, hf⟩ := h.traced hne
  have hnone : sc.world.threads[i]? = none := Array.getElem?_eq_none (by simp [(h.idle hi).1])
  have hb := h.bare i s hs hnone
  have hc : Act.close ∉ acts := fun hc => by simp [h.closed_iff.2 hc] at hi
  have hcl : s.closes = 0 := by simpa [hc] using hb.closes
  rcases hf with hf | hf
  · rw [hb.items, List.take_zero, Sink.feedOk_nil] at hf; cases hf
  · exact hf.1 hcl

theorem writesAfter_quiet (h : Propagating acts hist sc) {i : Nat} {s : Sink}
    (hs : sc.world.sinks[i]? = some s) {a : Act} (ha : ∀ d, a ≠ .write d) :
    writesAfter i (acts ++ [a]) = writesAfter i acts := by
  have hi : i < (plansAdded acts).length := by
    rw [← h.size]; exact (Array.getElem?_eq_some_iff.1 hs).1
  rw [writesAfter_snoc hi]
  cases a <;> simp_all [writesIn]

/-- The failure kept by an idle writer closed before it wrote stays as it was after any step but
the close. -/
theorem kept_quiet (h : Propagating acts hist sc) {a : Act} {w : World}
    (hz : .close ∈ acts → sc.world.threads.size = 0 → w.threads.size = 0) {f : Error}
    (hf : sc.world.failure = some f) :
    hist.head? = some f ∨
      hist = [] ∧ w.threads.size = 0 ∧ .close ∈ acts ++ [a] ∧
        writesIn (beforeClose (acts ++ [a])) = [] ∧
        ∃ m, (plansAdded (beforeClose (acts ++ [a]))).findSome? SinkPlan.closeFailure = some m ∧
          f = Error.io .close ⟨.other, some m⟩ := by
  rcases h.kept f hf with hk | ⟨hn, hz', hc, hw, hrest⟩
  · exact .inl hk
  · refine .inr ⟨hn, hz hc hz', by simp [hc], ?_⟩
    rw [beforeClose_snoc, if_pos hc]
    exact ⟨hw, hrest⟩

/-- Adding a sink: it is held while the writer is idle, given a worker while it runs, and
dropped once it is closed. -/
theorem addSink (h : Propagating acts hist sc) (hs : sc.sending = none) (p : SinkPlan) :
    Propagating (acts ++ [.addSink p]) hist ⟨sc.world.addSink p, none⟩ := by
  have hsize := h.size
  have hsinks : ∀ i, (sc.world.addSink p).sinks[i]? =
      if i = sc.world.sinks.size then some (Sink.new p) else sc.world.sinks[i]? := fun i => by
    rw [World.addSink_sinks, Array.getElem?_push]
  have hthreads : ∀ j, (sc.world.addSink p).threads[j]? =
      if sc.world.phase = .running ∧ j = sc.world.sinks.size then
        some ⟨sc.world.sinks.size, [], .draining⟩
      else sc.world.threads[j]? := fun j => by
    rw [World.addSink_threads]
    split
    · rename_i hr
      rw [Array.getElem?_push, h.running hr]
      by_cases hj : j = sc.world.sinks.size <;> simp [hj, hr]
    · rename_i hr
      simp [hr]
  have hold : ∀ {i s}, sc.world.sinks[i]? = some s → i ≠ sc.world.sinks.size := fun hs' hi => by
    rw [hi, Array.getElem?_eq_none (Nat.le_refl _)] at hs'; cases hs'
  have hnew : writesAfter sc.world.sinks.size (acts ++ [.addSink p]) = [] := by
    rw [hsize]; exact writesAfter_snoc_addSink acts p
  have hbare : Bare (acts ++ [.addSink p]) sc.world.sinks.size (Sink.new p) := by
    rw [hsize]; exact Bare.new acts p
  have hcl : ∀ {a : Act}, a = .close → ¬ a = .addSink p := fun h' h'' => by rw [h'] at h''; cases h''
  refine
    { plans := fun i => ?_
      closed_iff := by simpa using h.closed_iff
      joining_iff := by simpa using h.joining_iff
      idle := fun hi => ?_
      running := fun hr => ?_
      threads_le := ?_
      waiting := fun hp => ?_
      sending := fun d k hsd => by cases hsd
      joined := fun hj => ?_
      threads := fun j t ht => ?_
      stopped := fun hr j t ht => ?_
      reports := by simpa using h.reports
      kept := fun f hf => ?_
      forms := h.forms
      noticed := fun i s hs' hf => ?_
      traced := fun hne => ?_
      worked := fun i s t hs' ht => ?_
      bare := fun i s hs' ht => ?_ }
  · rw [hsinks, plansAdded_append, List.getElem?_append, ← hsize]
    by_cases hi : i = sc.world.sinks.size
    · simp [hi, Sink.new]
    · rw [if_neg hi]
      by_cases hlt : i < sc.world.sinks.size
      · rw [if_pos hlt, h.plans]
      · rw [if_neg hlt, Array.getElem?_eq_none (by omega)]
        simp only [Option.map_none, plansAdded_cons_addSink, plansAdded_nil]
        rw [List.getElem?_cons, if_neg (by omega)]
        simp
  · simp only [World.addSink_phase] at hi
    obtain ⟨h₁, h₂, h₃, h₄⟩ := h.idle hi
    refine ⟨?_, ?_, by rw [writesIn_append, h₃]; rfl, by simpa using h₄⟩
    · simp [World.addSink_threads, hi, h₁]
    · simp [World.addSink_waiting, hi, h₂, List.range_succ]
  · simp only [World.addSink_phase] at hr
    simp [World.addSink_threads, hr, h.running hr]
  · have := h.threads_le
    rw [World.addSink_threads, World.addSink_sinks]
    split <;> simp <;> omega
  · simp only [World.addSink_phase] at hp
    simp [World.addSink_waiting, hp, h.waiting hp]
  · have hj' : Act.join ∈ acts := by simpa using hj
    obtain ⟨hph, hend⟩ := h.joined hj'
    refine ⟨by simpa using hph, fun j t ht => hend j t ?_⟩
    simpa [hthreads, hph] using ht
  · rw [hthreads] at ht
    split at ht
    · rename_i hc
      cases ht
      exact hc.2.symm
    · exact h.threads j t ht
  · simp only [World.addSink_phase] at hr
    rw [hthreads] at ht
    split at ht
    · cases ht; intro hd; exact absurd rfl hd
    · exact h.stopped hr j t ht
  · exact h.kept_quiet (fun hc hz => by simp [World.addSink_threads, h.closed_iff.2 hc, hz])
      (by simpa using hf)
  · rw [hsinks] at hs'
    split at hs'
    · rename_i hi
      cases hs'
      rcases hf with hf | hf
      · simp [Sink.new] at hf
      · exact absurd rfl hf.1
    · rw [h.take_snoc hs'] at hf
      simpa using h.noticed i s hs' hf
  · obtain ⟨i, s, hs', hf⟩ := h.traced hne
    refine ⟨i, s, by rw [hsinks, if_neg (hold hs')]; exact hs', ?_⟩
    rw [h.take_snoc hs']
    exact hf
  · rw [hsinks] at hs'
    rw [hthreads] at ht
    split at hs'
    · rename_i hi
      cases hs'
      subst hi
      split at ht
      · cases ht
        exact ⟨[], hbare.spawn rfl _, fun _ _ => .inl ⟨hnew, fun d k hsd => by cases hsd⟩⟩
      · rename_i hc
        rw [Array.getElem?_eq_none (h.threads_le)] at ht
        cases ht
    · rename_i hi
      rw [if_neg (fun hc => hi hc.2)] at ht
      obtain ⟨given, hg, hc⟩ := h.worked i s t hs' ht
      rw [h.writesAfter_quiet hs' (by simp)]
      exact ⟨given, hg, fun hr hf => by
        rw [← hs]; exact hc (by simpa using hr) (by simpa using hf)⟩
  · rw [hsinks] at hs'
    rw [hthreads] at ht
    split at hs'
    · rename_i hi
      cases hs'
      subst hi
      exact hbare
    · rename_i hi
      rw [if_neg (fun hc => hi hc.2)] at ht
      exact (h.bare i s hs' ht).quiet (by simp)

theorem writesAfter_write (h : Propagating acts hist sc) {i : Nat} {s : Sink}
    (hs : sc.world.sinks[i]? = some s) (d : List UInt8) :
    writesAfter i (acts ++ [.write d]) = writesAfter i acts ++ [d] := by
  have hi : i < (plansAdded acts).length := by
    rw [← h.size]; exact (Array.getElem?_eq_some_iff.1 hs).1
  rw [writesAfter_snoc hi]
  rfl

/-- A write to a closed writer, or to one that kept a failure, answers at once and changes
nothing. -/
theorem write_refused (h : Propagating acts hist sc) (hs : sc.sending = none)
    (hw : sc.world.phase = .closed ∨ sc.world.failure ≠ none) (d : List UInt8) :
    Propagating (acts ++ [.write d]) hist sc := by
  have hsc : sc = ⟨sc.world, none⟩ := by rw [← hs]
  have hnc : ¬(sc.world.phase = .running ∧ sc.world.failure = none) := by
    rintro ⟨hr, hf⟩
    rcases hw with hw | hw
    · rw [hr] at hw; cases hw
    · exact hw hf
  have hnidle : sc.world.phase ≠ .idle := fun hi => by
    rcases hw with hw | hw
    · rw [hi] at hw; cases hw
    · exact hw (h.idle hi).2.2.2
  refine
    { plans := by simpa using h.plans
      closed_iff := by simpa using h.closed_iff
      joining_iff := by simpa using h.joining_iff
      idle := fun hi => absurd hi hnidle
      running := h.running
      threads_le := h.threads_le
      waiting := h.waiting
      sending := fun d k hsd => by rw [hs] at hsd; cases hsd
      joined := fun hj => h.joined (by simpa using hj)
      threads := h.threads
      stopped := h.stopped
      reports := h.reports
      kept := fun f hf => h.kept_quiet (fun _ => id) hf
      forms := h.forms
      noticed := fun i s hs' hf => h.noticed i s hs' (by rwa [h.take_snoc hs'] at hf)
      traced := fun hne => ?_
      worked := fun i s t hs' ht => ?_
      bare := fun i s hs' ht => (h.bare i s hs' ht).quiet (by simp) }
  · obtain ⟨i, s, hs', hf⟩ := h.traced hne
    exact ⟨i, s, hs', by rwa [h.take_snoc hs']⟩
  · obtain ⟨given, hg, _⟩ := h.worked i s t hs' ht
    rw [h.writesAfter_write hs']
    exact ⟨given, hg.write d, fun hr hf => absurd ⟨hr, hf⟩ hnc⟩

/-- An idle writer starts a worker for each sink it holds, before the first write begins. -/
theorem start (h : Propagating acts hist sc) (hi : sc.world.phase = .idle) :
    Propagating acts hist ⟨sc.world.start, none⟩ := by
  obtain ⟨hz, hwait, hwr, hf⟩ := h.idle hi
  have hc : Act.close ∉ acts := fun hc => by simp [h.closed_iff.2 hc] at hi
  have hjoin : sc.world.joining = false := by
    cases hj : sc.world.joining
    · rfl
    · exact absurd (h.joining_iff.1 hj).1 hc
  have hthreads : ∀ j, sc.world.start.threads[j]? =
      if j < sc.world.sinks.size then some ⟨j, [], .draining⟩ else none := fun j => by
    rw [World.start_eq, hwait, Array.size_eq_zero_iff.1 hz]
    by_cases hj : j < sc.world.sinks.size <;> simp [hj]
  have hsize : sc.world.start.threads.size = sc.world.sinks.size := by
    simp [World.start_eq, hwait, hz]
  have hwa : ∀ i, writesAfter i acts = [] := fun i =>
    List.eq_nil_of_suffix_nil (hwr ▸ writesAfter_suffix i acts)
  refine
    { plans := by simpa [World.start_eq] using h.plans
      closed_iff := by simp [World.start_eq, hc]
      joining_iff := by simp [World.start_eq, hjoin, hc]
      idle := fun hi' => by simp [World.start_eq] at hi'
      running := fun _ => by simpa [World.start_eq] using hsize
      threads_le := by simp [World.start_eq] at hsize ⊢; omega
      waiting := fun _ => by simp [World.start_eq]
      sending := fun d k hsd => by cases hsd
      joined := fun hj => absurd (h.joined hj).1 (by simp [hi])
      threads := fun j t ht => ?_
      stopped := fun _ j t ht => ?_
      reports := fun hf' => by simpa [World.start_eq] using h.reports (by simpa [World.start_eq] using hf')
      kept := fun f hf' => by simp [World.start_eq, hf] at hf'
      forms := h.forms
      noticed := fun i s hs' hf' => by
        simpa [World.start_eq] using h.noticed i s (by simpa [World.start_eq] using hs') hf'
      traced := fun hne => by simpa [World.start_eq] using h.traced hne
      worked := fun i s t hs' ht => ?_
      bare := fun i s hs' ht => ?_ }
  · rw [hthreads] at ht
    split at ht
    · cases ht; rfl
    · cases ht
  · rw [hthreads] at ht
    split at ht
    · cases ht; exact fun h' => absurd rfl h'
    · cases ht
  · have hs'' : sc.world.sinks[i]? = some s := by simpa [World.start_eq] using hs'
    rw [hthreads] at ht
    split at ht
    · rename_i hlt
      cases ht
      have hnone : sc.world.threads[i]? = none := Array.getElem?_eq_none (by omega)
      have hb := h.bare i s hs'' hnone
      have hcl : s.closes = 0 := by simpa [hc] using hb.closes
      exact ⟨[], hb.spawn hcl _, fun _ _ => .inl ⟨hwa i, fun d k hsd => by cases hsd⟩⟩
    · cases ht
  · rw [hthreads] at ht
    split at ht
    · cases ht
    · rename_i hlt
      exact absurd (by simpa [World.start_eq] using (Array.getElem?_eq_some_iff.1 hs').1) hlt

/-- A write to a running writer that kept no failure begins, having sent to no worker yet. -/
theorem write_begins (h : Propagating acts hist sc) (hs : sc.sending = none)
    (hr : sc.world.phase = .running) (hf : sc.world.failure = none) (d : List UInt8) :
    Propagating (acts ++ [.write d]) hist ⟨sc.world, some (d, 0)⟩ := by
  have hnidle : sc.world.phase ≠ .idle := by rw [hr]; simp
  refine
    { plans := by simpa using h.plans
      closed_iff := by simpa using h.closed_iff
      joining_iff := by simpa using h.joining_iff
      idle := fun hi => absurd hi hnidle
      running := h.running
      threads_le := h.threads_le
      waiting := h.waiting
      sending := fun d' k hsd => by
        simp only [Option.some.injEq, Prod.mk.injEq] at hsd
        exact ⟨hr, hf, by omega⟩
      joined := fun hj => absurd (h.joined (by simpa using hj)).1 (by rw [hr]; simp)
      threads := h.threads
      stopped := h.stopped
      reports := h.reports
      kept := fun f hf' => by rw [hf] at hf'; cases hf'
      forms := h.forms
      noticed := fun i s hs' hf' => h.noticed i s hs' (by rwa [h.take_snoc hs'] at hf')
      traced := fun hne => ?_
      worked := fun i s t hs' ht => ?_
      bare := fun i s hs' ht => (h.bare i s hs' ht).quiet (by simp) }
  · obtain ⟨i, s, hs', hf'⟩ := h.traced hne
    exact ⟨i, s, hs', by rwa [h.take_snoc hs']⟩
  · obtain ⟨given, hg, hc⟩ := h.worked i s t hs' ht
    rw [h.writesAfter_write hs']
    refine ⟨given, hg.write d, fun _ _ => .inr ⟨d, 0, rfl, Nat.zero_le _, ?_⟩⟩
    rcases hc hr hf with ⟨hds, _⟩ | ⟨_, _, hsd, _⟩
    · rw [hds]
    · rw [hs] at hsd; cases hsd

theorem writesAfter_send (h : Propagating acts hist sc) {i : Nat} {s : Sink}
    (hs : sc.world.sinks[i]? = some s) {a : Act} (ha : a = .send ∨ a = .take) :
    writesAfter i (acts ++ [a]) = writesAfter i acts :=
  h.writesAfter_quiet hs (by rcases ha with rfl | rfl <;> simp)

/-- The select receives the oldest failure reported: the writer keeps it, and the write in
progress ends. -/
theorem receive (h : Propagating acts hist sc) {d : List UInt8} {k : Nat}
    (hsd : sc.sending = some (d, k)) {e : Error} {rest : List Error}
    (hr : sc.world.reports = e :: rest) {a : Act} (ha : a = .send ∨ a = .take) :
    Propagating (acts ++ [a]) hist ⟨{ sc.world with reports := rest, failure := some e }, none⟩ := by
  obtain ⟨hrun, hf, _⟩ := h.sending d k hsd
  have hhist : hist = e :: rest := by rw [← h.reports hf, hr]
  have hc : Act.close ∉ acts := fun hc => by simp [h.closed_iff.2 hc] at hrun
  have hac : a ≠ .close := by rcases ha with rfl | rfl <;> simp
  have hpa : plansAdded (acts ++ [a]) = plansAdded acts := by
    rcases ha with rfl | rfl <;> simp
  refine
    { plans := by simpa [hpa] using h.plans
      closed_iff := by simpa [Ne.symm hac] using h.closed_iff
      joining_iff := by
        rcases ha with rfl | rfl <;> simpa using h.joining_iff
      idle := fun hi => by simp [hrun] at hi
      running := h.running
      threads_le := h.threads_le
      waiting := h.waiting
      sending := fun d k hsd' => by cases hsd'
      joined := fun hj => absurd (h.joined (by rcases ha with rfl | rfl <;> simpa using hj)).1
        (by rw [hrun]; simp)
      threads := h.threads
      stopped := h.stopped
      reports := fun hf' => by cases hf'
      kept := fun f hf' => by
        simp only [Option.some.injEq] at hf'
        subst hf'
        exact .inl (by rw [hhist]; rfl)
      forms := h.forms
      noticed := fun _ _ _ _ => .inr (by simp)
      traced := fun hne => ?_
      worked := fun i s t hs' ht => ?_
      bare := fun i s hs' ht => (h.bare i s hs' ht).quiet hac }
  · obtain ⟨i, s, hs', hf'⟩ := h.traced hne
    exact ⟨i, s, hs', by rwa [h.writesAfter_send hs' ha]⟩
  · obtain ⟨given, hg, _⟩ := h.worked i s t hs' ht
    rw [h.writesAfter_send hs' ha]
    exact ⟨given, hg, fun _ hf' => by cases hf'⟩

/-- A send to a worker that holds its queue gives it the write in progress; the write goes on
with the next worker. -/
theorem send_gives (h : Propagating acts hist sc) {d : List UInt8} {k : Nat}
    (hsd : sc.sending = some (d, k)) {t : Thread} (ht : sc.world.threads[k]? = some t)
    (hh : t.stage.holds) :
    Propagating (acts ++ [.send]) hist
      ⟨sc.world.modifyThread k fun t => { t with queue := t.queue ++ [d] }, some (d, k + 1)⟩ := by
  obtain ⟨hrun, hf, _⟩ := h.sending d k hsd
  have hk : k < sc.world.threads.size := (Array.getElem?_eq_some_iff.1 ht).1
  have hthreads : ∀ j, (sc.world.modifyThread k fun t => { t with queue := t.queue ++ [d] }).threads[j]? =
      if j = k then some { t with queue := t.queue ++ [d] } else sc.world.threads[j]? := fun j => by
    rw [World.modifyThread_getElem?]; split <;> simp_all
  refine
    { plans := by simpa [World.modifyThread] using h.plans
      closed_iff := by simpa [World.modifyThread] using h.closed_iff
      joining_iff := by simpa [World.modifyThread] using h.joining_iff
      idle := fun hi => by simp [World.modifyThread, hrun] at hi
      running := fun _ => by simpa [World.modifyThread] using h.running hrun
      threads_le := by simpa [World.modifyThread] using h.threads_le
      waiting := fun hp => by simpa [World.modifyThread] using h.waiting (by simpa [World.modifyThread] using hp)
      sending := fun d' k' hsd' => by
        simp only [Option.some.injEq, Prod.mk.injEq] at hsd'
        obtain ⟨rfl, rfl⟩ := hsd'
        simp only [World.modifyThread, Array.size_modify]
        exact ⟨hrun, hf, hk⟩
      joined := fun hj => absurd (h.joined (by simpa using hj)).1 (by rw [hrun]; simp)
      threads := fun j t' ht' => ?_
      stopped := fun _ j t' ht' => ?_
      reports := fun _ => h.reports hf
      kept := fun f hf' => by simp [World.modifyThread, hf] at hf'
      forms := h.forms
      noticed := fun i s hs' hf' => by
        simpa [World.modifyThread] using
          h.noticed i s (by simpa [World.modifyThread] using hs') (by
            rwa [h.writesAfter_send (by simpa [World.modifyThread] using hs') (.inl rfl)] at hf')
      traced := fun hne => ?_
      worked := fun i s t' hs' ht' => ?_
      bare := fun i s hs' ht' => ?_ }
  · rw [hthreads] at ht'
    split at ht'
    · rename_i hj; cases ht'; subst hj; exact h.threads _ t ht
    · exact h.threads j t' ht'
  · rw [hthreads] at ht'
    split at ht'
    · cases ht'; exact h.stopped hrun k t ht
    · exact h.stopped hrun j t' ht'
  · obtain ⟨i, s, hs', hf'⟩ := h.traced hne
    exact ⟨i, s, by simpa [World.modifyThread] using hs', by rwa [h.writesAfter_send hs' (.inl rfl)]⟩
  · have hs'' : sc.world.sinks[i]? = some s := by simpa [World.modifyThread] using hs'
    rw [h.writesAfter_send hs'' (.inl rfl)]
    rw [hthreads] at ht'
    split at ht'
    · rename_i hik
      cases ht'
      subst hik
      obtain ⟨given, hg, hc⟩ := h.worked i s t hs'' ht
      have hds : writesAfter i acts = given ++ [d] := by
        rcases hc hrun hf with ⟨_, hlt⟩ | ⟨d', k', hsd', _, hds⟩
        · exact absurd (hlt d i hsd) (Nat.lt_irrefl i)
        · rw [hsd] at hsd'
          simp only [Option.some.injEq, Prod.mk.injEq] at hsd'
          rw [hsd'.1]; exact hds
      refine ⟨given ++ [d], hg.give hh (hds ▸ List.prefix_refl _), fun _ _ => ?_⟩
      exact .inl ⟨hds, fun d' k' hsd' => by
        simp only [Option.some.injEq, Prod.mk.injEq] at hsd'
        omega⟩
    · rename_i hik
      obtain ⟨given, hg, hc⟩ := h.worked i s t' hs'' ht'
      refine ⟨given, hg, fun _ _ => ?_⟩
      rcases hc hrun hf with ⟨hds, hlt⟩ | ⟨d', k', hsd', hki, hds⟩
      · exact .inl ⟨hds, fun d'' k'' hsd'' => by
          simp only [Option.some.injEq, Prod.mk.injEq] at hsd''
          have := hlt d k hsd
          omega⟩
      · rw [hsd] at hsd'
        simp only [Option.some.injEq, Prod.mk.injEq] at hsd'
        obtain ⟨rfl, rfl⟩ := hsd'
        exact .inr ⟨d, k + 1, rfl, by omega, hds⟩
  · have hs'' : sc.world.sinks[i]? = some s := by simpa [World.modifyThread] using hs'
    rw [hthreads] at ht'
    split at ht'
    · cases ht'
    · exact (h.bare i s hs'' ht').quiet (by simp)

/-- After the last worker the write answers the length of its data; every worker was given
it. -/
theorem send_ends (h : Propagating acts hist sc) {d : List UInt8} {k : Nat}
    (hsd : sc.sending = some (d, k)) (hk : sc.world.threads.size ≤ k) :
    Propagating (acts ++ [.send]) hist ⟨sc.world, none⟩ := by
  obtain ⟨hrun, hf, _⟩ := h.sending d k hsd
  refine
    { plans := by simpa using h.plans
      closed_iff := by simpa using h.closed_iff
      joining_iff := by simpa using h.joining_iff
      idle := fun hi => by simp [hrun] at hi
      running := h.running
      threads_le := h.threads_le
      waiting := h.waiting
      sending := fun d k hsd' => by cases hsd'
      joined := fun hj => absurd (h.joined (by simpa using hj)).1 (by rw [hrun]; simp)
      threads := h.threads
      stopped := h.stopped
      reports := h.reports
      kept := fun f hf' => by rw [show sc.world.failure = none from hf] at hf'; cases hf'
      forms := h.forms
      noticed := fun i s hs' hf' =>
        h.noticed i s hs' (by rwa [h.writesAfter_send hs' (.inl rfl)] at hf')
      traced := fun hne => ?_
      worked := fun i s t hs' ht => ?_
      bare := fun i s hs' ht => (h.bare i s hs' ht).quiet (by simp) }
  · obtain ⟨i, s, hs', hf'⟩ := h.traced hne
    exact ⟨i, s, hs', by rwa [h.writesAfter_send hs' (.inl rfl)]⟩
  · obtain ⟨given, hg, hc⟩ := h.worked i s t hs' ht
    rw [h.writesAfter_send hs' (.inl rfl)]
    have hi : i < sc.world.threads.size := (Array.getElem?_eq_some_iff.1 ht).1
    refine ⟨given, hg, fun _ _ => .inl ⟨?_, fun _ _ hsd' => by cases hsd'⟩⟩
    rcases hc hrun hf with ⟨hds, _⟩ | ⟨d', k', hsd', hki, _⟩
    · exact hds
    · rw [hsd] at hsd'
      simp only [Option.some.injEq, Prod.mk.injEq] at hsd'
      omega

theorem plans_toList (h : Propagating acts hist sc) :
    sc.world.sinks.toList.map Sink.plan = plansAdded acts := by
  apply List.ext_getElem?
  intro i
  rw [List.getElem?_map, Array.getElem?_toList, h.plans]

/-- Closing a closed writer answers at once and changes nothing. -/
theorem close_again (h : Propagating acts hist sc) (hs : sc.sending = none)
    (hcl : sc.world.phase = .closed) : Propagating (acts ++ [.close]) hist sc := by
  have hc : Act.close ∈ acts := h.closed_iff.1 hcl
  refine
    { plans := by simpa using h.plans
      closed_iff := by simp [hcl]
      joining_iff := by simpa [hc] using h.joining_iff
      idle := fun hi => by simp [hcl] at hi
      running := h.running
      threads_le := h.threads_le
      waiting := h.waiting
      sending := fun d k hsd => by rw [hs] at hsd; cases hsd
      joined := fun hj => h.joined (by simpa using hj)
      threads := h.threads
      stopped := h.stopped
      reports := h.reports
      kept := fun f hf => ?_
      forms := h.forms
      noticed := fun i s hs' hf => h.noticed i s hs' (by rwa [h.writesAfter_quiet hs' (by simp)] at hf)
      traced := fun hne => ?_
      worked := fun i s t hs' ht => ?_
      bare := fun i s hs' ht => (h.bare i s hs' ht).again hc }
  · exact h.kept_quiet (fun _ => id) hf
  · obtain ⟨i, s, hs', hf⟩ := h.traced hne
    exact ⟨i, s, hs', by rwa [h.writesAfter_quiet hs' (by simp)]⟩
  · obtain ⟨given, hg, _⟩ := h.worked i s t hs' ht
    rw [h.writesAfter_quiet hs' (by simp)]
    exact ⟨given, hg, fun hr => by simp [hcl] at hr⟩

/-- Closing a running writer lets go of every queue; the close returns later. -/
theorem close_running (h : Propagating acts hist sc) (hr : sc.world.phase = .running) :
    Propagating (acts ++ [.close]) hist ⟨{ sc.world with phase := .closed, joining := true }, none⟩ := by
  have hc : Act.close ∉ acts := fun hc => by simp [h.closed_iff.2 hc] at hr
  have hj : Act.join ∉ acts := fun hj => by simp [(h.joined hj).1] at hr
  refine
    { plans := by simpa using h.plans
      closed_iff := by simp
      joining_iff := by simp [hj]
      idle := fun hi => by simp at hi
      running := fun hr' => by simp at hr'
      threads_le := h.threads_le
      waiting := fun _ => h.waiting (by simp [hr])
      sending := fun d k hsd => by cases hsd
      joined := fun hj' => absurd (by simpa using hj') hj
      threads := h.threads
      stopped := fun hr' => by simp at hr'
      reports := h.reports
      kept := fun f hf => ?_
      forms := h.forms
      noticed := fun i s hs' hf => h.noticed i s hs' (by rwa [h.writesAfter_quiet hs' (by simp)] at hf)
      traced := fun hne => ?_
      worked := fun i s t hs' ht => ?_
      bare := fun i s hs' ht => ?_ }
  · rcases h.kept f hf with hk | ⟨_, _, hc', _⟩
    · exact .inl hk
    · exact absurd hc' hc
  · obtain ⟨i, s, hs', hf⟩ := h.traced hne
    exact ⟨i, s, hs', by rwa [h.writesAfter_quiet hs' (by simp)]⟩
  · obtain ⟨given, hg, _⟩ := h.worked i s t hs' ht
    rw [h.writesAfter_quiet hs' (by simp)]
    exact ⟨given, hg, fun hr' => by simp at hr'⟩
  · -- a running writer gave every sink a worker
    have hi : i < sc.world.sinks.size := (Array.getElem?_eq_some_iff.1 hs').1
    have ht' : sc.world.threads[i]? = none := ht
    rw [Array.getElem?_eq_none_iff, h.running hr] at ht'
    omega

/-- Closing an idle writer closes its sinks on the caller's side, in the order they were added,
and keeps the first failing close. -/
theorem close_idle (h : Propagating acts hist sc) (hcalm : ∀ p ∈ plansAdded acts, p.Calm)
    (hi : sc.world.phase = .idle) :
    ∃ w', sc.world.closeWaiting sc.world.waiting = some w' ∧
      Propagating (acts ++ [.close]) hist
        ⟨{ w' with waiting := [], phase := .closed, joining := true }, none⟩ := by
  obtain ⟨hz, hwait, hwr, hf⟩ := h.idle hi
  have hc : Act.close ∉ acts := fun hc => by simp [h.closed_iff.2 hc] at hi
  have hj : Act.join ∉ acts := fun hj => by simp [(h.joined hj).1] at hi
  have hnil := h.hist_of_idle hi
  have hnone : ∀ i, sc.world.threads[i]? = none := fun i => Array.getElem?_eq_none (by omega)
  have hbc : beforeClose (acts ++ [.close]) = acts := by
    rw [beforeClose_snoc, if_neg hc, if_pos rfl]
  obtain ⟨ss, hcw, hss⟩ := World.closeWaiting_calm (w := sc.world)
    (l := List.range sc.world.sinks.size) List.nodup_range fun i _ s hs' => by
      have hb := h.bare i s hs' (hnone i)
      exact ⟨h.calm hcalm hs', hb.released (by simpa [hc] using hb.closes)⟩
  rw [hwait]
  refine ⟨_, hcw, ?_⟩
  have hfirst := World.firstCloseError_range sc.world
  rw [h.plans_toList] at hfirst
  have hsinks : ∀ i, ss[i]? = (sc.world.sinks[i]?).map fun s : Sink => s.close.2 := fun i => by
    rw [hss i]
    split
    · rfl
    · rename_i hi'
      rw [Array.getElem?_eq_none (by simpa using hi')]
      rfl
  refine
    { plans := fun i => by simp [hsinks, Option.map_map, Function.comp_def, h.plans]
      closed_iff := by simp
      joining_iff := by simp [hj]
      idle := fun hi' => by simp at hi'
      running := fun hr' => by simp at hr'
      threads_le := by simp [hz]
      waiting := fun _ => rfl
      sending := fun d k hsd => by cases hsd
      joined := fun hj' => absurd (by simpa using hj') hj
      threads := fun j t ht => by simp [hnone j] at ht
      stopped := fun hr' => by simp at hr'
      reports := fun hf' => by simp only [hf, Option.none_or] at hf'; simpa [hnil] using h.reports hf
      kept := fun f hf' => ?_
      forms := h.forms
      noticed := fun i s' hs' hf' => ?_
      traced := fun hne => absurd hnil hne
      worked := fun i s t hs' ht => by simp [hnone i] at ht
      bare := fun i s' hs' _ => ?_ }
  · simp only [hf, Option.none_or, hfirst, Option.map_eq_some_iff] at hf'
    obtain ⟨m, hm, rfl⟩ := hf'
    refine .inr ⟨hnil, by simp [hz], by simp, ?_, m, ?_, rfl⟩
    · rw [hbc]; exact hwr
    · rw [hbc]; exact hm
  · refine .inr ?_
    simp only [hsinks, Option.map_eq_some_iff] at hs'
    obtain ⟨s, hs, rfl⟩ := hs'
    have hb := h.bare i s hs (hnone i)
    rcases hf' with hf' | hf'
    · have hitems : s.close.2.items = 0 := by rw [Sink.close_items, hb.items]
      rw [hitems, List.take_zero, Sink.feedOk_nil] at hf'
      cases hf'
    · simp only [hf, Option.none_or]
      exact World.firstCloseError_ne_none (List.mem_range.2 (Array.getElem?_eq_some_iff.1 hs).1)
        hs (by simpa using hf'.2)
  · simp only [hsinks, Option.map_eq_some_iff] at hs'
    obtain ⟨s, hs, rfl⟩ := hs'
    have hb := h.bare i s hs (hnone i)
    have hcl : s.closes = 0 := by simpa [hc] using hb.closes
    have hcls := Sink.close_of_calm (h.calm hcalm hs) (hb.released hcl)
    have hlt : i < (plansAdded acts).length := by
      rw [← h.size]; exact (Array.getElem?_eq_some_iff.1 hs).1
    refine ⟨by rw [Sink.close_unclosed, Sink.close_plan]; exact hb.fresh, ?_, ?_⟩
    · rw [hcls, hbc]; simp [hcl, hlt]
    · rw [hcls]; simp

theorem calm_thread (h : Propagating acts hist sc) {j : Nat} {t : Thread}
    (ht : sc.world.threads[j]? = some t) :
    t.stage ≠ .unwinding ∧ t.stage ≠ .panicked := by
  have hj : j < sc.world.sinks.size :=
    Nat.lt_of_lt_of_le (Array.getElem?_eq_some_iff.1 ht).1 h.threads_le
  obtain ⟨given, hg, _⟩ := h.worked j _ t (Array.getElem?_eq_getElem hj) ht
  exact hg.calm

/-- Once every worker ended, `close` returns: it keeps the first failure reported unless one was
kept already, and answers the failure kept. -/
theorem join_eq (h : Propagating acts hist sc) (hj : sc.world.joining = true)
    (hall : sc.world.threads.all (·.stage.over) = true) :
    sc.world.join = some
      ((match sc.world.failure.or hist.head? with
        | some e => .failed e
        | none => .unit),
        { sc.world with reports := [], failure := sc.world.failure.or hist.head?, joining := false }) := by
  have hrep : sc.world.failure.or sc.world.reports.head? = sc.world.failure.or hist.head? := by
    cases hf : sc.world.failure with
    | none => rw [h.reports hf]
    | some f => rfl
  simp only [World.join, hj, hall, Bool.and_self, ↓reduceIte, World.foldl_fail, hrep]
  rw [List.foldl_fixed']
  · cases sc.world.failure.or hist.head? <;> rfl
  · -- no worker panicked, so the panics the join collects are none
    intro k
    rcases ht : sc.world.threads[k]? with _ | t
    · rfl
    · simp [(h.calm_thread ht).2]

/-- `close` returns once every worker ended. -/
theorem join (h : Propagating acts hist sc) (hj : sc.world.joining = true)
    (hall : sc.world.threads.all (·.stage.over) = true) :
    Propagating (acts ++ [.join]) hist
      ⟨{ sc.world with reports := [], failure := sc.world.failure.or hist.head?, joining := false },
        none⟩ := by
  obtain ⟨hc, hnj⟩ := h.joining_iff.1 hj
  have hcl : sc.world.phase = .closed := h.closed_iff.2 hc
  refine
    { plans := by simpa using h.plans
      closed_iff := by simp [hcl, hc]
      joining_iff := by simp
      idle := fun hi => by simp [hcl] at hi
      running := fun hr => by simp [hcl] at hr
      threads_le := h.threads_le
      waiting := fun _ => h.waiting (by simp [hcl])
      sending := fun d k hsd => by cases hsd
      joined := fun _ => ⟨hcl, fun j t ht => ?_⟩
      threads := h.threads
      stopped := fun hr => by simp [hcl] at hr
      reports := fun hf => ?_
      kept := fun f hf => ?_
      forms := h.forms
      noticed := fun i s hs hf => ?_
      traced := fun hne => ?_
      worked := fun i s t hs ht => ?_
      bare := fun i s hs ht => (h.bare i s hs ht).quiet (by simp) }
  · -- every worker ended, and none panicked
    have hover : t.stage.over = true := by
      rw [Array.all_eq_true'] at hall
      exact hall t (Array.mem_of_getElem? ht)
    have hcalm := h.calm_thread ht
    revert hover hcalm
    cases t.stage <;> simp [Stage.over]
  · simp only [Option.or_eq_none_iff, List.head?_eq_none_iff] at hf
    simp [hf.2]
  · cases hf' : sc.world.failure with
    | none =>
      rw [hf', Option.none_or] at hf
      exact .inl hf
    | some f' =>
      rw [hf', Option.some_or, Option.some.injEq] at hf
      subst hf
      exact h.kept_quiet (fun _ => id) hf'
  · rw [h.writesAfter_quiet hs (by simp)] at hf
    rcases h.noticed i s hs hf with hn | hn
    · exact .inl hn
    · exact .inr fun h' => hn (Option.or_eq_none_iff.1 h').1
  · obtain ⟨i, s, hs, hf⟩ := h.traced hne
    exact ⟨i, s, hs, by rwa [h.writesAfter_quiet hs (by simp)]⟩
  · obtain ⟨given, hg, _⟩ := h.worked i s t hs ht
    rw [h.writesAfter_quiet hs (by simp)]
    exact ⟨given, hg, fun hr => by simp [hcl] at hr⟩

/-- A worker's step changes its own thread and sink, and may report failures `r`: the invariant
holds after it as soon as it holds of that thread and sink. -/
theorem work_frame (h : Propagating acts hist sc) {j : Nat} {t t' : Thread} {s s' : Sink}
    (ht : sc.world.threads[j]? = some t) (hs : sc.world.sinks[j]? = some s) (hnj : .join ∉ acts)
    {r : List Error} {w' : World} (hw : sc.world.Worked w' j t' s' r)
    (hsink : t'.sink = j) (hplan : s'.plan = s.plan)
    (htake : ∃ given, Taking (writesAfter j acts) given t' s' ∧
      (sc.world.phase = .running → sc.world.failure = none →
        Complete sc.sending j (writesAfter j acts) given))
    (hstop : sc.world.phase = .running → t'.stage ≠ .draining → hist ++ r ≠ [])
    (hforms : ∀ e ∈ r, e.FromSink)
    (hnot : s'.Failed ((writesAfter j acts).take s'.items) →
      hist ++ r ≠ [] ∨ sc.world.failure ≠ none)
    (htr : r ≠ [] → s'.Failed ((writesAfter j acts).take s'.items))
    (hkeep : s.Failed ((writesAfter j acts).take s.items) →
      s'.Failed ((writesAfter j acts).take s'.items)) :
    Propagating (acts ++ [.work j]) (hist ++ r) ⟨w', sc.sending⟩ := by
  obtain ⟨hth, hsk, hthsize, hsksize, hrep, hfail, hph, hjoin, hwait⟩ := hw
  have hwa : ∀ i, writesAfter i (acts ++ [.work j]) = writesAfter i acts := fun i => by
    rcases hi : sc.world.sinks[i]? with _ | s₀
    · have hle : (plansAdded acts).length ≤ i := by
        rw [← h.size]; exact Array.getElem?_eq_none_iff.1 hi
      rw [writesAfter_of_le hle, writesAfter_of_le (by simpa using hle)]
    · exact h.writesAfter_quiet hi (by simp)
  have hnil : hist ≠ [] → hist ++ r ≠ [] := fun hne => by simp [hne]
  have hidle : sc.world.phase ≠ .idle := fun hi => by
    have := (h.idle hi).1
    have := (Array.getElem?_eq_some_iff.1 ht).1
    omega
  refine
    { plans := fun i => ?_
      closed_iff := by simpa [hph] using h.closed_iff
      joining_iff := by simpa [hjoin] using h.joining_iff
      idle := fun hi => absurd (hph ▸ hi) hidle
      running := fun hr => by rw [hthsize, hsksize]; exact h.running (hph ▸ hr)
      threads_le := by rw [hthsize, hsksize]; exact h.threads_le
      waiting := fun hp => by rw [hwait]; exact h.waiting (hph ▸ hp)
      sending := fun d k hsd => by
        rw [hph, hfail, hthsize]; exact h.sending d k hsd
      joined := fun hj => absurd (by simpa using hj) hnj
      threads := fun k t'' ht'' => ?_
      stopped := fun hr k t'' ht'' => ?_
      reports := fun hf => by rw [hrep, h.reports (hfail ▸ hf)]
      kept := fun f hf => ?_
      forms := fun e he => ?_
      noticed := fun i s'' hs'' hf => ?_
      traced := fun hne => ?_
      worked := fun i s'' t'' hs'' ht'' => ?_
      bare := fun i s'' hs'' ht'' => ?_ }
  · rw [hsk, plansAdded_append, plansAdded_cons_work, plansAdded_nil, List.append_nil, ← h.plans i]
    split
    · rename_i hi; subst hi; simp [hs, hplan]
    · rfl
  · rw [hth] at ht''
    split at ht''
    · cases ht''; rename_i hk; rw [hk]; exact hsink
    · exact h.threads k t'' ht''
  · rw [hph] at hr
    rw [hth] at ht''
    split at ht''
    · cases ht''; exact hstop hr
    · exact fun hd => hnil (h.stopped hr k t'' ht'' hd)
  · rcases h.kept f (hfail ▸ hf) with hk | ⟨_, hz, _⟩
    · rw [List.head?_append, hk]
      exact .inl rfl
    · have := (Array.getElem?_eq_some_iff.1 ht).1
      omega
  · rcases List.mem_append.1 he with he | he
    · exact h.forms e he
    · exact hforms e he
  · rw [hsk] at hs''
    rw [hwa] at hf
    split at hs''
    · rename_i hi; cases hs''; subst hi; rw [hfail]; exact hnot hf
    · rw [hfail]
      rcases h.noticed i s'' hs'' hf with hn | hn
      · exact .inl (hnil hn)
      · exact .inr hn
  · by_cases hr : r = []
    · subst hr
      rw [List.append_nil] at hne
      obtain ⟨i, s₀, hs₀, hf⟩ := h.traced hne
      by_cases hi : i = j
      · subst hi
        rw [hs] at hs₀
        cases hs₀
        exact ⟨i, s', by rw [hsk, if_pos rfl], by rw [hwa]; exact hkeep hf⟩
      · exact ⟨i, s₀, by rw [hsk, if_neg hi]; exact hs₀, by rw [hwa]; exact hf⟩
    · exact ⟨j, s', by rw [hsk, if_pos rfl], by rw [hwa]; exact htr hr⟩
  · rw [hwa, hph, hfail]
    rw [hsk] at hs''
    rw [hth] at ht''
    split at hs''
    · rename_i hi
      cases hs''
      rw [if_pos hi] at ht''
      cases ht''
      subst hi
      exact htake
    · rename_i hi
      rw [if_neg hi] at ht''
      exact h.worked i s'' t'' hs'' ht''
  · rw [hsk] at hs''
    rw [hth] at ht''
    split at hs''
    · rename_i hi
      rw [if_pos hi] at ht''
      cases ht''
    · rename_i hi
      rw [if_neg hi] at ht''
      exact (h.bare i s'' hs'' ht'').quiet (by simp)

/-- A worker's step: it writes the next item it holds to its sink, lets go of its queue after a
failure or once the writer let go of it and it is empty, or closes its sink. What it reports goes
to the end of the error channel. -/
theorem work (h : Propagating acts hist sc) (hcalm : ∀ p ∈ plansAdded acts, p.Calm) {j : Nat}
    {w' : World} (hw : sc.world.work j = some w') :
    Propagating (acts ++ [.work j]) (hist ++ w'.reports.drop sc.world.reports.length)
      ⟨w', sc.sending⟩ := by
  rcases ht : sc.world.threads[j]? with _ | t
  · simp [World.work, ht] at hw
  have hsink := h.threads j t ht
  have hj : j < sc.world.sinks.size :=
    Nat.lt_of_lt_of_le (Array.getElem?_eq_some_iff.1 ht).1 h.threads_le
  obtain ⟨s, hs⟩ : ∃ s, sc.world.sinks[j]? = some s := ⟨_, Array.getElem?_eq_getElem hj⟩
  obtain ⟨given, hg, hcomp⟩ := h.worked j s t hs ht
  have hsc := h.calm hcalm hs
  have hnj : .join ∉ acts := fun hjn => by
    have := (h.joined hjn).2 j t ht
    simp [World.work, ht, this] at hw
  have hnot_same : s.Failed ((writesAfter j acts).take s.items) →
      hist ++ [] ≠ [] ∨ sc.world.failure ≠ none := fun hf => by
    rw [List.append_nil]; exact h.noticed j s hs hf
  obtain ⟨sink, queue, stage⟩ := t
  simp only at hsink
  subst sink
  obtain ⟨hnu, hnp⟩ := hg.calm
  cases stage with
  | draining =>
    cases queue with
    | cons item rest =>
      have hnf := hg.not_failed rfl
      simp only [World.work, ht, hs] at hw
      rcases hdel : s.deliver item with ⟨_ | e | _, s'⟩
      · rw [hdel] at hw
        have hplan : s'.plan = s.plan := by simpa [hdel] using Sink.deliver_plan s item
        have hg' : Taking (writesAfter j acts) given ⟨j, rest, .draining⟩ s' := by
          simpa [hdel] using hg.deliver rfl rfl .draining (by simp [hdel])
        have hwk : sc.world.Worked w' j ⟨j, rest, .draining⟩ s' [] := by
          rw [← Option.some.inj hw]; exact .sink ht hs _ _
        rw [hwk.drop_reports]
        exact h.work_frame ht hs hnj hwk rfl hplan ⟨given, hg', hcomp⟩
          (fun _ hd => absurd rfl hd) (by simp) (fun hf => absurd hf (hg'.not_failed rfl))
          (fun hr => absurd rfl hr) (fun hf => absurd hf hnf)
      · rw [hdel] at hw
        have hplan : s'.plan = s.plan := by simpa [hdel] using Sink.deliver_plan s item
        have hg' : Taking (writesAfter j acts) given ⟨j, rest, .failed⟩ s' := by
          simpa [hdel] using hg.deliver rfl rfl .failed (by simp [hdel])
        have hwk : sc.world.Worked w' j ⟨j, rest, .failed⟩ s' [e] := by
          rw [← Option.some.inj hw]; exact .report ht hs _ _ e
        have hfe : e.FromSink := by
          rcases Sink.deliver_failed (show (s.deliver item).1 = .failed e by rw [hdel]) with
            ⟨m, rfl, hm, _⟩ | ⟨io, rfl, _⟩
          · exact .inl ⟨m, _, rfl, hm⟩
          · exact .inr (.inl ⟨io, rfl⟩)
        rw [hwk.drop_reports]
        exact h.work_frame ht hs hnj hwk rfl hplan ⟨given, hg', hcomp⟩ (fun _ _ => by simp)
          (by simpa using hfe) (fun _ => .inl (by simp))
          (fun _ => .inl (by rw [hg'.take_eq]; exact hg'.failed rfl)) (fun hf => absurd hf hnf)
      · exact absurd hdel fun hd => Sink.deliver_ne_panicked hsc item (by rw [hd])
    | nil =>
      -- the queue's end: the worker lets go of it once the writer did
      simp only [World.work, ht] at hw
      split at hw
      · cases hw
      · rename_i hr
        have hwk : sc.world.Worked w' j ⟨j, [], .closing⟩ s [] := by
          rw [← Option.some.inj hw]; exact .thread ht hs _
        rw [hwk.drop_reports]
        exact h.work_frame ht hs hnj hwk rfl rfl
          ⟨given, hg.leave (by simp), fun hr' => absurd hr' hr⟩ (fun hr' => absurd hr' hr)
          (by simp) hnot_same (fun hr' => absurd rfl hr') id
  | failed =>
    simp only [World.work, ht] at hw
    have hwk : sc.world.Worked w' j ⟨j, [], .closing⟩ s [] := by
      rw [← Option.some.inj hw]; exact .thread ht hs _
    rw [hwk.drop_reports]
    exact h.work_frame ht hs hnj hwk rfl rfl ⟨given, hg.leave (by simp), hcomp⟩
      (fun hr _ => by rw [List.append_nil]; exact h.stopped hr j _ ht (by simp)) (by simp)
      hnot_same (fun hr' => absurd rfl hr') id
  | unwinding => exact absurd rfl hnu
  | closing =>
    simp only [World.work, ht, hs] at hw
    have hcl : s.closes = 0 := by simpa using hg.closes
    have hcls := Sink.close_of_calm hsc (hg.released hcl)
    have hg' := hg.close rfl hsc
    have hstop : sc.world.phase = .running → hist ≠ [] := fun hr =>
      h.stopped hr j _ ht (by simp)
    have hplan := Sink.close_plan s
    have hitems := Sink.close_items s
    rcases hpair : s.close with ⟨d, s'⟩
    rw [hpair] at hw hg' hplan hitems
    simp only at hplan hitems
    have hkeep : s.Failed ((writesAfter j acts).take s.items) →
        s'.Failed ((writesAfter j acts).take s'.items) := by
      rintro (hf | ⟨hc, _⟩)
      · exact .inl (by rw [hitems, hplan]; exact hf)
      · exact absurd hcl hc
    rw [hcls] at hpair
    have hs' := (Prod.mk.inj hpair).2
    rcases hm : s.plan.closeFailure with _ | m
    · have hd : d = .done := by simpa [hm] using (Prod.mk.inj hpair).1.symm
      subst hd
      have hwk : sc.world.Worked w' j ⟨j, queue, .ended⟩ s' [] := by
        rw [← Option.some.inj hw]; exact .sink ht hs _ _
      rw [hwk.drop_reports]
      refine h.work_frame ht hs hnj hwk rfl hplan ⟨given, hg', hcomp⟩
        (fun hr _ => by rw [List.append_nil]; exact hstop hr) (by simp) ?_
        (fun hr' => absurd rfl hr') hkeep
      rintro (hf | ⟨_, hc⟩)
      · exact hnot_same (.inl (by rwa [hitems, hplan] at hf))
      · simp [hplan, hm] at hc
    · have hd : d = .failed (Error.io .close ⟨.other, some m⟩) := by
        simpa [hm] using (Prod.mk.inj hpair).1.symm
      subst hd
      have hwk : sc.world.Worked w' j ⟨j, queue, .ended⟩ s' [Error.io .close ⟨.other, some m⟩] := by
        rw [← Option.some.inj hw]; exact .report ht hs _ _ _
      rw [hwk.drop_reports]
      exact h.work_frame ht hs hnj hwk rfl hplan ⟨given, hg', hcomp⟩ (fun _ _ => by simp)
        (by simpa using .inr (.inr ⟨_, rfl⟩)) (fun _ => .inl (by simp))
        (fun _ => .inr ⟨by rw [← hs']; simp, by simp [hplan, hm]⟩) hkeep
  | ended => simp [World.work, ht] at hw
  | panicked => exact absurd rfl hnp

/-- Every step keeps the invariant; the failures it reports join the history. -/
theorem step (h : Propagating acts hist sc) {a : Act} (hcalm : ∀ p ∈ plansAdded (acts ++ [a]), p.Calm)
    {o : Option Outcome} {sc' : Scene} (hs : sc.step a = some (o, sc')) :
    Propagating (acts ++ [a]) (hist ++ Scene.reportedBy sc sc' a) sc' := by
  have hcalm' : ∀ p ∈ plansAdded acts, p.Calm := fun p hp =>
    hcalm p (by rw [plansAdded_append]; exact List.mem_append_left _ hp)
  cases a with
  | addSink p =>
    obtain ⟨hsend, _, _, rfl⟩ := Scene.step_addSink hs
    simpa [Scene.reportedBy] using h.addSink hsend p
  | write d =>
    obtain ⟨hsend, _, hb⟩ := Scene.step_write hs
    simp only [Scene.reportedBy, List.append_nil]
    have hsc : sc = ⟨sc.world, none⟩ := by rw [← hsend]
    unfold Scene.begin at hb
    rcases hp : sc.world.phase with _ | _ | _
    · -- an idle writer starts its workers first
      have hf := (h.idle hp).2.2.2
      have hst := h.start hp
      have hf' : sc.world.start.failure = none := by simpa [World.start_eq] using hf
      simp only [hp, reduceIte, hf'] at hb
      cases hb
      exact hst.write_begins rfl (by simp [World.start_eq]) hf' d
    · simp only [hp] at hb
      cases hf : sc.world.failure with
      | none =>
        simp only [hf, reduceCtorEq, ↓reduceIte] at hb
        cases hb
        exact h.write_begins hsend hp hf d
      | some e =>
        simp only [hf, reduceCtorEq, ↓reduceIte] at hb
        cases hb
        rw [← hsc]
        exact h.write_refused hsend (.inr (by simp [hf])) d
    · simp only [hp] at hb
      cases hb
      rw [← hsc]
      exact h.write_refused hsend (.inl hp) d
  | send =>
    obtain ⟨d, k, hsd, hb⟩ := Scene.step_send hs
    simp only [Scene.reportedBy, List.append_nil]
    obtain ⟨hrun, hf, _⟩ := h.sending d k hsd
    unfold Scene.sendTo at hb
    split at hb
    · rename_i hk
      obtain ⟨t, ht⟩ : ∃ t, sc.world.threads[k]? = some t := ⟨_, Array.getElem?_eq_getElem hk⟩
      by_cases hh : t.stage.holds
      · simp only [World.queueTo, ht, hh, ↓reduceIte] at hb
        cases hb
        exact h.send_gives hsd ht hh
      · -- the worker let go of its queue after reporting a failure
        have hne := h.stopped hrun k t ht (fun hd => hh (by rw [hd]; rfl))
        rw [← h.reports hf] at hne
        obtain ⟨e, rest, hr⟩ := List.exists_cons_of_ne_nil hne
        simp only [World.queueTo, ht, hh, hr, Bool.false_eq_true, ↓reduceIte, World.fail_snd, hf,
          Option.none_or] at hb
        cases hb
        exact h.receive hsd hr (.inl rfl)
    · rename_i hk
      cases hb
      exact h.send_ends hsd (by omega)
  | take =>
    obtain ⟨d, k, e, rest, hsd, _, hr, _, rfl⟩ := Scene.step_take hs
    obtain ⟨_, hf, _⟩ := h.sending d k hsd
    simp only [Scene.reportedBy, List.append_nil, World.fail_snd, hf, Option.none_or]
    exact h.receive hsd hr (.inr rfl)
  | close =>
    obtain ⟨hsend, _, w', hc, rfl⟩ := Scene.step_close hs
    simp only [Scene.reportedBy, List.append_nil]
    have hsc : sc = ⟨sc.world, none⟩ := by rw [← hsend]
    unfold World.close at hc
    rcases hp : sc.world.phase with _ | _ | _
    · simp only [hp] at hc
      obtain ⟨w'', hcw, hw''⟩ := h.close_idle hcalm' hp
      rw [hcw] at hc
      cases hc
      exact hw''
    · simp only [hp] at hc
      cases hc
      exact h.close_running hp
    · simp only [hp] at hc
      cases hc
      rw [← hsc]
      exact h.close_again hsend hp
  | join =>
    obtain ⟨_, r, w', hj, _, rfl⟩ := Scene.step_join hs
    simp only [Scene.reportedBy, List.append_nil]
    obtain ⟨hjoin, hall⟩ := World.join_cond hj
    rw [h.join_eq hjoin hall] at hj
    cases hj
    exact h.join hjoin hall
  | work j =>
    obtain ⟨w', hw, _, rfl⟩ := Scene.step_work hs
    exact h.work hcalm' hw

/-- The invariant holds after every run of a writer whose sinks do not panic. -/
theorem run {acts : List Act} {outs : List (Option Outcome)} {sc : Scene}
    (hrun : Scene.new.run acts = some (outs, sc)) (hcalm : ∀ p ∈ plansAdded acts, p.Calm) :
    Propagating acts (Scene.new.reportedAlong acts) sc := by
  induction acts using List.reverseRecOn generalizing outs sc with
  | nil =>
    cases hrun
    exact new
  | append_singleton acts a ih =>
    rw [Scene.run_snoc] at hrun
    obtain ⟨⟨outs₀, sc₀⟩, hrun₀, hs⟩ := Option.bind_eq_some_iff.1 hrun
    obtain ⟨⟨o, sc₁⟩, hs₁, heq⟩ := Option.map_eq_some_iff.1 hs
    cases heq
    have hcalm₀ : ∀ p ∈ plansAdded acts, p.Calm := fun p hp =>
      hcalm p (by rw [plansAdded_append]; exact List.mem_append_left _ hp)
    rw [Scene.reportedAlong_snoc hrun₀ hs₁]
    exact (ih hrun₀ hcalm₀).step hcalm hs₁

/-! ## What the invariant says -/

/-- Each sink took, in order, the first of the writes called after it was added, wrote each of
them whole but the last, and took nothing after a failed write. -/
theorem took (h : Propagating acts hist sc) {i : Nat} {s : Sink}
    (hs : sc.world.sinks[i]? = some s) :
    (plansAdded acts)[i]? = some s.plan ∧ s.items ≤ (writesAfter i acts).length ∧
      s.unclosed = (Sink.new s.plan).feed ((writesAfter i acts).take s.items) ∧
      (Sink.new s.plan).feedOk ((writesAfter i acts).take s.items).dropLast = true := by
  have hplan : (plansAdded acts)[i]? = some s.plan := by rw [← h.plans i, hs]; rfl
  rcases ht : sc.world.threads[i]? with _ | t
  · have hb := h.bare i s hs ht
    refine ⟨hplan, by simp [hb.items], ?_, by simp [hb.items]⟩
    rw [hb.items, List.take_zero, Sink.feed_nil]
    exact hb.fresh
  · obtain ⟨given, hg, _⟩ := h.worked i s t hs ht
    rw [hg.take_eq]
    exact ⟨hplan, hg.items_le, hg.fed, hg.ok_but_last⟩

/-- A sink is closed at most once. -/
theorem closes_le (h : Propagating acts hist sc) {i : Nat} {s : Sink}
    (hs : sc.world.sinks[i]? = some s) : s.closes ≤ 1 := by
  rcases ht : sc.world.threads[i]? with _ | t
  · rw [(h.bare i s hs ht).closes]; split <;> simp
  · obtain ⟨given, hg, _⟩ := h.worked i s t hs ht
    rw [hg.closes]; split <;> simp

/-- A closed sink takes nothing more: no step changes the items it took. -/
theorem closed_keeps (h : Propagating acts hist sc) {i : Nat} {s : Sink}
    (hs : sc.world.sinks[i]? = some s) (hc : s.closes = 1) {a : Act} {o : Option Outcome}
    {sc' : Scene} (hst : sc.step a = some (o, sc')) :
    (sc'.world.sinks[i]?).map Sink.items = some s.items := by
  have hi : i < sc.world.sinks.size := (Array.getElem?_eq_some_iff.1 hs).1
  suffices sc'.world.sinks[i]? = sc.world.sinks[i]? by rw [this, hs]; rfl
  cases a with
  | addSink p =>
    obtain ⟨_, _, _, rfl⟩ := Scene.step_addSink hst
    simp [World.addSink_sinks, Array.getElem?_push, Nat.ne_of_lt hi]
  | write d =>
    obtain ⟨_, _, hb⟩ := Scene.step_write hst
    have hsk : (Scene.begin sc.world d).2.world.sinks = sc.world.sinks := by
      unfold Scene.begin
      split
      · rfl
      · dsimp only
        split <;> split <;> simp_all [World.start_eq]
    rw [hb] at hsk
    rw [hsk]
  | send =>
    obtain ⟨d, k, _, hb⟩ := Scene.step_send hst
    unfold Scene.sendTo at hb
    split at hb
    · split at hb
      all_goals
        rename_i heq
        cases hb
        have := World.queueTo_sinks sc.world d [k]
        rw [heq] at this
        simp only at this
        rw [this]
    · cases hb; rfl
  | take =>
    obtain ⟨_, _, _, _, _, _, _, _, rfl⟩ := Scene.step_take hst
    simp [World.fail_snd]
  | close =>
    obtain ⟨_, _, w', hcl, rfl⟩ := Scene.step_close hst
    unfold World.close at hcl
    rcases hp : sc.world.phase with _ | _ | _
    · -- an idle writer closed none of its sinks yet
      have hz := (h.idle hp).1
      have hb := h.bare i s hs (Array.getElem?_eq_none (by omega))
      have hnc : Act.close ∉ acts := fun hc' => by simp [h.closed_iff.2 hc'] at hp
      rw [hb.closes] at hc
      simp [hnc] at hc
    · simp only [hp] at hcl; cases hcl; rfl
    · simp only [hp] at hcl; cases hcl; rfl
  | join =>
    obtain ⟨_, r, w', hj, _, rfl⟩ := Scene.step_join hst
    obtain ⟨hjoin, hall⟩ := World.join_cond hj
    rw [h.join_eq hjoin hall] at hj
    cases hj
    rfl
  | work j =>
    obtain ⟨w', hw, _, rfl⟩ := Scene.step_work hst
    rcases ht : sc.world.threads[j]? with _ | t
    · simp [World.work, ht] at hw
    have hsink := h.threads j t ht
    by_cases hij : i = j
    · -- the sink's own worker ended when it closed the sink
      subst hij
      obtain ⟨given, hg, _⟩ := h.worked i s t hs ht
      have hend : t.stage = .ended := by
        by_contra hne
        rw [hg.closes, if_neg hne] at hc
        cases hc
      simp [World.work, ht, hend] at hw
    · exact World.work_sinks ht hw (by rw [hsink]; exact hij)

/-- Once `close` returned, every sink added before it was closed. -/
theorem closed_after_join (h : Propagating acts hist sc) (hj : .join ∈ acts) {i : Nat}
    (hi : i < (plansAdded (beforeClose acts)).length) :
    ∃ s, sc.world.sinks[i]? = some s ∧ s.closes = 1 := by
  obtain ⟨hcl, hend⟩ := h.joined hj
  have hc : Act.close ∈ acts := h.closed_iff.1 hcl
  have hlt : i < sc.world.sinks.size := by
    rw [h.size]; exact Nat.lt_of_lt_of_le hi (plansAdded_beforeClose_le acts)
  refine ⟨_, Array.getElem?_eq_getElem hlt, ?_⟩
  rcases ht : sc.world.threads[i]? with _ | t
  · rw [(h.bare i _ (Array.getElem?_eq_getElem hlt) ht).closes]
    simp [hc, hi]
  · obtain ⟨given, hg, _⟩ := h.worked i _ t (Array.getElem?_eq_getElem hlt) ht
    rw [hg.closes, hend i t ht]
    rfl

/-- A writer that kept a failure and is not closed answers every write with it at once, and
changes nothing. -/
theorem write_answers_failure (h : Propagating acts hist sc) {f : Error}
    (hf : sc.world.failure = some f) (hp : sc.world.phase ≠ .closed) (d : List UInt8) :
    sc.step (.write d) = some (some (.failed f), sc) := by
  have hr : sc.world.phase = .running := by
    rcases hph : sc.world.phase with _ | _ | _
    · rw [(h.idle hph).2.2.2] at hf; cases hf
    · rfl
    · exact absurd hph hp
  have hsend : sc.sending = none := by
    rcases hsd : sc.sending with _ | ⟨d', k⟩
    · rfl
    · rw [(h.sending d' k hsd).2.1] at hf; cases hf
  have hj : sc.world.joining = false := by
    cases hjn : sc.world.joining
    · rfl
    · exact absurd (h.closed_iff.2 (h.joining_iff.1 hjn).1) (by rw [hr]; simp)
  have hsc : sc = ⟨sc.world, none⟩ := by rw [← hsend]
  simp only [Scene.step, hsend, Option.isSome_none, hj, Bool.or_self, Bool.false_eq_true,
    ↓reduceIte, Scene.begin, hr, reduceCtorEq, hf]
  rw [← hsc]

/-- The close answers the failure kept. -/
theorem join_answers (h : Propagating acts hist sc) {o : Option Outcome} {sc' : Scene}
    (hst : sc.step .join = some (o, sc')) :
    o = some (match sc.world.failure.or hist.head? with
      | some e => .failed e
      | none => .unit) := by
  obtain ⟨_, r, w', hj, ho, _⟩ := Scene.step_join hst
  obtain ⟨hjoin, hall⟩ := World.join_cond hj
  rw [h.join_eq hjoin hall] at hj
  cases hj
  exact ho

/-- The close answers success exactly when no sink failed a write or its close. -/
theorem unit_iff (h : Propagating acts hist sc) :
    sc.world.failure.or hist.head? = none ↔
      ∀ (i : Nat) (s : Sink), sc.world.sinks[i]? = some s →
        ¬ s.Failed ((writesAfter i acts).take s.items) := by
  rw [Option.or_eq_none_iff, List.head?_eq_none_iff]
  constructor
  · rintro ⟨hf, hn⟩ i s hs hfl
    rcases h.noticed i s hs hfl with hne | hne
    · exact hne hn
    · exact hne hf
  · intro hall
    have hn : hist = [] := by
      by_contra hne
      obtain ⟨i, s, hs, hfl⟩ := h.traced hne
      exact hall i s hs hfl
    refine ⟨?_, hn⟩
    rcases hf : sc.world.failure with _ | f
    · rfl
    · rcases h.kept f hf with hk | ⟨_, hz, hc, _, m, hm, _⟩
      · simp [hn] at hk
      · -- the first failing close of an idle writer is a sink that failed its close
        exfalso
        obtain ⟨p, hp, hpm⟩ := List.exists_of_findSome?_eq_some hm
        obtain ⟨i, hi, rfl⟩ := List.mem_iff_getElem.1 hp
        have hpre : plansAdded (beforeClose acts) <+: plansAdded acts := by
          obtain ⟨rest, hrest⟩ : beforeClose acts <+: acts := List.takeWhile_prefix _
          exact ⟨plansAdded rest, by rw [← plansAdded_append, hrest]⟩
        have hlt : i < sc.world.sinks.size := by
          rw [h.size]; exact Nat.lt_of_lt_of_le hi hpre.length_le
        have hs := Array.getElem?_eq_getElem hlt
        have hb := h.bare i _ hs (Array.getElem?_eq_none (by omega))
        have hplan : sc.world.sinks[i].plan = (plansAdded (beforeClose acts))[i] := by
          have := h.plans i
          rw [hs, Option.map_some, List.getElem?_eq_getElem (Nat.lt_of_lt_of_le hi hpre.length_le),
            Option.some_inj] at this
          rw [this, hpre.getElem hi]
        refine hall i _ hs (.inr ⟨?_, by simp [hplan, hpm]⟩)
        rw [hb.closes]
        simp [hc, hi]

/-- After the close returned, a second close answers that the writer is closed. -/
theorem close_after_join (h : Propagating acts hist sc) (hj : .join ∈ acts) :
    sc.step .close = some (some (.failed (Error.closed .close)), sc) := by
  obtain ⟨hcl, _⟩ := h.joined hj
  have hsend : sc.sending = none := by
    rcases hsd : sc.sending with _ | ⟨d, k⟩
    · rfl
    · have := (h.sending d k hsd).1
      rw [hcl] at this; cases this
  have hjn : sc.world.joining = false := by
    cases hjn : sc.world.joining
    · rfl
    · exact absurd hj (h.joining_iff.1 hjn).2
  have hsc : sc = ⟨sc.world, none⟩ := by rw [← hsend]
  simp only [Scene.step, Scene.call, hsend, Option.isSome_none, Bool.false_eq_true, ↓reduceIte,
    World.step, hjn, World.close, hcl, Option.map_some]
  rw [← hsc]

end Propagating

/-! ## The first failure propagates -/

/-- **The first failure propagates**, whatever order the threads take their steps in, when no
sink panics. At any point of a run:

* each sink took, in order, the first of the writes called after it was added, wrote each of them
  whole but the last, and took nothing after a failed write;
* each sink is closed at most once, and no step gives a closed sink an item; once `close`
  returned, every sink added before the close was closed;
* the failure kept is answered at once by every later write before the close, which changes
  nothing, and by the close; it is the first failure the workers reported, or, for a writer
  closed before it wrote, the first failing close in the order the sinks were added;
* every failure reported is a short write with fewer bytes written than asked for, or an io
  failure of a write or of a close; a short write stored the bytes it wrote;
* the close answers success exactly when no sink failed a write or its close;
* once the close returned, a second close answers that the writer is closed. -/
theorem first_failure_propagates {acts : List Act} {outs : List (Option Outcome)} {sc : Scene}
    (hrun : Scene.new.run acts = some (outs, sc)) (hcalm : ∀ p ∈ plansAdded acts, p.Calm) :
    (∀ (i : Nat) (s : Sink), sc.world.sinks[i]? = some s →
      (plansAdded acts)[i]? = some s.plan ∧ s.items ≤ (writesAfter i acts).length ∧
      s.unclosed = (Sink.new s.plan).feed ((writesAfter i acts).take s.items) ∧
      (Sink.new s.plan).feedOk ((writesAfter i acts).take s.items).dropLast = true) ∧
    (∀ (i : Nat) (s : Sink), sc.world.sinks[i]? = some s → s.closes ≤ 1 ∧
      (s.closes = 1 → ∀ a o sc', sc.step a = some (o, sc') →
        (sc'.world.sinks[i]?).map Sink.items = some s.items)) ∧
    (.join ∈ acts → ∀ i < (plansAdded (beforeClose acts)).length,
      ∃ s, sc.world.sinks[i]? = some s ∧ s.closes = 1) ∧
    (∀ f, sc.world.failure = some f →
      (sc.world.phase ≠ .closed → ∀ d, sc.step (.write d) = some (some (.failed f), sc)) ∧
      (∀ o sc', sc.step .join = some (o, sc') → o = some (.failed f)) ∧
      ((Scene.new.reportedAlong acts).head? = some f ∨
        Scene.new.reportedAlong acts = [] ∧ .close ∈ acts ∧ writesIn (beforeClose acts) = [] ∧
          ∃ m, (plansAdded (beforeClose acts)).findSome? SinkPlan.closeFailure = some m ∧
            f = Error.io .close ⟨.other, some m⟩)) ∧
    (∀ e ∈ Scene.new.reportedAlong acts, e.FromSink) ∧
    (∀ (s : Sink) (item : List UInt8) (m len : Nat), (s.deliver item).1 = .failed (.shortWrite m len) →
      len = item.length ∧ (s.deliver item).2.data = s.data ++ item.take m) ∧
    (∀ o sc', sc.step .join = some (o, sc') →
      (o = some .unit ↔ ∀ (i : Nat) (s : Sink), sc.world.sinks[i]? = some s →
        ¬ s.Failed ((writesAfter i acts).take s.items))) ∧
    (.join ∈ acts → sc.step .close = some (some (.failed (Error.closed .close)), sc)) := by
  have h := Propagating.run hrun hcalm
  refine ⟨fun i s hs => h.took hs, fun i s hs => ⟨h.closes_le hs, fun hc a o sc' hst =>
    h.closed_keeps hs hc hst⟩, fun hj i hi => h.closed_after_join hj hi, fun f hf => ?_,
    h.forms, fun s item m len hd => ?_, fun o sc' hst => ?_, h.close_after_join⟩
  · refine ⟨h.write_answers_failure hf, fun o sc' hst => ?_, ?_⟩
    · rw [h.join_answers hst, hf, Option.some_or]
    · rcases h.kept f hf with hk | ⟨hn, _, hc, hw, hrest⟩
      · exact .inl hk
      · exact .inr ⟨hn, hc, hw, hrest⟩
  · -- the counts of a short write are those of the item
    rcases Sink.deliver_failed hd with ⟨m', he, _, hdata⟩ | ⟨io, he, _⟩
    · cases he
      exact ⟨rfl, hdata⟩
    · cases he
  · rw [h.join_answers hst, ← h.unit_iff]
    cases sc.world.failure.or (Scene.new.reportedAlong acts).head? <;> simp

/-- Two sinks, the second failing its first write: the failure is reported while the first write
finishes, a second write receives it instead of sending, and the close answers it after both
workers ended. -/
theorem failure_of_one_sink_reaches_close :
    let acts : List Act := [.addSink .plain,
      .addSink { SinkPlan.plain with failAt := some 0, failure := some ⟨.other, some "disk full"⟩ },
      .write [1], .send, .send, .send, .work 1, .write [2], .take, .close, .work 0, .work 0,
      .work 0, .work 1, .work 1, .join]
    ∃ outs sc, Scene.new.run acts = some (outs, sc) ∧ (∀ p ∈ plansAdded acts, p.Calm) ∧
      ((∀ (i : Nat) (s : Sink), sc.world.sinks[i]? = some s →
        (plansAdded acts)[i]? = some s.plan ∧ s.items ≤ (writesAfter i acts).length ∧
        s.unclosed = (Sink.new s.plan).feed ((writesAfter i acts).take s.items) ∧
        (Sink.new s.plan).feedOk ((writesAfter i acts).take s.items).dropLast = true) ∧
      (∀ (i : Nat) (s : Sink), sc.world.sinks[i]? = some s → s.closes ≤ 1 ∧
        (s.closes = 1 → ∀ a o sc', sc.step a = some (o, sc') →
          (sc'.world.sinks[i]?).map Sink.items = some s.items)) ∧
      (.join ∈ acts → ∀ i < (plansAdded (beforeClose acts)).length,
        ∃ s, sc.world.sinks[i]? = some s ∧ s.closes = 1) ∧
      (∀ f, sc.world.failure = some f →
        (sc.world.phase ≠ .closed → ∀ d, sc.step (.write d) = some (some (.failed f), sc)) ∧
        (∀ o sc', sc.step .join = some (o, sc') → o = some (.failed f)) ∧
        ((Scene.new.reportedAlong acts).head? = some f ∨
          Scene.new.reportedAlong acts = [] ∧ .close ∈ acts ∧ writesIn (beforeClose acts) = [] ∧
            ∃ m, (plansAdded (beforeClose acts)).findSome? SinkPlan.closeFailure = some m ∧
              f = Error.io .close ⟨.other, some m⟩)) ∧
      (∀ e ∈ Scene.new.reportedAlong acts, e.FromSink) ∧
      (∀ (s : Sink) (item : List UInt8) (m len : Nat),
        (s.deliver item).1 = .failed (.shortWrite m len) →
          len = item.length ∧ (s.deliver item).2.data = s.data ++ item.take m) ∧
      (∀ o sc', sc.step .join = some (o, sc') →
        (o = some .unit ↔ ∀ (i : Nat) (s : Sink), sc.world.sinks[i]? = some s →
          ¬ s.Failed ((writesAfter i acts).take s.items))) ∧
      (.join ∈ acts → sc.step .close = some (some (.failed (Error.closed .close)), sc))) := by
  intro acts
  have hsome : (Scene.new.run acts).isSome = true := by decide +kernel
  obtain ⟨⟨outs, sc⟩, hrun⟩ := Option.isSome_iff_exists.1 hsome
  have hcalm : ∀ p ∈ plansAdded acts, p.Calm := by decide
  exact ⟨outs, sc, hrun, hcalm, first_failure_propagates hrun hcalm⟩

/-- A sink added after the first write takes only the later writes: of the writes `[97]` and
`[98]`, the second sink wrote `[98]` alone, and the close answers success. -/
theorem late_sink_misses_earlier_writes :
    let acts : List Act := [.addSink .plain, .write [97], .send, .send, .addSink .plain,
      .write [98], .send, .send, .send, .close, .work 0, .work 0, .work 0, .work 0, .work 1,
      .work 1, .work 1, .join]
    ∃ outs sc, Scene.new.run acts = some (outs, sc) ∧ writesIn acts = [[97], [98]] ∧
      (sc.world.sinks[1]?).map Sink.data = some [98] ∧ outs.getLast? = some (some .unit) := by
  intro acts
  have hsome : (Scene.new.run acts).isSome = true := by decide +kernel
  obtain ⟨⟨outs, sc⟩, hrun⟩ := Option.isSome_iff_exists.1 hsome
  have hres : (Scene.new.run acts).map (fun p => ((p.2.world.sinks[1]?).map Sink.data,
      p.1.getLast?)) = some (some [98], some (some .unit)) := by decide +kernel
  rw [hrun] at hres
  simp only [Option.map_some, Option.some.injEq, Prod.mk.injEq] at hres
  exact ⟨outs, sc, hrun, rfl, hres.1, hres.2⟩

end Plumbing.Fanout
