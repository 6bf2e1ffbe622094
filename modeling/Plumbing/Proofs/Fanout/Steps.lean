import Plumbing.Fanout.Sends
import Plumbing.Proofs.Fanout.Replication

/-!
# What the steps of a fan-out writer do

A sink that takes items in order is `Sink.feed` of them, and `Sink.feedOk` says whether it wrote
each whole. A run of `Scene.step` is read through its history: the writes called, the sinks
added, and the failures the workers reported on the error channel (`Scene.reportedAlong`).
-/

namespace Plumbing

/-- An error a worker reports: a short write, with the bytes written fewer than those asked
for, or an io failure of a write or of a close. -/
def Error.FromSink (e : Error) : Prop :=
  (∃ written len, e = Error.shortWrite written len ∧ written < len) ∨
    (∃ io, e = Error.io .write io) ∨ ∃ io, e = Error.io .close io

namespace Fanout

/-! ## Sinks that do not panic -/

/-- A sink plan that never panics, neither at the item it misbehaves at nor when closed. -/
def SinkPlan.Calm (p : SinkPlan) : Prop :=
  (p.failAt = none ∨ p.panics = false) ∧ p.closePanics = false

instance : DecidablePred SinkPlan.Calm := fun _ => inferInstanceAs (Decidable (_ ∧ _))

namespace Sink

/-- The sink after taking `items` in order. -/
def feed (s : Sink) (items : List (List UInt8)) : Sink :=
  items.foldl (fun s d => (s.deliver d).2) s

/-- Whether the sink writes each of `items` whole, taking them in order. -/
def feedOk : Sink → List (List UInt8) → Bool
  | _, [] => true
  | s, d :: ds => (s.deliver d).1 == .done && (s.deliver d).2.feedOk ds

/-- The sink with its close counters cleared: what it wrote, as it stood before any close. -/
def unclosed (s : Sink) : Sink := { s with closes := 0, flushes := 0, released := false }

/-- Whether sink `s`, having taken the items `taken`, failed a write or its close. -/
def Failed (s : Sink) (taken : List (List UInt8)) : Prop :=
  (Sink.new s.plan).feedOk taken = false ∨ (s.closes ≠ 0 ∧ s.plan.closeFailure.isSome)

variable {s : Sink}

@[simp] theorem feed_nil (s : Sink) : s.feed [] = s := rfl

@[simp] theorem feedOk_nil (s : Sink) : s.feedOk [] = true := rfl

theorem feed_snoc (s : Sink) (items : List (List UInt8)) (d : List UInt8) :
    s.feed (items ++ [d]) = ((s.feed items).deliver d).2 := by
  simp [feed]

theorem feedOk_snoc (s : Sink) (items : List (List UInt8)) (d : List UInt8) :
    s.feedOk (items ++ [d]) = (s.feedOk items && ((s.feed items).deliver d).1 == .done) := by
  induction items generalizing s with
  | nil => simp [feedOk]
  | cons e items ih => simp [feedOk, feed, ih, Bool.and_assoc]

/-- Taking an item stores some of its bytes and counts the item and its calls. -/
theorem deliver_snd (s : Sink) (d : List UInt8) : ∃ m, (s.deliver d).2 =
    { s with data := s.data ++ d.take m, items := s.items + 1,
             writeCalls := s.writeCalls + if s.items ∈ s.plan.interrupts then 2 else 1 } := by
  unfold deliver; dsimp only
  split
  · split
    · exact ⟨0, by simp⟩
    · split
      · exact ⟨0, by simp⟩
      · split
        · exact ⟨_, rfl⟩
        · exact ⟨_, rfl⟩
      · exact ⟨_, rfl⟩
  · exact ⟨_, rfl⟩

@[simp] theorem deliver_plan (s : Sink) (d : List UInt8) : (s.deliver d).2.plan = s.plan := by
  obtain ⟨m, h⟩ := deliver_snd s d
  rw [h]

@[simp] theorem deliver_items (s : Sink) (d : List UInt8) : (s.deliver d).2.items = s.items + 1 := by
  obtain ⟨m, h⟩ := deliver_snd s d
  rw [h]

theorem deliver_unclosed (s : Sink) (d : List UInt8) :
    s.unclosed.deliver d = ((s.deliver d).1, (s.deliver d).2.unclosed) := by
  unfold deliver unclosed; dsimp only
  split
  · split
    · rfl
    · split <;> (try split) <;> rfl
  · rfl

@[simp] theorem unclosed_plan (s : Sink) : s.unclosed.plan = s.plan := rfl

@[simp] theorem unclosed_items (s : Sink) : s.unclosed.items = s.items := rfl

@[simp] theorem new_unclosed (p : SinkPlan) : (Sink.new p).unclosed = Sink.new p := rfl

@[simp] theorem feed_plan (s : Sink) (items : List (List UInt8)) : (s.feed items).plan = s.plan := by
  induction items using List.reverseRecOn with
  | nil => rfl
  | append_singleton items d ih => rw [feed_snoc, deliver_plan, ih]

@[simp] theorem feed_items (s : Sink) (items : List (List UInt8)) :
    (s.feed items).items = s.items + items.length := by
  induction items using List.reverseRecOn with
  | nil => rfl
  | append_singleton items d ih => rw [feed_snoc, deliver_items, ih]; simp; omega

/-- A sink that does not panic does not panic at an item. -/
theorem deliver_ne_panicked (h : s.plan.Calm) (d : List UInt8) : (s.deliver d).1 ≠ .panicked := by
  unfold deliver
  dsimp only
  split
  · rename_i hf
    rcases h.1 with h' | h'
    · rw [h'] at hf; cases hf
    · simp only [h', Bool.false_eq_true, ↓reduceIte]
      split
      · simp
      · split <;> simp
      · simp
  · simp

/-- A failed write is a short write that stored the bytes it wrote, or an io failure of the
write that stored nothing. -/
theorem deliver_failed {item : List UInt8} {e : Error} (h : (s.deliver item).1 = .failed e) :
    (∃ m, e = Error.shortWrite m item.length ∧ m < item.length ∧
        (s.deliver item).2.data = s.data ++ item.take m) ∨
      ∃ io, e = Error.io .write io ∧ (s.deliver item).2.data = s.data := by
  revert h
  unfold deliver
  dsimp only
  split
  · split
    · simp
    · split
      · intro h
        cases h
        exact .inr ⟨_, rfl, rfl⟩
      · split
        · rename_i m _ _ hm
          intro h
          cases h
          exact .inl ⟨m, rfl, hm, rfl⟩
        · simp
      · simp
  · simp

/-- Closing a sink that was not closed yet counts the close, and fails as planned. -/
theorem close_of_calm (h : s.plan.Calm) (hr : s.released = false) :
    s.close =
      (match s.plan.closeFailure with
        | some m => .failed (Error.io .close ⟨.other, some m⟩)
        | none => .done,
      { s with closes := s.closes + 1, released := true,
               flushes := if s.plan.wrapped then s.flushes + 1 else s.flushes }) := by
  simp only [close, hr, Bool.and_false, Bool.false_eq_true, ↓reduceIte, h.2]
  split <;> simp_all

@[simp] theorem close_items (s : Sink) : s.close.2.items = s.items := by
  unfold close; split
  · rfl
  · dsimp only; split
    · rfl
    · split <;> rfl

@[simp] theorem close_unclosed (s : Sink) : s.close.2.unclosed = s.unclosed := by
  unfold close unclosed; split
  · rfl
  · dsimp only; split
    · rfl
    · split <;> rfl

end Sink

/-! ## The history of a run -/

/-- The data of the writes called among `acts`. -/
def writesIn (acts : List Act) : List (List UInt8) :=
  acts.filterMap fun
    | .write d => some d
    | _ => none

/-- The plans of the sinks added among `acts`, in order. -/
def plansAdded (acts : List Act) : List SinkPlan :=
  acts.filterMap fun
    | .addSink p => some p
    | _ => none

/-- The data of the writes called after the sink added `i`-th was added. -/
def writesAfter : Nat → List Act → List (List UInt8)
  | _, [] => []
  | 0, .addSink _ :: as => writesIn as
  | i + 1, .addSink _ :: as => writesAfter i as
  | i, _ :: as => writesAfter i as

/-- The steps before the first close. -/
def beforeClose (acts : List Act) : List Act := acts.takeWhile (· != .close)

@[simp] theorem writesIn_append (acts as : List Act) :
    writesIn (acts ++ as) = writesIn acts ++ writesIn as := List.filterMap_append

@[simp] theorem plansAdded_append (acts as : List Act) :
    plansAdded (acts ++ as) = plansAdded acts ++ plansAdded as := List.filterMap_append

@[simp] theorem writesIn_nil : writesIn [] = [] := rfl

@[simp] theorem plansAdded_nil : plansAdded [] = [] := rfl

@[simp] theorem plansAdded_cons_addSink (p : SinkPlan) (as : List Act) :
    plansAdded (.addSink p :: as) = p :: plansAdded as := rfl

@[simp] theorem plansAdded_cons_write (d : List UInt8) (as : List Act) :
    plansAdded (.write d :: as) = plansAdded as := rfl

@[simp] theorem plansAdded_cons_send (as : List Act) : plansAdded (.send :: as) = plansAdded as := rfl

@[simp] theorem plansAdded_cons_take (as : List Act) : plansAdded (.take :: as) = plansAdded as := rfl

@[simp] theorem plansAdded_cons_close (as : List Act) :
    plansAdded (.close :: as) = plansAdded as := rfl

@[simp] theorem plansAdded_cons_join (as : List Act) : plansAdded (.join :: as) = plansAdded as := rfl

@[simp] theorem plansAdded_cons_work (j : Nat) (as : List Act) :
    plansAdded (.work j :: as) = plansAdded as := rfl

@[simp] theorem writesIn_cons_write (d : List UInt8) (as : List Act) :
    writesIn (.write d :: as) = d :: writesIn as := rfl

theorem plansAdded_cons_of {a : Act} (h : ∀ p, a ≠ .addSink p) (as : List Act) :
    plansAdded (a :: as) = plansAdded as := by
  cases a <;> simp_all [plansAdded]

theorem writesAfter_append (i : Nat) (acts as : List Act) :
    writesAfter i (acts ++ as) =
      if i < (plansAdded acts).length then writesAfter i acts ++ writesIn as
      else writesAfter (i - (plansAdded acts).length) as := by
  induction acts generalizing i with
  | nil => simp
  | cons a acts ih =>
    cases a with
    | addSink p =>
      cases i with
      | zero => simp [writesAfter]
      | succ i => simp [writesAfter, ih]
    | _ => simp [writesAfter, plansAdded_cons_of, ih]

theorem writesAfter_of_le {i : Nat} {acts : List Act} (h : (plansAdded acts).length ≤ i) :
    writesAfter i acts = [] := by
  have := writesAfter_append i acts []
  rw [List.append_nil, if_neg (by omega)] at this
  rw [this]
  cases i - (plansAdded acts).length <;> rfl

/-- The writes after a sink was added are the last of all writes. -/
theorem writesAfter_suffix (i : Nat) (acts : List Act) : writesAfter i acts <:+ writesIn acts := by
  induction acts generalizing i with
  | nil => exact List.suffix_refl _
  | cons a acts ih =>
    cases a <;> cases i <;> simp only [writesAfter, writesIn, List.filterMap_cons]
    all_goals first
      | exact (ih _).trans (List.suffix_cons _ _)
      | exact ih _
      | exact List.suffix_cons _ _
      | exact List.suffix_refl _

theorem writesAfter_snoc {i : Nat} {acts : List Act} (hi : i < (plansAdded acts).length) (a : Act) :
    writesAfter i (acts ++ [a]) = writesAfter i acts ++ writesIn [a] := by
  rw [writesAfter_append, if_pos hi]

@[simp] theorem writesAfter_snoc_addSink (acts : List Act) (p : SinkPlan) :
    writesAfter (plansAdded acts).length (acts ++ [.addSink p]) = [] := by
  rw [writesAfter_append, if_neg (Nat.lt_irrefl _), Nat.sub_self]
  rfl

theorem beforeClose_snoc (acts : List Act) (a : Act) :
    beforeClose (acts ++ [a]) =
      if .close ∈ acts then beforeClose acts else if a = .close then acts else acts ++ [a] := by
  induction acts with
  | nil => by_cases ha : a = .close <;> simp [beforeClose, ha]
  | cons b acts ih =>
    by_cases hb : b = .close
    · subst hb; simp [beforeClose]
    · have hb' : Act.close ≠ b := Ne.symm hb
      simp only [beforeClose] at ih
      by_cases hc : Act.close ∈ acts
      · simp [beforeClose, hb, ih, hc]
      · by_cases ha : a = .close
        · subst ha
          simp only [hc, ↓reduceIte] at ih
          simp [beforeClose, hb, hb', ih, hc]
        · simp [beforeClose, hb, hb', ih, hc, ha]

theorem plansAdded_beforeClose_le (acts : List Act) :
    (plansAdded (beforeClose acts)).length ≤ (plansAdded acts).length := by
  obtain ⟨rest, hrest⟩ : beforeClose acts <+: acts := List.takeWhile_prefix _
  have := congrArg (fun l => (plansAdded l).length) hrest
  simp only [plansAdded_append, List.length_append] at this
  omega

namespace Scene

theorem run_snoc (sc : Scene) (acts : List Act) (a : Act) :
    sc.run (acts ++ [a]) = (sc.run acts).bind fun p =>
      (p.2.step a).map fun q => (p.1 ++ [q.1], q.2) := by
  induction acts generalizing sc with
  | nil =>
    simp only [List.nil_append, run, Option.bind_some]
    cases sc.step a <;> rfl
  | cons b acts ih =>
    simp only [List.cons_append, run]
    cases sc.step b with
    | none => rfl
    | some p =>
      simp only [ih]
      cases p.2.run acts with
      | none => rfl
      | some q =>
        simp only [Option.bind_some]
        cases q.2.step a <;> rfl

/-! ## What each step does -/

section Inversion

variable {sc sc' : Scene} {o : Option Outcome}

theorem call_eq {e : Event} (h : sc.call e = some (o, sc')) :
    sc.sending = none ∧ ∃ w', sc.world.step e = some (o, w') ∧ sc' = ⟨w', none⟩ := by
  unfold call at h
  split at h
  · cases h
  · rename_i hs
    simp only [Option.map_eq_some_iff] at h
    obtain ⟨⟨o', w'⟩, hw, heq⟩ := h
    cases heq
    exact ⟨by simpa using hs, w', hw, rfl⟩

theorem step_addSink {p : SinkPlan} (h : sc.step (.addSink p) = some (o, sc')) :
    sc.sending = none ∧ sc.world.joining = false ∧ o = none ∧ sc' = ⟨sc.world.addSink p, none⟩ := by
  obtain ⟨hs, w', hw, rfl⟩ := call_eq h
  simp only [World.step] at hw
  split at hw
  · cases hw
  · rename_i hj
    cases hw
    exact ⟨hs, by simpa using hj, rfl, rfl⟩

theorem step_write {d : List UInt8} (h : sc.step (.write d) = some (o, sc')) :
    sc.sending = none ∧ sc.world.joining = false ∧ begin sc.world d = (o, sc') := by
  simp only [step] at h
  split at h
  · cases h
  · rename_i hc
    simp only [Bool.or_eq_true, Option.isSome_iff_ne_none, not_or, ne_eq, not_not] at hc
    exact ⟨hc.1, by simpa using hc.2, Option.some.inj h⟩

theorem step_send (h : sc.step .send = some (o, sc')) :
    ∃ d k, sc.sending = some (d, k) ∧ sendTo sc.world d k = (o, sc') := by
  simp only [step, Option.map_eq_some_iff] at h
  obtain ⟨⟨d, k⟩, hs, he⟩ := h
  exact ⟨d, k, hs, he⟩

theorem step_take (h : sc.step .take = some (o, sc')) :
    ∃ d k e rest, sc.sending = some (d, k) ∧ k < sc.world.threads.size ∧
      sc.world.reports = e :: rest ∧
      o = some (.failed ({ sc.world with reports := rest }.fail e).1) ∧
      sc' = ⟨({ sc.world with reports := rest }.fail e).2, none⟩ := by
  simp only [step] at h
  split at h
  · rename_i d k hs
    split at h
    · rename_i hk
      unfold receive at h
      split at h
      · cases h
      · rename_i e rest hr
        cases h
        exact ⟨d, k, e, rest, hs, hk, hr, rfl, rfl⟩
    · cases h
  · cases h

theorem step_close (h : sc.step .close = some (o, sc')) :
    sc.sending = none ∧ sc.world.joining = false ∧ ∃ w', sc.world.close = some (o, w') ∧
      sc' = ⟨w', none⟩ := by
  obtain ⟨hs, w', hw, rfl⟩ := call_eq h
  simp only [World.step] at hw
  split at hw
  · cases hw
  · rename_i hj
    exact ⟨hs, by simpa using hj, w', hw, rfl⟩

theorem step_join (h : sc.step .join = some (o, sc')) :
    sc.sending = none ∧ ∃ r w', sc.world.join = some (r, w') ∧ o = some r ∧ sc' = ⟨w', none⟩ := by
  obtain ⟨hs, w', hw, rfl⟩ := call_eq h
  simp only [World.step, Option.map_eq_some_iff] at hw
  obtain ⟨⟨r, w''⟩, hj, heq⟩ := hw
  cases heq
  exact ⟨hs, r, w'', hj, rfl, rfl⟩

theorem step_work {j : Nat} (h : sc.step (.work j) = some (o, sc')) :
    ∃ w', sc.world.work j = some w' ∧ o = none ∧ sc' = ⟨w', sc.sending⟩ := by
  simp only [step, World.step] at h
  cases hw : sc.world.work j with
  | none => simp [hw] at h
  | some w' =>
    simp only [hw, Option.map_some, Option.some.injEq, Prod.mk.injEq] at h
    obtain ⟨rfl, rfl⟩ := h
    exact ⟨w', rfl, rfl, rfl⟩

end Inversion

/-- The failures the step `a` from `sc` to `sc'` reports on the error channel: a worker's step
adds them at the channel's end. -/
def reportedBy (sc sc' : Scene) : Act → List Error
  | .work _ => sc'.world.reports.drop sc.world.reports.length
  | _ => []

/-- The failures the workers report on the error channel along the steps `acts`, oldest
first. -/
def reportedAlong (sc : Scene) : List Act → List Error
  | [] => []
  | a :: as =>
    match sc.step a with
    | none => []
    | some (_, sc') => reportedBy sc sc' a ++ sc'.reportedAlong as

theorem reportedAlong_snoc {sc sc₁ sc₂ : Scene} {acts : List Act} {os : List (Option Outcome)}
    {a : Act} {o : Option Outcome} (hrun : sc.run acts = some (os, sc₁))
    (hs : sc₁.step a = some (o, sc₂)) :
    sc.reportedAlong (acts ++ [a]) = sc.reportedAlong acts ++ reportedBy sc₁ sc₂ a := by
  induction acts generalizing sc os with
  | nil =>
    cases hrun
    simp [reportedAlong, hs]
  | cons b acts ih =>
    simp only [run] at hrun
    split at hrun
    · cases hrun
    · rename_i o' sc' hb
      split at hrun
      · cases hrun
      · rename_i os' sc'' hr
        cases hrun
        simp [reportedAlong, hb, ih hr]

end Scene

/-! ## Closing an idle writer -/

namespace World

/-- The failure an idle writer keeps when it closes sink `s` on the caller's side, if the close
fails. -/
def closeError (s : Sink) : Option Error :=
  s.plan.closeFailure.map fun m => Error.io .close ⟨.other, some m⟩

theorem fail_snd (w : World) (e : Error) :
    (w.fail e).2 = { w with failure := w.failure.or (some e) } := by
  rcases w with ⟨_, _, _, _, failure, _, _⟩
  cases failure <;> rfl

/-- The first failing close among the sinks `l`. -/
def firstCloseError (w : World) (l : List Nat) : Option Error :=
  l.findSome? fun i => (w.sinks[i]?).bind closeError

theorem modifyThread_getElem? (w : World) (j : Nat) (f : Thread → Thread) (k : Nat) :
    (w.modifyThread j f).threads[k]? = if k = j then (w.threads[k]?).map f else w.threads[k]? := by
  simp only [modifyThread, Array.getElem?_modify]
  by_cases hk : k = j
  · subst hk; simp
  · simp [hk, Ne.symm hk]

theorem foldl_fail (l : List Error) (w : World) :
    l.foldl (fun w e => (w.fail e).2) w = { w with failure := w.failure.or l.head? } := by
  induction l generalizing w with
  | nil => simp
  | cons e l ih =>
    rw [List.foldl_cons, ih, fail_snd]
    cases w.failure <;> rfl

theorem modifySink_getElem? (w : World) (i : Nat) (f : Sink → Sink) (k : Nat) :
    (w.modifySink i f).sinks[k]? = if k = i then (w.sinks[k]?).map f else w.sinks[k]? := by
  simp only [modifySink, Array.getElem?_modify]
  by_cases hk : k = i
  · subst hk; simp
  · simp [hk, Ne.symm hk]

/-- A worker's step took `w` to `w'`: thread `j` became `t'`, its sink `s'`, and the worker
reported `r`; nothing else changed. -/
structure Worked (w w' : World) (j : Nat) (t' : Thread) (s' : Sink) (r : List Error) : Prop where
  threads : ∀ k, w'.threads[k]? = if k = j then some t' else w.threads[k]?
  sinks : ∀ k, w'.sinks[k]? = if k = j then some s' else w.sinks[k]?
  threads_size : w'.threads.size = w.threads.size
  sinks_size : w'.sinks.size = w.sinks.size
  reports : w'.reports = w.reports ++ r
  rest : w'.failure = w.failure ∧ w'.phase = w.phase ∧ w'.joining = w.joining ∧
    w'.waiting = w.waiting

namespace Worked

variable {w : World} {j : Nat} {t : Thread} {s : Sink}

theorem drop_reports {w' : World} {t' : Thread} {s' : Sink} {r : List Error}
    (h : Worked w w' j t' s' r) : w'.reports.drop w.reports.length = r := by
  simp [h.reports]

theorem thread (ht : w.threads[j]? = some t) (hs : w.sinks[j]? = some s) (f : Thread → Thread) :
    Worked w (w.modifyThread j f) j (f t) s [] where
  threads k := by rw [modifyThread_getElem?]; split <;> simp_all
  sinks k := by split <;> simp_all [modifyThread]
  threads_size := by simp [modifyThread]
  sinks_size := rfl
  reports := by simp [modifyThread]
  rest := ⟨rfl, rfl, rfl, rfl⟩

/-- A step that changes the worker's thread and its sink. -/
theorem sink (ht : w.threads[j]? = some t) (hs : w.sinks[j]? = some s) (f : Thread → Thread)
    (g : Sink → Sink) : Worked w ((w.modifySink j g).modifyThread j f) j (f t) (g s) [] where
  threads k := by rw [modifyThread_getElem?]; split <;> simp_all [modifySink]
  sinks k := by
    simp only [modifyThread]
    rw [modifySink_getElem?]; split <;> simp_all
  threads_size := by simp [modifyThread, modifySink]
  sinks_size := by simp [modifyThread, modifySink]
  reports := by simp [modifyThread, modifySink]
  rest := ⟨rfl, rfl, rfl, rfl⟩

/-- A step that changes the worker's thread and its sink, and reports `e`. -/
theorem report (ht : w.threads[j]? = some t) (hs : w.sinks[j]? = some s) (f : Thread → Thread)
    (g : Sink → Sink) (e : Error) :
    Worked w ({ w.modifySink j g with reports := w.reports ++ [e] }.modifyThread j f) j (f t) (g s)
      [e] where
  threads k := by rw [modifyThread_getElem?]; split <;> simp_all [modifySink]
  sinks k := by
    simp only [modifyThread]
    rw [modifySink_getElem?]; split <;> simp_all
  threads_size := by simp [modifyThread, modifySink]
  sinks_size := by simp [modifyThread, modifySink]
  reports := by simp [modifyThread]
  rest := ⟨rfl, rfl, rfl, rfl⟩

end Worked

@[simp] theorem firstCloseError_nil (w : World) : w.firstCloseError [] = none := rfl

theorem firstCloseError_cons (w : World) (i : Nat) (l : List Nat) :
    w.firstCloseError (i :: l) = ((w.sinks[i]?).bind closeError).or (w.firstCloseError l) := by
  simp only [firstCloseError, List.findSome?_cons]
  rcases (w.sinks[i]?).bind closeError with _ | e <;> simp

theorem firstCloseError_congr {w w' : World} {l : List Nat}
    (h : ∀ k ∈ l, w'.sinks[k]? = w.sinks[k]?) : w'.firstCloseError l = w.firstCloseError l := by
  induction l with
  | nil => rfl
  | cons i l ih =>
    rw [firstCloseError_cons, firstCloseError_cons, h i List.mem_cons_self,
      ih fun k hk => h k (List.mem_cons_of_mem i hk)]

/-- Closing held sinks that do not panic and were not closed yet closes each of them once, and
keeps the first failing close unless a failure was kept already. -/
theorem closeWaiting_calm {w : World} {l : List Nat} (hnd : l.Nodup)
    (hc : ∀ i ∈ l, ∀ s, w.sinks[i]? = some s → s.plan.Calm ∧ s.released = false) :
    ∃ ss, w.closeWaiting l =
        some { w with sinks := ss, failure := w.failure.or (w.firstCloseError l) } ∧
      ∀ k, ss[k]? = if k ∈ l then (w.sinks[k]?).map (·.close.2) else w.sinks[k]? := by
  induction l generalizing w with
  | nil => exact ⟨w.sinks, by simp [closeWaiting], by simp⟩
  | cons i l ih =>
    simp only [List.nodup_cons] at hnd
    rcases hs : w.sinks[i]? with _ | s
    · obtain ⟨ss, hcw, hss⟩ := ih hnd.2 fun k hk => hc k (List.mem_cons_of_mem i hk)
      refine ⟨ss, by simp [closeWaiting, hs, hcw, firstCloseError_cons], fun k => ?_⟩
      rw [hss k]
      by_cases hk : k = i
      · subst hk; simp [hnd.1, hs]
      · simp [hk]
    · obtain ⟨hcalm, hrel⟩ := hc i List.mem_cons_self s hs
      let w₁ := w.modifySink i fun _ => s.close.2
      have hframe : ∀ k, k ≠ i → w₁.sinks[k]? = w.sinks[k]? := fun k hk => by
        simp [w₁, modifySink_getElem?, hk]
      have hl : ∀ k ∈ l, w₁.sinks[k]? = w.sinks[k]? := fun k hk =>
        hframe k fun h => hnd.1 (h ▸ hk)
      have hcls := Sink.close_of_calm hcalm hrel
      have hss : ∀ ss : Array Sink, (∀ k, ss[k]? = if k ∈ l then (w₁.sinks[k]?).map (·.close.2)
          else w₁.sinks[k]?) →
          ∀ k, ss[k]? = if k ∈ i :: l then (w.sinks[k]?).map (·.close.2) else w.sinks[k]? :=
        fun ss hss k => by
          rw [hss k]
          by_cases hk : k = i
          · subst hk; simp [hnd.1, w₁, modifySink_getElem?, hs]
          · simp [hk, hframe k hk]
      have hfirst : w₁.firstCloseError l = w.firstCloseError l := firstCloseError_congr hl
      rcases hm : s.plan.closeFailure with _ | m
      · have hdone : s.close = (.done, s.close.2) := by rw [hcls, hm]
        obtain ⟨ss, hcw, hss'⟩ := ih (w := w₁) hnd.2 fun k hk s' hs' =>
          hc k (List.mem_cons_of_mem i hk) s' (by rw [← hl k hk]; exact hs')
        refine ⟨ss, ?_, hss ss hss'⟩
        rw [closeWaiting, hs]; dsimp only; rw [hdone]; dsimp only
        rw [hcw, hfirst, firstCloseError_cons, hs]
        simp [closeError, hm, w₁, modifySink]
      · -- the close fails: its failure is kept unless one was kept already
        have hfailed : s.close = (.failed (Error.io .close ⟨.other, some m⟩), s.close.2) := by
          rw [hcls, hm]
        let e := Error.io .close ⟨.other, some m⟩
        obtain ⟨ss, hcw, hss'⟩ := ih (w := (w₁.fail e).2) hnd.2 fun k hk s' hs' =>
          hc k (List.mem_cons_of_mem i hk) s' (by rw [← hl k hk]; simpa [fail_snd] using hs')
        refine ⟨ss, ?_, hss ss (by simpa [fail_snd] using hss')⟩
        rw [closeWaiting, hs]; dsimp only; rw [hfailed]; dsimp only
        rw [hcw, firstCloseError_cons, hs]
        have hfirst' : (w₁.fail e).2.firstCloseError l = w.firstCloseError l := by
          rw [← hfirst]; exact firstCloseError_congr fun k _ => by simp [fail_snd]
        rw [hfirst']
        cases hf : w.failure <;> simp [closeError, hm, w₁, modifySink, fail_snd, hf, e]

/-- A write's sends leave the sinks as they were. -/
theorem queueTo_sinks (w : World) (d : List UInt8) (js : List Nat) :
    (w.queueTo d js).2.sinks = w.sinks := by
  induction js generalizing w with
  | nil => rfl
  | cons j js ih =>
    unfold queueTo
    split
    · exact ih w
    · split
      · rw [ih]; rfl
      · dsimp only
        split <;> simp [fail_snd]

theorem work_sinks {w w' : World} {j : Nat} {t : Thread} (ht : w.threads[j]? = some t)
    (hw : w.work j = some w') {k : Nat} (hk : k ≠ t.sink) : w'.sinks[k]? = w.sinks[k]? := by
  simp only [work, ht] at hw
  repeat' split at hw
  all_goals cases hw
  all_goals simp [modifyThread, modifySink_getElem?, hk]

/-- The first failing close among all sinks is the close failure planned first. -/
theorem firstCloseError_range (w : World) :
    w.firstCloseError (List.range w.sinks.size) =
      (w.sinks.toList.map Sink.plan |>.findSome? SinkPlan.closeFailure).map
        fun m => Error.io .close ⟨.other, some m⟩ := by
  suffices ∀ l : List Sink, (List.range l.length).findSome? (fun i => (l[i]?).bind closeError) =
      ((l.map Sink.plan).findSome? SinkPlan.closeFailure).map
        fun m => Error.io .close ⟨.other, some m⟩ by
    simpa [firstCloseError] using this w.sinks.toList
  intro l
  induction l with
  | nil => rfl
  | cons s l ih =>
    rw [List.length_cons, List.range_succ_eq_map, List.findSome?_cons, List.findSome?_map]
    simp only [List.getElem?_cons_zero, Option.bind_some, Function.comp_def,
      List.getElem?_cons_succ, List.map_cons, List.findSome?_cons]
    rw [ih]
    unfold closeError
    cases s.plan.closeFailure <;> rfl

theorem firstCloseError_ne_none {w : World} {l : List Nat} {i : Nat} {s : Sink} (hi : i ∈ l)
    (hs : w.sinks[i]? = some s) (hc : s.plan.closeFailure.isSome) :
    w.firstCloseError l ≠ none := by
  rw [firstCloseError, Ne, List.findSome?_eq_none_iff]
  intro h
  have := h i hi
  rw [hs, Option.bind_some, closeError] at this
  simp_all

end World

end Fanout

end Plumbing
