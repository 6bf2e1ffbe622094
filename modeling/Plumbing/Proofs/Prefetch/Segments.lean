import Plumbing.Prefetch.Reader
import Plumbing.Proofs.Stream.Outcome

/-!
# The segments a producer reads

A full read of `n` bytes (`Source.readFull`) takes the next bytes of what the source delivers
(`Source.outcome`): `n` of them, or all of them up to the source's end, with that end
(`fillFrom_spec`). So the segments of a source (`Source.segments`) cut what it delivers in
pieces of `n` bytes, the last one shorter and carrying the end.

What a reader of the segments receives (`queued`) is what the source delivers, except after a
failure: the segment that carries the failure is dropped, so only the bytes of the full segments
before it are received (`queued_segments`).
-/

namespace Plumbing.Stream

namespace Source

/-! ## One read -/

theorem read_bytes_ne_nil {m : Nat} {src src' : Source} {b : List UInt8}
    (h : read m src = (.bytes b, src')) : b ≠ [] := by
  induction src with
  | nil => simp [read] at h
  | cons c rest ih =>
    cases c with
    | data bs =>
      cases bs with
      | nil => exact ih h
      | cons x xs =>
        simp only [read, Prod.mk.injEq, Yield.bytes.injEq] at h
        rw [← h.1]
        simp
    | fail e =>
      simp only [read, Prod.mk.injEq] at h
      split at h <;> simp at h
    | _ => simp [read] at h

theorem read_bytes_length_le {m : Nat} {src src' : Source} {b : List UInt8}
    (h : read m src = (.bytes b, src')) : b.length ≤ max m 1 := by
  induction src with
  | nil => simp [read] at h
  | cons c rest ih =>
    cases c with
    | data bs =>
      cases bs with
      | nil => exact ih h
      | cons x xs =>
        simp only [read, Prod.mk.injEq, Yield.bytes.injEq] at h
        rw [← h.1, List.length_take]
        exact Nat.min_le_left _ _
    | fail e =>
      simp only [read, Prod.mk.injEq] at h
      split at h <;> simp at h
    | _ => simp [read] at h

theorem weight_read_le (m : Nat) (src : Source) : weight (read m src).2 ≤ weight src := by
  by_cases h : (read m src).1 = .done
  · induction src with
    | nil => simp [read]
    | cons c rest ih =>
      cases c with
      | data bs =>
        cases bs with
        | nil =>
          simp only [read] at h ⊢
          have := ih h
          simp only [weight_cons]
          omega
        | cons x xs => simp [read] at h
      | eof => simp [read]
      | fail e =>
        simp only [read] at h
        split at h <;> simp at h
      | _ => simp [read] at h
  · exact Nat.le_of_lt (weight_read_lt m src h)

theorem weight_lt_of_read {m : Nat} {src src' : Source} {y : Yield} (hr : read m src = (y, src'))
    (hy : y ≠ .done) : weight src' < weight src := by
  simpa [hr] using weight_read_lt m src (by rw [hr]; exact hy)

theorem outcome_of_read {m : Nat} {src src' : Source} {y : Yield} (hr : read m src = (y, src')) :
    outcome src = y.outcomeBefore (outcome src') := by
  rw [outcome_read m src, hr]

/-! ## A full read -/

/-- What a full read that had read `count` bytes, then read `B` more and ended with `ending`,
tells of the outcome `o` of the source it read, given the outcome `o'` of the source it left:
the buffer filled, and `B` the next bytes of `o`; or an end met, and `B` all the bytes before
it. -/
def FillsFrom (n count : Nat) (o : List UInt8 × Option IoError) (B : List UInt8)
    (ending : Option End) (o' : List UInt8 × Option IoError) : Prop :=
  match ending with
  | none => count + B.length = max n count ∧ o = (B ++ o'.1, o'.2)
  | some .eof => count + B.length < n ∧ o = (B, none)
  | some (.failed e) => count + B.length < n ∧ o = (B, some e)

/-- **A full read takes the next bytes of what the source delivers**: all it asks for, or all
up to the end, which it then reports. It consumes the source, and a read that got bytes
consumes some. -/
theorem fillFrom_spec {τ : Type} (onPause : τ → τ) (n : Nat) (t : τ) (src : Source)
    (acc : List (List UInt8)) (count : Nat) :
    ∃ B, (fillFrom onPause n t src acc count).1.bytes = acc.reverse.flatten ++ B ∧
      FillsFrom n count (outcome src) B (fillFrom onPause n t src acc count).1.ending
        (outcome (fillFrom onPause n t src acc count).2.1) ∧
      weight (fillFrom onPause n t src acc count).2.1 + (if B = [] then 0 else 1) ≤
        weight src := by
  fun_induction fillFrom onPause n t src acc count with
  | case1 t src acc count hlt b src' hr ih =>
    -- bytes: the read's bytes come first, and fit in what was asked
    obtain ⟨B, hbytes, hfills, hweight⟩ := ih
    have hne := read_bytes_ne_nil hr
    have hle := read_bytes_length_le hr
    have hout : outcome src = (b ++ (outcome src').1, (outcome src').2) := outcome_of_read hr
    have hlt' := weight_lt_of_read hr (by simp)
    refine ⟨b ++ B, by simp [hbytes], ?_, ?_⟩
    · revert hfills
      generalize (fillFrom onPause n t src' (b :: acc) (count + b.length)).1.ending = ending
      rcases ending with _ | _ | e
      · rintro ⟨hlen, ho⟩
        refine ⟨?_, by rw [hout, ho]; simp⟩
        simp only [List.length_append]
        omega
      · rintro ⟨hlen, ho⟩
        refine ⟨by simp only [List.length_append]; omega, ?_⟩
        rw [hout, ho]
      · rintro ⟨hlen, ho⟩
        refine ⟨by simp only [List.length_append]; omega, ?_⟩
        rw [hout, ho]
    · simp only [List.append_eq_nil_iff, hne, false_and, ↓reduceIte] at hweight ⊢
      split at hweight <;> omega
  | case2 t src acc count hlt src' hr =>
    -- the end of data
    have hout : outcome src = ([], none) := outcome_of_read hr
    have hle : weight src' ≤ weight src := by simpa [hr] using weight_read_le (n - count) src
    exact ⟨[], by simp, ⟨by simpa using hlt, hout⟩, by simpa using hle⟩
  | case3 t src acc count hlt src' hr ih =>
    -- an interruption: read again
    obtain ⟨B, hbytes, hfills, hweight⟩ := ih
    have hout : outcome src = outcome src' := outcome_of_read hr
    have hlt' := weight_lt_of_read hr (by simp)
    exact ⟨B, hbytes, hout ▸ hfills, by omega⟩
  | case4 t src acc count hlt e src' hr =>
    -- a failure
    have hout : outcome src = ([], some e) := outcome_of_read hr
    have hle : weight src' ≤ weight src := by simpa [hr] using weight_read_le (n - count) src
    exact ⟨[], by simp, ⟨by simpa using hlt, hout⟩, by simpa using hle⟩
  | case5 t src acc count hlt src' hr ih =>
    -- a pause: handed over, and read again
    obtain ⟨B, hbytes, hfills, hweight⟩ := ih
    have hout : outcome src = outcome src' := outcome_of_read hr
    have hlt' := weight_lt_of_read hr (by simp)
    exact ⟨B, hbytes, hout ▸ hfills, by omega⟩
  | case6 t src acc count hge =>
    -- the buffer is full
    exact ⟨[], by simp, ⟨by simp; omega, by simp⟩, by simp⟩

/-! ## The segments -/

/-- The bytes a reader of the segments of `n` bytes of `src` receives, and the failure it meets:
all the bytes the source delivers after an end of data; after a failure, those of the full
segments before it. -/
def delivered (n : Nat) (src : Source) : List UInt8 × Option IoError :=
  match (outcome src).2 with
  | none => ((outcome src).1, none)
  | some e => ((outcome src).1.take (n * ((outcome src).1.length / n)), some e)

theorem take_full_segments {n : Nat} {B : List UInt8} (hB : B.length = n) (hn : 0 < n)
    (S : List UInt8) :
    (B ++ S).take (n * ((B ++ S).length / n)) = B ++ S.take (n * (S.length / n)) := by
  have hdiv : (B ++ S).length / n = S.length / n + 1 := by
    rw [List.length_append, hB, Nat.add_comm, Nat.add_div_right _ hn]
  rw [hdiv, Nat.mul_succ, List.take_append, List.take_of_length_le (by omega), hB,
    Nat.add_sub_cancel]

end Source

/-- What a reader taking the segments `segs` in order receives: their bytes up to a segment that
carries a failure, which is dropped, and that failure. -/
def queued : List Fill → List UInt8 × Option IoError
  | [] => ([], none)
  | s :: rest =>
    match s.ending with
    | some (.failed e) => ([], some e)
    | _ => (s.bytes ++ (queued rest).1, (queued rest).2)

/-- A segment that carries no failure is received whole. -/
theorem queued_cons {s : Fill} (hs : ∀ e, s.ending ≠ some (.failed e)) (rest : List Fill) :
    queued (s :: rest) = (s.bytes ++ (queued rest).1, (queued rest).2) := by
  rcases h : s.ending with _ | _ | e
  · simp [queued, h]
  · simp [queued, h]
  · exact absurd h (hs e)

namespace Source

theorem queued_segmentsFor {n : Nat} (hn : 0 < n) (fuel : Nat) (src : Source)
    (hfuel : weight src < fuel) : queued (segmentsFor n fuel src) = delivered n src := by
  induction fuel generalizing src with
  | zero => exact absurd hfuel (Nat.not_lt_zero _)
  | succ fuel ih =>
    obtain ⟨B, hbytes, hfills, hweight⟩ := fillFrom_spec id n () src [] 0
    simp only [List.reverse_nil, List.flatten_nil, List.nil_append] at hbytes
    simp only [segmentsFor, readFull]
    revert hbytes hfills hweight
    generalize fillFrom id n () src [] 0 = r
    obtain ⟨⟨bytes, ending⟩, src', ⟨⟩⟩ := r
    rintro rfl hfills hweight
    rcases ending with _ | _ | e
    · -- a full segment: the rest is cut the same way
      obtain ⟨hlen, hout⟩ := hfills
      have hlen' : bytes.length = n := by simpa using hlen
      have hne : bytes ≠ [] := fun h => by simp [h] at hlen'; omega
      simp only [hne, ↓reduceIte] at hweight
      have hrest := ih src' (by omega)
      simp only [queued, hrest, delivered, hout]
      split
      · rfl
      · rw [take_full_segments hlen' hn]
    · -- the end of data
      obtain ⟨-, hout⟩ := hfills
      simp [queued, delivered, hout]
    · -- a failure: a segment shorter than `n`, dropped
      obtain ⟨hlen, hout⟩ := hfills
      have hlt : bytes.length < n := by simpa using hlen
      simp only [queued, delivered, hout]
      rw [Nat.div_eq_of_lt hlt, Nat.mul_zero, List.take_zero]

/-- **A reader of the segments receives what the source delivers**, except the bytes of the
segment that carries a failure. -/
theorem queued_segments {n : Nat} (hn : 0 < n) (src : Source) :
    queued (segments n src) = delivered n src :=
  queued_segmentsFor hn _ src (Nat.lt_succ_self _)

/-! ## One segment at a time -/

/-- A full read that does not end the source consumes some of it. -/
theorem readFull_weight_lt {τ : Type} (onPause : τ → τ) (t : τ) {n : Nat} (hn : 0 < n)
    (src : Source) (h : (readFull onPause n t src).1.ending = none) :
    weight (readFull onPause n t src).2.1 < weight src := by
  obtain ⟨B, -, hfills, hweight⟩ := fillFrom_spec onPause n t src [] 0
  unfold readFull at h ⊢
  rw [h] at hfills
  -- the buffer was filled with `B`, so `B` holds `n` bytes
  obtain ⟨hlen, -⟩ := hfills
  have hne : B ≠ [] := by
    rintro rfl
    simp at hlen
    omega
  simp only [hne, ↓reduceIte] at hweight
  omega

/-- With fuel for every segment, more fuel reads the same segments. -/
theorem segmentsFor_congr {n : Nat} (hn : 0 < n) (fuel : Nat) :
    ∀ {fuel' : Nat} {src : Source}, weight src < fuel → weight src < fuel' →
      segmentsFor n fuel src = segmentsFor n fuel' src := by
  induction fuel with
  | zero => exact fun h _ => absurd h (Nat.not_lt_zero _)
  | succ fuel ih =>
    intro fuel' src h h'
    obtain ⟨fuel', rfl⟩ : ∃ k, fuel' = k + 1 := ⟨fuel' - 1, by omega⟩
    have hlt := readFull_weight_lt id () hn src
    simp only [segmentsFor]
    generalize readFull id n () src = r at hlt
    obtain ⟨f, src', t⟩ := r
    dsimp only at hlt ⊢
    cases hf : f.ending with
    | some e => rfl
    | none =>
      have hw := hlt hf
      rw [@ih fuel' src' (by omega) (by omega)]

/-- **The segments of a source, one at a time:** a first full read, then, unless it ended the
source, the segments of what it left. -/
theorem segments_eq {n : Nat} (hn : 0 < n) (src : Source) :
    segments n src = (readFull id n () src).1 ::
      (if (readFull id n () src).1.ending.isSome then []
        else segments n (readFull id n () src).2.1) := by
  have hlt := readFull_weight_lt id () hn src
  rw [segments]
  simp only [segmentsFor]
  generalize readFull id n () src = r at hlt
  obtain ⟨f, src', t⟩ := r
  dsimp only at hlt ⊢
  cases hf : f.ending with
  | some e => rfl
  | none =>
    have hw := hlt hf
    have hfuel := @segmentsFor_congr n hn (weight src) (weight src' + 1) src' (by omega) (by omega)
    simp only [Option.isSome_none, Bool.false_eq_true, ↓reduceIte, hfuel, segments]

end Source

end Plumbing.Stream
