import Plumbing.Proofs.Scan.Chunking

/-!
# A write is one scan of the held bytes followed by the data

A scanner holding `pending` writes `data` by one scan of `pending ++ data` before the end of
input, on either of its two paths: scanning `data` where it lies when nothing is held, or
appending it to the held bytes first (`Scanner.write_eq_append`). What that scan does decides
the write (`write_scans_held_then_data`):

* it consumes no more than it is given (`Hooks.consumed_scanFrom`), so what the write holds
  afterwards is the input's tail after the consumed bytes;
* the splitter is called on suffixes of the input, at starts that never go back, each before
  the end of the input and none past what is consumed (`Hooks.logged_scanFrom`, through the
  hooks `Hooks.logged` that keep a log of the splitter's calls);
* it stops with a failure of the splitter, an advance past the end or a run of empty tokens,
  all attributed to the split, or with a failure of the callback, attributed to the token
  callback (`Hooks.scanError_of_scanFrom`).
-/

namespace Plumbing.Scan

/-- The errors a scan stops with. -/
inductive ScanError : Error → Prop
  /-- The splitter failed with a message. -/
  | splitter (m : String) : ScanError (Error.callback .split m)
  | advanceTooFar : ScanError ⟨.split, .advanceTooFar⟩
  | noProgress : ScanError ⟨.split, .noProgress⟩
  /-- The token callback failed with a message. -/
  | callback (m : String) : ScanError (Error.callback .token m)

namespace Hooks

variable {σ : Type} (h : Hooks σ)

/-- The hooks `h`, keeping a log of the splitter's calls: the bytes each call was given and
whether the input had ended, oldest first. -/
def logged : Hooks (σ × List (List UInt8 × Bool)) where
  split s data atEof :=
    ((h.split s.1 data atEof).1, (h.split s.1 data atEof).2, s.2 ++ [(data, atEof)])
  emit s tok := ((h.emit s.1 tok).1, (h.emit s.1 tok).2, s.2)

theorem logged_split {s : σ} {data : List UInt8} {atEof : Bool} {r : Except String Split}
    {s1 : σ} (hs : h.split s data atEof = (r, s1)) (log : List (List UInt8 × Bool)) :
    h.logged.split (s, log) data atEof = (r, (s1, log ++ [(data, atEof)])) := by
  simp [logged, hs]

theorem logged_emit {atEof : Bool} {tok : List UInt8} {s1 s2 : σ} {r : Except String Unit}
    (he : (if (atEof && tok.isEmpty) = true then (.ok (), s1) else h.emit s1 tok) = (r, s2))
    (log : List (List UInt8 × Bool)) :
    (if (atEof && tok.isEmpty) = true then (.ok (), (s1, log)) else h.logged.emit (s1, log) tok) =
      (r, (s2, log)) := by
  split
  · simp_all
  · simp_all [logged]

/-! ## The scan loop -/

/-- A scan from `start` consumes at least up to `start` and no more than it is given. -/
theorem consumed_scanFrom (atEof : Bool) (s : σ) (rest : List UInt8) (start empties : Nat) :
    start ≤ (h.scanFrom atEof s rest start empties).consumed ∧
      (h.scanFrom atEof s rest start empties).consumed ≤ start + rest.length := by
  fun_induction h.scanFrom atEof s rest start empties
  case case5 ih | case9 ih =>
    -- the scan goes on after the bytes consumed, which the splitter's answer fits in
    simp only [List.length_drop, List.length_cons] at ih ⊢
    omega
  case case8 ih => exact ih
  all_goals simp

/-- Every error a scan stops with is one of `ScanError`. -/
theorem scanError_of_scanFrom (atEof : Bool) (s : σ) (rest : List UInt8) (start empties : Nat)
    {e : Error} (he : (h.scanFrom atEof s rest start empties).error = some e) : ScanError e := by
  fun_induction h.scanFrom atEof s rest start empties
  case case1 | case4 => cases he
  case case2 => cases he; exact .splitter _
  case case3 => cases he; exact .advanceTooFar
  case case6 => cases he; exact .callback _
  case case7 => cases he; exact .noProgress
  case case5 ih | case8 ih | case9 ih => exact ih he

theorem lt_length_of_drop_eq_cons {data more : List UInt8} {start : Nat} {b : UInt8}
    (h : b :: more = data.drop start) : start < data.length := by
  have : data.drop start ≠ [] := by rw [← h]; simp
  simpa [List.drop_eq_nil_iff] using this

/-- A scan of the suffix of `data` from `start` on, through the logged hooks: it ends as the
scan through `h` does, having logged calls on suffixes of `data` from nondecreasing starts, each
at least `start`, before the end of `data`, and not past what the scan consumes. -/
theorem logged_scanFrom (atEof : Bool) (s : σ) (log : List (List UInt8 × Bool))
    (data rest : List UInt8) (start empties : Nat) (hrest : rest = data.drop start) :
    ∃ starts : List Nat,
      h.logged.scanFrom atEof (s, log) rest start empties =
        ⟨(h.scanFrom atEof s rest start empties).consumed,
          (h.scanFrom atEof s rest start empties).error,
          ((h.scanFrom atEof s rest start empties).state,
            log ++ starts.map fun k => (data.drop k, atEof))⟩ ∧
      starts.Pairwise (· ≤ ·) ∧
      ∀ k ∈ starts, start ≤ k ∧ k < data.length ∧
        k ≤ (h.scanFrom atEof s rest start empties).consumed := by
  fun_induction h.scanFrom atEof s rest start empties generalizing log
  case case1 => exact ⟨[], by rw [scanFrom]; simp, by simp, by simp⟩
  -- the scans that stop at their first call have logged that call alone
  case case2 s start _ b more m s1 hsplit =>
    refine ⟨[start], ?_, by simp, by simpa using lt_length_of_drop_eq_cons hrest⟩
    conv => lhs; rw [scanFrom]
    simp [h.logged_split hsplit, ← hrest]
  case case3 s start _ b more sp s1 hsplit hfar =>
    refine ⟨[start], ?_, by simp, by simpa using lt_length_of_drop_eq_cons hrest⟩
    conv => lhs; rw [scanFrom]
    simp [h.logged_split hsplit, hfar, ← hrest]
  case case4 s start _ b more sp s1 hsplit _ _ htok hzero =>
    refine ⟨[start], ?_, by simp, by simpa using lt_length_of_drop_eq_cons hrest⟩
    conv => lhs; rw [scanFrom]
    simp [h.logged_split hsplit, htok, hzero, hasAtLeast, ← hrest]
  case case6 s start _ b more sp s1 hsplit hfits _ tok htok s2 m hemit =>
    refine ⟨[start], ?_, by simp, by simpa using lt_length_of_drop_eq_cons hrest⟩
    conv => lhs; rw [scanFrom]
    simp only [dite_eq_ite] at hemit
    simp only [h.logged_split hsplit, hfits, htok]
    rw [h.logged_emit hemit]
    simp [← hrest]
  case case7 s start _ b more sp s1 hsplit hfits _ tok htok s2 hzero hmany hemit =>
    refine ⟨[start], ?_, by simp, by simpa using lt_length_of_drop_eq_cons hrest⟩
    conv => lhs; rw [scanFrom]
    simp only [dite_eq_ite] at hemit
    simp only [h.logged_split hsplit, hfits, htok]
    rw [h.logged_emit hemit]
    simp [hzero, hmany, ← hrest]
  -- the scans that go on have logged their first call, then the calls of the rest
  case case5 s start empties b more sp s1 hsplit hfits _ htok hzero ih =>
    have hlt := lt_length_of_drop_eq_cons hrest
    obtain ⟨starts, heq, hsorted, hks⟩ :=
      ih (log ++ [(b :: more, atEof)]) (by rw [hrest, List.drop_drop])
    have hle := (h.consumed_scanFrom atEof s1 ((b :: more).drop sp.advance)
      (start + sp.advance) empties).1
    refine ⟨start :: starts, ?_, ?_, ?_⟩
    · conv => lhs; rw [scanFrom]
      simp only [h.logged_split hsplit, hfits, htok, hzero, ↓reduceDIte]
      rw [heq]
      simp [← hrest]
    · exact List.pairwise_cons.2 ⟨fun k hk => by have := (hks k hk).1; omega, hsorted⟩
    · intro k hk
      rcases List.mem_cons.1 hk with rfl | hk
      · exact ⟨Nat.le_refl _, hlt, by omega⟩
      · have := hks k hk
        exact ⟨by omega, this.2⟩
  case case8 s start empties b more sp s1 hsplit hfits _ tok htok s2 hzero hmany hemit ih =>
    -- an empty token: the next call is on the same suffix
    obtain ⟨starts, heq, hsorted, hks⟩ := ih (log ++ [(b :: more, atEof)]) hrest
    refine ⟨start :: starts, ?_, ?_, ?_⟩
    · conv => lhs; rw [scanFrom]
      simp only [dite_eq_ite] at hemit
      simp only [h.logged_split hsplit, hfits, htok]
      rw [h.logged_emit hemit]
      simp only [hzero, hmany, ↓reduceDIte]
      rw [heq]
      simp [← hrest]
    · exact List.pairwise_cons.2 ⟨fun k hk => (hks k hk).1, hsorted⟩
    · intro k hk
      rcases List.mem_cons.1 hk with rfl | hk
      · exact ⟨Nat.le_refl _, lt_length_of_drop_eq_cons hrest,
          (h.consumed_scanFrom atEof s2 (b :: more) k (empties + 1)).1⟩
      · exact hks k hk
  case case9 s start empties b more sp s1 hsplit hfits _ tok htok s2 hzero hemit ih =>
    have hlt := lt_length_of_drop_eq_cons hrest
    obtain ⟨starts, heq, hsorted, hks⟩ :=
      ih (log ++ [(b :: more, atEof)]) (by rw [hrest, List.drop_drop])
    have hle := (h.consumed_scanFrom atEof s2 ((b :: more).drop sp.advance)
      (start + sp.advance) 0).1
    refine ⟨start :: starts, ?_, ?_, ?_⟩
    · conv => lhs; rw [scanFrom]
      simp only [dite_eq_ite] at hemit
      simp only [h.logged_split hsplit, hfits, htok]
      rw [h.logged_emit hemit]
      simp only [hzero, ↓reduceDIte]
      rw [heq]
      simp [← hrest]
    · exact List.pairwise_cons.2 ⟨fun k hk => by have := (hks k hk).1; omega, hsorted⟩
    · intro k hk
      rcases List.mem_cons.1 hk with rfl | hk
      · exact ⟨Nat.le_refl _, hlt, by omega⟩
      · have := hks k hk
        exact ⟨by omega, this.2⟩

end Hooks

/-! ## The write -/

variable {σ : Type}

/-- What a write of `data` to `sc`, through hooks `h` from state `s`, does, read off a scan `p`
of `input` before the end of input: `p` consumes no more than `input`; the splitter is called
on suffixes of `input` from nondecreasing starts, each before its end and none past what `p`
consumes, and the hooks end where `p` leaves them; the write holds the unconsumed tail when `p`
succeeded and the tail fits the limit, and otherwise fails with `p`'s error, one a scan stops
with, or with an overflow of the write naming the tail's length and the limit, holding nothing. -/
structure ScannedWrite (h : Hooks σ) (s : σ) (sc : Scanner) (data input : List UInt8)
    (p : Pass σ) : Prop where
  consumed_le : p.consumed ≤ input.length
  calls : ∃ starts : List Nat, starts.Pairwise (· ≤ ·) ∧
    (∀ k ∈ starts, k < input.length ∧ k ≤ p.consumed) ∧
    (sc.write h.logged (s, []) data).2.2 = (p.state, starts.map fun k => (input.drop k, false))
  failed : ∀ e, p.error = some e →
    ScanError e ∧ sc.write h s data = (.error e, { sc with pending := [] }, p.state)
  kept : p.error = none → input.length - p.consumed ≤ sc.limit →
    sc.write h s data = (.ok data.length, { sc with pending := input.drop p.consumed }, p.state)
  overflowed : p.error = none → sc.limit < input.length - p.consumed →
    sc.write h s data =
      (.error (Error.overflow (input.length - p.consumed) sc.limit), { sc with pending := [] },
        p.state)

theorem write_state {h : Hooks σ} {s : σ} {sc : Scanner} (hopen : sc.closed = false)
    (data : List UInt8) : (sc.write h s data).2.2 = (h.scan false s (sc.pending ++ data)).state := by
  rw [Scanner.write_eq_append]
  simp only [hopen, Bool.false_eq_true, ↓reduceIte]
  split
  · rfl
  · split <;> rfl

/-- **Writing is scanning the held bytes followed by the data**, on both of the write's paths:
for every open scanner, every data, all hooks and every limit, the write does what the scan of
`pending ++ data` before the end of input decides. -/
theorem write_scans_held_then_data (h : Hooks σ) (s : σ) {sc : Scanner} (hopen : sc.closed = false)
    (data : List UInt8) :
    ScannedWrite h s sc data (sc.pending ++ data) (h.scan false s (sc.pending ++ data)) := by
  have hopen' : ¬ sc.closed = true := by simp [hopen]
  obtain ⟨starts, hlog, hsorted, hks⟩ :=
    h.logged_scanFrom false s [] (sc.pending ++ data) (sc.pending ++ data) 0 0 rfl
  refine ⟨by simpa [Hooks.scan] using (h.consumed_scanFrom false s (sc.pending ++ data) 0 0).2,
    ⟨starts, hsorted, fun k hk => (hks k hk).2, ?_⟩, fun e he => ⟨?_, ?_⟩, fun hnone hfit => ?_,
    fun hnone hover => ?_⟩
  · -- the logged write ends where its scan does, with that scan's log
    rw [write_state hopen, Hooks.scan, hlog]
    simp [Hooks.scan]
  · exact h.scanError_of_scanFrom false s _ 0 0 he
  · rw [Scanner.write_eq_append, if_neg hopen']
    simp only [he]
  · rw [Scanner.write_eq_append, if_neg hopen']
    simp only [hnone, gt_iff_lt]
    rw [if_neg (by omega)]
  · rw [Scanner.write_eq_append, if_neg hopen']
    simp only [hnone, gt_iff_lt]
    rw [if_pos hover]

/-- A line held across two writes: with `a` held, writing a line feed and `b` scans `a`, the
line feed and `b` as one input. -/
theorem write_scans_held_line :
    (⟨[97], 16, false⟩ : Scanner).closed = false ∧
      ScannedWrite recorder (.lines, []) ⟨[97], 16, false⟩ [10, 98] ([97] ++ [10, 98])
        (recorder.scan false (.lines, []) ([97] ++ [10, 98])) :=
  ⟨rfl, write_scans_held_then_data recorder (.lines, []) rfl [10, 98]⟩

end Plumbing.Scan
