import Plumbing.Proofs.Scan.Trace
import Plumbing.Proofs.Scan.Lifecycle

/-!
# What a failed flush leaves

A flush of an open scanner with nothing held answers at once and calls no hook. Otherwise it is
one scan `p` of the held bytes at the end of input, and what it leaves depends on where a
failure came from, which it tells by the operation the error names
(`flush_recovers_by_origin`):

* the splitter is called on the held bytes after the advances answered before each call, and the
  callback receives the tokens found, less the empty ones (`Scanner.flush_traced`);
* a scan that succeeds empties the held bytes, even when the splitter stopped before their end;
* a failure of the splitter, an advance past the end or a run of empty tokens keeps the bytes
  from the failing call on, the advances before it being what the scan consumed, and reports the
  same fault as a failure of the flush;
* a failure of the token callback drops the held bytes;
* a close is this flush, and closes only when it succeeds. So a close retried after a failure on
  the splitter's side first calls the splitter on exactly the bytes the failing call was given.
-/

namespace Plumbing.Scan

namespace Scanner

variable {σ : Type} (h : Hooks σ) (s : σ)

/-! ## The outcomes of a flush -/

theorem flush_of_pending_nil {sc : Scanner} (hopen : sc.closed = false) (hp : sc.pending = []) :
    sc.flush h s = (.ok (), sc, s) := by
  simp [flush, hopen, hp]

/-- A flush whose scan of the held bytes succeeds leaves nothing held. -/
theorem flush_of_scan_ok {sc : Scanner} (hopen : sc.closed = false) (hp : sc.pending ≠ [])
    (hok : (h.scan true s sc.pending).error = none) :
    sc.flush h s = (.ok (), { sc with pending := [] }, (h.scan true s sc.pending).state) := by
  simp [flush, hopen, List.isEmpty_iff, hp, hok]

/-- A flush whose scan fails reports the failure as its own, keeping the bytes from the failing
call on when the splitter failed, and nothing when the callback did. -/
theorem flush_of_scan_error {sc : Scanner} (hopen : sc.closed = false) (hp : sc.pending ≠ [])
    {e : Error} (he : (h.scan true s sc.pending).error = some e) :
    sc.flush h s =
      (.error (e.withOp .flush),
        { sc with pending := if e.op = .split then sc.pending.drop (h.scan true s sc.pending).consumed
            else [] },
        (h.scan true s sc.pending).state) := by
  by_cases hop : e.op = .split <;> simp [flush, hopen, List.isEmpty_iff, hp, he, hop]

/-- A close of an open scanner is its flush, closing it when the flush succeeds. -/
theorem close_eq_flush {sc : Scanner} (hopen : sc.closed = false) :
    sc.close h s =
      ((sc.flush h s).1, { (sc.flush h s).2.1 with closed := (sc.flush h s).1.toBool },
        (sc.flush h s).2.2) := by
  have hclosed : (sc.flush h s).2.1.closed = false := by rw [flush_closed, hopen]
  rcases hf : sc.flush h s with ⟨_ | _, ⟨pending, limit, closed⟩, s'⟩
  · rw [hf] at hclosed
    subst hclosed
    rw [close_of_flush_error h s hopen hf]
    rfl
  · rw [close_of_flush_ok h s hopen hf]
    rfl

/-- A flush through the traced hooks does what the flush through `h` does, having traced the
calls of its scan and the tokens it passed on. -/
theorem flush_traced {sc : Scanner} (hopen : sc.closed = false) (hp : sc.pending ≠ [])
    (calls : List SplitCall) (toks : List (List UInt8)) :
    ∃ cs : List SplitCall,
      sc.flush h.traced (s, calls, toks) =
        ((sc.flush h s).1, (sc.flush h s).2.1,
          ((h.scan true s sc.pending).state, calls ++ cs, toks ++ cs.filterMap SplitCall.passed?)) ∧
      CallsFrom sc.pending true 0 cs ∧ Consumes 0 (h.scan true s sc.pending) cs ∧ cs ≠ [] := by
  obtain ⟨cs, heq, hcalls, hcons, hnil⟩ :=
    h.traced_scanFrom true s calls toks sc.pending sc.pending 0 0 List.drop_zero.symm
  have hscan : h.traced.scan true (s, calls, toks) sc.pending =
      ⟨(h.scan true s sc.pending).consumed, (h.scan true s sc.pending).error,
        ((h.scan true s sc.pending).state, calls ++ cs, toks ++ cs.filterMap SplitCall.passed?)⟩ :=
    heq
  refine ⟨cs, ?_, hcalls, hcons, fun hcs => hp (hnil.1 hcs)⟩
  rcases he : (h.scan true s sc.pending).error with _ | e
  · rw [flush_of_scan_ok h s hopen hp he, flush_of_scan_ok h.traced _ hopen hp (by rw [hscan, he]),
      hscan]
  · rw [flush_of_scan_error h s hopen hp he,
      flush_of_scan_error h.traced _ hopen hp (by rw [hscan, he]), hscan]

/-! ## Recovery by the failure's origin -/

/-- A flush whose scan failed on the splitter's side reports the same fault, of the flush, and
keeps the bytes from the failing call on. -/
theorem flush_of_split_failure {sc : Scanner} (hopen : sc.closed = false) (hp : sc.pending ≠ [])
    {e : Error} (he : (h.scan true s sc.pending).error = some e) (hop : e.op = .split) :
    sc.flush h s = (.error ⟨.flush, e.fault⟩,
      { sc with pending := sc.pending.drop (h.scan true s sc.pending).consumed },
      (h.scan true s sc.pending).state) := by
  rw [flush_of_scan_error h s hopen hp he, if_pos hop]
  rfl

/-- A flush whose scan failed otherwise failed in the token callback: it drops the held bytes,
and is a callback failure of the flush. -/
theorem flush_of_token_failure {sc : Scanner} (hopen : sc.closed = false) (hp : sc.pending ≠ [])
    {e : Error} (he : (h.scan true s sc.pending).error = some e) (hop : e.op ≠ .split) :
    ∃ m, e = Error.callback .token m ∧
      sc.flush h s = (.error (Error.callback .flush m), { sc with pending := [] },
        (h.scan true s sc.pending).state) := by
  cases h.scanError_of_scanFrom true s _ 0 0 he with
  | splitter m => exact absurd rfl hop
  | advanceTooFar => exact absurd rfl hop
  | noProgress => exact absurd rfl hop
  | callback m =>
    refine ⟨m, rfl, ?_⟩
    rw [flush_of_scan_error h s hopen hp he, if_neg hop]
    rfl

/-- A close retried on what a close that failed on the splitter's side left, short of the end of
the held bytes, first calls the splitter on the bytes kept, at the end of input, whatever the
hooks' state. -/
theorem close_retried_calls_kept {sc : Scanner} (hopen : sc.closed = false) (hp : sc.pending ≠ [])
    {e : Error} (he : (h.scan true s sc.pending).error = some e) (hop : e.op = .split)
    (hlt : (h.scan true s sc.pending).consumed < sc.pending.length) (t : σ) :
    ∃ c rest, ((sc.close h s).2.1.close h.traced (t, [], [])).2.2.2.1 = c :: rest ∧
      c.data = sc.pending.drop (h.scan true s sc.pending).consumed ∧ c.atEof = true := by
  -- the failed close left the bytes from the failing call on, still open
  have hleft : (sc.close h s).2.1 =
      { sc with pending := sc.pending.drop (h.scan true s sc.pending).consumed } := by
    rw [close_of_flush_error h s hopen (flush_of_split_failure h s hopen hp he hop)]
  have hopen' : (sc.close h s).2.1.closed = false := by rw [hleft]; exact hopen
  have hp' : (sc.close h s).2.1.pending ≠ [] := by
    rw [hleft]
    simpa [List.drop_eq_nil_iff] using hlt
  obtain ⟨cs, heq, hcalls, -, hne⟩ := flush_traced h t hopen' hp' [] []
  obtain ⟨c, rest, rfl⟩ := List.exists_cons_of_ne_nil hne
  obtain ⟨-, hc, hceof, -⟩ := hcalls
  refine ⟨c, rest, ?_, ?_, hceof⟩
  · rw [close_eq_flush h.traced _ hopen', heq]
    rfl
  · rw [hc, List.drop_zero, hleft]

/-- What a failed scan consumed ends before the end of the held bytes, where its failing call
was made. -/
theorem failed_call {sc : Scanner} {p : Pass σ} {cs : List SplitCall}
    (hcalls : CallsFrom sc.pending true 0 cs) (hcons : Consumes 0 p cs) {e : Error}
    (he : p.error = some e) :
    ∃ hne : cs ≠ [], (cs.getLast hne).data = sc.pending.drop p.consumed ∧
      p.consumed < sc.pending.length := by
  unfold Consumes at hcons
  rw [he] at hcons
  obtain ⟨hne, hc⟩ := hcons
  obtain ⟨hdata, hlt⟩ := hcalls.getLast_data hne
  rw [← hc] at hdata hlt
  exact ⟨hne, hdata, hlt⟩

/-- What flushing the open scanner `sc`, holding bytes, through the hooks `h` from their state
`s` does, where `p` is the scan of the held bytes at the end of input and `cs` its trace. -/
structure FlushScans (h : Hooks σ) (s : σ) (sc : Scanner) (p : Pass σ) (cs : List SplitCall) :
    Prop where
  /-- Each splitter call is at the end of input, on the held bytes after the advances before
  it. -/
  calls : CallsFrom sc.pending true 0 cs
  /-- The scan consumed the advances of its calls, the failing one apart. -/
  consumes : Consumes 0 p cs
  /-- The flush traced `cs`, and passed on the tokens found, less the empty ones. -/
  traced : sc.flush h.traced (s, [], []) =
    ((sc.flush h s).1, (sc.flush h s).2.1,
      (p.state, cs, (cs.filterMap SplitCall.token?).filter fun t => !t.isEmpty))
  /-- A scan that succeeds leaves nothing held, wherever the splitter stopped. -/
  ok : p.error = none → sc.flush h s = (.ok (), { sc with pending := [] }, p.state)
  /-- The errors a scan stops with. -/
  failures : ∀ e, p.error = some e → ScanError e
  /-- A failure on the splitter's side keeps the bytes from the failing call on, and is the
  same fault, of the flush. -/
  splitFailed : ∀ e, p.error = some e → e.op = .split →
    sc.flush h s = (.error ⟨.flush, e.fault⟩, { sc with pending := sc.pending.drop p.consumed },
      p.state)
  /-- A failure of the token callback drops the held bytes, and is a callback failure of the
  flush. -/
  tokenFailed : ∀ e, p.error = some e → e.op ≠ .split →
    ∃ m, e = Error.callback .token m ∧
      sc.flush h s = (.error (Error.callback .flush m), { sc with pending := [] }, p.state)
  /-- After a failure on the splitter's side, the failing call was the last, on the bytes the
  flush kept; a close retried on what the failure left, whatever the hooks' state, first calls
  the splitter on those same bytes at the end of input. -/
  retry : ∀ e, p.error = some e → e.op = .split → ∃ hne : cs ≠ [],
    (cs.getLast hne).data = sc.pending.drop p.consumed ∧
      ∀ t : σ, ∃ c rest, ((sc.close h s).2.1.close h.traced (t, [], [])).2.2.2.1 = c :: rest ∧
        c.data = (cs.getLast hne).data ∧ c.atEof = true

/-- What flushing and closing the open scanner `sc` through the hooks `h`, from their state `s`,
do. -/
structure Flushes (h : Hooks σ) (s : σ) (sc : Scanner) : Prop where
  /-- With nothing held, a flush answers at once and calls no hook. -/
  idle : sc.pending = [] → sc.flush h s = (.ok (), sc, s)
  /-- A close is the flush, and closes only when the flush succeeds. -/
  close : sc.close h s =
    ((sc.flush h s).1, { (sc.flush h s).2.1 with closed := (sc.flush h s).1.toBool },
      (sc.flush h s).2.2)
  /-- With bytes held, a flush is the scan of them at the end of input. -/
  scans : sc.pending ≠ [] → ∃ cs, FlushScans h s sc (h.scan true s sc.pending) cs

/-- **A flush recovers by the failure's origin.** For every open scanner, all hooks and every
state of theirs, flushing and closing do what `Flushes` says. -/
theorem flush_recovers_by_origin (h : Hooks σ) (s : σ) {sc : Scanner} (hopen : sc.closed = false) :
    Flushes h s sc := by
  refine ⟨flush_of_pending_nil h s hopen, close_eq_flush h s hopen, fun hp => ?_⟩
  obtain ⟨cs, heq, hcalls, hcons, -⟩ := flush_traced h s hopen hp [] []
  refine ⟨cs, hcalls, hcons, ?_, flush_of_scan_ok h s hopen hp,
    fun e he => h.scanError_of_scanFrom true s _ 0 0 he,
    fun e he hop => flush_of_split_failure h s hopen hp he hop,
    fun e he hop => flush_of_token_failure h s hopen hp he hop, fun e he hop => ?_⟩
  · -- at the end of input the tokens passed on are those found, less the empty ones
    rw [heq, List.nil_append, List.nil_append, SplitCall.filterMap_passed? hcalls.atEof_eq]
  · obtain ⟨hne, hdata, hlt⟩ := failed_call hcalls hcons he
    refine ⟨hne, hdata, fun t => ?_⟩
    obtain ⟨c, rest, htrace, hc, hceof⟩ := close_retried_calls_kept h s hopen hp he hop hlt t
    exact ⟨c, rest, htrace, hc.trans hdata.symm, hceof⟩

/-- A splitter that fails once, on `ab` held by an open scanner. -/
theorem flush_recovers_after_failed_split :
    (⟨[97, 98], 1024, false⟩ : Scanner).closed = false ∧
      Flushes recorder (.scripted [⟨.fail "split", 1⟩] (.words false), [])
        ⟨[97, 98], 1024, false⟩ :=
  ⟨rfl, flush_recovers_by_origin _ _ rfl⟩

end Scanner

end Plumbing.Scan
