import Plumbing.Scan.Splitter
import Plumbing.Scan.Scanner

/-!
# Scanning does not depend on how the input is cut into writes

A session writes chunks to a fresh scanner and then flushes it, with a callback that records
each token and accepts it (`session`). A splitter that keeps no state answers as a function `f`
of the held bytes and the end-of-input flag (`Splitter.Computes`). It cuts as a reference
tokenizer `ref` when it obeys the laws of `Cuts`:

* before the end of input, a token it finds is the first token that `ref` gives, whatever bytes
  follow, and bytes it skips give none;
* when it asks for more input, what it holds is `final`, and at the end of input it cuts a
  `final` rest as `ref` does, empty tokens left out.

From these laws a scan before the end of input consumes a prefix and emits the first tokens of
`ref` of every continuation (`scanFrom_write`), and a scan at the end of input emits all of `ref`
(`scanFrom_final`). Between calls a session keeps `Fed`: the tokens received, followed by `ref`
of the held bytes and of any continuation, are `ref` of all bytes written and that
continuation. So its writes succeed when the bound holds the whole input, and whenever they all
succeed the callback receives `ref` of the whole input (`Cuts.scansAs`).
-/

namespace Plumbing.Scan

/-! ## The scan loop, one splitter answer at a time -/

namespace Hooks

variable {σ : Type} (h : Hooks σ) {atEof : Bool} {s s1 s2 : σ} {X : List UInt8}

theorem scanFrom_nil (atEof : Bool) (s : σ) (start empties : Nat) :
    h.scanFrom atEof s [] start empties = ⟨start, none, s⟩ := by
  rw [scanFrom]

theorem scanFrom_more (hX : X ≠ []) (hs : h.split s X atEof = (.ok .more, s1))
    (start empties : Nat) : h.scanFrom atEof s X start empties = ⟨start, none, s1⟩ := by
  obtain ⟨b, more, rfl⟩ := List.exists_cons_of_ne_nil hX
  rw [scanFrom, hs]
  simp [Split.more, hasAtLeast]

theorem scanFrom_skip {a : Nat} (hX : X ≠ []) (hs : h.split s X atEof = (.ok (.skip a), s1))
    (hle : a ≤ X.length) (hpos : 0 < a) (start empties : Nat) :
    h.scanFrom atEof s X start empties = h.scanFrom atEof s1 (X.drop a) (start + a) empties := by
  obtain ⟨b, more, rfl⟩ := List.exists_cons_of_ne_nil hX
  rw [scanFrom, hs]
  simp [Split.skip, (hasAtLeast_iff a _).2 hle, Nat.pos_iff_ne_zero.1 hpos]

/-- A token found and accepted (or, at the end of input, left out for being empty): the scan
goes on after the bytes consumed. -/
theorem scanFrom_found {a : Nat} {t : List UInt8} (hX : X ≠ [])
    (hs : h.split s X atEof = (.ok (.found a t), s1)) (hle : a ≤ X.length) (hpos : 0 < a)
    (he : (if atEof && t.isEmpty then (.ok (), s1) else h.emit s1 t) = (.ok (), s2))
    (start empties : Nat) :
    h.scanFrom atEof s X start empties = h.scanFrom atEof s2 (X.drop a) (start + a) 0 := by
  obtain ⟨b, more, rfl⟩ := List.exists_cons_of_ne_nil hX
  have hfit : hasAtLeast a (b :: more) = true := (hasAtLeast_iff a _).2 hle
  rw [scanFrom, hs]
  simp only [Split.found, hfit, Bool.true_eq_false, ↓reduceDIte]
  rw [he]
  simp [Nat.pos_iff_ne_zero.1 hpos]

end Hooks

/-! ## Sessions -/

/-- The hooks of a session: the splitter answers, and the callback records each token and
accepts it. The state is the splitter and the tokens received, oldest first. -/
def recorder : Hooks (Splitter × List (List UInt8)) where
  split s data atEof := ((s.1.call data atEof).1, ((s.1.call data atEof).2, s.2))
  emit s tok := (.ok (), (s.1, s.2 ++ [tok]))

namespace Scanner

/-- Writes the chunks in turn: the result of each write, with the scanner and the hooks' state
after the last. -/
def writeAll {σ : Type} (h : Hooks σ) (s : σ) (sc : Scanner) :
    List (List UInt8) → List (Except Error Nat) × Scanner × σ
  | [] => ([], sc, s)
  | c :: cs =>
    let w := sc.write h s c
    let rest := writeAll h w.2.2 w.2.1 cs
    (w.1 :: rest.1, rest.2)

end Scanner

/-- What a session answered: the result of each write, the result of the flush, and the tokens
the callback received. -/
structure Session where
  writes : List (Except Error Nat)
  flushed : Except Error Unit
  tokens : List (List UInt8)

/-- A fresh scanner over `sp` holding at most `limit` bytes: the chunks written in turn, then a
flush. -/
def session (sp : Splitter) (limit : Nat) (chunks : List (List UInt8)) : Session :=
  let w := (Scanner.new limit).writeAll recorder (sp, []) chunks
  let f := w.2.1.flush recorder w.2.2
  ⟨w.1, f.1, f.2.2.2⟩

/-- Every call of the session returned `Ok`. -/
def Session.Succeeded (o : Session) : Prop :=
  (∀ r ∈ o.writes, ∃ n, r = .ok n) ∧ o.flushed = .ok ()

/-- Scanning with `sp` cuts `chunks` as `ref` cuts all their bytes: when the bound holds them
all, every write returns its length and the flush succeeds; whenever every call succeeds, the
callback receives `ref` of all the bytes. -/
def ScansAs (sp : Splitter) (ref : List UInt8 → List (List UInt8)) (limit : Nat)
    (chunks : List (List UInt8)) : Prop :=
  (chunks.flatten.length ≤ limit →
      (session sp limit chunks).writes = chunks.map (fun c => .ok c.length) ∧
        (session sp limit chunks).flushed = .ok ()) ∧
    ((session sp limit chunks).Succeeded → (session sp limit chunks).tokens = ref chunks.flatten)

/-! ## Splitters that cut as a reference tokenizer -/

/-- `sp` keeps no state and answers as `f`. -/
def Splitter.Computes (sp : Splitter) (f : List UInt8 → Bool → Split) : Prop :=
  ∀ data atEof, sp.call data atEof = (.ok (f data atEof), sp)

/-- The tokens a scan at the end of input passes on for a splitter's token: an empty one is
left out. -/
def eofTokens : Option (List UInt8) → List (List UInt8)
  | none => []
  | some t => if t.isEmpty then [] else [t]

/-- The laws under which the splitter `f` cuts every chunking of an input as `ref` cuts the
whole of it; `final` holds of what the splitter may be left with at the end of input. -/
structure Cuts (f : List UInt8 → Bool → Split) (ref : List UInt8 → List (List UInt8))
    (final : List UInt8 → Prop) : Prop where
  ref_nil : ref [] = []
  advance_le : ∀ X, X ≠ [] → (f X false).advance ≤ X.length
  found : ∀ X t E, X ≠ [] → (f X false).token = some t →
    0 < (f X false).advance ∧ ref (X ++ E) = t :: ref (X.drop (f X false).advance ++ E)
  skip : ∀ X E, X ≠ [] → (f X false).token = none →
    ref (X ++ E) = ref (X.drop (f X false).advance ++ E)
  final_of_more : ∀ X, X ≠ [] → f X false = .more → final X
  final_step : ∀ X, X ≠ [] → final X →
    0 < (f X true).advance ∧ (f X true).advance ≤ X.length ∧
      final (X.drop (f X true).advance) ∧
      ref X = eofTokens (f X true).token ++ ref (X.drop (f X true).advance)

section Recorder

variable {sp : Splitter} {f : List UInt8 → Bool → Split} {ref : List UInt8 → List (List UInt8)}
  {final : List UInt8 → Prop}

theorem recorder_split (hsp : sp.Computes f) (toks : List (List UInt8)) (X : List UInt8)
    (atEof : Bool) : recorder.split (sp, toks) X atEof = (.ok (f X atEof), (sp, toks)) := by
  simp [recorder, hsp X atEof]

/-- **A scan before the end of input** consumes `c` bytes and emits `T`, the first tokens of
`ref` of its data followed by any continuation; the splitter asks for more at what is left. -/
theorem scanFrom_write (hsp : sp.Computes f) (hc : Cuts f ref final) (X : List UInt8)
    (toks : List (List UInt8)) (start : Nat) :
    ∃ c T, recorder.scanFrom false (sp, toks) X start 0 = ⟨start + c, none, (sp, toks ++ T)⟩ ∧
      c ≤ X.length ∧ (X.drop c = [] ∨ f (X.drop c) false = .more) ∧
      ∀ E, ref (X ++ E) = T ++ ref (X.drop c ++ E) := by
  -- strong induction on the data left: every answer that does not end the scan consumes bytes
  obtain ⟨n, hn⟩ : ∃ n, X.length = n := ⟨_, rfl⟩
  induction n using Nat.strongRecOn generalizing X toks start with
  | ind n ih =>
  by_cases hX : X = []
  · subst hX
    exact ⟨0, [], by simp [Hooks.scanFrom_nil], Nat.le_refl _, .inl rfl, by simp⟩
  have hlen : 0 < X.length := List.length_pos_iff.2 hX
  have hle := hc.advance_le X hX
  rcases hf : f X false with ⟨a, _ | t⟩
  · simp only [hf] at hle
    by_cases ha : a = 0
    · -- the splitter asks for more: nothing consumed
      subst ha
      refine ⟨0, [], ?_, Nat.zero_le _, .inr hf, by simp⟩
      rw [Hooks.scanFrom_more _ hX (by rw [recorder_split hsp, hf]; rfl)]
      simp
    · -- bytes skipped: the reference gives nothing for them
      have hskip : ∀ E, ref (X ++ E) = ref (X.drop a ++ E) := fun E => by
        simpa [hf] using hc.skip X E hX (by simp [hf])
      obtain ⟨c, T, hscan, hcle, hstuck, href⟩ :=
        ih (X.drop a).length (by simp only [List.length_drop]; omega) (X.drop a) toks (start + a) rfl
      refine ⟨a + c, T, ?_, by simp at hcle; omega, by simpa using hstuck, fun E => ?_⟩
      · rw [Hooks.scanFrom_skip _ hX (by rw [recorder_split hsp, hf]; rfl) hle
          (Nat.pos_of_ne_zero ha), hscan, Nat.add_assoc]
      · rw [hskip E, href E, List.drop_drop]
  · -- a token found: it is the first token of the reference
    have hpos : 0 < a := by simpa [hf] using (hc.found X t [] hX (by simp [hf])).1
    have hfound : ∀ E, ref (X ++ E) = t :: ref (X.drop a ++ E) := fun E => by
      simpa [hf] using (hc.found X t E hX (by simp [hf])).2
    simp only [hf] at hle
    obtain ⟨c, T, hscan, hcle, hstuck, href⟩ :=
      ih (X.drop a).length (by simp only [List.length_drop]; omega) (X.drop a) (toks ++ [t]) (start + a) rfl
    refine ⟨a + c, t :: T, ?_, by simp at hcle; omega, by simpa using hstuck, fun E => ?_⟩
    · rw [Hooks.scanFrom_found _ hX (by rw [recorder_split hsp, hf]; rfl) hle hpos rfl, hscan,
        Nat.add_assoc]
      simp
    · rw [hfound E, href E, List.drop_drop, List.cons_append]

/-- **A scan at the end of input** of a `final` rest consumes it all and emits its tokens
under `ref`. -/
theorem scanFrom_final (hsp : sp.Computes f) (hc : Cuts f ref final) (X : List UInt8)
    (hX : final X) (toks : List (List UInt8)) (start : Nat) :
    recorder.scanFrom true (sp, toks) X start 0 = ⟨start + X.length, none, (sp, toks ++ ref X)⟩ := by
  obtain ⟨n, hn⟩ : ∃ n, X.length = n := ⟨_, rfl⟩
  induction n using Nat.strongRecOn generalizing X toks start with
  | ind n ih =>
  by_cases hne : X = []
  · subst hne
    rw [Hooks.scanFrom_nil, hc.ref_nil]
    simp
  have hlen : 0 < X.length := List.length_pos_iff.2 hne
  obtain ⟨hpos, hle, hfin, href⟩ := hc.final_step X hne hX
  rcases hf : f X true with ⟨a, _ | t⟩
  · simp only [hf, eofTokens, List.nil_append] at hpos hle hfin href
    rw [Hooks.scanFrom_skip _ hne (by rw [recorder_split hsp, hf]; rfl) hle hpos,
      ih (X.drop a).length (by simp only [List.length_drop]; omega) (X.drop a) hfin toks (start + a) rfl, href]
    simp only [List.length_drop, Pass.mk.injEq, and_true]
    omega
  · simp only [hf] at hpos hle hfin href
    -- the token is passed on unless it is empty
    have he : (if true && t.isEmpty then (.ok (), (sp, toks)) else recorder.emit (sp, toks) t) =
        (.ok (), (sp, toks ++ eofTokens (some t))) := by
      by_cases ht : t.isEmpty <;> simp [ht, eofTokens, recorder]
    rw [Hooks.scanFrom_found _ hne (by rw [recorder_split hsp, hf]; rfl) hle hpos he,
      ih (X.drop a).length (by simp only [List.length_drop]; omega) (X.drop a) hfin (toks ++ eofTokens (some t))
        (start + a) rfl,
      href]
    simp only [List.length_drop, List.append_assoc, Pass.mk.injEq, and_true]
    omega

/-- What a session keeps between calls, after the bytes `P` were written: the scanner is open
with the bound `limit` and holds no more than `P`, the splitter asks for more at the held
bytes, and the tokens received followed by `ref` of the held bytes and of any continuation are
`ref` of `P` and that continuation. -/
structure Fed (f : List UInt8 → Bool → Split) (ref : List UInt8 → List (List UInt8))
    (sp : Splitter) (limit : Nat) (P : List UInt8) (sc : Scanner)
    (s : Splitter × List (List UInt8)) : Prop where
  not_closed : sc.closed = false
  limit_eq : sc.limit = limit
  splitter : s.1 = sp
  held_le : sc.pending.length ≤ P.length
  stuck : sc.pending = [] ∨ f sc.pending false = .more
  tokens : ∀ E, ref (P ++ E) = s.2 ++ ref (sc.pending ++ E)

theorem Fed.start (sp : Splitter) (limit : Nat) :
    Fed f ref sp limit [] (Scanner.new limit) (sp, []) :=
  ⟨rfl, rfl, rfl, Nat.le_refl _, .inl rfl, by simp [Scanner.new]⟩

/-- A write either succeeds and keeps the invariant, or fails for want of room: more bytes were
written than the bound. -/
theorem Fed.write (hsp : sp.Computes f) (hc : Cuts f ref final) {limit : Nat} {P : List UInt8}
    {sc : Scanner} {s : Splitter × List (List UInt8)} (h : Fed f ref sp limit P sc s)
    (c : List UInt8) :
    ((sc.write recorder s c).1 = .ok c.length ∧
        Fed f ref sp limit (P ++ c) (sc.write recorder s c).2.1 (sc.write recorder s c).2.2) ∨
      ((∃ e, (sc.write recorder s c).1 = .error e) ∧ limit < (P ++ c).length) := by
  obtain ⟨hclosed, hlim, hsp', hheld, -, htoks⟩ := h
  obtain ⟨sp', toks⟩ := s
  simp only at hsp' htoks
  subst hsp'
  obtain ⟨k, T, hscan, hkle, hstuck, href⟩ := scanFrom_write hsp hc (sc.pending ++ c) toks 0
  simp only [Nat.zero_add] at hscan
  have hlen : (sc.pending ++ c).length ≤ (P ++ c).length := by
    simp only [List.length_append]; omega
  by_cases hleft : (sc.pending ++ c).length - k > limit
  · refine .inr ⟨⟨Error.overflow ((sc.pending ++ c).length - k) sc.limit, ?_⟩, by omega⟩
    simp only [Scanner.write_eq_append, hclosed, Hooks.scan, hscan, hlim, hleft]
    rfl
  · have hw : sc.write recorder (sp', toks) c =
        (.ok c.length, { sc with pending := (sc.pending ++ c).drop k }, (sp', toks ++ T)) := by
      simp only [Scanner.write_eq_append, hclosed, Hooks.scan, hscan, hlim, hleft]
      rfl
    rw [hw]
    refine .inl ⟨rfl, hclosed, hlim, rfl, by simp at hlen ⊢; omega, hstuck, fun E => ?_⟩
    simp only [List.append_assoc] at htoks ⊢
    rw [htoks (c ++ E), ← List.append_assoc, href E]

/-- Writes in turn: either all succeed and keep the invariant, or one fails, and then more bytes
were written than the bound. -/
theorem Fed.writeAll (hsp : sp.Computes f) (hc : Cuts f ref final) {limit : Nat}
    (cs : List (List UInt8)) {P : List UInt8} {sc : Scanner} {s : Splitter × List (List UInt8)}
    (h : Fed f ref sp limit P sc s) :
    ((sc.writeAll recorder s cs).1 = cs.map (fun c => .ok c.length) ∧
        Fed f ref sp limit (P ++ cs.flatten) (sc.writeAll recorder s cs).2.1
          (sc.writeAll recorder s cs).2.2) ∨
      ((∃ e, .error e ∈ (sc.writeAll recorder s cs).1) ∧ limit < (P ++ cs.flatten).length) := by
  induction cs generalizing P sc s with
  | nil => exact .inl ⟨rfl, by simpa [Scanner.writeAll] using h⟩
  | cons c cs ih =>
    rcases h.write hsp hc c with ⟨hok, hfed⟩ | ⟨⟨e, herr⟩, hlt⟩
    · rcases ih hfed with ⟨hrest, hfed'⟩ | ⟨⟨e, herr⟩, hlt⟩
      · refine .inl ⟨?_, by simpa [Scanner.writeAll] using hfed'⟩
        simp [Scanner.writeAll, hok, hrest]
      · refine .inr ⟨⟨e, by simp [Scanner.writeAll, herr]⟩, by simpa using hlt⟩
    · refine .inr ⟨⟨e, by simp [Scanner.writeAll, herr]⟩, by simp at hlt ⊢; omega⟩

/-- The flush of a session that kept the invariant succeeds, and the callback has then received
`ref` of all bytes written. -/
theorem Fed.flush (hsp : sp.Computes f) (hc : Cuts f ref final) {limit : Nat} {P : List UInt8}
    {sc : Scanner} {s : Splitter × List (List UInt8)} (h : Fed f ref sp limit P sc s) :
    (sc.flush recorder s).1 = .ok () ∧ (sc.flush recorder s).2.2.2 = ref P := by
  obtain ⟨hclosed, -, hsp', -, hstuck, htoks⟩ := h
  obtain ⟨sp', toks⟩ := s
  simp only at hsp' htoks
  subst hsp'
  have hP := htoks []
  simp only [List.append_nil] at hP
  by_cases hnil : sc.pending = []
  · simp only [Scanner.flush, hclosed, hnil, List.isEmpty_nil]
    rw [hP, hnil, hc.ref_nil]
    simp
  · -- the held bytes are final: the scan at the end of input emits the rest of `ref`
    have hfin : final sc.pending := hc.final_of_more _ hnil (hstuck.resolve_left hnil)
    have hscan := scanFrom_final hsp hc sc.pending hfin toks 0
    simp only [Scanner.flush, hclosed, Hooks.scan, hscan, List.isEmpty_iff, hnil]
    exact ⟨rfl, hP.symm⟩

/-- **Chunking independence.** A splitter that cuts as `ref` does so under every chunking and
every bound. -/
theorem Cuts.scansAs (hsp : sp.Computes f) (hc : Cuts f ref final) (limit : Nat)
    (chunks : List (List UInt8)) : ScansAs sp ref limit chunks := by
  rcases Fed.writeAll hsp hc chunks (Fed.start sp limit) with ⟨hw, hfed⟩ | ⟨⟨e, herr⟩, hlt⟩
  · obtain ⟨hok, htoks⟩ := hfed.flush hsp hc
    refine ⟨fun _ => ⟨hw, hok⟩, fun _ => ?_⟩
    simpa [session] using htoks
  · -- a write failed: the bound holds less than the input, and not every call succeeded
    refine ⟨fun hle => absurd hlt (by simpa using hle), fun hsucc => ?_⟩
    obtain ⟨n, hn⟩ := hsucc.1 _ herr
    cases hn

end Recorder

end Plumbing.Scan
