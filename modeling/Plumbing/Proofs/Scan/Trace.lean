import Mathlib
import Plumbing.Proofs.Scan.Writes

/-!
# The trace of a scan

A scan calls the splitter on what is left of its input, again and again, and passes the tokens
it finds to the callback. `Hooks.traced` runs the same hooks and keeps the scan's trace: every
splitter call, with the bytes it was given, whether the input had ended and the answer
(`SplitCall`), and every token passed to the callback.

A scan is read off its trace (`Hooks.traced_scanFrom`):

* each call is made before the end of the input, on the bytes left after the advances answered
  before it (`CallsFrom`);
* the bytes consumed are the advances of all calls when the scan succeeds, and of all calls but
  the last when it fails, the last call being the one that failed (`Consumes`);
* the tokens passed on are those found by the calls whose answer fits their data, less the
  empty ones at the end of input (`SplitCall.passed?`).
-/

namespace Plumbing.Scan

/-- A splitter call of a scan: the bytes it was given, whether the input had ended, and the
answer. -/
structure SplitCall where
  data : List UInt8
  atEof : Bool
  answer : Except String Split
  deriving Repr

namespace SplitCall

/-- The bytes the call's answer consumes: its advance, and none for a failure. -/
def advance (c : SplitCall) : Nat :=
  match c.answer with
  | .ok sp => sp.advance
  | .error _ => 0

/-- The token the call found, when its answer fits the data it was given. -/
def token? (c : SplitCall) : Option (List UInt8) :=
  match c.answer with
  | .ok sp => if sp.advance ≤ c.data.length then sp.token else none
  | .error _ => none

/-- The token a scan passes on from the call: the one found, unless it is empty at the end of
input. -/
def passed? (c : SplitCall) : Option (List UInt8) :=
  c.token?.filter fun t => !(c.atEof && t.isEmpty)

/-- At the end of input the tokens passed on are the tokens found, less the empty ones. -/
theorem filterMap_passed? {cs : List SplitCall} (hcs : ∀ c ∈ cs, c.atEof = true) :
    cs.filterMap passed? = (cs.filterMap token?).filter fun t => !t.isEmpty := by
  induction cs with
  | nil => rfl
  | cons c cs ih =>
    have hc : c.atEof = true := hcs c (List.mem_cons_self ..)
    have ih := ih fun c' hc' => hcs c' (List.mem_cons_of_mem _ hc')
    have hpass : c.passed? = c.token?.filter fun t => !t.isEmpty := by simp [passed?, hc]
    rcases ht : c.token? with _ | t
    · rw [List.filterMap_cons, List.filterMap_cons, hpass, ht]
      exact ih
    · rw [List.filterMap_cons, List.filterMap_cons, hpass, ht, Option.filter_some]
      by_cases he : t.isEmpty <;> simp [he, ih]

end SplitCall

/-- The calls `cs`, made on `input` from position `k` on: each before the end of `input`, on the
bytes after the advances answered before it, with the end-of-input flag `atEof`. -/
def CallsFrom (input : List UInt8) (atEof : Bool) : Nat → List SplitCall → Prop
  | _, [] => True
  | k, c :: cs =>
    k < input.length ∧ c.data = input.drop k ∧ c.atEof = atEof ∧
      CallsFrom input atEof (k + c.advance) cs

/-- Every call is made with the scan's end-of-input flag. -/
theorem CallsFrom.atEof_eq {input : List UInt8} {atEof : Bool} {k : Nat} {cs : List SplitCall}
    (h : CallsFrom input atEof k cs) : ∀ c ∈ cs, c.atEof = atEof := by
  induction cs generalizing k with
  | nil => simp
  | cons c cs ih =>
    obtain ⟨-, -, hc, hrest⟩ := h
    intro c' hc'
    rcases List.mem_cons.1 hc' with rfl | hc'
    · exact hc
    · exact ih hrest c' hc'

/-- The last call is made on the bytes after the advances of all the others. -/
theorem CallsFrom.getLast_data {input : List UInt8} {atEof : Bool} {k : Nat}
    {cs : List SplitCall} (h : CallsFrom input atEof k cs) (hne : cs ≠ []) :
    (cs.getLast hne).data = input.drop (k + (cs.dropLast.map SplitCall.advance).sum) ∧
      k + (cs.dropLast.map SplitCall.advance).sum < input.length := by
  induction cs generalizing k with
  | nil => exact absurd rfl hne
  | cons c cs ih =>
    obtain ⟨hk, hdata, -, hrest⟩ := h
    cases cs with
    | nil => simpa using ⟨hdata, hk⟩
    | cons c' cs =>
      obtain ⟨h1, h2⟩ := ih hrest (List.cons_ne_nil _ _)
      simp only [List.getLast_cons_cons, List.dropLast_cons_cons, List.map_cons, List.sum_cons]
      rw [← Nat.add_assoc]
      exact ⟨h1, h2⟩

/-- The bytes a scan from `start` that ended as `p` consumed, by its trace `cs`: the advances of
all calls when it succeeded; of all calls but the last, the failing one, when it failed. -/
def Consumes {σ : Type} (start : Nat) (p : Pass σ) (cs : List SplitCall) : Prop :=
  match p.error with
  | none => p.consumed = start + (cs.map SplitCall.advance).sum
  | some _ => cs ≠ [] ∧ p.consumed = start + (cs.dropLast.map SplitCall.advance).sum

/-- A call before the rest of a trace adds its advance to what the trace consumed. -/
theorem Consumes.cons {σ : Type} {k : Nat} {p : Pass σ} {c : SplitCall} {cs : List SplitCall}
    (h : Consumes (k + c.advance) p cs) : Consumes k p (c :: cs) := by
  unfold Consumes at h ⊢
  split at h
  · simp only [List.map_cons, List.sum_cons]
    omega
  · obtain ⟨hne, hc⟩ := h
    refine ⟨List.cons_ne_nil _ _, ?_⟩
    obtain ⟨c', cs', rfl⟩ := List.exists_cons_of_ne_nil hne
    simp only [List.dropLast_cons_cons, List.map_cons, List.sum_cons] at hc ⊢
    omega

namespace Hooks

variable {σ : Type} (h : Hooks σ)

/-- The hooks `h`, keeping the trace of a scan: the splitter calls and the tokens passed to the
callback, each oldest first. -/
def traced : Hooks (σ × List SplitCall × List (List UInt8)) where
  split s data atEof :=
    ((h.split s.1 data atEof).1,
      (h.split s.1 data atEof).2, s.2.1 ++ [⟨data, atEof, (h.split s.1 data atEof).1⟩], s.2.2)
  emit s tok := ((h.emit s.1 tok).1, (h.emit s.1 tok).2, s.2.1, s.2.2 ++ [tok])

theorem traced_split {s : σ} {data : List UInt8} {atEof : Bool} {r : Except String Split}
    {s1 : σ} (hs : h.split s data atEof = (r, s1)) (calls : List SplitCall)
    (toks : List (List UInt8)) :
    h.traced.split (s, calls, toks) data atEof = (r, (s1, calls ++ [⟨data, atEof, r⟩], toks)) := by
  simp [traced, hs]

/-- A token passed on is traced; one left out at the end of input is not. -/
theorem traced_emit {atEof : Bool} {tok : List UInt8} {s1 s2 : σ} {r : Except String Unit}
    (he : (if (atEof && tok.isEmpty) = true then (.ok (), s1) else h.emit s1 tok) = (r, s2))
    (calls : List SplitCall) (toks : List (List UInt8)) :
    (if (atEof && tok.isEmpty) = true then (.ok (), (s1, calls, toks))
      else h.traced.emit (s1, calls, toks) tok) =
      (r, (s2, calls, toks ++ if (atEof && tok.isEmpty) = true then [] else [tok])) := by
  split
  · simp_all
  · simp_all [traced]

/-- A call whose answer fits its data and has a token passes that token on, unless it is empty
at the end of input. -/
theorem filterMap_found {data : List UInt8} {atEof : Bool} {sp : Split} {tok : List UInt8}
    (hfits : sp.advance ≤ data.length) (htok : sp.token = some tok) (cs : List SplitCall) :
    ((⟨data, atEof, .ok sp⟩ : SplitCall) :: cs).filterMap SplitCall.passed? =
      (if (atEof && tok.isEmpty) = true then [] else [tok]) ++ cs.filterMap SplitCall.passed? := by
  have htoken : (⟨data, atEof, .ok sp⟩ : SplitCall).token? = some tok := by
    simp [SplitCall.token?, hfits, htok]
  have hpass : (⟨data, atEof, .ok sp⟩ : SplitCall).passed? =
      if (atEof && tok.isEmpty) = true then none else some tok := by
    rw [SplitCall.passed?, htoken, Option.filter_some]
    cases atEof <;> cases tok <;> rfl
  rw [List.filterMap_cons, hpass]
  by_cases he : (atEof && tok.isEmpty) = true
  · rw [if_pos he, if_pos he]
    rfl
  · rw [if_neg he, if_neg he]
    rfl

/-- **The trace of a scan.** A scan of the rest of `input` from `start`, through the traced
hooks, ends as the scan through `h` does, having traced calls `cs` made one after the other on
the bytes after the advances before them, having consumed their advances, and having passed on
the tokens they found; it calls the splitter at least once exactly when it has bytes to scan. -/
theorem traced_scanFrom (atEof : Bool) (s : σ) (calls : List SplitCall)
    (toks : List (List UInt8)) (input rest : List UInt8) (start empties : Nat)
    (hrest : rest = input.drop start) :
    ∃ cs : List SplitCall,
      h.traced.scanFrom atEof (s, calls, toks) rest start empties =
        ⟨(h.scanFrom atEof s rest start empties).consumed,
          (h.scanFrom atEof s rest start empties).error,
          ((h.scanFrom atEof s rest start empties).state, calls ++ cs,
            toks ++ cs.filterMap SplitCall.passed?)⟩ ∧
      CallsFrom input atEof start cs ∧ Consumes start (h.scanFrom atEof s rest start empties) cs ∧
      (cs = [] ↔ rest = []) := by
  fun_induction h.scanFrom atEof s rest start empties generalizing calls toks
  case case1 => exact ⟨[], by rw [scanFrom]; simp, trivial, by simp [Consumes], by simp⟩
  -- the scans that stop at their first call have traced that call alone
  case case2 s start _ b more m s1 hsplit =>
    refine ⟨[⟨b :: more, atEof, .error m⟩], ?_, ?_, by simp [Consumes], by simp⟩
    · rw [scanFrom, h.traced_split hsplit]
      simp [SplitCall.passed?, SplitCall.token?]
    · exact ⟨lt_length_of_drop_eq_cons hrest, hrest, rfl, trivial⟩
  case case3 s start _ b more sp s1 hsplit hfar =>
    have hfar' : ¬ sp.advance ≤ more.length + 1 := fun hle => by
      simp [(hasAtLeast_iff sp.advance (b :: more)).2 (by simpa using hle)] at hfar
    refine ⟨[⟨b :: more, atEof, .ok sp⟩], ?_, ?_, by simp [Consumes], by simp⟩
    · rw [scanFrom, h.traced_split hsplit]
      simp [hfar, SplitCall.passed?, SplitCall.token?, hfar']
    · exact ⟨lt_length_of_drop_eq_cons hrest, hrest, rfl, trivial⟩
  case case4 s start _ b more sp s1 hsplit hfits _ htok hzero =>
    refine ⟨[⟨b :: more, atEof, .ok sp⟩], ?_, ?_, by simp [Consumes, SplitCall.advance, hzero],
      by simp⟩
    · rw [scanFrom, h.traced_split hsplit]
      simp [htok, hzero, hasAtLeast, SplitCall.passed?, SplitCall.token?]
    · exact ⟨lt_length_of_drop_eq_cons hrest, hrest, rfl, trivial⟩
  case case6 s start _ b more sp s1 hsplit hfits hle tok htok s2 m hemit =>
    refine ⟨[⟨b :: more, atEof, .ok sp⟩], ?_, ?_, by simp [Consumes], by simp⟩
    · rw [scanFrom, h.traced_split hsplit]
      simp only [dite_eq_ite] at hemit
      simp only [hfits, htok]
      rw [h.traced_emit hemit, filterMap_found hle htok]
      simp
    · exact ⟨lt_length_of_drop_eq_cons hrest, hrest, rfl, trivial⟩
  case case7 s start _ b more sp s1 hsplit hfits hle tok htok s2 hzero hmany hemit =>
    refine ⟨[⟨b :: more, atEof, .ok sp⟩], ?_, ?_, by simp [Consumes], by simp⟩
    · rw [scanFrom, h.traced_split hsplit]
      simp only [dite_eq_ite] at hemit
      simp only [hfits, htok]
      rw [h.traced_emit hemit, filterMap_found hle htok]
      simp [hzero, hmany]
    · exact ⟨lt_length_of_drop_eq_cons hrest, hrest, rfl, trivial⟩
  -- the scans that go on have traced their first call, then the calls of the rest
  case case5 s start empties b more sp s1 hsplit hfits hle htok hzero ih =>
    obtain ⟨cs, heq, hcalls, hcons, -⟩ :=
      ih (calls ++ [⟨b :: more, atEof, .ok sp⟩]) toks (by rw [hrest, List.drop_drop])
    refine ⟨⟨b :: more, atEof, .ok sp⟩ :: cs, ?_, ?_, ?_, by simp⟩
    · rw [scanFrom, h.traced_split hsplit]
      simp only [hfits, htok, hzero, ↓reduceDIte]
      rw [heq]
      simp [SplitCall.passed?, SplitCall.token?, htok]
    · exact ⟨lt_length_of_drop_eq_cons hrest, hrest, rfl, hcalls⟩
    · exact Consumes.cons hcons
  case case8 s start empties b more sp s1 hsplit hfits hle tok htok s2 hzero hmany hemit ih =>
    -- an empty token: the next call is on the same bytes
    obtain ⟨cs, heq, hcalls, hcons, -⟩ :=
      ih (calls ++ [⟨b :: more, atEof, .ok sp⟩])
        (toks ++ if (atEof && tok.isEmpty) = true then [] else [tok]) hrest
    have hadv : (⟨b :: more, atEof, .ok sp⟩ : SplitCall).advance = 0 := by
      simp [SplitCall.advance, hzero]
    refine ⟨⟨b :: more, atEof, .ok sp⟩ :: cs, ?_, ?_, ?_, by simp⟩
    · rw [scanFrom, h.traced_split hsplit]
      simp only [dite_eq_ite] at hemit
      simp only [hfits, htok]
      rw [h.traced_emit hemit]
      simp only [hzero, hmany, ↓reduceDIte]
      rw [heq, filterMap_found hle htok]
      simp
    · exact ⟨lt_length_of_drop_eq_cons hrest, hrest, rfl, by rwa [hadv, Nat.add_zero]⟩
    · exact Consumes.cons (by rwa [hadv, Nat.add_zero])
  case case9 s start empties b more sp s1 hsplit hfits hle tok htok s2 hzero hemit ih =>
    obtain ⟨cs, heq, hcalls, hcons, -⟩ :=
      ih (calls ++ [⟨b :: more, atEof, .ok sp⟩])
        (toks ++ if (atEof && tok.isEmpty) = true then [] else [tok]) (by rw [hrest, List.drop_drop])
    refine ⟨⟨b :: more, atEof, .ok sp⟩ :: cs, ?_, ?_, ?_, by simp⟩
    · rw [scanFrom, h.traced_split hsplit]
      simp only [dite_eq_ite] at hemit
      simp only [hfits, htok]
      rw [h.traced_emit hemit]
      simp only [hzero, ↓reduceDIte]
      rw [heq, filterMap_found hle htok]
      simp
    · exact ⟨lt_length_of_drop_eq_cons hrest, hrest, rfl, hcalls⟩
    · exact Consumes.cons hcons

end Hooks

end Plumbing.Scan
