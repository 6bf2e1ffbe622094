import Plumbing.Proofs.Scan.Flush
import Plumbing.Scan.Probe

/-!
# How far a scan goes

A scan calls the splitter until the bytes run out, the splitter asks for more, or something
fails. Its trace (`Hooks.traced`) shows where it stops and why (`scan_progress`):

* every splitter call is made on bytes left after the advances before it, never on none, and a
  scan of `n` bytes makes at most `101 * (n + 1)` calls;
* tokens that consume nothing are counted in a row (`SplitCall.streak`): a token that consumes
  bytes starts the count again, and a call without a token, a skip, leaves it as it is. Before
  the last call the count never passes 100;
* the scan ends how its last call says (`Ending`): with the splitter's error when that call
  failed, with `advanceTooFar` when it answered past the end of its bytes, and, when it is the
  101st token in a row that consumed nothing, with `noProgress`, or with the callback's error
  when the callback refuses that token, which it is passed first unless it is empty at the end of
  input;
* the bytes consumed are the advances of all calls, the failing last one apart (`Consumes`).

The bound comes from the counting: each call either consumes a byte or is a token that consumes
nothing, and at most 100 of those come between two tokens that consume bytes.
-/

namespace Plumbing.Scan

namespace SplitCall

/-- The count of tokens in a row that consumed nothing after the call `c`, from the count `n`
before it: a token that consumes nothing adds one, a token that consumes bytes starts the count
again, and any other answer leaves it as it is. -/
def streak (n : Nat) (c : SplitCall) : Nat :=
  match c.answer with
  | .ok sp => if sp.token.isSome then (if sp.advance = 0 then n + 1 else 0) else n
  | .error _ => n

end SplitCall

/-- How the last of the calls `cs` of a scan ended it with `err`, from `e` tokens in a row that
consumed nothing before the first call: a failing splitter ends it with its error; an advance
past the end of the call's bytes with `advanceTooFar`; a call without a token without error;
and a token without error when it consumed bytes, with the callback's error when the callback was
passed it and refused it, or with `noProgress` when it is the 101st token in a row that consumed
nothing. -/
def Ending (e : Nat) (cs : List SplitCall) (err : Option Error) : Prop :=
  match cs.getLast? with
  | none => err = none
  | some c =>
    match c.answer with
    | .error m => err = some (Error.callback .split m)
    | .ok sp =>
      if c.data.length < sp.advance then err = some ⟨.split, .advanceTooFar⟩
      else
        match sp.token with
        | none => err = none
        | some t =>
          (err = none ∧ 0 < sp.advance) ∨
            (∃ m, err = some (Error.callback .token m) ∧ c.passed? = some t) ∨
            (err = some ⟨.split, .noProgress⟩ ∧ sp.advance = 0 ∧
              cs.foldl SplitCall.streak e = maxEmptyTokens + 1)

theorem Ending.cons {e : Nat} {c : SplitCall} {cs : List SplitCall} {err : Option Error}
    (hne : cs ≠ []) (h : Ending (c.streak e) cs err) : Ending e (c :: cs) err := by
  unfold Ending at h ⊢
  rwa [List.getLast?_cons_of_ne_nil hne, List.foldl_cons]

/-- The last of the calls `cs` found a token that consumed nothing, the 101st in a row from the
count `e`. -/
def EndsEmptyRun (e : Nat) (cs : List SplitCall) : Prop :=
  ∃ c ∈ cs.getLast?, ∃ t, c.token? = some t ∧ c.advance = 0 ∧
    cs.foldl SplitCall.streak e = maxEmptyTokens + 1

namespace Ending

variable {e : Nat} {cs : List SplitCall} {err : Option Error}

/-- The splitter's error ends the scan exactly when the last call failed. -/
theorem splitFailed_iff (h : Ending e cs err) (m : String) :
    err = some (Error.callback .split m) ↔ ∃ c ∈ cs.getLast?, c.answer = .error m := by
  unfold Ending at h
  rcases hl : cs.getLast? with _ | c
  · simp only [hl] at h
    simp [h]
  · simp only [hl] at h
    rcases ha : c.answer with m' | sp
    · simp only [ha] at h
      simp [h, Error.callback, ha]
    · simp only [ha] at h
      split at h
      · simp [h, Error.callback, ha]
      · split at h
        · simp [h, ha]
        · rcases h with ⟨rfl, -⟩ | ⟨m', rfl, -⟩ | ⟨rfl, -⟩ <;> simp [Error.callback, ha]

/-- `advanceTooFar` ends the scan exactly when the last call answered past the end of its
bytes. -/
theorem tooFar_iff (h : Ending e cs err) :
    err = some ⟨.split, .advanceTooFar⟩ ↔
      ∃ c ∈ cs.getLast?, ∃ sp, c.answer = .ok sp ∧ c.data.length < sp.advance := by
  unfold Ending at h
  rcases hl : cs.getLast? with _ | c
  · simp only [hl] at h
    simp [h]
  · simp only [hl] at h
    rcases ha : c.answer with m | sp
    · simp only [ha] at h
      simp [h, Error.callback, ha]
    · simp only [ha] at h
      split at h
      · simp [*]
      · rename_i hle
        split at h
        · simp [h, ha, hle]
        · rcases h with ⟨rfl, -⟩ | ⟨m, rfl, -⟩ | ⟨rfl, -⟩ <;> simp [Error.callback, ha, hle]

/-- A token that consumed nothing, the 101st in a row, ended the scan when `noProgress` did. -/
theorem emptyRun_of_noProgress (h : Ending e cs err) (hn : err = some ⟨.split, .noProgress⟩) :
    EndsEmptyRun e cs := by
  unfold Ending at h
  rcases hl : cs.getLast? with _ | c
  · simp [hl, hn] at h
  · simp only [hl] at h
    rcases ha : c.answer with m | sp
    · simp [ha, hn, Error.callback] at h
    · simp only [ha] at h
      split at h
      · simp [hn] at h
      · rename_i hle
        split at h
        · simp [hn] at h
        · rename_i t htok
          rcases h with ⟨h, -⟩ | ⟨m, h, -⟩ | ⟨-, hzero, hfold⟩
          · simp [hn] at h
          · simp [hn, Error.callback] at h
          · refine ⟨c, hl, t, ?_, by simp [SplitCall.advance, ha, hzero], hfold⟩
            simp [SplitCall.token?, ha, Nat.not_lt.1 hle, htok]

/-- The 101st token in a row that consumed nothing ends the scan with `noProgress`, or with the
callback's error. -/
theorem of_emptyRun (h : Ending e cs err) (hrun : EndsEmptyRun e cs) :
    err = some ⟨.split, .noProgress⟩ ∨ ∃ m, err = some (Error.callback .token m) := by
  obtain ⟨c, hl, t, htok, hzero, -⟩ := hrun
  unfold Ending at h
  rw [hl] at h
  simp only at h
  rcases ha : c.answer with m | sp
  · simp [SplitCall.token?, ha] at htok
  · simp only [ha] at h
    have hfits : sp.advance ≤ c.data.length := by
      rcases Nat.lt_or_ge c.data.length sp.advance with hlt | hge
      · simp [SplitCall.token?, ha, Nat.not_le.2 hlt] at htok
      · exact hge
    have htok' : sp.token = some t := by simpa [SplitCall.token?, ha, hfits] using htok
    have hzero' : sp.advance = 0 := by simpa [SplitCall.advance, ha] using hzero
    simp only [Nat.not_lt.2 hfits, ↓reduceIte, htok'] at h
    rcases h with ⟨-, hpos⟩ | ⟨m, hm, -⟩ | ⟨hn, -⟩
    · omega
    · exact .inr ⟨m, hm⟩
    · exact .inl hn

/-- The callback's error ended the scan only after the callback was passed the last call's
token. -/
theorem passed_of_refused (h : Ending e cs err) {m : String}
    (hm : err = some (Error.callback .token m)) : ∃ c ∈ cs.getLast?, ∃ t, c.passed? = some t := by
  unfold Ending at h
  rcases hl : cs.getLast? with _ | c
  · simp [hl, hm] at h
  · simp only [hl] at h
    rcases ha : c.answer with m' | sp
    · simp [ha, hm, Error.callback] at h
    · simp only [ha] at h
      split at h
      · simp [hm, Error.callback] at h
      · split at h
        · simp [hm] at h
        · rename_i t htok
          rcases h with ⟨h, -⟩ | ⟨-, -, hpass⟩ | ⟨h, -⟩
          · simp [hm] at h
          · exact ⟨c, by simp, t, hpass⟩
          · simp [hm, Error.callback] at h

end Ending

/-- The counts along a trace stay within the bound before its last call when they do so after
its first call, from a count within the bound. -/
theorem streaks_cons {e : Nat} {c : SplitCall} {cs : List SplitCall} (he : e ≤ maxEmptyTokens)
    (h : ∀ k ∈ cs.dropLast.scanl SplitCall.streak (c.streak e), k ≤ maxEmptyTokens) :
    ∀ k ∈ (c :: cs).dropLast.scanl SplitCall.streak e, k ≤ maxEmptyTokens := by
  cases cs with
  | nil => simpa using he
  | cons c' cs =>
    rw [List.dropLast_cons_cons, List.scanl_cons]
    intro k hk
    rcases List.mem_cons.1 hk with rfl | hk
    · exact he
    · exact h k hk

theorem one_call_le {e : Nat} (he : e ≤ maxEmptyTokens) (c : SplitCall) (b : UInt8)
    (more : List UInt8) : [c].length ≤ (maxEmptyTokens + 1) * (b :: more).length - e := by
  have hmax : maxEmptyTokens = 100 := rfl
  simp only [List.length_cons, List.length_nil, hmax] at he ⊢
  omega

namespace Hooks

variable {σ : Type} (h : Hooks σ)

theorem traced_split_calls {ts ts1 : σ × List SplitCall × List (List UInt8)} {data : List UInt8}
    {atEof : Bool} {r : Except String Split} (hs : h.traced.split ts data atEof = (r, ts1)) :
    ts1.2.1 = ts.2.1 ++ [⟨data, atEof, r⟩] := by
  have hcalls : (h.traced.split ts data atEof).2.2.1 =
      ts.2.1 ++ [⟨data, atEof, (h.traced.split ts data atEof).1⟩] := rfl
  rw [hs] at hcalls
  exact hcalls

/-- The traced callback leaves the splitter's calls as they are. -/
theorem traced_emit_calls {atEof : Bool} {tok : List UInt8}
    {ts1 ts2 : σ × List SplitCall × List (List UInt8)} {r : Except String Unit}
    (he : (if (atEof && tok.isEmpty) = true then (.ok (), ts1) else h.traced.emit ts1 tok) =
      (r, ts2)) :
    ts2.2.1 = ts1.2.1 := by
  split at he
  · cases he
    rfl
  · exact (congrArg (fun x => x.2.2.1) he).symm

/-- The calls a scan adds to its trace: at most `101` per byte, fewer by the count of tokens in a
row it starts from; with counts within the bound before the last call; none only on no bytes;
and the last one ending the scan as `Ending` says. -/
theorem traced_ending (atEof : Bool) (ts : σ × List SplitCall × List (List UInt8))
    (rest : List UInt8) (start empties : Nat) (he : empties ≤ maxEmptyTokens) :
    ∃ cs, (h.traced.scanFrom atEof ts rest start empties).state.2.1 = ts.2.1 ++ cs ∧
      cs.length ≤ (maxEmptyTokens + 1) * rest.length - empties ∧
      (∀ k ∈ cs.dropLast.scanl SplitCall.streak empties, k ≤ maxEmptyTokens) ∧
      (cs = [] ↔ rest = []) ∧
      Ending empties cs (h.traced.scanFrom atEof ts rest start empties).error := by
  have hmax : maxEmptyTokens = 100 := rfl
  fun_induction h.traced.scanFrom atEof ts rest start empties
  case case1 ts start empties =>
    exact ⟨[], by simp, by simp, by simpa using he, by simp, rfl⟩
  -- the scans that stop at their first call have traced that call alone
  case case2 ts start empties b more m ts1 hsplit =>
    exact ⟨[⟨b :: more, atEof, .error m⟩], by rw [h.traced_split_calls hsplit],
      one_call_le he _ b more, by simpa using he, by simp, by simp [Ending]⟩
  case case3 ts start empties b more sp ts1 hsplit hfar =>
    have hfar' : more.length + 1 < sp.advance := by
      rcases Nat.lt_or_ge (more.length + 1) sp.advance with hlt | hge
      · exact hlt
      · simp [(hasAtLeast_iff sp.advance (b :: more)).2 (by simpa using hge)] at hfar
    exact ⟨[⟨b :: more, atEof, .ok sp⟩], by rw [h.traced_split_calls hsplit],
      one_call_le he _ b more, by simpa using he, by simp, by simp [Ending, hfar']⟩
  case case4 ts start empties b more sp ts1 hsplit hfits hle htok hzero =>
    exact ⟨[⟨b :: more, atEof, .ok sp⟩], by rw [h.traced_split_calls hsplit],
      one_call_le he _ b more, by simpa using he, by simp, by simp [Ending, htok, Nat.not_lt.2 hle]⟩
  case case6 ts start empties b more sp ts1 hsplit hfits hle tok htok ts2 m hemit =>
    -- the callback refused the token, which it was passed
    have hpass : (atEof && tok.isEmpty) = false := by
      cases hat : (atEof && tok.isEmpty)
      · rfl
      · simp [hat] at hemit
    have htoken : (⟨b :: more, atEof, .ok sp⟩ : SplitCall).token? = some tok := by
      simp [SplitCall.token?, hle, htok]
    have hpassed : (⟨b :: more, atEof, .ok sp⟩ : SplitCall).passed? = some tok := by
      simp only [SplitCall.passed?, htoken, Option.filter_some, hpass, Bool.not_false, ↓reduceIte]
    refine ⟨[⟨b :: more, atEof, .ok sp⟩], ?_, one_call_le he _ b more, by simpa using he, by simp,
      ?_⟩
    · simp only [dite_eq_ite] at hemit
      rw [h.traced_emit_calls hemit, h.traced_split_calls hsplit]
    · simp only [Ending, List.getLast?_singleton, List.length_cons, Nat.not_lt.2 hle, ↓reduceIte,
        htok]
      exact .inr (.inl ⟨m, rfl, hpassed⟩)
  case case7 ts start empties b more sp ts1 hsplit hfits hle tok htok ts2 hzero hmany hemit =>
    -- the 101st token in a row that consumed nothing
    simp only [dite_eq_ite] at hemit
    refine ⟨[⟨b :: more, atEof, .ok sp⟩], by rw [h.traced_emit_calls hemit,
      h.traced_split_calls hsplit], one_call_le he _ b more, by simpa using he, by simp, ?_⟩
    · simp only [Ending, List.getLast?_singleton, List.length_cons, Nat.not_lt.2 hle, ↓reduceIte,
        htok]
      refine .inr (.inr ⟨trivial, hzero, ?_⟩)
      simp only [hmax] at he hmany
      simp [SplitCall.streak, htok, hzero]
      omega
  -- the scans that go on have traced their first call, then the calls of the rest
  case case5 ts start empties b more sp ts1 hsplit hfits hle htok hzero ih =>
    obtain ⟨cs, hcalls, hlen, hstreaks, hnil, hend⟩ := ih he
    have hst : SplitCall.streak empties ⟨b :: more, atEof, .ok sp⟩ = empties := by
      simp [SplitCall.streak, htok]
    refine ⟨⟨b :: more, atEof, .ok sp⟩ :: cs, ?_, ?_, streaks_cons he (by rwa [hst]), by simp, ?_⟩
    · rw [hcalls, h.traced_split_calls hsplit, List.append_assoc, List.singleton_append]
    · simp only [List.length_cons, List.length_drop, hmax] at hlen he ⊢
      omega
    · by_cases hne : cs = []
      · -- the skip consumed the last bytes
        subst hne
        have hnone : (h.traced.scanFrom atEof ts1 ((b :: more).drop sp.advance)
            (start + sp.advance) empties).error = none := hend
        rw [hnone]
        simp [Ending, htok, Nat.not_lt.2 hle]
      · exact Ending.cons hne (by rwa [hst])
  case case8 ts start empties b more sp ts1 hsplit hfits hle tok htok ts2 hzero hmany hemit ih =>
    -- a token that consumed nothing: the next call is on the same bytes
    simp only [hmax] at hmany
    obtain ⟨cs, hcalls, hlen, hstreaks, hnil, hend⟩ := ih (by rw [hmax]; omega)
    have hne : cs ≠ [] := fun h => by simp [h] at hnil
    have hst : SplitCall.streak empties ⟨b :: more, atEof, .ok sp⟩ = empties + 1 := by
      simp [SplitCall.streak, htok, hzero]
    simp only [dite_eq_ite] at hemit
    refine ⟨⟨b :: more, atEof, .ok sp⟩ :: cs, ?_, ?_, streaks_cons he (by rwa [hst]), by simp,
      Ending.cons hne (by rwa [hst])⟩
    · rw [hcalls, h.traced_emit_calls hemit, h.traced_split_calls hsplit, List.append_assoc,
        List.singleton_append]
    · simp only [List.length_cons, hmax] at hlen he ⊢
      omega
  case case9 ts start empties b more sp ts1 hsplit hfits hle tok htok ts2 hzero hemit ih =>
    obtain ⟨cs, hcalls, hlen, hstreaks, hnil, hend⟩ := ih (Nat.zero_le _)
    have hst : SplitCall.streak empties ⟨b :: more, atEof, .ok sp⟩ = 0 := by
      simp [SplitCall.streak, htok, hzero]
    simp only [dite_eq_ite] at hemit
    refine ⟨⟨b :: more, atEof, .ok sp⟩ :: cs, ?_, ?_, streaks_cons he (by rwa [hst]), by simp, ?_⟩
    · rw [hcalls, h.traced_emit_calls hemit, h.traced_split_calls hsplit, List.append_assoc,
        List.singleton_append]
    · simp only [List.length_cons, List.length_drop, hmax] at hlen he ⊢
      omega
    · by_cases hne : cs = []
      · -- the token consumed the last bytes
        subst hne
        have hnone : (h.traced.scanFrom atEof ts2 ((b :: more).drop sp.advance)
            (start + sp.advance) 0).error = none := hend
        rw [hnone]
        simp only [Ending, List.getLast?_singleton, List.length_cons, Nat.not_lt.2 hle, ↓reduceIte,
        htok]
        exact .inl ⟨trivial, Nat.pos_of_ne_zero hzero⟩
      · exact Ending.cons hne (by rwa [hst])

end Hooks

/-- No call of a trace is made on no bytes. -/
theorem CallsFrom.data_ne_nil {input : List UInt8} {atEof : Bool} {k : Nat} {cs : List SplitCall}
    (h : CallsFrom input atEof k cs) : ∀ c ∈ cs, c.data ≠ [] := by
  induction cs generalizing k with
  | nil => simp
  | cons c cs ih =>
    obtain ⟨hk, hdata, -, hrest⟩ := h
    intro c' hc'
    rcases List.mem_cons.1 hc' with rfl | hc'
    · rw [hdata]
      simpa [List.drop_eq_nil_iff] using hk
    · exact ih hrest c' hc'

theorem getLast?_filterMap_passed? {cs : List SplitCall} {c : SplitCall} {t : List UInt8}
    (hl : cs.getLast? = some c) (htok : c.token? = some t)
    (hpass : (c.atEof && t.isEmpty) = false) :
    (cs.filterMap SplitCall.passed?).getLast? = some t := by
  obtain ⟨init, rfl⟩ := List.getLast?_eq_some_iff.1 hl
  have hp : c.passed? = some t := by
    simp only [SplitCall.passed?, htok, Option.filter_some, hpass, Bool.not_false, ↓reduceIte]
  simp [List.filterMap_append, hp]

variable {σ : Type}

/-- What the scan of `data` through the hooks `h`, from their state `s`, did, by its trace `cs`. -/
structure Progress (h : Hooks σ) (atEof : Bool) (s : σ) (data : List UInt8) (cs : List SplitCall) :
    Prop where
  /-- The scan through the traced hooks ends as the scan does, having made the calls `cs` and
  passed the callback the tokens they found, less the empty ones at the end of input. -/
  traced : h.traced.scan atEof (s, [], []) data =
    ⟨(h.scan atEof s data).consumed, (h.scan atEof s data).error,
      ((h.scan atEof s data).state, cs, cs.filterMap SplitCall.passed?)⟩
  /-- Each call is made on the bytes after the advances answered before it... -/
  calls : CallsFrom data atEof 0 cs
  /-- ...and never on no bytes. -/
  nonempty : ∀ c ∈ cs, c.data ≠ []
  /-- At most 101 calls a byte. -/
  bound : cs.length ≤ (maxEmptyTokens + 1) * data.length
  /-- The bytes consumed: the advances of all calls, or of all but the last when the scan
  failed. -/
  consumes : Consumes 0 (h.scan atEof s data) cs
  consumed_le : (h.scan atEof s data).consumed ≤ data.length
  /-- Before the last call, at most 100 tokens in a row consumed nothing. -/
  streaks : ∀ k ∈ cs.dropLast.scanl SplitCall.streak 0, k ≤ maxEmptyTokens
  /-- The scan fails with the splitter's error exactly when the last call failed. -/
  splitFailed : ∀ m, (h.scan atEof s data).error = some (Error.callback .split m) ↔
    ∃ c ∈ cs.getLast?, c.answer = .error m
  /-- It fails with `advanceTooFar` exactly when the last call answered past the end of its
  bytes, which start where the scan stopped consuming. -/
  tooFar : (h.scan atEof s data).error = some ⟨.split, .advanceTooFar⟩ ↔
    ∃ c ∈ cs.getLast?, ∃ sp, c.answer = .ok sp ∧ c.data.length < sp.advance
  /-- It fails with `noProgress` only at the 101st token in a row that consumed nothing, which
  the callback was passed unless it was empty at the end of input. -/
  noProgress : (h.scan atEof s data).error = some ⟨.split, .noProgress⟩ →
    ∃ c ∈ cs.getLast?, ∃ t, c.token? = some t ∧ c.advance = 0 ∧
      cs.foldl SplitCall.streak 0 = maxEmptyTokens + 1 ∧
      ((atEof && t.isEmpty) = false → (cs.filterMap SplitCall.passed?).getLast? = some t)
  /-- The 101st token in a row that consumed nothing ends the scan with `noProgress`, or with
  the callback's error when the callback refused it. -/
  emptyRun : EndsEmptyRun 0 cs → (h.scan atEof s data).error = some ⟨.split, .noProgress⟩ ∨
    ∃ m, (h.scan atEof s data).error = some (Error.callback .token m)
  /-- The callback's error ends the scan only when the callback was passed the last call's
  token. -/
  refused : ∀ m, (h.scan atEof s data).error = some (Error.callback .token m) →
    ∃ c ∈ cs.getLast?, ∃ t, c.passed? = some t

/-- **How far a scan goes.** For all hooks, their state, the bytes and the end-of-input flag, the
scan's trace does what `Progress` says: at most 101 splitter calls a byte, none on no bytes; the
bytes consumed are the advances of the calls that did not fail; and the scan fails with
`advanceTooFar`, with the splitter's error, or with `noProgress` exactly at the call that says
so, a token that the callback refuses failing the scan with the callback's error. -/
theorem scan_progress (h : Hooks σ) (atEof : Bool) (s : σ) (data : List UInt8) :
    ∃ cs, Progress h atEof s data cs := by
  obtain ⟨cs, heq, hcalls, hcons, -⟩ :=
    h.traced_scanFrom atEof s [] [] data data 0 0 List.drop_zero.symm
  obtain ⟨cs', hcs', hlen, hstreaks, -, hend⟩ :=
    h.traced_ending atEof (s, [], []) data 0 0 (Nat.zero_le _)
  -- both lemmas read the same trace off the traced scan
  have hsame : cs' = cs := by
    have := congrArg (fun p => p.state.2.1) heq
    simp only [List.nil_append] at this hcs'
    exact hcs'.symm.trans this
  subst hsame
  simp only [List.nil_append] at heq
  have herr : (h.traced.scanFrom atEof (s, [], []) data 0 0).error =
      (h.scan atEof s data).error := by
    rw [heq]
    rfl
  rw [herr] at hend
  refine ⟨cs', heq, hcalls, hcalls.data_ne_nil, by simpa using hlen, hcons,
    by simpa [Hooks.scan] using (h.consumed_scanFrom atEof s data 0 0).2, hstreaks,
    hend.splitFailed_iff, hend.tooFar_iff, fun hn => ?_, hend.of_emptyRun,
    fun m hm => hend.passed_of_refused hm⟩
  obtain ⟨c, hl, t, htok, hzero, hfold⟩ := hend.emptyRun_of_noProgress hn
  have hat : c.atEof = atEof := hcalls.atEof_eq c (List.mem_of_getLast? hl)
  refine ⟨c, hl, t, htok, hzero, hfold, fun hpass => ?_⟩
  exact getLast?_filterMap_passed? hl htok (hat ▸ hpass)


/-- A probe whose splitter has `k + 1` tokens that consume nothing left to answer, and whose
callback was called `calls` times and refuses its call with index 100, scanning bytes with the
count of tokens in a row at `calls`: the callback refuses the 101st token in a row, and the scan
fails with the callback's error. -/
theorem Probe.scanFrom_refused_run (msg : String) (b : UInt8) (more : List UInt8) (k : Nat) :
    ∀ (calls : Nat) (tokens : List (List UInt8)) (splits : List (List UInt8 × Bool)),
      calls + k = maxEmptyTokens →
      (Probe.hooks.scanFrom false ⟨.scripted [⟨.token 0 0 (some 0), k + 1⟩] .more, false, false,
          [maxEmptyTokens], msg, calls, tokens, splits⟩ (b :: more) 0 calls).error =
        some (Error.callback .token msg) ∧
      (Probe.hooks.scanFrom false ⟨.scripted [⟨.token 0 0 (some 0), k + 1⟩] .more, false, false,
          [maxEmptyTokens], msg, calls, tokens, splits⟩ (b :: more) 0 calls).state.calls =
        maxEmptyTokens + 1 := by
  induction k with
  | zero =>
    intro calls tokens splits hcalls
    simp only [Nat.add_zero] at hcalls
    subst hcalls
    rw [Hooks.scanFrom]
    simp [Probe.hooks, Splitter.call, nextCue, Reply.answer, slice, Split.found, hasAtLeast,
      maxEmptyTokens]
  | succ k ih =>
    intro calls tokens splits hcalls
    -- one more token that consumes nothing, accepted, and the count goes up by one
    have hne : calls ≠ maxEmptyTokens := by omega
    have hle : ¬ calls + 1 > maxEmptyTokens := by omega
    have hsplit : Probe.hooks.split ⟨.scripted [⟨.token 0 0 (some 0), k + 1 + 1⟩] .more, false,
          false, [maxEmptyTokens], msg, calls, tokens, splits⟩ (b :: more) false =
        (.ok (.found 0 []), ⟨.scripted [⟨.token 0 0 (some 0), k + 1⟩] .more, false, false,
          [maxEmptyTokens], msg, calls, tokens, (b :: more, false) :: splits⟩) := by
      simp [Probe.hooks, Splitter.call, nextCue, Reply.answer, slice, Split.found]
    have hemit : Probe.hooks.emit ⟨.scripted [⟨.token 0 0 (some 0), k + 1⟩] .more, false, false,
          [maxEmptyTokens], msg, calls, tokens, (b :: more, false) :: splits⟩ [] =
        (.ok (), ⟨.scripted [⟨.token 0 0 (some 0), k + 1⟩] .more, false, false,
          [maxEmptyTokens], msg, calls + 1, [] :: tokens, (b :: more, false) :: splits⟩) := by
      simp [Probe.hooks, hne]
    rw [Hooks.scanFrom]
    simp only [hsplit, Split.found, hasAtLeast, Bool.true_eq_false, ↓reduceDIte, Bool.false_and,
      hemit, hle]
    exact ih (calls + 1) ([] :: tokens) ((b :: more, false) :: splits) (by omega)

/-- A splitter that answers tokens that consume nothing, and a callback that refuses its 101st
call: writing `abc`, the callback is passed 101 tokens in a row that consume nothing, and the scan
fails with the callback's error, not with `noProgress`. -/
theorem empty_run_refused_fails_in_callback :
    (Probe.hooks.scan false (Probe.new (.scripted [⟨.token 0 0 (some 0), 101⟩] .more) [100]
        "token failed") [97, 98, 99]).error = some (Error.callback .token "token failed") ∧
      (Probe.hooks.scan false (Probe.new (.scripted [⟨.token 0 0 (some 0), 101⟩] .more) [100]
        "token failed") [97, 98, 99]).state.calls = 101 :=
  Probe.scanFrom_refused_run "token failed" 97 [98, 99] 100 0 [] [] rfl

end Plumbing.Scan
