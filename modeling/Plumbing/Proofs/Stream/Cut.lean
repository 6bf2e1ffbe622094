import Plumbing.Proofs.Prefetch.Segments

/-!
# Reading a source through its end, in segments

A source is read through its first end: the end of data, a failure, or the last chunk.
`Source.afterEnd` is what is left of it then: after the end of data the end itself, which every
read finds again; after a failure what follows it; nothing when it runs out. A read that fails
leaves exactly that (`read_failed`), and any other read leaves a source read through to the same
place (`afterEnd_read_of_ne_failed`); a read that finds the end of data leaves the source at its
end (`read_done`).

A broadcast cuts what a source delivers in segments of `n` bytes: `CutInto n S segs` says that
`segs` are all of `n` bytes but the last, which has between one and `n`, and together are `S`.
There are then `⌈|S| / n⌉` of them (`CutInto.length_eq`).
-/

namespace Plumbing.Stream

namespace Source

/-- What is left of a source once it was read through its first end. -/
def afterEnd : Source → Source
  | [] => []
  | .data _ :: rest => afterEnd rest
  | .interrupt :: rest => afterEnd rest
  | .fail e :: rest => if e.kind = .interrupted then afterEnd rest else rest
  | .eof :: rest => .eof :: rest
  | .pause :: rest => afterEnd rest

/-- A read that finds the end of data leaves the source at its end. -/
theorem read_done {n : Nat} {src src' : Source} (hr : read n src = (.done, src')) :
    src' = afterEnd src := by
  induction src with
  | nil =>
    simp only [read, Prod.mk.injEq] at hr
    exact hr.2.symm
  | cons c rest ih =>
    cases c with
    | data bs =>
      cases bs with
      | nil => exact ih hr
      | cons b bs => simp [read] at hr
    | fail e =>
      simp only [read, Prod.mk.injEq] at hr
      split at hr <;> simp at hr
    | eof =>
      simp only [read, Prod.mk.injEq] at hr
      exact hr.2.symm
    | _ => simp [read] at hr

/-- A read that fails leaves what follows the failure. -/
theorem read_failed {n : Nat} {src src' : Source} {e : IoError}
    (hr : read n src = (.failed e, src')) : src' = afterEnd src := by
  induction src with
  | nil => simp [read] at hr
  | cons c rest ih =>
    cases c with
    | data bs =>
      cases bs with
      | nil => exact ih hr
      | cons b bs => simp [read] at hr
    | fail e' =>
      simp only [read, Prod.mk.injEq] at hr
      split at hr
      · simp at hr
      · rename_i hk
        simp [afterEnd, hk, hr.2]
    | _ => simp [read] at hr

/-- A read that does not fail leaves a source read through to the same place. -/
theorem afterEnd_read_of_ne_failed {n : Nat} {src src' : Source} {y : Yield}
    (hr : read n src = (y, src')) (hy : ∀ e, y ≠ .failed e) : afterEnd src' = afterEnd src := by
  induction src with
  | nil =>
    simp only [read, Prod.mk.injEq] at hr
    rw [← hr.2]
  | cons c rest ih =>
    cases c with
    | data bs =>
      cases bs with
      | nil => exact ih hr
      | cons b bs =>
        simp only [read, Prod.mk.injEq] at hr
        rw [← hr.2]
        split <;> rfl
    | interrupt =>
      simp only [read, Prod.mk.injEq] at hr
      rw [← hr.2]
      rfl
    | fail e =>
      simp only [read, Prod.mk.injEq] at hr
      split at hr
      · rename_i hk
        rw [← hr.2]
        simp [afterEnd, hk]
      · exact absurd hr.1.symm (hy e)
    | eof =>
      simp only [read, Prod.mk.injEq] at hr
      rw [← hr.2]
    | pause =>
      simp only [read, Prod.mk.injEq] at hr
      rw [← hr.2]
      rfl

end Source

/-! ## Cutting into segments -/

/-- `segs` cut `S` in segments of `n` bytes: all of `n` bytes but the last, which has between
one and `n`. -/
structure CutInto (n : Nat) (S : List UInt8) (segs : List (List UInt8)) : Prop where
  flatten : segs.flatten = S
  full : ∀ s ∈ segs.dropLast, s.length = n
  last : ∀ s ∈ segs.getLast?, 0 < s.length ∧ s.length ≤ n

theorem length_flatten_of_full {n : Nat} {segs : List (List UInt8)}
    (h : ∀ s ∈ segs, s.length = n) : segs.flatten.length = segs.length * n := by
  induction segs with
  | nil => simp
  | cons s rest ih =>
    rw [List.flatten_cons, List.length_append, h s (by simp),
      ih fun t ht => h t (List.mem_cons_of_mem s ht), List.length_cons, Nat.succ_mul,
      Nat.add_comm]

namespace CutInto

variable {n : Nat} {S : List UInt8} {segs : List (List UInt8)}

theorem of_full (h : ∀ s ∈ segs, s.length = n) (hn : 0 < n) : CutInto n segs.flatten segs where
  flatten := rfl
  full s hs := h s (List.dropLast_subset segs hs)
  last s hs := by
    rw [h s (List.mem_of_getLast? hs)]
    exact ⟨hn, Nat.le_refl n⟩

theorem snoc (h : ∀ s ∈ segs, s.length = n) {s : List UInt8} (hpos : 0 < s.length)
    (hle : s.length ≤ n) : CutInto n (segs.flatten ++ s) (segs ++ [s]) where
  flatten := by simp
  full t ht := h t (by simpa using ht)
  last t ht := by
    simp only [List.getLast?_append, List.getLast?_singleton, Option.some_or,
      Option.mem_def, Option.some.injEq] at ht
    exact ht ▸ ⟨hpos, hle⟩

/-- **A cut in segments of `n` bytes has `⌈|S| / n⌉` of them.** -/
theorem length_eq (h : CutInto n S segs) (hn : 0 < n) : segs.length = (S.length + n - 1) / n := by
  rcases hl : segs.getLast? with _ | s
  · -- no segment: nothing to cut
    obtain rfl : segs = [] := List.getLast?_eq_none_iff.1 hl
    rw [← h.flatten, List.flatten_nil, List.length_nil, List.length_nil, Nat.zero_add,
      Nat.div_eq_of_lt (by omega)]
  · obtain ⟨hpos, hle⟩ := h.last s hl
    obtain ⟨init, rfl⟩ := List.getLast?_eq_some_iff.1 hl
    have hfull : ∀ t ∈ init, t.length = n := fun t ht => h.full t (by simpa using ht)
    have hlen : S.length = init.length * n + s.length := by
      rw [← h.flatten, List.flatten_append, List.length_append, length_flatten_of_full hfull]
      simp
    -- the last segment adds one to the count of full ones
    have hlast : (s.length + n - 1) / n = 1 := Nat.div_eq_of_lt_le (by omega) (by omega)
    rw [hlen, show init.length * n + s.length + n - 1 = (s.length + n - 1) + n * init.length by
      rw [Nat.mul_comm]; omega, Nat.add_mul_div_left _ _ hn, hlast, List.length_append,
      List.length_singleton, Nat.add_comm]

/-- Every segment of a cut has between one and `n` bytes. -/
theorem sizes (h : CutInto n S segs) (hn : 0 < n) : ∀ s ∈ segs, 0 < s.length ∧ s.length ≤ n := by
  intro s hs
  rcases hl : segs.getLast? with _ | t
  · simp [List.getLast?_eq_none_iff.1 hl] at hs
  · obtain ⟨init, rfl⟩ := List.getLast?_eq_some_iff.1 hl
    rcases List.mem_append.1 hs with hs | hs
    · have := h.full s (by simpa using hs)
      omega
    · rw [List.mem_singleton.1 hs]
      exact h.last t hl

end CutInto

end Plumbing.Stream
