import Plumbing.Proofs.Scan.Chunking

/-!
# Lines and bytes under every chunking

The lines of an input `D = l₁ LF … lₖ LF r`, with no line feed in `r`, are `l₁, …, lₖ`, each
without one trailing carriage return, and then `r` without its carriage return when something
is left of it (`refLines`); an empty line between two line feeds is a line. The bytes of `D`
are its bytes, one token each (`refBytes`).

The `lines` splitter cuts as `refLines` (`cuts_lines`): before the end of input it cuts at each
line feed and otherwise waits, so what it is left with has no line feed, and at the end of input
it passes that rest on, unless it is empty once its carriage return is dropped. So a session
over `lines` or `bytes` receives the lines or the bytes of its input, however the input is cut
into writes (`scansAs_lines_and_bytes`).
-/

namespace Plumbing.Scan

/-- The tokens of the pieces of an input between line feeds: each piece but the last is a line,
without one trailing carriage return; the last, after the last line feed, is one only when
something is left of it without its carriage return. -/
def linesOf : List (List UInt8) → List (List UInt8)
  | [] => []
  | [r] => if dropCr r = [] then [] else [dropCr r]
  | l :: l' :: rest => dropCr l :: linesOf (l' :: rest)

/-- The lines of `D`. -/
def refLines (D : List UInt8) : List (List UInt8) := linesOf (D.splitOn 10)

/-- The bytes of `D`, one token each. -/
def refBytes (D : List UInt8) : List (List UInt8) := D.map fun b => [b]

theorem refLines_line {l : List UInt8} (hl : 10 ∉ l) (E : List UInt8) :
    refLines (l ++ 10 :: E) = dropCr l :: refLines E := by
  rw [refLines, List.splitOn_append_cons_self_of_not_mem hl]
  obtain ⟨p, ps, hps⟩ := List.exists_cons_of_ne_nil (List.splitOn_ne_nil 10 E)
  rw [hps, linesOf, refLines, hps]

theorem refLines_last {r : List UInt8} (hr : 10 ∉ r) :
    refLines r = if dropCr r = [] then [] else [dropCr r] := by
  rw [refLines, List.splitOn_eq_singleton hr, linesOf]

theorem eq_take_idxOf?_append {α : Type} [BEq α] [LawfulBEq α] {l : List α} {a : α} {i : Nat}
    (h : l.idxOf? a = some i) : l = l.take i ++ a :: l.drop (i + 1) ∧ a ∉ l.take i := by
  obtain ⟨hi, hai, hbefore⟩ := List.idxOf?_eq_some_iff.1 h
  refine ⟨?_, ?_⟩
  · rw [← hai, ← List.drop_eq_getElem_cons hi, List.take_append_drop]
  · rw [List.mem_take_iff_getElem]
    rintro ⟨j, hj, hja⟩
    exact hbefore j (by omega) hja

theorem lines_of_idxOf? {X : List UInt8} {i : Nat} (h : X.idxOf? 10 = some i) (atEof : Bool) :
    lines X atEof = .found (i + 1) (dropCr (X.take i)) := by
  have hne : X ≠ [] := by
    rintro rfl
    simp at h
  simp [lines, h, hne]

theorem lines_of_not_mem {X : List UInt8} (h : 10 ∉ X) :
    lines X false = .more ∧ (X ≠ [] → lines X true = .found X.length (dropCr X)) := by
  have hnone : X.idxOf? 10 = none := List.idxOf?_eq_none_iff.2 h
  exact ⟨by simp [lines, hnone], fun hne => by simp [lines, hnone, hne]⟩

theorem lines_cases (X : List UInt8) :
    (∃ i, X.idxOf? 10 = some i ∧ lines X false = .found (i + 1) (dropCr (X.take i))) ∨
      (10 ∉ X ∧ lines X false = .more) := by
  cases h : X.idxOf? 10 with
  | some i => exact .inl ⟨i, rfl, lines_of_idxOf? h false⟩
  | none =>
    have hX : 10 ∉ X := List.idxOf?_eq_none_iff.1 h
    exact .inr ⟨hX, (lines_of_not_mem hX).1⟩

theorem lines_computes : Splitter.lines.Computes lines := fun _ _ => rfl

theorem bytes_computes : Splitter.bytes.Computes bytes := fun _ _ => rfl

/-- `lines` cuts as `refLines`; it is left with text without a line feed. -/
theorem cuts_lines : Cuts lines refLines (fun X => 10 ∉ X) where
  ref_nil := rfl
  advance_le X _ := by
    rcases lines_cases X with ⟨i, hi, hl⟩ | ⟨-, hl⟩
    · obtain ⟨hlt, -⟩ := List.idxOf?_eq_some_iff.1 hi
      rw [hl]
      exact hlt
    · rw [hl]
      exact Nat.zero_le _
  found X t E _ ht := by
    rcases lines_cases X with ⟨i, hi, hl⟩ | ⟨-, hl⟩
    · simp only [hl, Split.found, Option.some.injEq] at ht ⊢
      subst ht
      obtain ⟨hsplit, hnot⟩ := eq_take_idxOf?_append hi
      refine ⟨Nat.succ_pos i, ?_⟩
      -- the input is the line, its line feed, and the rest
      conv => lhs; rw [hsplit]
      rw [List.append_assoc, List.cons_append, refLines_line hnot]
    · simp [hl, Split.more] at ht
  skip X E _ ht := by
    rcases lines_cases X with ⟨i, -, hl⟩ | ⟨-, hl⟩
    · simp [hl, Split.found] at ht
    · simp [hl, Split.more]
  final_of_more X _ hm := by
    rcases lines_cases X with ⟨i, -, hl⟩ | ⟨hX, -⟩
    · simp [hl, Split.found, Split.more] at hm
    · exact hX
  final_step X hne hX := by
    rw [(lines_of_not_mem hX).2 hne]
    simp only [Split.found]
    refine ⟨List.length_pos_iff.2 hne, Nat.le_refl _, by simp, ?_⟩
    rw [List.drop_length, refLines_last hX, show refLines [] = [] from rfl]
    by_cases hcr : dropCr X = [] <;> simp [hcr, eofTokens]

/-- `bytes` cuts as `refBytes`: it never waits for more input. -/
theorem cuts_bytes : Cuts bytes refBytes (fun _ => True) where
  ref_nil := rfl
  advance_le X hne := by
    obtain ⟨b, more, rfl⟩ := List.exists_cons_of_ne_nil hne
    simp [bytes, Split.found]
  found X t E hne ht := by
    obtain ⟨b, more, rfl⟩ := List.exists_cons_of_ne_nil hne
    simp only [bytes, Split.found, Option.some.injEq] at ht
    subst ht
    simp [bytes, refBytes, Split.found]
  skip X E hne ht := by
    obtain ⟨b, more, rfl⟩ := List.exists_cons_of_ne_nil hne
    simp [bytes, Split.found] at ht
  final_of_more _ _ _ := trivial
  final_step X hne _ := by
    obtain ⟨b, more, rfl⟩ := List.exists_cons_of_ne_nil hne
    simp [bytes, refBytes, eofTokens, Split.found]

/-- **Lines and bytes under every chunking.** Written in any chunks and flushed, an input gives
its lines to a session over `lines`, and its bytes to one over `bytes`; every call succeeds when
the bound holds the whole input, and whenever every call succeeds the tokens are these. -/
theorem scansAs_lines_and_bytes (limit : Nat) (chunks : List (List UInt8)) :
    ScansAs .lines refLines limit chunks ∧ ScansAs .bytes refBytes limit chunks :=
  ⟨cuts_lines.scansAs lines_computes limit chunks, cuts_bytes.scansAs bytes_computes limit chunks⟩

/-- Interior empty lines are lines; a last carriage return alone is not. -/
example : refLines [97, 13, 10, 10, 98, 10, 13] = [[97], [], [98]] := by decide

end Plumbing.Scan
