import Mathlib
import Plumbing.Text.Utf8

/-!
# Lossy decoding, and what appended bytes can change

A byte list decodes, left to right, into pieces (`pieces`): a well-formed character with its
bytes, or a byte that starts none, which stands for the replacement character. The bytes of the
pieces, in order, are the list again (`flatten_pieces`).

A scanner decodes the bytes it holds, which may be only a prefix of its input; the decoding of a
prefix is that of the whole input as far as it is settled:

* a well-formed character at the front stays one whatever follows (`decode?_append`);
* a byte that starts none stays so once the bytes after it are `isComplete`
  (`decode?_append_of_isComplete`);
* otherwise the prefix ends in a truncated sequence: continuation bytes only, which decode to no
  character at all (`pieces_of_forall_isCont`).

So the pieces of a prefix up to a well-formed character are pieces of every extension of it
(`pieces_append`).
-/

namespace Plumbing.Text.Utf8

theorem width_le_four (b : UInt8) : width b ≤ 4 := by
  unfold width
  repeat' split
  all_goals omega

theorem width_of_isCont {b : UInt8} (h : isCont b = true) : width b = 0 := by
  simp only [isCont, Bool.and_eq_true, decide_eq_true_eq, UInt8.le_iff_toNat_le] at h
  unfold width
  simp only [UInt8.le_iff_toNat_le]
  simp only [UInt8.reduceToNat] at h ⊢
  repeat' split
  all_goals omega

theorem isCont_of_secondOk {b0 b1 : UInt8} (h : secondOk b0 b1 = true) : isCont b1 = true := by
  simp only [secondOk, secondRange, isCont, Bool.and_eq_true, decide_eq_true_eq] at h ⊢
  repeat' split at h
  all_goals simp only [UInt8.le_iff_toNat_le] at h ⊢; simp at h ⊢; omega

theorem decode?_of_width_zero {b : UInt8} (h : width b = 0) (rest : List UInt8) :
    decode? (b :: rest) = none := by
  simp [decode?, h]

theorem decode?_ascii {b : UInt8} (h : b ≤ 0x7F) (rest : List UInt8) :
    decode? (b :: rest) = some (b.toNat, 1) := by
  simp [decode?, width, h]

/-- A decoded character is as long as its first byte announces, and lies within the data. -/
theorem decode?_width {X : List UInt8} {c w : Nat} (h : decode? X = some (c, w)) :
    0 < w ∧ w ≤ X.length := by
  rcases X with _ | ⟨b0, rest⟩
  · simp [decode?] at h
  simp only [decode?] at h
  split at h
  all_goals first
    | (simp only [Option.some.injEq, Prod.mk.injEq] at h; simp; omega)
    | (split at h
       · simp only [Option.some.injEq, Prod.mk.injEq] at h; simp; omega
       · simp at h)
    | simp at h

/-- **A character at the front stays one**, whatever bytes follow. -/
theorem decode?_append {X : List UInt8} (h : decode? X ≠ none) (E : List UInt8) :
    decode? (X ++ E) = decode? X := by
  rcases X with _ | ⟨b0, rest⟩
  · simp [decode?] at h
  simp only [List.cons_append, decode?] at h ⊢
  split at h
  all_goals first | (rename_i hw; simp only [hw, List.cons_append]) | exact absurd rfl h

theorem decode?_append_of_width_le {b0 : UInt8} {rest : List UInt8}
    (h : width b0 ≤ rest.length + 1) (E : List UInt8) :
    decode? (b0 :: rest ++ E) = decode? (b0 :: rest) := by
  simp only [List.cons_append, decode?]
  generalize width b0 = k at h ⊢
  rcases rest with _ | ⟨b1, _ | ⟨b2, _ | ⟨b3, r⟩⟩⟩ <;>
    rcases k with _ | _ | _ | _ | _ | k <;> simp_all

/-- A byte that is no continuation byte, among those the first byte announces, leaves no
character, whatever follows. -/
theorem decode?_append_of_not_cont {b0 : UInt8} {rest : List UInt8}
    (hlt : rest.length + 1 < width b0) (hc : rest.all isCont = false) (E : List UInt8) :
    decode? (b0 :: rest ++ E) = none := by
  simp only [List.cons_append, decode?]
  have hk := width_le_four b0
  generalize width b0 = k at hlt hk ⊢
  -- the announced bytes not all there: one or two of them, one no continuation byte
  rcases rest with _ | ⟨b1, _ | ⟨b2, _ | ⟨b3, r⟩⟩⟩
  · simp at hc
  · have hs : secondOk b0 b1 = false := by
      cases h : secondOk b0 b1
      · rfl
      · simp [isCont_of_secondOk h] at hc
    rcases E with _ | ⟨e1, _ | ⟨e2, E⟩⟩ <;> rcases k with _ | _ | _ | _ | _ | k <;> simp_all
  · have hs : secondOk b0 b1 = false ∨ isCont b2 = false := by
      cases h : secondOk b0 b1
      · exact .inl rfl
      · simp [isCont_of_secondOk h] at hc
        exact .inr hc
    rcases E with _ | ⟨e1, E⟩ <;> rcases k with _ | _ | _ | _ | _ | k <;>
      rcases hs with hs | hs <;> simp_all
  · simp at hlt
    omega

/-- **A byte that starts no character stays so** once what follows it can no longer complete
it. -/
theorem decode?_append_of_isComplete {b0 : UInt8} {rest : List UInt8}
    (hc : isComplete (b0 :: rest) = true) (hn : decode? (b0 :: rest) = none) (E : List UInt8) :
    decode? (b0 :: rest ++ E) = none := by
  by_cases hle : width b0 ≤ rest.length + 1
  · rw [decode?_append_of_width_le hle, hn]
  · have hall : rest.all isCont = false := by
      simp only [isComplete, Bool.or_eq_true, beq_iff_eq, decide_eq_true_eq, Bool.not_eq_true',
        ge_iff_le] at hc
      rcases hc with (hw | hw) | hw
      · omega
      · omega
      · exact hw
    exact decode?_append_of_not_cont (by omega) hall E

/-- A unit of the lossy decoding: a well-formed character with its code point and bytes, or a
byte that starts none. -/
inductive Piece
  | char (code : Nat) (bytes : List UInt8)
  | invalid (byte : UInt8)
  deriving DecidableEq, Repr

namespace Piece

/-- The code point a piece stands for: the replacement character for a byte that starts none. -/
def code : Piece → Nat
  | char c _ => c
  | invalid _ => replacementChar

/-- The bytes a piece covers. -/
def bytes : Piece → List UInt8
  | char _ bs => bs
  | invalid b => [b]

/-- The encoding of the character a piece stands for. -/
def rune : Piece → List UInt8
  | char _ bs => bs
  | invalid _ => replacementBytes

/-- Whether a piece is a well-formed character. -/
def valid : Piece → Bool
  | char _ _ => true
  | invalid _ => false

end Piece

/-- The piece at the front of `b :: rest`. -/
def firstPiece (b : UInt8) (rest : List UInt8) : Piece :=
  match decode? (b :: rest) with
  | some (c, w) => .char c ((b :: rest).take w)
  | none => .invalid b

/-- The first piece covers what `decodeLossy` reads, and stands for the character it gives. -/
theorem firstPiece_spec (b : UInt8) (rest : List UInt8) :
    (firstPiece b rest).bytes = (b :: rest).take (decodeLossy (b :: rest)).2 ∧
      (firstPiece b rest).bytes.length = (decodeLossy (b :: rest)).2 ∧
      (firstPiece b rest).code = (decodeLossy (b :: rest)).1 ∧
      0 < (decodeLossy (b :: rest)).2 := by
  unfold firstPiece decodeLossy
  cases h : decode? (b :: rest) with
  | none => simp [Piece.bytes, Piece.code]
  | some cw =>
    obtain ⟨c, w⟩ := cw
    have hw := decode?_width h
    simp only [List.length_cons] at hw
    simp only [Piece.bytes, Piece.code, Option.getD_some, List.length_take, List.length_cons,
      true_and]
    exact ⟨by omega, hw.1⟩

theorem firstPiece_length_pos (b : UInt8) (rest : List UInt8) :
    0 < (firstPiece b rest).bytes.length := by
  rw [(firstPiece_spec b rest).2.1]
  exact (firstPiece_spec b rest).2.2.2

/-- The lossy decoding of `data`, left to right. -/
def pieces : List UInt8 → List Piece
  | [] => []
  | b :: rest => firstPiece b rest :: pieces ((b :: rest).drop (firstPiece b rest).bytes.length)
termination_by data => data.length
decreasing_by
  have := firstPiece_length_pos b rest
  simp only [List.length_drop, List.length_cons]
  omega

@[simp] theorem pieces_nil : pieces [] = [] := by rw [pieces]

theorem pieces_cons (b : UInt8) (rest : List UInt8) :
    pieces (b :: rest) =
      firstPiece b rest :: pieces ((b :: rest).drop (firstPiece b rest).bytes.length) := by
  rw [pieces]

/-- The bytes of the pieces, in order, are the data. -/
theorem flatten_pieces (X : List UInt8) : ((pieces X).map Piece.bytes).flatten = X := by
  fun_induction pieces X with
  | case1 => simp
  | case2 b rest ih =>
    rw [List.map_cons, List.flatten_cons, ih, (firstPiece_spec b rest).2.1,
      (firstPiece_spec b rest).1, List.take_append_drop]

/-- The number of bytes the pieces cover. -/
def span (ps : List Piece) : Nat := (ps.map fun p => p.bytes.length).sum

@[simp] theorem span_nil : span [] = 0 := rfl

@[simp] theorem span_cons (p : Piece) (ps : List Piece) :
    span (p :: ps) = p.bytes.length + span ps := by
  simp [span]

@[simp] theorem span_append (ps qs : List Piece) : span (ps ++ qs) = span ps + span qs := by
  simp [span]

theorem span_eq_length_flatten (ps : List Piece) :
    span ps = ((ps.map Piece.bytes).flatten).length := by
  simp [span, List.length_flatten, Function.comp_def]

theorem length_eq_span (X : List UInt8) : X.length = span (pieces X) := by
  conv => lhs; rw [← flatten_pieces X]
  rw [span_eq_length_flatten]

/-- Every piece covers at least one byte. -/
theorem bytes_ne_nil_of_mem_pieces {X : List UInt8} {p : Piece} (h : p ∈ pieces X) :
    p.bytes ≠ [] := by
  fun_induction pieces X with
  | case1 => simp at h
  | case2 b rest ih =>
    rw [List.mem_cons] at h
    rcases h with rfl | h
    · exact List.ne_nil_of_length_pos (firstPiece_length_pos b rest)
    · exact ih h

theorem length_pos_of_mem_pieces {X : List UInt8} {p : Piece} (h : p ∈ pieces X) :
    0 < p.bytes.length :=
  List.length_pos_iff.2 (bytes_ne_nil_of_mem_pieces h)

/-- The first piece as `decodeLossy` reads it: its character and its width. -/
theorem pieces_cons_of_decodeLossy {b : UInt8} {rest : List UInt8} {c w : Nat}
    (h : decodeLossy (b :: rest) = (c, w)) :
    pieces (b :: rest) = firstPiece b rest :: pieces (rest.drop (w - 1)) ∧
      (firstPiece b rest).code = c ∧ (firstPiece b rest).bytes.length = w := by
  obtain ⟨-, hlen, hcode, hpos⟩ := firstPiece_spec b rest
  rw [h] at hlen hcode hpos
  refine ⟨?_, hcode, hlen⟩
  rw [pieces_cons, hlen]
  obtain ⟨k, rfl⟩ : ∃ k, w = k + 1 := ⟨w - 1, by simp at hpos; omega⟩
  rfl

/-- Dropping the bytes of the first pieces leaves the decoding of the rest. -/
theorem pieces_drop_span {X : List UInt8} {P Q : List Piece} (h : pieces X = P ++ Q) :
    pieces (X.drop (span P)) = Q := by
  induction P generalizing X with
  | nil => simpa [span] using h
  | cons p P ih =>
    rcases X with _ | ⟨b, rest⟩
    · simp at h
    rw [pieces_cons, List.cons_append, List.cons.injEq] at h
    obtain ⟨rfl, hrest⟩ := h
    rw [span, List.map_cons, List.sum_cons, ← List.drop_drop]
    exact ih hrest

/-- A truncated sequence's continuation bytes decode to no character. -/
theorem pieces_of_forall_isCont {X : List UInt8} (h : ∀ x ∈ X, isCont x = true) :
    pieces X = X.map .invalid := by
  induction X with
  | nil => simp
  | cons x X ih =>
    have hx : firstPiece x X = .invalid x := by
      simp [firstPiece, decode?_of_width_zero (width_of_isCont (h x List.mem_cons_self))]
    rw [pieces_cons, hx]
    simp [Piece.bytes, ih fun y hy => h y (List.mem_cons_of_mem x hy)]

/-- The first piece stays when bytes are appended, unless the data is a truncated sequence. -/
theorem firstPiece_append {b : UInt8} {rest : List UInt8}
    (h : decode? (b :: rest) ≠ none ∨ isComplete (b :: rest) = true) (E : List UInt8) :
    firstPiece b (rest ++ E) = firstPiece b rest := by
  have hdec : decode? (b :: (rest ++ E)) = decode? (b :: rest) := by
    rcases h with h | h
    · exact decode?_append h E
    · cases hn : decode? (b :: rest) with
      | none => exact decode?_append_of_isComplete h hn E
      | some cw =>
        have hsome : decode? (b :: rest) ≠ none := by simp [hn]
        exact (decode?_append hsome E).trans hn
  unfold firstPiece
  rw [hdec]
  cases hd : decode? (b :: rest) with
  | none => rfl
  | some cw =>
    have hw := decode?_width hd
    simp only [← List.cons_append]
    rw [List.take_append_of_le_length hw.2]

theorem firstPiece_length_le (b : UInt8) (rest : List UInt8) :
    (firstPiece b rest).bytes.length ≤ (b :: rest).length := by
  rw [(firstPiece_spec b rest).1]
  exact List.length_take_le' _ _

theorem pieces_cons_append {b : UInt8} {rest : List UInt8}
    (h : decode? (b :: rest) ≠ none ∨ isComplete (b :: rest) = true) (E : List UInt8) :
    pieces (b :: rest ++ E) =
      firstPiece b rest :: pieces ((b :: rest).drop (firstPiece b rest).bytes.length ++ E) := by
  rw [List.cons_append, pieces_cons, firstPiece_append h, ← List.cons_append,
    List.drop_append_of_le_length (firstPiece_length_le b rest)]

/-- **Pieces up to a character are pieces of every extension**: the decoding of the rest
starts where they end. -/
theorem pieces_append {X : List UInt8} {P Q : List Piece} {q : Piece}
    (h : pieces X = P ++ q :: Q) (hq : q.valid = true) (E : List UInt8) :
    pieces (X ++ E) = P ++ q :: pieces (X.drop (span (P ++ [q])) ++ E) := by
  -- one piece at a time: each stays, and the rest of the data still decodes to the rest
  induction P generalizing X with
  | nil =>
    rcases X with _ | ⟨b, rest⟩
    · simp at h
    rw [pieces_cons, List.nil_append, List.cons.injEq] at h
    obtain ⟨rfl, -⟩ := h
    have hvalid : decode? (b :: rest) ≠ none := by
      intro hn
      simp [firstPiece, hn, Piece.valid] at hq
    rw [pieces_cons_append (.inl hvalid)]
    simp [span]
  | cons p P ih =>
    rcases X with _ | ⟨b, rest⟩
    · simp at h
    rw [pieces_cons, List.cons_append, List.cons.injEq] at h
    obtain ⟨rfl, hrest⟩ := h
    -- a truncated sequence decodes to bytes only, and no character follows it
    have hsettled : decode? (b :: rest) ≠ none ∨ isComplete (b :: rest) = true := by
      by_cases hc : isComplete (b :: rest) = true
      · exact .inr hc
      · refine .inl fun hn => ?_
        have hcont : ∀ x ∈ rest, isCont x = true := by
          simp only [isComplete, Bool.or_eq_true, beq_iff_eq, decide_eq_true_eq,
            Bool.not_eq_true', not_or, Bool.not_eq_false] at hc
          simpa using hc.2
        have hlen : (firstPiece b rest).bytes.length = 1 := by simp [firstPiece, hn, Piece.bytes]
        rw [hlen, List.drop_succ_cons, List.drop_zero, pieces_of_forall_isCont hcont] at hrest
        have hmem : q ∈ rest.map Piece.invalid := by rw [hrest]; simp
        obtain ⟨x, -, rfl⟩ := List.mem_map.1 hmem
        simp [Piece.valid] at hq
    rw [pieces_cons_append hsettled, ih hrest]
    simp [span, List.drop_drop, Nat.add_comm]

end Plumbing.Text.Utf8
