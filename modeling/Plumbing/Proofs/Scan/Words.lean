import Plumbing.Proofs.Scan.Chunking
import Plumbing.Proofs.Text.Encode

/-!
# Words under every chunking

The words of an input, for a notion of blank, are read off its lossy decoding: the bytes of
each maximal run of pieces whose character is not blank (`refWords`). A byte that starts no
character stands for the replacement character, which no notion of blank used here counts as
blank.

The `words` splitter skips the blank pieces at the front of what it holds, and then cuts at the
first blank piece after the word (`words_view`). Both are found on the decoding of the held
bytes only; but every piece up to a blank one is a character, and pieces up to a character are
pieces of every extension (`pieces_append`). So what the splitter consumes is decoded as in the
whole input, `words` cuts as `refWords` (`cuts_words`), and a session over `words` receives the
words of its input however the input is cut into writes (`scansAs_words`). On well-formed text
the words for Unicode blanks are the encodings of its maximal runs of characters that are not
blank (`refWords_encode`).
-/

namespace Plumbing.Scan

open Plumbing.Text Plumbing.Text.Utf8

/-- The words of a decoding: the bytes of each maximal non-empty run of pieces that are not
`blank`. -/
def wordsOf (blank : Nat → Bool) (ps : List Piece) : List (List UInt8) :=
  (((ps.splitOnP fun p => blank p.code).filter fun run => !run.isEmpty).map
    fun run => (run.map Piece.bytes).flatten)

/-- The words of `D` under `blank`, on its lossy decoding. -/
def refWords (blank : Nat → Bool) (D : List UInt8) : List (List UInt8) :=
  wordsOf blank (pieces D)

section Reference

variable (blank : Nat → Bool)

@[simp] theorem wordsOf_nil : wordsOf blank [] = [] := rfl

/-- Blank pieces in front add no word. -/
theorem wordsOf_append_of_blank {B : List Piece} (hB : ∀ p ∈ B, blank p.code = true)
    (ps : List Piece) : wordsOf blank (B ++ ps) = wordsOf blank ps := by
  induction B with
  | nil => rfl
  | cons p B ih =>
    have hp := hB p List.mem_cons_self
    rw [List.cons_append, wordsOf, List.splitOnP_cons_eq_if_modifyHead, if_pos hp,
      List.filter_cons_of_neg (by simp), ← wordsOf]
    exact ih fun q hq => hB q (List.mem_cons_of_mem p hq)

theorem wordsOf_word {W : List Piece} (hW : ∀ p ∈ W, blank p.code = false) (hne : W ≠ [])
    {q : Piece} (hq : blank q.code = true) (ps : List Piece) :
    wordsOf blank (W ++ q :: ps) = (W.map Piece.bytes).flatten :: wordsOf blank ps := by
  rw [wordsOf, List.splitOnP_append_cons_of_forall_mem hW q hq,
    List.filter_cons_of_pos (by simpa using hne)]
  rfl

theorem wordsOf_last {W : List Piece} (hW : ∀ p ∈ W, blank p.code = false) (hne : W ≠ []) :
    wordsOf blank W = [(W.map Piece.bytes).flatten] := by
  rw [wordsOf, List.splitOnP_eq_singleton hW, List.filter_cons_of_pos (by simpa using hne)]
  rfl

end Reference

/-! ## The splitter on the decoding -/

theorem blankPrefix_eq (blank : Nat → Bool) (X : List UInt8) (acc : Nat) :
    blankPrefix blank X acc = acc + span ((pieces X).takeWhile fun p => blank p.code) := by
  fun_induction blankPrefix blank X acc with
  | case1 acc => simp
  | case2 acc b rest c w hcw hb ih =>
    obtain ⟨hpieces, hcode, hlen⟩ := pieces_cons_of_decodeLossy hcw
    rw [ih, hpieces, List.takeWhile_cons_of_pos (by simpa [hcode] using hb), span_cons, hlen,
      Nat.add_assoc]
  | case3 acc b rest c w hcw hb =>
    obtain ⟨hpieces, hcode, -⟩ := pieces_cons_of_decodeLossy hcw
    rw [hpieces, List.takeWhile_cons_of_neg (by simpa [hcode] using hb)]
    simp

theorem firstBlank_eq (blank : Nat → Bool) (X : List UInt8) (pos : Nat) :
    firstBlank blank X pos =
      match (pieces X).dropWhile (fun p => !blank p.code) with
      | [] => none
      | q :: _ => some (pos + span ((pieces X).takeWhile fun p => !blank p.code), q.bytes.length) := by
  fun_induction firstBlank blank X pos with
  | case1 pos => simp
  | case2 pos b rest c w hcw hb =>
    obtain ⟨hpieces, hcode, hlen⟩ := pieces_cons_of_decodeLossy hcw
    rw [hpieces, List.dropWhile_cons_of_neg (by simpa [hcode] using hb),
      List.takeWhile_cons_of_neg (by simpa [hcode] using hb)]
    simp [hlen]
  | case3 pos b rest c w hcw hb ih =>
    obtain ⟨hpieces, hcode, hlen⟩ := pieces_cons_of_decodeLossy hcw
    rw [ih, hpieces, List.dropWhile_cons_of_pos (by simpa [hcode] using hb),
      List.takeWhile_cons_of_pos (by simpa [hcode] using hb), span_cons, hlen, Nat.add_assoc]

/-- **What `words` does, on the decoding of what it holds**: blank pieces `B`, then the pieces
`W` of a word, then `tail`, which starts with the blank piece ending the word if there is one.
It consumes `B`, `W` and that blank piece, passing `W` on; without one it takes `W` as the last
word at the end of input, and otherwise consumes `B` alone. -/
theorem words_view (blank : Nat → Bool) (X : List UInt8) :
    ∃ B W tail, pieces X = B ++ W ++ tail ∧
      (∀ p ∈ B, blank p.code = true) ∧ (∀ p ∈ W, blank p.code = false) ∧
      (∀ q ∈ tail.head?, blank q.code = true) ∧ (W = [] → tail = []) ∧
      ∀ atEof, words blank X atEof =
        match tail with
        | q :: _ => .found (span B + span W + q.bytes.length) ((W.map Piece.bytes).flatten)
        | [] =>
          if atEof && span B < X.length then .found X.length ((W.map Piece.bytes).flatten)
          else .skip (span B) := by
  obtain ⟨B, hB⟩ : ∃ B, (pieces X).takeWhile (fun p => blank p.code) = B := ⟨_, rfl⟩
  obtain ⟨R, hR⟩ : ∃ R, (pieces X).dropWhile (fun p => blank p.code) = R := ⟨_, rfl⟩
  obtain ⟨W, hW⟩ : ∃ W, R.takeWhile (fun p => !blank p.code) = W := ⟨_, rfl⟩
  obtain ⟨tail, ht⟩ : ∃ tail, R.dropWhile (fun p => !blank p.code) = tail := ⟨_, rfl⟩
  have hX : pieces X = B ++ R := by rw [← hB, ← hR, List.takeWhile_append_dropWhile]
  have hRW : R = W ++ tail := by rw [← hW, ← ht, List.takeWhile_append_dropWhile]
  -- the held bytes after the blanks decode to the pieces after them
  have hbody : pieces (X.drop (span B)) = R := pieces_drop_span hX
  have hbytes : X.drop (span B) = (W.map Piece.bytes).flatten ++ (tail.map Piece.bytes).flatten := by
    rw [← flatten_pieces (X.drop (span B)), hbody, hRW, List.map_append, List.flatten_append]
  refine ⟨B, W, tail, by rw [hX, hRW, List.append_assoc], ?_, ?_, ?_, ?_, fun atEof => ?_⟩
  · intro p hp
    rw [← hB] at hp
    exact List.all_eq_true.1 List.all_takeWhile p hp
  · intro p hp
    rw [← hW] at hp
    simpa using List.all_eq_true.1 List.all_takeWhile p hp
  · intro q hq
    have hhead := List.head?_dropWhile_not (fun p => !blank p.code) R
    rw [ht, hq] at hhead
    simpa using hhead
  · -- the first piece after the blanks is not blank, so it starts the word
    intro hWnil
    have hhead := List.head?_dropWhile_not (fun p => blank p.code) (pieces X)
    rw [hR] at hhead
    cases R with
    | nil => simpa using ht.symm
    | cons r rs =>
      simp only [List.head?_cons] at hhead
      rw [← hW, List.takeWhile_cons_of_pos (by simpa using hhead)] at hWnil
      cases hWnil
  · simp only [words, blankPrefix_eq, Nat.zero_add, hB, firstBlank_eq, hbody, hW, ht]
    cases tail with
    | cons q qs =>
      simp only [Nat.add_sub_cancel_left, hbytes]
      rw [List.take_append_of_le_length (Nat.le_of_eq (span_eq_length_flatten W)),
        List.take_of_length_le (Nat.le_of_eq (span_eq_length_flatten W).symm)]
    | nil =>
      simp only [hbytes, List.map_nil, List.flatten_nil, List.append_nil, gt_iff_lt]

/-! ## Cutting as the reference -/

section Cutting

variable {blank : Nat → Bool}

theorem valid_of_blank (hr : blank replacementChar = false) {q : Piece}
    (hq : blank q.code = true) : q.valid = true := by
  cases q with
  | char c bs => rfl
  | invalid b => simp [Piece.code, hr] at hq

theorem span_pos {X : List UInt8} {W : List Piece} (hne : W ≠ [])
    (hsub : ∀ p ∈ W, p ∈ pieces X) : 0 < span W := by
  obtain ⟨p, ps, rfl⟩ := List.exists_cons_of_ne_nil hne
  have := length_pos_of_mem_pieces (hsub p List.mem_cons_self)
  simp only [span_cons]
  omega

theorem flatten_ne_nil_of_span_pos {W : List Piece} (h : 0 < span W) :
    (W.map Piece.bytes).flatten ≠ [] := by
  rw [← List.length_pos_iff, ← span_eq_length_flatten]
  exact h

theorem length_eq_span_of_pieces {X : List UInt8} {B W tail : List Piece}
    (hX : pieces X = B ++ W ++ tail) : X.length = span B + span W + span tail := by
  rw [length_eq_span, hX, span_append, span_append]

/-- Blank pieces at the front of the held bytes are blank pieces of every extension: the words
of an extension are those after them. -/
theorem refWords_append_of_blank (hr : blank replacementChar = false) {X : List UInt8}
    {B ps : List Piece} (hX : pieces X = B ++ ps) (hB : ∀ p ∈ B, blank p.code = true)
    (E : List UInt8) : refWords blank (X ++ E) = refWords blank (X.drop (span B) ++ E) := by
  rcases List.eq_nil_or_concat B with rfl | ⟨B', b, rfl⟩
  · rfl
  rw [List.concat_eq_append] at hX hB ⊢
  -- the last blank piece is a character: the decoding up to it is settled
  have hb : blank b.code = true := hB b (by simp)
  rw [List.append_assoc, List.singleton_append] at hX
  rw [refWords, pieces_append hX (valid_of_blank hr hb),
    show ∀ L, B' ++ b :: L = (B' ++ [b]) ++ L from fun L => by simp,
    wordsOf_append_of_blank blank hB]
  rfl

/-- `words` cuts as `refWords`, for a notion of blank that leaves out the replacement
character; at the end of input it takes any rest. -/
theorem cuts_words (hr : blank replacementChar = false) :
    Cuts (words blank) (refWords blank) (fun _ => True) where
  ref_nil := by simp [refWords]
  advance_le X _ := by
    obtain ⟨B, W, tail, hX, -, -, -, -, hw⟩ := words_view blank X
    have hlen := length_eq_span_of_pieces hX
    rw [hw false]
    cases tail with
    | cons q qs => simp only [Split.found, span_cons] at hlen ⊢; omega
    | nil =>
      simp only [Bool.false_and, Bool.false_eq_true, ↓reduceIte, Split.skip]
      omega
  found X t E _ htok := by
    obtain ⟨B, W, tail, hX, hB, hW, ht, hWt, hw⟩ := words_view blank X
    rw [hw false] at htok ⊢
    cases tail with
    | nil => simp [Split.skip] at htok
    | cons q qs =>
      simp only [Split.found, Option.some.injEq] at htok ⊢
      subst htok
      have hq : blank q.code = true := ht q rfl
      have hWne : W ≠ [] := fun h => by simpa using hWt h
      have hqpos : 0 < q.bytes.length := length_pos_of_mem_pieces (by rw [hX]; simp)
      refine ⟨by omega, ?_⟩
      -- the word and its blank are settled: they are the front of the extension's decoding
      have hX' : pieces X = (B ++ W) ++ q :: qs := by rw [hX, List.append_assoc]
      rw [refWords, pieces_append hX' (valid_of_blank hr hq), List.append_assoc,
        wordsOf_append_of_blank blank hB, wordsOf_word blank hW hWne hq]
      simp [refWords, Nat.add_assoc]
  skip X E _ htok := by
    obtain ⟨B, W, tail, hX, hB, -, -, -, hw⟩ := words_view blank X
    rw [hw false] at htok ⊢
    cases tail with
    | cons q qs => simp [Split.found] at htok
    | nil =>
      simp only [Bool.false_and, Bool.false_eq_true, ↓reduceIte, Split.skip]
      exact refWords_append_of_blank hr (by rw [hX, List.append_nil]) hB E
  final_of_more _ _ _ := trivial
  final_step X hne _ := by
    obtain ⟨B, W, tail, hX, hB, hW, ht, hWt, hw⟩ := words_view blank X
    have hlen := length_eq_span_of_pieces hX
    have hsub : ∀ p ∈ W, p ∈ pieces X := fun p hp => by rw [hX]; simp [hp]
    rw [hw true]
    cases tail with
    | cons q qs =>
      have hq : blank q.code = true := ht q rfl
      have hWne : W ≠ [] := fun h => by simpa using hWt h
      have hWpos := span_pos hWne hsub
      have hqpos : 0 < q.bytes.length := length_pos_of_mem_pieces (by rw [hX]; simp)
      simp only [Split.found, span_cons] at hlen ⊢
      refine ⟨by omega, by omega, trivial, ?_⟩
      -- what is left after the word and its blank decodes to the rest of the pieces
      have hX' : pieces X = (B ++ W ++ [q]) ++ qs := by rw [hX]; simp
      have hrest := pieces_drop_span hX'
      simp only [span_append, span_cons, span_nil, Nat.add_zero] at hrest
      have hflat := flatten_ne_nil_of_span_pos hWpos
      rw [refWords, hX, List.append_assoc, wordsOf_append_of_blank blank hB,
        wordsOf_word blank hW hWne hq, refWords, hrest]
      simp [eofTokens, hflat]
    | nil =>
      simp only [span_nil, Nat.add_zero] at hlen
      by_cases hWe : W = []
      · -- only blanks are left: consumed without a token
        subst hWe
        simp only [span_nil, Nat.add_zero] at hlen
        have hpos : 0 < X.length := List.length_pos_iff.2 hne
        simp only [hlen, Nat.lt_irrefl, decide_false, Bool.and_false, Bool.false_eq_true,
          ↓reduceIte, Split.skip]
        refine ⟨by omega, Nat.le_refl _, trivial, ?_⟩
        rw [← hlen, List.drop_length, refWords, hX, List.append_nil, List.append_nil,
          ← List.append_nil B, wordsOf_append_of_blank blank hB]
        simp [refWords, eofTokens]
      · -- the last word runs to the end of input
        have hWpos := span_pos hWe hsub
        have hflat := flatten_ne_nil_of_span_pos hWpos
        have hlt : span B < X.length := by omega
        simp only [hlt, decide_true, Bool.and_true, ↓reduceIte, Split.found]
        refine ⟨List.length_pos_iff.2 hne, Nat.le_refl _, trivial, ?_⟩
        rw [List.drop_length, refWords, hX, List.append_nil, wordsOf_append_of_blank blank hB,
          wordsOf_last blank hW hWe]
        simp [refWords, eofTokens, hflat]

end Cutting

theorem words_computes (ascii : Bool) :
    (Splitter.words ascii).Computes (words (if ascii then isAsciiBlank else isBlank)) :=
  fun _ _ => rfl

theorem splitOnP_map {α β : Type} (f : α → β) (p : β → Bool) (l : List α) :
    (l.map f).splitOnP p = (l.splitOnP (p ∘ f)).map (List.map f) := by
  induction l with
  | nil => rfl
  | cons x xs ih =>
    rw [List.map_cons, List.splitOnP_cons_eq_if_modifyHead, List.splitOnP_cons_eq_if_modifyHead, ih]
    by_cases hx : p (f x) = true
    · simp [hx]
    · -- the character joins the first run, which `splitOnP` never leaves out
      obtain ⟨r, rs, hr⟩ := List.exists_cons_of_ne_nil (List.splitOnP_ne_nil (p ∘ f) xs)
      simp [hx, hr]

/-- The words of well-formed text, for Unicode blanks, are the encodings of its maximal
non-empty runs of characters that are not blank. -/
theorem refWords_encode (cs : List Char) :
    refWords isBlank (cs.flatMap String.utf8EncodeChar) =
      ((cs.splitOnP fun c => isBlank c.toNat).filter fun w => !w.isEmpty).map
        fun w => w.flatMap String.utf8EncodeChar := by
  rw [refWords, pieces_encode, wordsOf, splitOnP_map, List.filter_map, List.map_map]
  -- each piece is a character, blank as the character is, covering its encoding
  have hblank : ((fun p : Piece => isBlank p.code) ∘
      fun c : Char => Piece.char c.toNat (String.utf8EncodeChar c)) = fun c => isBlank c.toNat :=
    rfl
  have hrun : ((fun run : List Piece => !run.isEmpty) ∘
      List.map fun c : Char => Piece.char c.toNat (String.utf8EncodeChar c)) =
        fun w => !w.isEmpty := by
    funext w
    simp
  rw [hblank, hrun]
  congr 1
  funext w
  simp [List.flatMap, Piece.bytes, Function.comp_def]

/-- **Words under every chunking.** Written in any chunks and flushed, an input gives its words,
for ASCII or Unicode blanks, to a session over `words`; every call succeeds when the bound holds
the whole input, and whenever every call succeeds the tokens are these. On well-formed text the
words for Unicode blanks are the encodings of its maximal runs of characters that are not
blank. -/
theorem scansAs_words (ascii : Bool) (limit : Nat) (chunks : List (List UInt8)) :
    ScansAs (.words ascii) (refWords (if ascii then isAsciiBlank else isBlank)) limit chunks ∧
      ∀ cs : List Char, refWords isBlank (cs.flatMap String.utf8EncodeChar) =
        ((cs.splitOnP fun c => isBlank c.toNat).filter fun w => !w.isEmpty).map
          fun w => w.flatMap String.utf8EncodeChar :=
  ⟨(cuts_words (by cases ascii <;> decide)).scansAs (words_computes ascii) limit chunks,
    refWords_encode⟩

end Plumbing.Scan
