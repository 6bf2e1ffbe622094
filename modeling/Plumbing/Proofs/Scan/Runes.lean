import Plumbing.Proofs.Scan.Chunking
import Plumbing.Proofs.Text.Encode

/-!
# Runes under every chunking

The runes of an input are the pieces of its lossy decoding, read left to right: a well-formed
character is its bytes, and a byte that starts none is the replacement character, `EF BF BD`,
which consumes that one byte (`refRunes`).

The `runes` splitter passes on the first piece of what it holds, unless that piece is not
settled yet: a byte that starts no character, followed by continuation bytes that more input
could still complete (`runes_settled`, `runes_unsettled`). A settled piece is the first piece
of every extension of what is held (`pieces_cons_append`), so `runes` cuts as `refRunes`
(`cuts_runes`), and a session over `runes` receives the runes of its input however the input is
cut into writes (`scansAs_runes`). On well-formed text the runes are its characters
(`refRunes_encode`).
-/

namespace Plumbing.Scan

open Plumbing.Text Plumbing.Text.Utf8

/-- The runes of `D`: the characters of its lossy decoding, each as its encoding. -/
def refRunes (D : List UInt8) : List (List UInt8) := (pieces D).map Piece.rune

theorem firstPiece_rune_ne_nil (b : UInt8) (rest : List UInt8) : (firstPiece b rest).rune ≠ [] := by
  unfold firstPiece
  cases h : decode? (b :: rest) with
  | none => simp [Piece.rune, replacementBytes]
  | some cw =>
    have hw := (decode?_width h).1
    simp only [Piece.rune, ne_eq, List.take_eq_nil_iff, List.cons_ne_nil, or_false]
    omega

theorem firstPiece_of_decode?_none {b : UInt8} {rest : List UInt8} (h : decode? (b :: rest) = none) :
    firstPiece b rest = .invalid b := by
  simp [firstPiece, h]

/-- A settled first piece is passed on, before the end of input or at it. -/
theorem runes_settled {b : UInt8} {rest : List UInt8}
    (h : decode? (b :: rest) ≠ none ∨ isComplete (b :: rest) = true) (atEof : Bool) :
    runes (b :: rest) atEof = .found (firstPiece b rest).bytes.length (firstPiece b rest).rune := by
  by_cases hb : b ≤ 0x7F
  · simp [runes, hb, firstPiece, decode?_ascii hb, Piece.bytes, Piece.rune]
  · cases hd : decode? (b :: rest) with
    | some cw =>
      obtain ⟨c, w⟩ := cw
      have hw := decode?_width hd
      simp only [List.length_cons] at hw
      simp [runes, hb, hd, firstPiece, Piece.bytes, Piece.rune, Nat.min_eq_left hw.2]
    | none =>
      have hc : isComplete (b :: rest) = true := h.resolve_left (by simp [hd])
      simp [runes, hb, hd, hc, firstPiece, Piece.bytes, Piece.rune]

/-- An unsettled first piece: before the end of input `runes` asks for more, at the end it is
the replacement character. -/
theorem runes_unsettled {b : UInt8} {rest : List UInt8} (hn : decode? (b :: rest) = none)
    (hc : isComplete (b :: rest) = false) :
    runes (b :: rest) false = .more ∧
      runes (b :: rest) true =
        .found (firstPiece b rest).bytes.length (firstPiece b rest).rune := by
  have hb : ¬ b ≤ 0x7F := fun hb => by simp [decode?_ascii hb] at hn
  rw [firstPiece_of_decode?_none hn]
  exact ⟨by simp [runes, hb, hn, hc], by simp [runes, hb, hn, Piece.bytes, Piece.rune]⟩

/-- Before the end of input `runes` passes a settled first piece on, or asks for more. -/
theorem runes_cases (b : UInt8) (rest : List UInt8) :
    ((decode? (b :: rest) ≠ none ∨ isComplete (b :: rest) = true) ∧
        runes (b :: rest) false =
          .found (firstPiece b rest).bytes.length (firstPiece b rest).rune) ∨
      runes (b :: rest) false = .more := by
  by_cases h : decode? (b :: rest) ≠ none ∨ isComplete (b :: rest) = true
  · exact .inl ⟨h, runes_settled h false⟩
  · simp only [not_or, ne_eq, Decidable.not_not, Bool.not_eq_true] at h
    exact .inr (runes_unsettled h.1 h.2).1

theorem runes_eof (b : UInt8) (rest : List UInt8) :
    runes (b :: rest) true = .found (firstPiece b rest).bytes.length (firstPiece b rest).rune := by
  by_cases h : decode? (b :: rest) ≠ none ∨ isComplete (b :: rest) = true
  · exact runes_settled h true
  · simp only [not_or, ne_eq, Decidable.not_not, Bool.not_eq_true] at h
    exact (runes_unsettled h.1 h.2).2

theorem runes_computes : Splitter.runes.Computes runes := fun _ _ => rfl

/-- `runes` cuts as `refRunes`; at the end of input it takes any rest. -/
theorem cuts_runes : Cuts runes refRunes (fun _ => True) where
  ref_nil := by simp [refRunes]
  advance_le X hne := by
    obtain ⟨b, rest, rfl⟩ := List.exists_cons_of_ne_nil hne
    rcases runes_cases b rest with ⟨-, hr⟩ | hr
    · rw [hr]
      exact firstPiece_length_le b rest
    · simp [hr, Split.more]
  found X t E hne ht := by
    obtain ⟨b, rest, rfl⟩ := List.exists_cons_of_ne_nil hne
    rcases runes_cases b rest with ⟨h, hr⟩ | hr
    · simp only [hr, Split.found, Option.some.injEq] at ht ⊢
      subst ht
      -- the settled piece is the first piece of the extension too
      refine ⟨firstPiece_length_pos b rest, ?_⟩
      rw [refRunes, pieces_cons_append h, List.map_cons, refRunes]
    · simp [hr, Split.more] at ht
  skip X E hne ht := by
    obtain ⟨b, rest, rfl⟩ := List.exists_cons_of_ne_nil hne
    rcases runes_cases b rest with ⟨-, hr⟩ | hr
    · simp [hr, Split.found] at ht
    · simp [hr, Split.more]
  final_of_more _ _ _ := trivial
  final_step X hne _ := by
    obtain ⟨b, rest, rfl⟩ := List.exists_cons_of_ne_nil hne
    simp only [runes_eof, Split.found]
    refine ⟨firstPiece_length_pos b rest, firstPiece_length_le b rest, trivial, ?_⟩
    simp [refRunes, pieces_cons b rest, eofTokens, firstPiece_rune_ne_nil]

/-- The runes of well-formed text are the encodings of its characters. -/
theorem refRunes_encode (cs : List Char) :
    refRunes (cs.flatMap String.utf8EncodeChar) = cs.map String.utf8EncodeChar := by
  rw [refRunes, pieces_encode, List.map_map]
  rfl

/-- **Runes under every chunking.** Written in any chunks and flushed, an input gives its runes
to a session over `runes`; every call succeeds when the bound holds the whole input, and
whenever every call succeeds the tokens are these. On well-formed text they are its characters. -/
theorem scansAs_runes (limit : Nat) (chunks : List (List UInt8)) :
    ScansAs .runes refRunes limit chunks ∧
      ∀ cs : List Char, refRunes (cs.flatMap String.utf8EncodeChar) = cs.map String.utf8EncodeChar :=
  ⟨cuts_runes.scansAs runes_computes limit chunks, refRunes_encode⟩

end Plumbing.Scan
