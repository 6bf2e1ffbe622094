import Plumbing.Proofs.Text.Lossy

/-!
# Well-formed text decodes to its characters

The encoding of a character is the sequence `decode?` reads back: its first byte announces its
length, the second lies within the bounds the first sets, and the code point is recovered from
the payload bits (`decode?_encode`). So the lossy decoding of the encoding of a list of
characters, which is what well-formed UTF-8 is, has one piece per character, standing for that
character (`pieces_encode`).

The encoder builds each byte as a tag or-ed onto a masked slice of the code point; on natural
numbers this is a sum (`toNat_and_or_tag`), which leaves `omega` the range arithmetic.
-/

namespace Plumbing.Text.Utf8

theorem lor_eq_add {x m : Nat} (hx : x < 2 ^ m) (k : Nat) : x ||| 2 ^ m * k = x + 2 ^ m * k := by
  rw [Nat.or_comm, ← Nat.two_pow_add_eq_or_of_lt hx, Nat.add_comm]

/-- A tag above the mask's bits is added to the masked byte. -/
theorem toNat_and_or_tag (x : UInt8) {mask tag : UInt8} {m t : Nat}
    (hmask : mask.toNat = 2 ^ m - 1) (htag : tag.toNat = 2 ^ m * t) : (x &&& mask ||| tag).toNat = x.toNat % 2 ^ m + 2 ^ m * t := by
  rw [UInt8.toNat_or, UInt8.toNat_and, hmask, htag, Nat.and_two_pow_sub_one_eq_mod,
    lor_eq_add (Nat.mod_lt _ (Nat.two_pow_pos m))]

theorem toNat_shifted (v s : UInt32) (hs : s.toNat < 32) :
    (v >>> s).toUInt8.toNat = v.toNat / 2 ^ s.toNat % 256 := by
  rw [UInt32.toNat_toUInt8, UInt32.toNat_shiftRight, Nat.mod_eq_of_lt hs, Nat.shiftRight_eq_div_pow]

theorem toNat_cont_low (v : UInt32) : (v.toUInt8 &&& 63 ||| 128).toNat = v.toNat % 64 + 128 := by
  rw [toNat_and_or_tag _ (m := 6) (t := 2) rfl rfl, UInt32.toNat_toUInt8]
  omega

theorem toNat_cont_shifted (v s : UInt32) (hs : s.toNat < 32) :
    ((v >>> s).toUInt8 &&& 63 ||| 128).toNat = v.toNat / 2 ^ s.toNat % 64 + 128 := by
  rw [toNat_and_or_tag _ (m := 6) (t := 2) rfl rfl, toNat_shifted _ _ hs]
  omega

theorem secondOk_of_toNat {b0 b1 : UInt8} (h : 0x80 ≤ b1.toNat ∧ b1.toNat ≤ 0xBF)
    (hE0 : b0.toNat = 0xE0 → 0xA0 ≤ b1.toNat) (hED : b0.toNat = 0xED → b1.toNat ≤ 0x9F)
    (hF0 : b0.toNat = 0xF0 → 0x90 ≤ b1.toNat) (hF4 : b0.toNat = 0xF4 → b1.toNat ≤ 0x8F) :
    secondOk b0 b1 = true := by
  simp only [secondOk, secondRange, Bool.and_eq_true, decide_eq_true_eq, UInt8.le_iff_toNat_le]
  repeat' split
  all_goals (subst_vars; simp only [UInt8.reduceToNat, forall_const] at *; omega)

theorem isCont_of_toNat {b : UInt8} (h : 0x80 ≤ b.toNat ∧ b.toNat ≤ 0xBF) : isCont b = true := by
  simp only [isCont, Bool.and_eq_true, decide_eq_true_eq, UInt8.le_iff_toNat_le, UInt8.reduceToNat]
  exact h

theorem decode?_encode_one {c : Char} (h : c.utf8Size = 1) (E : List UInt8) :
    decode? (String.utf8EncodeChar c ++ E) = some (c.val.toNat, 1) := by
  have hc : c.val.toNat ≤ 127 := by
    simpa only [UInt32.le_iff_toNat_le, UInt32.reduceToNat] using Char.utf8Size_eq_one_iff.1 h
  have e0 : c.val.toUInt8.toNat = c.val.toNat := by
    rw [UInt32.toNat_toUInt8]
    omega
  rw [String.utf8EncodeChar_eq_singleton h, List.singleton_append,
    decode?_ascii (by simp only [UInt8.le_iff_toNat_le, e0, UInt8.reduceToNat]; exact hc), e0]

theorem decode?_encode_two {c : Char} (h : c.utf8Size = 2) (E : List UInt8) :
    decode? (String.utf8EncodeChar c ++ E) = some (c.val.toNat, 2) := by
  obtain ⟨hlo, hhi⟩ := Char.utf8Size_eq_two_iff.1 h
  simp only [UInt32.lt_iff_toNat_lt, UInt32.le_iff_toNat_le, UInt32.reduceToNat] at hlo hhi
  have e0 : ((c.val >>> 6).toUInt8 &&& 31 ||| 192).toNat = c.val.toNat / 64 + 192 := by
    rw [toNat_and_or_tag _ (m := 5) (t := 6) rfl rfl, toNat_shifted _ 6 (by decide)]
    simp only [UInt32.reduceToNat]
    omega
  have e1 := toNat_cont_low c.val
  rw [String.utf8EncodeChar_eq_cons_cons h]
  generalize (c.val >>> 6).toUInt8 &&& 31 ||| 192 = b0 at e0 ⊢
  generalize c.val.toUInt8 &&& 63 ||| 128 = b1 at e1 ⊢
  have hw : width b0 = 2 := by
    simp only [width, UInt8.le_iff_toNat_le, e0, UInt8.reduceToNat]
    repeat' split
    all_goals omega
  have hs : secondOk b0 b1 = true :=
    secondOk_of_toNat (by omega) (by omega) (by omega) (by omega) (by omega)
  simp only [List.cons_append, decode?, hw, hs, ↓reduceIte, payload, e0, e1, Option.some.injEq,
    Prod.mk.injEq, and_true]
  omega

theorem decode?_encode_three {c : Char} (h : c.utf8Size = 3) (E : List UInt8) :
    decode? (String.utf8EncodeChar c ++ E) = some (c.val.toNat, 3) := by
  obtain ⟨hlo, hhi⟩ := Char.utf8Size_eq_three_iff.1 h
  simp only [UInt32.lt_iff_toNat_lt, UInt32.le_iff_toNat_le, UInt32.reduceToNat] at hlo hhi
  -- no surrogate: after `ED` the second byte stays below `A0`
  have hv : c.val.toNat < 55296 ∨ 57343 < c.val.toNat := by
    rcases c.valid with hv | hv
    · exact .inl hv
    · exact .inr hv.1
  have e0 : ((c.val >>> 12).toUInt8 &&& 15 ||| 224).toNat = c.val.toNat / 4096 + 224 := by
    rw [toNat_and_or_tag _ (m := 4) (t := 14) rfl rfl, toNat_shifted _ 12 (by decide)]
    simp only [UInt32.reduceToNat]
    omega
  have e1 := toNat_cont_shifted c.val 6 (by decide)
  have e2 := toNat_cont_low c.val
  simp only [UInt32.reduceToNat] at e1
  rw [String.utf8EncodeChar_eq_cons_cons_cons h]
  generalize (c.val >>> 12).toUInt8 &&& 15 ||| 224 = b0 at e0 ⊢
  generalize (c.val >>> 6).toUInt8 &&& 63 ||| 128 = b1 at e1 ⊢
  generalize c.val.toUInt8 &&& 63 ||| 128 = b2 at e2 ⊢
  have hw : width b0 = 3 := by
    simp only [width, UInt8.le_iff_toNat_le, e0, UInt8.reduceToNat]
    repeat' split
    all_goals omega
  have hs : secondOk b0 b1 = true :=
    secondOk_of_toNat (by omega) (by omega) (by omega) (by omega) (by omega)
  have hc : isCont b2 = true := isCont_of_toNat (by omega)
  simp only [List.cons_append, decode?, hw, hs, hc, Bool.and_self, ↓reduceIte, payload, e0, e1,
    e2, Option.some.injEq, Prod.mk.injEq, and_true]
  omega

theorem decode?_encode_four {c : Char} (h : c.utf8Size = 4) (E : List UInt8) :
    decode? (String.utf8EncodeChar c ++ E) = some (c.val.toNat, 4) := by
  have hlo := Char.utf8Size_eq_four_iff.1 h
  simp only [UInt32.lt_iff_toNat_lt, UInt32.reduceToNat] at hlo
  -- at most `10FFFF`: after `F4` the second byte stays below `90`
  have hv : c.val.toNat < 1114112 := by
    rcases c.valid with hv | hv
    · omega
    · exact hv.2
  have e0 : ((c.val >>> 18).toUInt8 &&& 7 ||| 240).toNat = c.val.toNat / 262144 + 240 := by
    rw [toNat_and_or_tag _ (m := 3) (t := 30) rfl rfl, toNat_shifted _ 18 (by decide)]
    simp only [UInt32.reduceToNat]
    omega
  have e1 := toNat_cont_shifted c.val 12 (by decide)
  have e2 := toNat_cont_shifted c.val 6 (by decide)
  have e3 := toNat_cont_low c.val
  simp only [UInt32.reduceToNat] at e1 e2
  rw [String.utf8EncodeChar_eq_cons_cons_cons_cons h]
  generalize (c.val >>> 18).toUInt8 &&& 7 ||| 240 = b0 at e0 ⊢
  generalize (c.val >>> 12).toUInt8 &&& 63 ||| 128 = b1 at e1 ⊢
  generalize (c.val >>> 6).toUInt8 &&& 63 ||| 128 = b2 at e2 ⊢
  generalize c.val.toUInt8 &&& 63 ||| 128 = b3 at e3 ⊢
  have hw : width b0 = 4 := by
    simp only [width, UInt8.le_iff_toNat_le, e0, UInt8.reduceToNat]
    repeat' split
    all_goals omega
  have hs : secondOk b0 b1 = true :=
    secondOk_of_toNat (by omega) (by omega) (by omega) (by omega) (by omega)
  have hc2 : isCont b2 = true := isCont_of_toNat (by omega)
  have hc3 : isCont b3 = true := isCont_of_toNat (by omega)
  simp only [List.cons_append, decode?, hw, hs, hc2, hc3, Bool.and_self, ↓reduceIte, payload, e0,
    e1, e2, e3, Option.some.injEq, Prod.mk.injEq, and_true]
  omega

/-- A character's encoding decodes to the character, whatever follows. -/
theorem decode?_encode (c : Char) (E : List UInt8) :
    decode? (String.utf8EncodeChar c ++ E) = some (c.toNat, c.utf8Size) := by
  obtain h | h | h | h : c.utf8Size = 1 ∨ c.utf8Size = 2 ∨ c.utf8Size = 3 ∨ c.utf8Size = 4 := by
    have := Char.utf8Size_pos c
    have := Char.utf8Size_le_four c
    omega
  · rw [decode?_encode_one h, h, Char.toNat_val]
  · rw [decode?_encode_two h, h, Char.toNat_val]
  · rw [decode?_encode_three h, h, Char.toNat_val]
  · rw [decode?_encode_four h, h, Char.toNat_val]

/-- A character's encoding is one piece, whatever follows. -/
theorem pieces_encode_append (c : Char) (E : List UInt8) :
    pieces (String.utf8EncodeChar c ++ E) = .char c.toNat (String.utf8EncodeChar c) :: pieces E := by
  obtain ⟨b, rest, hbr⟩ := List.exists_cons_of_ne_nil (String.utf8EncodeChar_ne_nil (c := c))
  have hd := decode?_encode c E
  have hlen : (String.utf8EncodeChar c).length = c.utf8Size := String.length_utf8EncodeChar c
  rw [hbr, List.cons_append] at hd ⊢
  have hfirst : firstPiece b (rest ++ E) = .char c.toNat (b :: rest) := by
    rw [firstPiece, hd, ← List.cons_append, ← hlen, hbr]
    dsimp only
    rw [List.take_left]
  rw [pieces_cons, hfirst, Piece.bytes, ← List.cons_append, List.drop_left]

/-- Valid UTF-8, the encoding of a list of characters, decodes to these characters. -/
theorem pieces_encode (cs : List Char) :
    pieces (cs.flatMap String.utf8EncodeChar) =
      cs.map fun c => .char c.toNat (String.utf8EncodeChar c) := by
  induction cs with
  | nil => simp
  | cons c cs ih => rw [List.flatMap_cons, pieces_encode_append, ih, List.map_cons]

end Plumbing.Text.Utf8
