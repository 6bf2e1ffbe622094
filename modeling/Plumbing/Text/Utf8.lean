/-!
# UTF-8 sequences, decoded one character at a time

A character's encoding is announced by its first byte: `width` is 1 for ASCII, 2 for
`C2`–`DF`, 3 for `E0`–`EF`, 4 for `F0`–`F4`, and 0 for a byte that starts no character. A
sequence is well formed when its second byte lies in the range the first byte allows
(`secondRange`: narrower after `E0`, `ED`, `F0` and `F4`, which rules out overlong forms,
surrogates and code points past `10FFFF`) and every later byte is a continuation byte.

`decode?` reads one well-formed character from the front of a byte list. `decodeLossy` reads
one character or, where none is well formed, the replacement character `FFFD` over one byte.
`isComplete` tells a truncated sequence, which more bytes could still complete, from one that is
broken already.
-/

namespace Plumbing.Text.Utf8

/-- The code point substituted for a byte that starts no well-formed character. -/
def replacementChar : Nat := 0xFFFD

/-- The encoding of the replacement character. -/
def replacementBytes : List UInt8 := [0xEF, 0xBF, 0xBD]

/-- The length of the sequence a first byte announces; 0 for a byte that starts none. -/
def width (b : UInt8) : Nat :=
  if b ≤ 0x7F then 1
  else if 0xC2 ≤ b ∧ b ≤ 0xDF then 2
  else if 0xE0 ≤ b ∧ b ≤ 0xEF then 3
  else if 0xF0 ≤ b ∧ b ≤ 0xF4 then 4
  else 0

/-- Continuation bytes are `80`–`BF`. -/
def isCont (b : UInt8) : Bool := 0x80 ≤ b && b ≤ 0xBF

/-- The bounds of the second byte after a first byte of a sequence of two or more. -/
def secondRange (first : UInt8) : UInt8 × UInt8 :=
  if first = 0xE0 then (0xA0, 0xBF)
  else if first = 0xED then (0x80, 0x9F)
  else if first = 0xF0 then (0x90, 0xBF)
  else if first = 0xF4 then (0x80, 0x8F)
  else (0x80, 0xBF)

/-- Whether `b` may follow `first` as the second byte of a sequence. -/
def secondOk (first b : UInt8) : Bool :=
  (secondRange first).1 ≤ b && b ≤ (secondRange first).2

/-- The low six bits of a continuation byte. -/
def payload (b : UInt8) : Nat := b.toNat % 64

/-- The well-formed character at the front of `data`, as its code point and its length. -/
def decode? : List UInt8 → Option (Nat × Nat)
  | [] => none
  | b0 :: rest =>
    match width b0, rest with
    | 1, _ => some (b0.toNat, 1)
    | 2, b1 :: _ =>
      if secondOk b0 b1 then some ((b0.toNat % 32) * 64 + payload b1, 2) else none
    | 3, b1 :: b2 :: _ =>
      if secondOk b0 b1 && isCont b2 then
        some ((b0.toNat % 16) * 4096 + payload b1 * 64 + payload b2, 3)
      else none
    | 4, b1 :: b2 :: b3 :: _ =>
      if secondOk b0 b1 && isCont b2 && isCont b3 then
        some ((b0.toNat % 8) * 262144 + payload b1 * 4096 + payload b2 * 64 + payload b3, 4)
      else none
    | _, _ => none

/-- The character at the front of a non-empty `data`, or the replacement character over one
byte where no well-formed character starts. -/
def decodeLossy (data : List UInt8) : Nat × Nat :=
  (decode? data).getD (replacementChar, 1)

/-- Whether the bytes at the front of `data` can no longer become a well-formed character by
appending: the first byte starts none, or all the bytes it announces are there, or one of the
bytes after it is not a continuation byte. -/
def isComplete : List UInt8 → Bool
  | [] => true
  | b0 :: rest => width b0 == 0 || rest.length + 1 ≥ width b0 || !rest.all isCont

end Plumbing.Text.Utf8
