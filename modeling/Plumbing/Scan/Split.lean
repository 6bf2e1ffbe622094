import Plumbing.Text.Utf8
import Plumbing.Text.Blank

/-!
# Splits and the built-in splitters

A splitter looks at the bytes held so far, and at whether the input has ended, and answers a
`Split`: how many bytes to consume, and the token found there, if any. Consuming nothing and
finding nothing asks for more input.

The built-in splitters:

* `lines`: a token per line, without its line feed and without one carriage return before it;
  at the end of input the last line, if not empty;
* `bytes`: a token per byte;
* `runes`: a token per UTF-8 character; a byte that starts no well-formed character gives the
  replacement character, unless more input could still complete it;
* `words`: a token per run of non-blank characters, decoded lossily; blanks before a word are
  consumed with it, and blanks at the end without a word are consumed alone.
-/

namespace Plumbing.Scan

open Plumbing.Text

/-- A splitter's answer: consume `advance` bytes, and pass `token` on if there is one. -/
structure Split where
  advance : Nat
  token : Option (List UInt8)
  deriving DecidableEq, Repr, Inhabited

namespace Split

/-- Nothing consumed, nothing found: more input is needed. -/
def more : Split := ⟨0, none⟩

/-- Consume `n` bytes without a token. -/
def skip (n : Nat) : Split := ⟨n, none⟩

/-- Consume `n` bytes and pass on the token `t`. -/
def found (n : Nat) (t : List UInt8) : Split := ⟨n, some t⟩

end Split

/-- A line without one trailing carriage return. -/
def dropCr (line : List UInt8) : List UInt8 :=
  if line.getLast? = some 13 then line.dropLast else line

/-- Lines end at a line feed; at the end of input the rest is a last line, when there is one. -/
def lines (data : List UInt8) (atEof : Bool) : Split :=
  if atEof && data.isEmpty then .more
  else
    match data.idxOf? 10 with
    | some i => .found (i + 1) (dropCr (data.take i))
    | none => if atEof then .found data.length (dropCr data) else .more

/-- One token per byte. -/
def bytes (data : List UInt8) (_atEof : Bool) : Split :=
  match data with
  | [] => .more
  | b :: _ => .found 1 [b]

/-- One token per UTF-8 character; the replacement character for a byte that starts no
well-formed character, unless more input could still complete it. -/
def runes (data : List UInt8) (atEof : Bool) : Split :=
  match data with
  | [] => .more
  | b :: _ =>
    if b ≤ 0x7F then .found 1 [b]
    else
      match Utf8.decode? data with
      | some (_, w) => .found w (data.take w)
      | none =>
        if !atEof && !Utf8.isComplete data then .more
        else .found 1 Utf8.replacementBytes

/-- The number of bytes of the leading characters of `data` that satisfy `blank`, decoding
lossily, added to `acc`. -/
def blankPrefix (blank : Nat → Bool) (data : List UInt8) (acc : Nat) : Nat :=
  match data with
  | [] => acc
  | b :: rest =>
    let (c, w) := Utf8.decodeLossy (b :: rest)
    if blank c then blankPrefix blank (rest.drop (w - 1)) (acc + w) else acc
termination_by data.length
decreasing_by simp only [List.length_drop, List.length_cons]; omega

/-- The offset and the width of the first character of `data` that satisfies `blank`, decoding
lossily, counting offsets from `pos`. -/
def firstBlank (blank : Nat → Bool) (data : List UInt8) (pos : Nat) : Option (Nat × Nat) :=
  match data with
  | [] => none
  | b :: rest =>
    let (c, w) := Utf8.decodeLossy (b :: rest)
    if blank c then some (pos, w) else firstBlank blank (rest.drop (w - 1)) (pos + w)
termination_by data.length
decreasing_by simp only [List.length_drop, List.length_cons]; omega

/-- A word is a run of characters that are not `blank`, decoded lossily; the blanks before it
are consumed with it, and the blank after it too. -/
def words (blank : Nat → Bool) (data : List UInt8) (atEof : Bool) : Split :=
  let start := blankPrefix blank data 0
  let body := data.drop start
  match firstBlank blank body start with
  | some (i, w) => .found (i + w) (body.take (i - start))
  | none =>
    if atEof && data.length > start then .found data.length body
    else .skip start

/-- Whether a list has at least `n` elements; looks at no more than `n` of them. -/
def hasAtLeast {α : Type} : Nat → List α → Bool
  | 0, _ => true
  | _ + 1, [] => false
  | n + 1, _ :: xs => hasAtLeast n xs

theorem hasAtLeast_iff {α : Type} (n : Nat) (l : List α) : hasAtLeast n l = true ↔ n ≤ l.length := by
  induction l generalizing n with
  | nil => cases n <;> simp [hasAtLeast]
  | cons x xs ih => cases n <;> simp [hasAtLeast, ih]

end Plumbing.Scan
