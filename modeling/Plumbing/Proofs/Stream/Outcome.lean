import Plumbing.Stream.Source

/-!
# What a scripted source delivers

A source delivers the bytes of its data chunks up to its first end: the end of data, a failure,
or the last chunk. Interruptions, failures of kind interrupted (which reads retry) and pauses
deliver nothing and end nothing. `Source.outcome` is that reading of the script: the bytes
before the end, and the failure that ends it, if one does.

Every read of a source agrees with it (`outcome_read`): bytes read are the first bytes of the
outcome, and a read that finds the end or a failure finds the outcome's end.
-/

namespace Plumbing.Stream

namespace Source

/-- The bytes a source delivers before its first end, and the failure that ends it, if one
does. -/
def outcome : Source → List UInt8 × Option IoError
  | [] => ([], none)
  | .data b :: rest => (b ++ (outcome rest).1, (outcome rest).2)
  | .interrupt :: rest => outcome rest
  | .fail e :: rest => if e.kind = .interrupted then outcome rest else ([], some e)
  | .eof :: _ => ([], none)
  | .pause :: rest => outcome rest

end Source

/-- What the outcome of a source is, given what one read of it yielded and the outcome of the
source after that read. -/
def Yield.outcomeBefore : Yield → List UInt8 × Option IoError → List UInt8 × Option IoError
  | .bytes b, o => (b ++ o.1, o.2)
  | .done, _ => ([], none)
  | .failed e, _ => ([], some e)
  | .interrupted, o | .paused, o => o

namespace Source

/-- A read delivers the first bytes of the outcome, or finds its end. -/
theorem outcome_read (n : Nat) (src : Source) :
    outcome src = (read n src).1.outcomeBefore (outcome (read n src).2) := by
  induction src with
  | nil => rfl
  | cons c rest ih =>
    cases c with
    | data bs =>
      cases bs with
      | nil => simpa [read, outcome] using ih
      | cons b bs =>
        simp only [read]
        split
        · simp only [outcome, Yield.outcomeBefore]
          rw [← List.append_assoc, List.take_append_drop, List.cons_append]
        · rename_i hge
          rw [List.take_of_length_le (by simp only [List.length_cons]; omega)]
          rfl
    | interrupt => rfl
    | fail e =>
      simp only [read, outcome]
      split <;> rfl
    | eof => rfl
    | pause => rfl

end Source

end Plumbing.Stream
