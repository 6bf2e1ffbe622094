import Plumbing.Error

/-!
# Scripted sinks

A fan-out writer is exercised through sinks whose behaviour is set in advance by a `SinkPlan`.
A sink receives data items, numbered from 0 in the order they arrive, and keeps what it
accepted together with counts of its calls.

* `Sink.deliver` writes one item with a single call, retrying a call that was interrupted:
  an item listed in `interrupts` is interrupted once before it is written. At item `failAt`
  the sink panics, fails with its planned io failure, or accepts only `short` bytes of a longer
  item, in that order of precedence.
* `Sink.close` closes the sink, counting the call even when it fails or panics. A sink wrapped
  as a plain writer (`wrapped`) closes by flushing the writer it holds and letting it go, so its
  close counts a flush, and a second close does nothing.
-/

namespace Plumbing.Fanout

/-- How a scripted sink behaves. -/
structure SinkPlan where
  /-- The number of the item at which the sink misbehaves. -/
  failAt : Option Nat
  /-- Whether the sink panics at that item. -/
  panics : Bool
  /-- The io failure the sink answers at that item. -/
  failure : Option IoError
  /-- How many bytes of that item the sink accepts, when fewer than the item holds. -/
  short : Option Nat
  /-- The items whose first write is interrupted. -/
  interrupts : List Nat
  /-- The message a failing close answers with. -/
  closeFailure : Option String
  /-- Whether closing panics. -/
  closePanics : Bool
  /-- Whether the sink is a plain writer, closed by a flush. -/
  wrapped : Bool
  deriving DecidableEq, Repr

/-- A well-behaved sink. -/
def SinkPlan.plain : SinkPlan := ⟨none, false, none, none, [], none, false, false⟩

/-- What a sink did with an item or a close. -/
inductive Delivery
  | done
  | failed (e : Error)
  | panicked
  deriving DecidableEq, Repr

/-- A scripted sink and what it received. -/
structure Sink where
  plan : SinkPlan
  /-- The bytes accepted, in order. -/
  data : List UInt8
  /-- The items received so far. -/
  items : Nat
  writeCalls : Nat
  closes : Nat
  flushes : Nat
  /-- Whether a wrapped sink let go of its writer. -/
  released : Bool
  deriving DecidableEq, Repr

namespace Sink

/-- A sink that has received nothing. -/
def new (plan : SinkPlan) : Sink := ⟨plan, [], 0, 0, 0, 0, false⟩

/-- Writes one item with a single call, after the retried interrupted call if the item has
one. -/
def deliver (s : Sink) (item : List UInt8) : Delivery × Sink :=
  let k := s.items
  let calls := if k ∈ s.plan.interrupts then 2 else 1
  let s := { s with items := k + 1, writeCalls := s.writeCalls + calls }
  let accept (n : Nat) : Sink := { s with data := s.data ++ item.take n }
  if s.plan.failAt = some k then
    if s.plan.panics then (.panicked, s)
    else match s.plan.failure, s.plan.short with
      | some e, _ => (.failed (Error.io .write e), s)
      | none, some n =>
        if n < item.length then (.failed (Error.shortWrite n item.length), accept n)
        else (.done, accept item.length)
      | none, none => (.done, accept item.length)
  else (.done, accept item.length)

/-- Closes the sink. -/
def close (s : Sink) : Delivery × Sink :=
  if s.plan.wrapped && s.released then (.done, s)
  else
    let s := { s with closes := s.closes + 1, released := true,
                      flushes := if s.plan.wrapped then s.flushes + 1 else s.flushes }
    if s.plan.closePanics then (.panicked, s)
    else match s.plan.closeFailure with
      | some m => (.failed (Error.io .close ⟨.other, some m⟩), s)
      | none => (.done, s)

end Sink

end Plumbing.Fanout
