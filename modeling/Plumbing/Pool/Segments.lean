import Plumbing.Refusal

/-!
# Segment pools

A `SegmentPool` keeps buffers of one size for reuse. `claim` hands out a buffer of exactly the
pool's size, taking the most recently kept one when there is one and a fresh one otherwise;
`collect` takes a buffer back, keeping it only when its capacity fits the pool's size (between
the size and twice the size) and the pool keeps fewer than its limit. A kept buffer is cleared,
so a claimed buffer always reads as zeros.

Buffers are described by their length, capacity and whether every byte is zero, which is all a
pool looks at; the buffers handed out are `Held` under increasing ids.
-/

namespace Plumbing.Pool

/-- The bytes a pool keeps by default, divided into its buffers. -/
def retainedBytes : Nat := 16 * 1024 * 1024

/-- A buffer: its length, capacity, and whether its bytes are all zero. -/
structure Buffer where
  len : Nat
  capacity : Nat
  zeroed : Bool
  deriving DecidableEq, Repr

/-- The capacity of a buffer made with room for `cap` bytes and then filled to `len` bytes:
filling reserves exactly what is missing. -/
def grownCapacity (cap len : Nat) : Nat := max cap len

/-- A pool of buffers of one size. -/
structure SegmentPool where
  size : Nat
  limit : Nat
  /-- The kept buffers' capacities, most recent last. -/
  kept : List Nat
  deriving DecidableEq, Repr

namespace SegmentPool

/-- A pool of buffers of `size` bytes (at least 1), keeping at most `limit` of them. -/
def withLimit (size limit : Nat) : SegmentPool := ⟨max size 1, limit, []⟩

/-- A pool of buffers of `size` bytes (at least 1), keeping 16 MiB worth of them, and at least
one. -/
def new (size : Nat) : SegmentPool :=
  let size := max size 1
  withLimit size (max (retainedBytes / size) 1)

/-- The number of buffers kept. -/
def count (p : SegmentPool) : Nat := p.kept.length

/-- Claims a buffer of the pool's size, reusing the last one kept if there is one. -/
def claim (p : SegmentPool) : Buffer × SegmentPool :=
  match p.kept.getLast? with
  | some cap => (⟨p.size, grownCapacity cap p.size, true⟩, { p with kept := p.kept.dropLast })
  | none => (⟨p.size, p.size, true⟩, p)

/-- Whether a buffer of capacity `cap` fits the pool. -/
def fits (p : SegmentPool) (cap : Nat) : Bool := p.size ≤ cap && cap ≤ 2 * p.size

/-- Takes a buffer back; it is kept when it fits and the pool keeps fewer than its limit. -/
def collect (p : SegmentPool) (b : Buffer) : SegmentPool :=
  if p.fits b.capacity && p.count < p.limit then { p with kept := p.kept ++ [b.capacity] } else p

/-- Drops every buffer kept. -/
def shed (p : SegmentPool) : SegmentPool := { p with kept := [] }

end SegmentPool

/-- A pool with the buffers it handed out, by id. -/
structure Held where
  pool : SegmentPool
  buffers : List (Nat × Buffer)
  nextId : Nat
  deriving DecidableEq, Repr

/-- A step on a pool. -/
inductive Step
  | claim
  | fill (id : Nat) (byte : UInt8)
  | truncate (id len : Nat)
  | collect (id : Nat)
  /-- Collects a fresh buffer of `len` bytes made with room for `capacity` bytes. -/
  | collectNew (len capacity : Nat)
  | count
  | isEmpty
  | shed
  | info
  deriving DecidableEq, Repr

/-- What a step answers. -/
inductive Outcome
  | claimed (id len : Nat) (zeroed : Bool)
  | unit
  | count (n : Nat)
  | flag (b : Bool)
  | info (limit size : Nat)
  | refused (r : Refusal)
  deriving DecidableEq, Repr

namespace Held

/-- Changes held buffer `id`, refusing an id not held. -/
def change (h : Held) (id : Nat) (f : Buffer → Buffer) : Outcome × Held :=
  match h.buffers.lookup id with
  | some _ =>
    (.unit, { h with buffers := h.buffers.map fun (i, b) => if i = id then (i, f b) else (i, b) })
  | none => (.refused .noSuchSegment, h)

/-- Runs one step. -/
def step (h : Held) : Step → Outcome × Held
  | .claim =>
    let (b, p) := h.pool.claim
    (.claimed h.nextId b.len b.zeroed,
      { h with pool := p, buffers := h.buffers ++ [(h.nextId, b)], nextId := h.nextId + 1 })
  | .fill id byte => h.change id fun b => { b with zeroed := b.len = 0 || byte = 0 }
  | .truncate id n => h.change id fun b => { b with len := min b.len n }
  | .collect id =>
    match h.buffers.lookup id with
    | some b =>
      (.unit, { h with pool := h.pool.collect b, buffers := h.buffers.filter fun (i, _) => i ≠ id })
    | none => (.refused .noSuchSegment, h)
  | .collectNew len cap =>
    (.unit, { h with pool := h.pool.collect ⟨len, grownCapacity cap len, true⟩ })
  | .count => (.count h.pool.count, h)
  | .isEmpty => (.flag (h.pool.count == 0), h)
  | .shed => (.unit, { h with pool := h.pool.shed })
  | .info => (.info h.pool.limit h.pool.size, h)

/-- Runs the steps in order. -/
def runSteps (h : Held) : List Step → List Outcome
  | [] => []
  | st :: rest =>
    let (o, h) := h.step st
    o :: runSteps h rest

end Held

/-- Runs steps on a fresh pool. -/
def runScript (pool : SegmentPool) (steps : List Step) : List Outcome :=
  Held.runSteps ⟨pool, [], 0⟩ steps

end Plumbing.Pool
