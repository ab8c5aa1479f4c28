import Mathlib.Data.List.Basic

/-! `ScratchPool` of `src/memory/pool.cpp` with its fields of type `int64_t`, where sums
wrap, and what of its memory is in use along a sequence of calls. A pointer is its distance
from `base_`. -/

namespace JLLM

structure ScratchPool64 where
  capacity : Int64
  offset : Int64
deriving DecidableEq, Repr

namespace ScratchPool64

/-- The pool that `init` leaves. -/
def init (sizeBytes : Int64) : ScratchPool64 := ⟨sizeBytes, 0⟩

def get (s : ScratchPool64) (size : Int64) : Option Int64 × ScratchPool64 :=
  let size := (size + 255) &&& ~~~255
  if s.capacity < s.offset + size then (none, s)
  else (some s.offset, { s with offset := s.offset + size })

def reset (s : ScratchPool64) : ScratchPool64 := { s with offset := 0 }

def mark (s : ScratchPool64) : Int64 := s.offset

def rewindTo (s : ScratchPool64) (savedOffset : Int64) : ScratchPool64 :=
  if savedOffset < 0 ∨ s.capacity < savedOffset then s else { s with offset := savedOffset }

def used (s : ScratchPool64) : Int64 := s.offset

end ScratchPool64

/-- A block that `get` returned: where it starts, the size asked for, and the cursor
behind it. -/
structure ScratchBlock where
  place : Int64
  requested : Int64
  stop : Int64
deriving DecidableEq, Repr

/-- A pool with the blocks in use, the oldest first, and the marks that can be rewound to,
the newest first, each with the number of blocks in use when it was set. -/
structure ScratchRun where
  pool : ScratchPool64
  live : List ScratchBlock
  marks : List (Int64 × ℕ)
deriving DecidableEq, Repr

inductive ScratchOp where
  | get (size : Int64)
  | mark
  /-- Rewind to the mark at this place among those that can be rewound to. -/
  | rewindTo (k : ℕ)
  | rewindOutside (saved : Int64)
  | reset
deriving DecidableEq, Repr

/-- A call and what it does to the blocks in use: a rewind gives up the blocks since its
mark and forgets the marks since then, a reset gives up all. A negative size, a mark that
is not there and an offset inside the pool are no calls of these kinds. -/
def scratchStep (s : ScratchRun) : ScratchOp → Option ScratchRun
  | .get size =>
      if size < 0 then none
      else
        let got := s.pool.get size
        match got.1 with
        | none => some { s with pool := got.2 }
        | some place =>
            some { s with pool := got.2, live := s.live ++ [⟨place, size, got.2.used⟩] }
  | .mark => some { s with marks := (s.pool.mark, s.live.length) :: s.marks }
  | .rewindTo k =>
      match s.marks.drop k with
      | [] => none
      | (saved, n) :: older => some ⟨s.pool.rewindTo saved, s.live.take n, (saved, n) :: older⟩
  | .rewindOutside saved =>
      if saved < 0 ∨ s.pool.capacity < saved then some { s with pool := s.pool.rewindTo saved }
      else none
  | .reset => some ⟨s.pool.reset, [], []⟩

def ScratchRun.init (sizeBytes : Int64) : ScratchRun := ⟨.init sizeBytes, [], []⟩

end JLLM
