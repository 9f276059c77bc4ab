import MythicSequencer.Basic
import Mathlib.Logic.Equiv.Basic

/-!
# The fee priority queue

`fd_sequencer_txn_queue_push`, `_pop`, `_peek` and `_cnt` of `fd_sequencer.h`, as the code
computes them.

The queue functions read and write three fields of the tile and nothing else, so those three are
a record of their own here, `TxnQueue`; `Tile` holds one. `tx_queue` is the array of
`tx_queue_cap` entries that `unprivileged_init` lays out in scratch memory, a total map from
indices to entries of which only `[0, tx_queue_cap)` may be touched. Every access goes through
`load` and `store`, which answer `none` outside that range.

## The two loops

The sift-up `while` loop and the sift-down `for(;;)` loop are structurally recursive on a fuel
argument, and answer `none` when the fuel runs out. The callers pass the bound the code
guarantees: sift-up moves `idx` strictly towards 0, so `idx` rounds suffice; sift-down moves
`idx` strictly upwards and stays below `tx_queue_cnt`, so `tx_queue_cnt` rounds suffice. That the
fuel never runs out is proved, not assumed: for heaps in `MythicSequencer.Heap`, for every array
in `MythicSequencer.Termination`.
-/

namespace FdSequencer

/-- The queue fields of `fd_sequencer_tile_t`: `tx_queue`, `tx_queue_cnt`, `tx_queue_cap`. -/
structure TxnQueue where
  txQueue : Nat → Txn
  txQueueCnt : Nat
  txQueueCap : Nat

namespace TxnQueue

variable (q : TxnQueue)

/-- Read `tx_queue[ i ]`; out of range is a fault. -/
def load (i : Nat) : Option Txn := if i < q.txQueueCap then some (q.txQueue i) else none

/-- Write `tx_queue[ i ]`; out of range is a fault. -/
def store (i : Nat) (t : Txn) : Option TxnQueue :=
  if i < q.txQueueCap then some { q with txQueue := fun k => if k = i then t else q.txQueue k }
  else none

/-- The three `fd_memcpy` calls through `tmp` that exchange `tx_queue[ i ]` and `tx_queue[ j ]`. -/
def swap (i j : Nat) : Option TxnQueue := do
  let tmp ← q.load i
  let y ← q.load j
  let q ← q.store i y
  q.store j tmp

/-- `tx_queue` with the entries at `i` and `j` exchanged: what `swap` leaves when in range. -/
def swapped (i j : Nat) : TxnQueue :=
  { q with txQueue := fun k => if k = j then q.txQueue i else if k = i then q.txQueue j else q.txQueue k }

variable {q}

theorem load_of_lt {i : Nat} (h : i < q.txQueueCap) : q.load i = some (q.txQueue i) := if_pos h

theorem store_of_lt {i : Nat} (t : Txn) (h : i < q.txQueueCap) :
    q.store i t = some { q with txQueue := fun k => if k = i then t else q.txQueue k } := if_pos h

theorem swap_of_lt {i j : Nat} (hi : i < q.txQueueCap) (hj : j < q.txQueueCap) :
    q.swap i j = some (q.swapped i j) := by
  simp [swap, load_of_lt hi, load_of_lt hj, store, hi, hj, swapped]

@[simp] theorem swapped_txQueueCnt (i j : Nat) : (q.swapped i j).txQueueCnt = q.txQueueCnt := rfl

@[simp] theorem swapped_txQueueCap (i j : Nat) : (q.swapped i j).txQueueCap = q.txQueueCap := rfl

theorem swapped_apply (i j k : Nat) :
    (q.swapped i j).txQueue k = q.txQueue (Equiv.swap i j k) := by
  simp only [swapped, Equiv.swap_apply_def]
  split_ifs <;> simp_all

end TxnQueue

open TxnQueue

/-! ## Sift-up and sift-down -/

/-- The `while( idx > 0UL )` loop of `fd_sequencer_txn_queue_push`: swap `tx_queue[ idx ]` with
its parent while the parent's fee is smaller. -/
def siftUp : Nat → TxnQueue → Nat → Option TxnQueue
  | fuel, q, idx =>
    if idx = 0 then some q else
    match fuel with
    | 0 => none
    | fuel + 1 => do
      let parent := (idx - 1) / 2
      let p ← q.load parent
      let x ← q.load idx
      if x.fee ≤ p.fee then some q else
      siftUp fuel (← q.swap idx parent) parent

/-- One child test of the sift-down loop: `best` moves to the child `c` when `c` is below
`tx_queue_cnt` and its fee beats `tx_queue[ best ]`'s. -/
def pickChild (q : TxnQueue) (c best : Nat) : Option Nat :=
  if c < q.txQueueCnt then do
    let x ← q.load c
    let b ← q.load best
    pure (if b.fee < x.fee then c else best)
  else some best

/-- The `for(;;)` loop of `fd_sequencer_txn_queue_pop`: swap `tx_queue[ idx ]` with its
larger-fee child while that child's fee is larger. -/
def siftDown : Nat → TxnQueue → Nat → Option TxnQueue
  | 0, _, _ => none
  | fuel + 1, q, idx => do
    let best ← pickChild q (2 * idx + 1) idx
    let best ← pickChild q (2 * idx + 2) best
    if best = idx then some q else
    siftDown fuel (← q.swap idx best) best

/-! ## The queue operations -/

/-- `fd_sequencer_txn_queue_push`: `false` (the C `0`) on a full queue, otherwise the entry is
copied to `tx_queue[ tx_queue_cnt++ ]` and sifted up. -/
def txnQueuePush (q : TxnQueue) (txn : Txn) : Option (Bool × TxnQueue) :=
  if q.txQueueCap ≤ q.txQueueCnt then some (false, q) else do
    let idx := q.txQueueCnt
    let q ← { q with txQueueCnt := idx + 1 }.store idx txn
    let q ← siftUp idx q idx
    pure (true, q)

/-- The step of `fd_sequencer_txn_queue_pop` right after `tx_queue_cnt--`: the last entry,
`tx_queue[ tx_queue_cnt ]` at that moment, is copied over the root. -/
def popMoveLast (q : TxnQueue) : Option TxnQueue := do
  let last ← q.load q.txQueueCnt
  q.store 0 last

/-- `fd_sequencer_txn_queue_pop`: `none` (the C `0`) on an empty queue; otherwise the root, which
the code copies to `*out`. When entries remain, the last one moves to the root and is sifted
down. -/
def txnQueuePop (q : TxnQueue) : Option (Option Txn × TxnQueue) :=
  if q.txQueueCnt = 0 then some (none, q) else do
    let out ← q.load 0
    let q := { q with txQueueCnt := q.txQueueCnt - 1 }
    if 0 < q.txQueueCnt then
      let q ← popMoveLast q
      let q ← siftDown q.txQueueCnt q 0
      pure (some out, q)
    else pure (some out, q)

/-- `fd_sequencer_txn_queue_peek`: the entry the returned pointer points to, or `none` for
`NULL`. Forming `&tile->tx_queue[ 0 ]` reads nothing. -/
def txnQueuePeek (q : TxnQueue) : Option Txn :=
  if q.txQueueCnt = 0 then none else some (q.txQueue 0)

/-- `fd_sequencer_txn_queue_cnt`. -/
def txnQueueCnt (q : TxnQueue) : Nat := q.txQueueCnt

end FdSequencer
