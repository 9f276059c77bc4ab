import MythicSequencer.Block

/-!
# The sequencer tile

The callbacks of `fd_sequencer_tile.c` as one state machine: `unprivileged_init` makes the first
state, and `during_frag`, `after_frag`, `during_housekeeping`, `metrics_write` and `fini` are its
events. The clock readings (`fd_tickcount`, `fd_log_wallclock`), the fragment bytes, the fee hint
and the uninitialised stack buffers of `during_housekeeping` are the events' arguments, so every
theorem about runs quantifies over all of them.

A step also reports what it did that the laws of the later modules are about: the entry
`after_frag` enqueued, with the fee hint and the clock reading it was built from, or the block
`during_housekeeping` produced. Those reports are the labels of a run.

## What is left out

The arguments the callbacks ignore (`in_idx`, `seq`, `sig`, `opt_chunk`, …) and the log lines.
`during_frag`'s `chunk` is the byte list the link delivered and `sz` is its length. Tick
differences are exact integers: C's `long` subtraction agrees with them whenever it does not
overflow, in particular for non-negative readings. Runs start from a configuration with a
nonzero `epoch_length_slots`, as the default's 432000: `advance_slot` divides by it, and `% 0` is
undefined in C.
-/

namespace FdSequencer

open Mathlib (Vector)

/-- `sizeof( fd_sequencer_tile_t )` on the LP64 target: 1464 bytes of fields before the 8-aligned
`frag_buf_sz`. -/
def tileSize : Nat := 1472

/-- `sizeof( fd_sequencer_txn_t )`: 1232 payload bytes, three 8-byte fields, a 64-byte signature. -/
def txnSize : Nat := 1320

/-- `fd_sequencer_tile_unprivileged_init`: refuse scratch smaller than the tile plus
`FD_SEQUENCER_QUEUE_MAX` entries, otherwise the zeroed tile with the default configuration, an
empty queue of capacity `FD_SEQUENCER_QUEUE_MAX` over the scratch memory `queueMem` (which init
does not clear), and both timers at the `fd_tickcount()` reading `tick`. -/
def unprivilegedInit (scratchSz : Nat) (tick : Int) (queueMem : Nat → Txn) : Option Tile :=
  if scratchSz < tileSize + queueMax * txnSize then none else
  some { sequencerIdentity := zeros _, sequencerPrivkey := zeros _,
         currentSlot := 0, currentEpoch := 0, blockCount := 0, txnCount := 0,
         blockStartTicks := tick, parentHash := zeros _,
         queue := ⟨queueMem, 0, queueMax⟩, feeTotal := 0, lastMetricsTicks := tick,
         cfg := cfgDefault, fragBuf := zeros _, fragBufSz := 0 }

/-- `fd_sequencer_tile_during_frag`: an oversized fragment empties the staging buffer; any other
is copied over its start, and the buffer's size becomes the fragment's. -/
def duringFrag (t : Tile) (chunk : List UInt8) : Option Tile :=
  if txnMtu < chunk.length then some { t with fragBufSz := 0 } else do
    let fragBuf ← memcpy? t.fragBuf chunk 0 chunk.length
    pure { t with fragBuf := fragBuf, fragBufSz := chunk.length }

/-- The fee `after_frag` gives an entry: the hint when one is passed and nonzero, else the base
fee 5000. -/
def afterFragFee (optSig : Option Nat) : Nat :=
  match optSig with
  | some s => if 0 < s then s else 5000
  | none => 5000

/-- The entry `after_frag` builds from the staging buffer: zeroed, the staged bytes as payload,
the arrival tick, the 64 bytes after the first when the payload has at least 65, and the fee. -/
def afterFragTxn (t : Tile) (optSig : Option Nat) (now : Int) : Option Txn := do
  let payload ← memcpy? Txn.zeroed.payload t.fragBuf.toList 0 t.fragBufSz
  let sig ← if 65 ≤ t.fragBufSz then memcpy? Txn.zeroed.sig payload.toList 1 64
    else some Txn.zeroed.sig
  pure { Txn.zeroed with payload := payload, payloadSz := t.fragBufSz, receivedTicks := now,
                         sig := sig, fee := afterFragFee optSig }

/-- `fd_sequencer_tile_after_frag`: with something staged, build the entry and push it; count it
if the push succeeded, and empty the staging buffer either way. Also answers the entry that was
enqueued. -/
def afterFrag (t : Tile) (optSig : Option Nat) (now : Int) : Option (Tile × Option Txn) :=
  if t.fragBufSz = 0 then some (t, none) else do
    let txn ← afterFragTxn t optSig now
    let (ok, q) ← txnQueuePush t.queue txn
    if ok then
      pure ({ t with queue := q, txnCount := (t.txnCount + 1) % 2 ^ 64, fragBufSz := 0 }, some txn)
    else pure ({ t with queue := q, fragBufSz := 0 }, none)

/-- A produced block: the signed header, the entries drained into it in drain order, and whether
its slot opened an epoch. -/
structure Block where
  hdr : BlockHdr
  txns : List Txn
  newEpoch : Bool

/-- `fd_sequencer_tile_during_housekeeping` at the `fd_tickcount()` reading `now`: once
`block_time_ns` ticks have passed since `block_start_ticks` (a backward clock counting as none),
build one block of at most `min(max_txns_per_block, 10000)` entries into the stack buffers
`stackHdr` and `txns_out[ 10000 ]`, hash the whole header object into `parent_hash`, advance the
slot and restart the timer. -/
def duringHousekeeping (cr : Crypto) (t : Tile) (now wallclock : Int) (stackHdr : BlockHdr)
    (stackTxns : Nat → Txn) : Option (Tile × Option Block) :=
  let elapsed := max (now - t.blockStartTicks) 0
  if elapsed.toNat < t.cfg.blockTimeNs then some (t, none) else do
    let maxTxns := min t.cfg.maxTxnsPerBlock 10000
    let (n, t, hdr, txnsOut) ← buildBlock cr wallclock t stackHdr ⟨10000, stackTxns⟩ maxTxns
    let t := { t with parentHash := cr.sha256 hdr.bytes }
    let (newEpoch, t) := advanceSlot t
    pure ({ t with blockStartTicks := now }, some ⟨hdr, txnsOut.take n, newEpoch⟩)

/-- `fd_sequencer_tile_metrics_write` at the reading `now`: only the snapshot time changes. -/
def metricsWrite (t : Tile) (now : Int) : Tile := { t with lastMetricsTicks := now }

/-- `fd_sequencer_tile_fini`: the private key is wiped. -/
def fini (t : Tile) : Tile := { t with sequencerPrivkey := zeros _ }

/-! ## Runs -/

/-- A callback invocation, with everything it reads from outside the tile. -/
inductive Event
  | duringFrag (chunk : List UInt8)
  | afterFrag (optSig : Option Nat) (now : Int)
  | duringHousekeeping (now wallclock : Int) (stackHdr : BlockHdr) (stackTxns : Nat → Txn)
  | metricsWrite (now : Int)
  | fini

/-- What a step did that a run's laws are about. -/
inductive Label
  | quiet
  | enqueued (txn : Txn) (optSig : Option Nat) (now : Int)
  | produced (now : Int) (b : Block)

/-- One callback. `none` is a fault: an access out of range. -/
def tileStep (cr : Crypto) (t : Tile) : Event → Option (Tile × Label)
  | .duringFrag chunk => (duringFrag t chunk).map fun t => (t, .quiet)
  | .afterFrag optSig now =>
    (afterFrag t optSig now).map fun r =>
      (r.1, match r.2 with | some txn => .enqueued txn optSig now | none => .quiet)
  | .duringHousekeeping now wallclock stackHdr stackTxns =>
    (duringHousekeeping cr t now wallclock stackHdr stackTxns).map fun r =>
      (r.1, match r.2 with | some b => .produced now b | none => .quiet)
  | .metricsWrite now => some (metricsWrite t now, .quiet)
  | .fini => some (fini t, .quiet)

/-- The states of runs from `unprivileged_init` with the `fd_tickcount()` reading `tick₀`, with the
labels of the steps taken so far, latest first. The configuration is any one with a nonzero epoch
length installed in place of `FD_SEQUENCER_CFG_DEFAULT`, which covers the default. -/
inductive TileReachable (cr : Crypto) (tick₀ : Int) : Tile → List Label → Prop
  | init {scratchSz : Nat} {queueMem : Nat → Txn} {t : Tile} (cfg : Cfg)
      (hpos : 0 < cfg.epochLengthSlots) :
      unprivilegedInit scratchSz tick₀ queueMem = some t → TileReachable cr tick₀ { t with cfg := cfg } []
  | step {t t' : Tile} {hist : List Label} {ev : Event} {l : Label} :
      TileReachable cr tick₀ t hist → tileStep cr t ev = some (t', l) →
        TileReachable cr tick₀ t' (l :: hist)

end FdSequencer
