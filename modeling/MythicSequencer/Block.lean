import MythicSequencer.Termination

/-!
# Block construction and slot advancement

`fd_sequencer_build_block` and `fd_sequencer_advance_slot` of `fd_sequencer.h`, over the tile
state `fd_sequencer_tile_t`.

`build_block` writes into two buffers its caller owns: the header `*hdr` and the array
`txns_out`. Both are inputs here, with whatever they held before the call, because the code
reads back what it did not overwrite: the non-empty branch never clears `hdr`, so the header's
padding keeps the caller's bytes. `txns_out` is a `TxnArray` that knows its length, and every
access to it is checked against that length.

The three loops of `build_block` — the drain, the hash input, the fee sum — each run a number of
rounds the code fixes before entering (`(uint)max_txns` rounds at most, then `n`, then `n`), and
are structurally recursive on it.

## Main results

* `drainTxns_spec` — the drain pops `min(rounds, tx_queue_cnt)` entries, largest fees first.
* `buildBlock_spec` — everything `build_block` does, with the header it writes as `BuiltHdr`.
* `buildBlock_drains_top_fees` — the tile's call drains exactly the top `n` fees.
* `buildBlock_empty_unsigned` — an empty block's header keeps a zero signature.
* `buildBlock_drains_uint_cap` — on any queue, the drain count is `min(max_txns mod 2^32,
  tx_queue_cnt)`: the cap is cast to `uint`.
-/

namespace FdSequencer

open Mathlib (Vector)

/-- `fd_sequencer_tile_t`. The queue fields are grouped as `queue`; everything else is as in the
header, one field each. -/
structure Tile where
  sequencerIdentity : Vector UInt8 32
  sequencerPrivkey : Vector UInt8 64
  currentSlot : Nat
  currentEpoch : Nat
  blockCount : Nat
  txnCount : Nat
  blockStartTicks : Int
  parentHash : Vector UInt8 32
  queue : TxnQueue
  feeTotal : Nat
  lastMetricsTicks : Int
  cfg : Cfg
  fragBuf : Vector UInt8 txnMtu
  fragBufSz : Nat

/-- A caller's array of `len` entries, such as `during_housekeeping`'s `txns_out[ 10000 ]`. -/
structure TxnArray where
  len : Nat
  get : Nat → Txn

namespace TxnArray

/-- Read entry `i`; out of range is a fault. -/
def load (a : TxnArray) (i : Nat) : Option Txn := if i < a.len then some (a.get i) else none

/-- Write entry `i`; out of range is a fault. -/
def store (a : TxnArray) (i : Nat) (t : Txn) : Option TxnArray :=
  if i < a.len then some ⟨a.len, fun k => if k = i then t else a.get k⟩ else none

/-- The first `n` entries, in order. -/
def take (a : TxnArray) (n : Nat) : List Txn := (List.range n).map a.get

end TxnArray

/-! ## `fd_sequencer_build_block` -/

/-- The drain loop: `while( n < (uint)max_txns )`, pop into `txns_out[ n ]` and count, stopping at
the first pop that finds the queue empty. `k` is the number of rounds left. -/
def drainTxns : Nat → TxnQueue → TxnArray → Nat → Option (TxnQueue × TxnArray × Nat)
  | 0, q, out, n => some (q, out, n)
  | k + 1, q, out, n => do
    let (r, q) ← txnQueuePop q
    match r with
    | none => some (q, out, n)
    | some t => drainTxns k q (← out.store n t) (n + 1)

/-- The hash input of the merkle root: `txns_out[ 0 ].sig || … || txns_out[ n-1 ].sig`, as the
`fd_sha256_append` loop feeds it. -/
def merkleInput (out : TxnArray) : Nat → Option (List UInt8)
  | 0 => some []
  | n + 1 => do
    let pre ← merkleInput out n
    let t ← out.load n
    pure (pre ++ t.sig.toList)

/-- The fee loop: `fee_total += txns_out[ i ].fee` for `i < n`, in `ulong`. -/
def feeAccum (out : TxnArray) (total : Nat) : Nat → Option Nat
  | 0 => some total
  | n + 1 => do
    let acc ← feeAccum out total n
    let t ← out.load n
    pure ((acc + t.fee) % 2 ^ 64)

/-- `fd_sequencer_build_block`: drain up to `(uint)max_txns` entries into `txns_out`, then fill
`*hdr`. With nothing drained the header is cleared and four fields set; otherwise its fields are
written one by one, the 116 bytes before `signature` are signed, and the drained fees are added
to `fee_total`. `wallclock` is the `fd_log_wallclock()` reading. Answers `n` with the new tile,
header and array. -/
def buildBlock (cr : Crypto) (wallclock : Int) (t : Tile) (hdr : BlockHdr) (txnsOut : TxnArray)
    (maxTxns : Nat) : Option (Nat × Tile × BlockHdr × TxnArray) := do
  let (q, txnsOut, n) ← drainTxns (maxTxns % 2 ^ 32) t.queue txnsOut 0
  let t := { t with queue := q }
  if n = 0 then
    let hdr : BlockHdr := { BlockHdr.zeroed with
      slot := t.currentSlot, parentHash := t.parentHash, sequencerPubkey := t.sequencerIdentity,
      txnCount := 0 }
    pure (0, t, hdr, txnsOut)
  else
    let merkle := cr.sha256 (← merkleInput txnsOut n)
    let hdr := { hdr with
      slot := t.currentSlot, txnCount := n, timestamp := wallclock, parentHash := t.parentHash,
      merkleRoot := merkle, sequencerPubkey := t.sequencerIdentity }
    let hdr := { hdr with
      signature := cr.ed25519Sign hdr.preSigBytes t.sequencerIdentity t.sequencerPrivkey }
    let feeTotal ← feeAccum txnsOut t.feeTotal n
    pure (n, { t with feeTotal := feeTotal }, hdr, txnsOut)

/-! ## `fd_sequencer_advance_slot` -/

/-- `fd_sequencer_advance_slot`: one more slot and block, and one more epoch when the new slot is
a nonzero multiple of `epoch_length_slots`, which is what it answers. -/
def advanceSlot (t : Tile) : Bool × Tile :=
  let t := { t with currentSlot := (t.currentSlot + 1) % 2 ^ 64,
                    blockCount := (t.blockCount + 1) % 2 ^ 64 }
  if 0 < t.currentSlot ∧ t.currentSlot % t.cfg.epochLengthSlots = 0 then
    (true, { t with currentEpoch := (t.currentEpoch + 1) % 2 ^ 64 })
  else (false, t)

/-! ## What `build_block` computes -/

open TxnQueue

@[simp] theorem TxnArray.length_take (a : TxnArray) (n : Nat) : (a.take n).length = n := by
  simp [TxnArray.take]

theorem TxnArray.take_succ (a : TxnArray) (n : Nat) : a.take (n + 1) = a.take n ++ [a.get n] := by
  simp [TxnArray.take, List.range_succ]

/-- One round of the drain from a non-empty queue: the root goes to `txns_out[ n ]`. -/
theorem drainTxns_succ {k n : Nat} {q q₁ : TxnQueue} {out : TxnArray} {x : Txn}
    (hpop : txnQueuePop q = some (some x, q₁)) (hn : n < out.len) :
    drainTxns (k + 1) q out n =
      drainTxns k q₁ ⟨out.len, fun i => if i = n then x else out.get i⟩ (n + 1) := by
  simp only [drainTxns, hpop, TxnArray.store, if_pos hn, Option.bind_eq_bind, Option.some_bind]

/-- What a drain leaves: a valid queue of the same capacity holding the entries not drained,
which were taken in non-increasing fee order, each at least every fee left behind. -/
structure Drained (q : TxnQueue) (L : List Txn) (q' : TxnQueue) : Prop where
  valid : q'.Valid
  cap : q'.txQueueCap = q.txQueueCap
  elems : q.elems = ↑L + q'.elems
  sorted : L.Pairwise fun a b => b.fee ≤ a.fee
  top : ∀ x ∈ L, ∀ y ∈ q'.elems, y.fee ≤ x.fee

theorem Drained.nil {q : TxnQueue} (hv : q.Valid) : Drained q [] q :=
  ⟨hv, rfl, by simp, .nil, by simp⟩

/-- Popping the root in front of a drain is a drain. -/
theorem Drained.cons {q q₁ q' : TxnQueue} {L : List Txn} (hv : q.Valid) (hpos : 0 < q.txQueueCnt)
    (hcap₁ : q₁.txQueueCap = q.txQueueCap) (helems₁ : q.elems = q.txQueue 0 ::ₘ q₁.elems)
    (h : Drained q₁ L q') : Drained q (q.txQueue 0 :: L) q' := by
  have hmax := (hv.root_max hpos).2
  have hin : ∀ y, y ∈ ↑L + q'.elems → y ∈ q.elems := fun y hy => by
    rw [helems₁, h.elems]; exact Multiset.mem_cons_of_mem hy
  refine ⟨h.valid, h.cap.trans hcap₁, ?_, ?_, ?_⟩
  · rw [helems₁, h.elems, ← Multiset.cons_coe, Multiset.cons_add]
  · exact .cons (fun y hy => hmax y (hin y (Multiset.mem_add.mpr (.inl hy)))) h.sorted
  · rintro x (_ | ⟨_, hx⟩) y hy
    · exact hmax y (hin y (Multiset.mem_add.mpr (.inr hy)))
    · exact h.top x hx y hy

/-- **Drain.** From a valid queue, `k` rounds drain `min k tx_queue_cnt` entries into
`txns_out[n, n + m)`, given room for them, and leave the rest of the array alone. -/
theorem drainTxns_spec {k n : Nat} {q : TxnQueue} {out : TxnArray} (hv : q.Valid)
    (hroom : n + min k q.txQueueCnt ≤ out.len) :
    ∃ L q' out', drainTxns k q out n = some (q', out', n + L.length) ∧
      L.length = min k q.txQueueCnt ∧ Drained q L q' ∧ out'.len = out.len ∧
      (∀ i < n, out'.get i = out.get i) ∧ (List.range L.length).map (fun i => out'.get (n + i)) = L := by
  induction k generalizing q out n with
  | zero => exact ⟨[], q, out, rfl, by simp, .nil hv, rfl, fun _ _ => rfl, rfl⟩
  | succ k ih =>
    rcases Nat.eq_zero_or_pos q.txQueueCnt with h0 | hpos
    · exact ⟨[], q, out, by simp [drainTxns, txnQueuePop_of_empty h0], by simp [h0], .nil hv, rfl,
        fun _ _ => rfl, rfl⟩
    obtain ⟨q₁, hpop, hv₁, hcnt₁, hcap₁, helems₁⟩ := txnQueuePop_spec hv hpos
    have hn : n < out.len := by omega
    let out₁ : TxnArray := ⟨out.len, fun i => if i = n then q.txQueue 0 else out.get i⟩
    obtain ⟨L, q', out', hdrain, hlen, hdr, hlen', hbelow, hL⟩ :=
      ih hv₁ (show n + 1 + min k q₁.txQueueCnt ≤ out₁.len by simp only [out₁]; omega)
    refine ⟨q.txQueue 0 :: L, q', out', ?_, by simp; omega, hdr.cons hv hpos hcap₁ helems₁, hlen',
      fun i hi => by rw [hbelow i (by omega)]; simp [out₁]; omega, ?_⟩
    · rw [drainTxns_succ hpop hn, show n + (q.txQueue 0 :: L).length = n + 1 + L.length by
        simp; omega]
      exact hdrain
    · rw [List.length_cons, List.range_succ_eq_map, List.map_cons, List.map_map]
      congr 1
      · simp [hbelow n (by omega), out₁]
      · conv_rhs => rw [← hL]
        exact List.map_congr_left fun i _ => congrArg out'.get (by simp; omega)

theorem merkleInput_eq {out : TxnArray} {n : Nat} (h : n ≤ out.len) :
    merkleInput out n = some ((out.take n).flatMap fun t => t.sig.toList) := by
  induction n with
  | zero => rfl
  | succ n ih =>
    simp [merkleInput, ih (by omega), TxnArray.load, show n < out.len by omega,
      TxnArray.take_succ]

theorem feeAccum_eq {out : TxnArray} {total n : Nat} (h : n ≤ out.len) (htot : total < 2 ^ 64) :
    feeAccum out total n = some ((total + ((out.take n).map Txn.fee).sum) % 2 ^ 64) := by
  induction n with
  | zero => simpa [feeAccum, TxnArray.take] using (Nat.mod_eq_of_lt htot).symm
  | succ n ih =>
    simp [feeAccum, ih (by omega), TxnArray.load, show n < out.len by omega, TxnArray.take_succ,
      ← Nat.add_assoc]

/-- The header `build_block` writes for the drained list `L`, from the tile `t` and the caller's
buffer `stack`. -/
structure BuiltHdr (cr : Crypto) (wallclock : Int) (t : Tile) (stack : BlockHdr) (L : List Txn)
    (h : BlockHdr) : Prop where
  slot : h.slot = t.currentSlot
  parentHash : h.parentHash = t.parentHash
  sequencerPubkey : h.sequencerPubkey = t.sequencerIdentity
  txnCount : h.txnCount = L.length
  empty : L = [] → h = { BlockHdr.zeroed with
    slot := t.currentSlot, parentHash := t.parentHash, sequencerPubkey := t.sequencerIdentity }
  merkleRoot : L ≠ [] → h.merkleRoot = cr.sha256 (L.flatMap fun x => x.sig.toList)
  timestamp : L ≠ [] → h.timestamp = wallclock
  signature : L ≠ [] →
    h.signature = cr.ed25519Sign h.preSigBytes t.sequencerIdentity t.sequencerPrivkey
  pad : L ≠ [] → h.pad = stack.pad

/-- **`build_block`.** From a valid queue, with room in `txns_out` for what it drains and a
`ulong` fee total, it drains `min((uint)max_txns, tx_queue_cnt)` entries, adds their fees to
`fee_total` in `ulong`, writes the header `BuiltHdr` describes, and touches nothing else of the
tile. -/
theorem buildBlock_spec (cr : Crypto) (wallclock : Int) {t : Tile} (stack : BlockHdr)
    {out : TxnArray} (maxTxns : Nat) (hv : t.queue.Valid)
    (hroom : min (maxTxns % 2 ^ 32) t.queue.txQueueCnt ≤ out.len) (hfee : t.feeTotal < 2 ^ 64) :
    ∃ L q' out' hdr, buildBlock cr wallclock t stack out maxTxns =
        some (L.length, { t with queue := q', feeTotal := (t.feeTotal + (L.map Txn.fee).sum) % 2 ^ 64 },
          hdr, out') ∧
      L.length = min (maxTxns % 2 ^ 32) t.queue.txQueueCnt ∧ Drained t.queue L q' ∧
      out'.len = out.len ∧ out'.take L.length = L ∧ BuiltHdr cr wallclock t stack L hdr := by
  obtain ⟨L, q', out', hdrain, hlen, hdr, hlen', -, hL⟩ :=
    drainTxns_spec (k := maxTxns % 2 ^ 32) (n := 0) hv (by simpa using hroom)
  have htake : out'.take L.length = L := by simpa [TxnArray.take] using hL
  simp only [Nat.zero_add] at hdrain
  rcases eq_or_ne L [] with rfl | hne
  · refine ⟨[], q', out', ({ BlockHdr.zeroed with
      slot := t.currentSlot, parentHash := t.parentHash, sequencerPubkey := t.sequencerIdentity } :
      BlockHdr), ?_, hlen, hdr, hlen', htake,
      ⟨rfl, rfl, rfl, rfl, fun _ => rfl, absurd rfl, absurd rfl, absurd rfl, absurd rfl⟩⟩
    simp only [buildBlock, hdrain]
    simpa using ⟨(Nat.mod_eq_of_lt hfee).symm, rfl⟩
  have hn : L.length ≤ out'.len := by omega
  let h₁ : BlockHdr := { stack with
    slot := t.currentSlot, txnCount := L.length, timestamp := wallclock, parentHash := t.parentHash,
    merkleRoot := cr.sha256 (L.flatMap fun x => x.sig.toList), sequencerPubkey := t.sequencerIdentity }
  refine ⟨L, q', out', ({ h₁ with
      signature := cr.ed25519Sign h₁.preSigBytes t.sequencerIdentity t.sequencerPrivkey } :
      BlockHdr), ?_, hlen, hdr, hlen', htake, ⟨rfl, rfl, rfl, rfl, fun h => absurd h hne, fun _ => rfl, fun _ => rfl, fun _ => rfl,
      fun _ => rfl⟩⟩
  simp only [buildBlock, hdrain]
  simp [merkleInput_eq hn, feeAccum_eq hn hfee, htake, List.length_eq_zero, hne]

/-! ## `build_block` as the tile calls it -/

/-- **Top-`n` selection.** With `max_txns ≤ 10000`, the clamp of `during_housekeeping` (so that
`(uint)max_txns` loses nothing), and room for that many entries in `txns_out`, `build_block` on a
heap returns `n = min(max_txns, tx_queue_cnt)`, fills `txns_out[0, n)` with fees in non-increasing
order, each at least every fee left queued, leaves exactly the other entries, as a heap, sets
`txn_count = n`, adds the drained fees to `fee_total` in `ulong`, and changes nothing else of the
tile. -/
theorem buildBlock_drains_top_fees (cr : Crypto) (wallclock : Int) (t : Tile) (stack : BlockHdr)
    (out : TxnArray) (maxTxns : Nat) (hv : t.queue.Valid) (hmax : maxTxns ≤ 10000)
    (hroom : maxTxns ≤ out.len) (hfee : t.feeTotal < 2 ^ 64) :
    ∃ n t' hdr out', buildBlock cr wallclock t stack out maxTxns = some (n, t', hdr, out') ∧
      n = min maxTxns t.queue.txQueueCnt ∧
      (out'.take n).Pairwise (fun a b => b.fee ≤ a.fee) ∧
      (∀ a ∈ out'.take n, ∀ b ∈ t'.queue.elems, b.fee ≤ a.fee) ∧
      t.queue.elems = ↑(out'.take n) + t'.queue.elems ∧ t'.queue.Valid ∧
      hdr.txnCount = n ∧
      t'.feeTotal = (t.feeTotal + ((out'.take n).map Txn.fee).sum) % 2 ^ 64 ∧
      t' = { t with queue := t'.queue, feeTotal := t'.feeTotal } := by
  have hmod : maxTxns % 2 ^ 32 = maxTxns := Nat.mod_eq_of_lt (by omega)
  obtain ⟨L, q', out', hdr, hb, hlen, hd, -, htake, hh⟩ := buildBlock_spec cr wallclock stack maxTxns
    hv (show min (maxTxns % 2 ^ 32) t.queue.txQueueCnt ≤ out.len by omega) hfee
  refine ⟨L.length, _, hdr, out', hb, hmod ▸ hlen, ?_, ?_, ?_, hd.valid, hh.txnCount, ?_, rfl⟩ <;>
    rw [htake]
  exacts [hd.sorted, hd.top, hd.elems]

theorem buildBlock_drains_top_fees_three_of_five :
    ∃ n t' hdr out', buildBlock ⟨fun _ => zeros 32, fun _ _ _ => zeros 64⟩ 0
        ⟨zeros _, zeros _, 0, 0, 0, 0, 0, zeros _,
          ⟨fun i => { Txn.zeroed with fee := [900, 500, 300, 100, 200].getD i 0 }, 5, 8⟩, 0, 0,
          cfgDefault, zeros _, 0⟩
        BlockHdr.zeroed ⟨10000, fun _ => Txn.zeroed⟩ 3 = some (n, t', hdr, out') ∧
      n = 3 ∧ hdr.txnCount = 3 ∧ (out'.take n).map Txn.fee = [900, 500, 300] ∧
      (∀ a ∈ out'.take n, ∀ b ∈ t'.queue.elems, b.fee ≤ a.fee) ∧ t'.queue.Valid ∧
      (List.range t'.queue.txQueueCnt).map (fun i => (t'.queue.txQueue i).fee) = [200, 100] := by
  have hv : TxnQueue.Valid
      ⟨fun i => { Txn.zeroed with fee := [900, 500, 300, 100, 200].getD i 0 }, 5, 8⟩ := by
    refine ⟨by decide, fun i h0 (hi : i < 5) => ?_⟩
    obtain rfl | rfl | rfl | rfl : i = 1 ∨ i = 2 ∨ i = 3 ∨ i = 4 := by omega
    all_goals decide
  obtain ⟨n, t', hdr, out', h, hn, -, htop, -, hv', hcnt, -, -⟩ := buildBlock_drains_top_fees
    ⟨fun _ => zeros 32, fun _ _ _ => zeros 64⟩ 0
    ⟨zeros _, zeros _, 0, 0, 0, 0, 0, zeros _,
          ⟨fun i => { Txn.zeroed with fee := [900, 500, 300, 100, 200].getD i 0 }, 5, 8⟩, 0, 0,
          cfgDefault, zeros _, 0⟩
    BlockHdr.zeroed ⟨10000, fun _ => Txn.zeroed⟩ 3 hv (by decide) (by decide) (by decide)
  have hrun : (buildBlock ⟨fun _ => zeros 32, fun _ _ _ => zeros 64⟩ 0
        ⟨zeros _, zeros _, 0, 0, 0, 0, 0, zeros _,
          ⟨fun i => { Txn.zeroed with fee := [900, 500, 300, 100, 200].getD i 0 }, 5, 8⟩, 0, 0,
          cfgDefault, zeros _, 0⟩
        BlockHdr.zeroed ⟨10000, fun _ => Txn.zeroed⟩ 3).map (fun r =>
      ((r.2.2.2.take r.1).map Txn.fee,
        (List.range r.2.1.queue.txQueueCnt).map fun i => (r.2.1.queue.txQueue i).fee)) =
      some ([900, 500, 300], [200, 100]) := by decide
  rw [h, Option.map_some', Option.some.injEq, Prod.mk.injEq] at hrun
  exact ⟨n, t', hdr, out', h, hn, hcnt.trans hn, hrun.1, htop, hv', hrun.2⟩

/-- The drain of an empty queue stops at once, whatever the bound. -/
theorem drainTxns_of_empty {q : TxnQueue} (h0 : q.txQueueCnt = 0) (k : Nat) (out : TxnArray) :
    drainTxns k q out 0 = some (q, out, 0) := by
  cases k <;> simp [drainTxns, txnQueuePop_of_empty h0]

/-- **An empty block is not signed.** With nothing queued, `build_block` returns 0, leaves the tile
as it was, and answers the cleared header with four fields set: its `signature` is the 64 zero
bytes of the `fd_memset`, since the early return comes before `fd_ed25519_sign`. -/
theorem buildBlock_empty_unsigned (cr : Crypto) (wallclock : Int) (t : Tile) (stack : BlockHdr)
    (out : TxnArray) (maxTxns : Nat) (h0 : t.queue.txQueueCnt = 0) :
    ∃ hdr, buildBlock cr wallclock t stack out maxTxns = some (0, t, hdr, out) ∧
      hdr.txnCount = 0 ∧ hdr.signature = zeros 64 := by
  refine ⟨{ BlockHdr.zeroed with
    slot := t.currentSlot, parentHash := t.parentHash, sequencerPubkey := t.sequencerIdentity,
    txnCount := 0 }, ?_, rfl, rfl⟩
  simp [buildBlock, drainTxns_of_empty h0]

theorem buildBlock_empty_unsigned_at_init :
    ∃ hdr, buildBlock ⟨fun _ => zeros 32, fun _ _ _ => Vector.replicate 64 1⟩ 0
        ⟨zeros _, zeros _, 0, 0, 0, 0, 0, zeros _, ⟨fun _ => Txn.zeroed, 0, queueMax⟩, 0, 0,
          cfgDefault, zeros _, 0⟩
        BlockHdr.zeroed ⟨10000, fun _ => Txn.zeroed⟩ 10000 =
        some (0, ⟨zeros _, zeros _, 0, 0, 0, 0, 0, zeros _, ⟨fun _ => Txn.zeroed, 0, queueMax⟩, 0, 0,
          cfgDefault, zeros _, 0⟩, hdr, ⟨10000, fun _ => Txn.zeroed⟩) ∧
      hdr.signature ≠ Vector.replicate 64 1 := by
  obtain ⟨hdr, h, -, hsig⟩ := buildBlock_empty_unsigned ⟨fun _ => zeros 32, fun _ _ _ => Vector.replicate 64 1⟩ 0
    ⟨zeros _, zeros _, 0, 0, 0, 0, 0, zeros _, ⟨fun _ => Txn.zeroed, 0, queueMax⟩, 0, 0,
      cfgDefault, zeros _, 0⟩ BlockHdr.zeroed ⟨10000, fun _ => Txn.zeroed⟩ 10000 rfl
  exact ⟨hdr, h, hsig ▸ by decide⟩

/-! ## The `uint` cap -/

/-- The drain on any queue within capacity, whatever it holds: `k` rounds pop `min k tx_queue_cnt`
entries into `txns_out[n, …)`, given room for them. -/
theorem drainTxns_count {k n : Nat} {q : TxnQueue} {out : TxnArray}
    (hcap : q.txQueueCnt ≤ q.txQueueCap) (hroom : n + min k q.txQueueCnt ≤ out.len) :
    ∃ q' out', drainTxns k q out n = some (q', out', n + min k q.txQueueCnt) ∧
      q'.txQueueCnt = q.txQueueCnt - min k q.txQueueCnt ∧ out'.len = out.len := by
  induction k generalizing q out n with
  | zero => exact ⟨q, out, by simp [drainTxns], by simp, rfl⟩
  | succ k ih =>
    rcases Nat.eq_zero_or_pos q.txQueueCnt with h0 | hpos
    · exact ⟨q, out, by simp [drainTxns, txnQueuePop_of_empty h0, h0], by simp [h0], rfl⟩
    obtain ⟨q₁, hpop, hcnt₁, hcap₁, -⟩ := txnQueuePop_total hcap hpos
    have hn : n < out.len := by omega
    let out₁ : TxnArray := ⟨out.len, fun i => if i = n then q.txQueue 0 else out.get i⟩
    obtain ⟨q', out', hdrain, hcnt', hlen'⟩ :=
      ih (q := q₁) (n := n + 1) (by omega) (show _ ≤ out₁.len by simp only [out₁]; omega)
    refine ⟨q', out', ?_, by omega, hlen'⟩
    rw [drainTxns_succ hpop hn, show n + min (k + 1) q.txQueueCnt = n + 1 + min k q₁.txQueueCnt by
      omega]
    exact hdrain

theorem feeAccum_isSome {out : TxnArray} {n : Nat} (total : Nat) (h : n ≤ out.len) :
    ∃ s, feeAccum out total n = some s := by
  induction n with
  | zero => exact ⟨total, rfl⟩
  | succ n ih =>
    obtain ⟨s, hs⟩ := ih (by omega)
    exact ⟨(s + (out.get n).fee) % 2 ^ 64,
      by simp [feeAccum, hs, TxnArray.load, show n < out.len by omega]⟩

/-- **The cap is read as a `uint`.** For every `max_txns` and every queue within capacity,
whatever it holds, with room in `txns_out`, `build_block` drains exactly
`min((uint)max_txns, tx_queue_cnt)` entries and returns that count, `(uint)max_txns` being
`max_txns mod 2^32`. -/
theorem buildBlock_drains_uint_cap (cr : Crypto) (wallclock : Int) (t : Tile) (stack : BlockHdr)
    (out : TxnArray) (maxTxns : Nat) (hcap : t.queue.txQueueCnt ≤ t.queue.txQueueCap)
    (hroom : min (maxTxns % 2 ^ 32) t.queue.txQueueCnt ≤ out.len) :
    ∃ t' hdr out', buildBlock cr wallclock t stack out maxTxns =
        some (min (maxTxns % 2 ^ 32) t.queue.txQueueCnt, t', hdr, out') ∧
      t'.queue.txQueueCnt = t.queue.txQueueCnt - min (maxTxns % 2 ^ 32) t.queue.txQueueCnt ∧
      hdr.txnCount = min (maxTxns % 2 ^ 32) t.queue.txQueueCnt := by
  obtain ⟨q', out', hdrain, hcnt, hlen⟩ :=
    drainTxns_count (k := maxTxns % 2 ^ 32) (n := 0) hcap (show _ ≤ out.len by simpa using hroom)
  rw [Nat.zero_add] at hdrain
  have hn : min (maxTxns % 2 ^ 32) t.queue.txQueueCnt ≤ out'.len := by omega
  generalize min (maxTxns % 2 ^ 32) t.queue.txQueueCnt = m at hdrain hcnt hn ⊢
  obtain ⟨fee, hfee⟩ := feeAccum_isSome t.feeTotal hn
  unfold buildBlock
  rw [hdrain]
  simp only [Option.bind_eq_bind, Option.some_bind]
  split_ifs with h0
  · subst h0; exact ⟨_, _, _, rfl, hcnt, rfl⟩
  · simp only [merkleInput_eq hn, hfee, Option.some_bind]
    exact ⟨_, _, _, rfl, hcnt, rfl⟩

theorem buildBlock_drains_uint_cap_wrapped :
    ∃ t' hdr out', buildBlock ⟨fun _ => zeros 32, fun _ _ _ => zeros 64⟩ 0
        ⟨zeros _, zeros _, 0, 0, 0, 0, 0, zeros _, ⟨fun _ => { Txn.zeroed with fee := 7 }, 2, 2⟩, 0, 0,
          cfgDefault, zeros _, 0⟩
        BlockHdr.zeroed ⟨10000, fun _ => Txn.zeroed⟩ (2 ^ 32 + 1) = some (1, t', hdr, out') ∧
      t'.queue.txQueueCnt = 1 ∧ hdr.txnCount = 1 ∧ 1 < min (2 ^ 32 + 1) 2 := by
  obtain ⟨t', hdr, out', h, hcnt, htxn⟩ := buildBlock_drains_uint_cap ⟨fun _ => zeros 32, fun _ _ _ => zeros 64⟩ 0
    ⟨zeros _, zeros _, 0, 0, 0, 0, 0, zeros _, ⟨fun _ => { Txn.zeroed with fee := 7 }, 2, 2⟩, 0, 0,
          cfgDefault, zeros _, 0⟩
    BlockHdr.zeroed ⟨10000, fun _ => Txn.zeroed⟩ (2 ^ 32 + 1) le_rfl (by decide)
  exact ⟨t', hdr, out', h, hcnt, htxn, by decide⟩

/-- `max_txns = 2^32` is a `uint` cap of 0: with one entry queued `build_block` drains nothing,
where `min(max_txns, tx_queue_cnt)` is 1. -/
theorem buildBlock_cap_two_pow_32_drains_nothing :
    ∃ n t' hdr out', buildBlock ⟨fun _ => zeros 32, fun _ _ _ => zeros 64⟩ 0
        ⟨zeros _, zeros _, 0, 0, 0, 0, 0, zeros _, ⟨fun _ => { Txn.zeroed with fee := 7 }, 1, 1⟩, 0, 0,
          cfgDefault, zeros _, 0⟩
        BlockHdr.zeroed ⟨10000, fun _ => Txn.zeroed⟩ (2 ^ 32) = some (n, t', hdr, out') ∧
      n ≠ min (2 ^ 32) 1 ∧ t'.queue.txQueueCnt = 1 :=
  ⟨0, _, _, _, rfl, by decide, rfl⟩

end FdSequencer