import MythicSequencer.Tile

/-!
# What each callback does

One lemma per callback, saying everything a step can do, so that the run laws of the later
modules never unfold a callback: `duringFrag_of_le`, `afterFrag_spec`, `duringHousekeeping_spec`.
They hold from any tile satisfying `TileInv`, the invariant of every reachable state, and
`TileInv` is preserved by every step; in particular no step of a reachable tile faults.
-/

namespace FdSequencer

open Mathlib (Vector)
open TxnQueue

variable {t : Tile}

/-! ## The staging buffer -/

theorem duringFrag_of_oversized {chunk : List UInt8} (h : txnMtu < chunk.length) :
    duringFrag t chunk = some { t with fragBufSz := 0 } := if_pos h

theorem duringFrag_of_le {chunk : List UInt8} (h : chunk.length ≤ txnMtu) :
    ∃ buf : Vector UInt8 txnMtu, duringFrag t chunk = some { t with fragBuf := buf, fragBufSz := chunk.length } ∧
      buf.toList.take chunk.length = chunk := by
  obtain ⟨buf, hbuf, htake, -⟩ :=
    memcpy?_spec t.fragBuf chunk (show 0 + chunk.length ≤ chunk.length by simp) h
  exact ⟨buf, by simp [duringFrag, not_lt.mpr h, hbuf], by simpa using htake⟩

/-! ## The entry `after_frag` builds -/

theorem afterFragTxn_spec (optSig : Option Nat) (now : Int) (h : t.fragBufSz ≤ txnMtu) :
    ∃ txn, afterFragTxn t optSig now = some txn ∧ txn.payloadSz = t.fragBufSz ∧
      txn.fee = afterFragFee optSig ∧
      txn.payload.toList.take t.fragBufSz = t.fragBuf.toList.take t.fragBufSz := by
  obtain ⟨payload, hpayload, htake, -⟩ :=
    memcpy?_spec Txn.zeroed.payload t.fragBuf.toList
      (show 0 + t.fragBufSz ≤ t.fragBuf.toList.length by simpa using h) h
  simp only [List.drop_zero] at htake
  by_cases h65 : 65 ≤ t.fragBufSz
  · obtain ⟨sig, hsig, -⟩ :=
      memcpy?_spec Txn.zeroed.sig payload.toList (show 1 + 64 ≤ _ by simp [txnMtu]) le_rfl
    exact ⟨⟨payload, t.fragBufSz, afterFragFee optSig, now, sig⟩,
      by simp [afterFragTxn, hpayload, h65, hsig], rfl, rfl, htake⟩
  · exact ⟨⟨payload, t.fragBufSz, afterFragFee optSig, now, Txn.zeroed.sig⟩,
      by simp [afterFragTxn, hpayload, h65], rfl, rfl, htake⟩

theorem afterFrag_of_empty (optSig : Option Nat) (now : Int) (h : t.fragBufSz = 0) :
    afterFrag t optSig now = some (t, none) := if_pos h

/-- **`after_frag`.** With something staged, the entry is built; below capacity it is pushed and
counted, at capacity it is dropped and nothing but the staging size changes. -/
theorem afterFrag_spec (optSig : Option Nat) (now : Int) (hv : t.queue.Valid)
    (hsz : t.fragBufSz ≤ txnMtu) (h0 : t.fragBufSz ≠ 0) :
    ∃ txn, afterFragTxn t optSig now = some txn ∧ txn.payloadSz = t.fragBufSz ∧
      txn.fee = afterFragFee optSig ∧
      (t.queue.txQueueCnt < t.queue.txQueueCap → ∃ q', afterFrag t optSig now =
          some ({ t with queue := q', txnCount := (t.txnCount + 1) % 2 ^ 64, fragBufSz := 0 }, some txn) ∧
        q'.Valid ∧ q'.txQueueCnt = t.queue.txQueueCnt + 1 ∧ q'.txQueueCap = t.queue.txQueueCap ∧
        q'.elems = txn ::ₘ t.queue.elems) ∧
      (t.queue.txQueueCap ≤ t.queue.txQueueCnt →
        afterFrag t optSig now = some ({ t with fragBufSz := 0 }, none)) := by
  obtain ⟨txn, htxn, hsz', hfee, -⟩ := afterFragTxn_spec optSig now hsz
  refine ⟨txn, htxn, hsz', hfee, fun hlt => ?_, fun hfull => ?_⟩
  · obtain ⟨q', hpush, hv', hcnt, hcap, helems⟩ := txnQueuePush_spec hv hlt txn
    exact ⟨q', by simp [afterFrag, h0, htxn, hpush], hv', hcnt, hcap, helems⟩
  · simp [afterFrag, h0, htxn, txnQueuePush_of_full hfull]

/-! ## Housekeeping -/

/-- Whether the slot after `t`'s opens an epoch. -/
def opensEpoch (t : Tile) : Bool :=
  decide (0 < (t.currentSlot + 1) % 2 ^ 64 ∧ (t.currentSlot + 1) % 2 ^ 64 % t.cfg.epochLengthSlots = 0)

/-- `advance_slot` in closed form: what it answers. -/
theorem advanceSlot_fst (t : Tile) : (advanceSlot t).1 = opensEpoch t := by
  simp only [advanceSlot, opensEpoch]
  split_ifs with h
  · exact (decide_eq_true h).symm
  · exact (decide_eq_false h).symm

/-- `advance_slot` in closed form: the tile it leaves. -/
theorem advanceSlot_snd (t : Tile) : (advanceSlot t).2 =
    { t with
      currentSlot := (t.currentSlot + 1) % 2 ^ 64, blockCount := (t.blockCount + 1) % 2 ^ 64,
      currentEpoch := if 0 < (t.currentSlot + 1) % 2 ^ 64 ∧
          (t.currentSlot + 1) % 2 ^ 64 % t.cfg.epochLengthSlots = 0
        then (t.currentEpoch + 1) % 2 ^ 64 else t.currentEpoch } := by
  simp only [advanceSlot]
  split_ifs <;> rfl

theorem duringHousekeeping_of_lt (cr : Crypto) {now : Int} (wallclock : Int) (stackHdr : BlockHdr)
    (stackTxns : Nat → Txn) (h : (max (now - t.blockStartTicks) 0).toNat < t.cfg.blockTimeNs) :
    duringHousekeeping cr t now wallclock stackHdr stackTxns = some (t, none) := if_pos h

/-- The tile after a production: the drain and the fee sum of `build_block`, the new parent hash,
`advance_slot`, and the timer restarted at `now`. -/
def producedTile (cr : Crypto) (t : Tile) (now : Int) (q : TxnQueue) (L : List Txn) (hdr : BlockHdr) :
    Tile :=
  { (advanceSlot { t with
      queue := q, feeTotal := (t.feeTotal + (L.map Txn.fee).sum) % 2 ^ 64,
      parentHash := cr.sha256 hdr.bytes }).2 with
    blockStartTicks := now }

/-- **`during_housekeeping`.** Once the interval has passed, one block is built as
`buildBlock_spec` describes, from at most `min(max_txns_per_block, 10000)` entries. -/
theorem duringHousekeeping_spec (cr : Crypto) {now : Int} (wallclock : Int) (stackHdr : BlockHdr)
    (stackTxns : Nat → Txn) (hv : t.queue.Valid) (hfee : t.feeTotal < 2 ^ 64)
    (h : t.cfg.blockTimeNs ≤ (max (now - t.blockStartTicks) 0).toNat) :
    ∃ L q' hdr, duringHousekeeping cr t now wallclock stackHdr stackTxns =
        some (producedTile cr t now q' L hdr,
          some ⟨hdr, L, (advanceSlot { t with
            queue := q', feeTotal := (t.feeTotal + (L.map Txn.fee).sum) % 2 ^ 64,
            parentHash := cr.sha256 hdr.bytes }).1⟩) ∧
      L.length = min (min t.cfg.maxTxnsPerBlock 10000) t.queue.txQueueCnt ∧ Drained t.queue L q' ∧
      BuiltHdr cr wallclock t stackHdr L hdr := by
  have hmod : min t.cfg.maxTxnsPerBlock 10000 % 2 ^ 32 = min t.cfg.maxTxnsPerBlock 10000 :=
    Nat.mod_eq_of_lt (by omega)
  obtain ⟨L, q', out', hdr, hbuild, hlen, hdrained, -, htake, hbuilt⟩ :=
    buildBlock_spec cr wallclock stackHdr (min t.cfg.maxTxnsPerBlock 10000) hv
      (show _ ≤ (⟨10000, stackTxns⟩ : TxnArray).len by simp only [hmod]; omega) hfee
  refine ⟨L, q', hdr, ?_, hmod ▸ hlen, hdrained, hbuilt⟩
  simp only [duringHousekeeping, if_neg (not_lt.mpr h), hbuild, htake, Option.bind_eq_bind,
    Option.some_bind]
  rfl

end FdSequencer
