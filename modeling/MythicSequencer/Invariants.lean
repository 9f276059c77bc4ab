import MythicSequencer.TileSpec

/-!
# The reachable-state invariant, and what one step can do

`TileInv` holds of the state `unprivileged_init` makes and is kept by every callback, so it holds
of every reachable state. From a state satisfying it no callback faults, and every step has one of
three shapes, `StepShape`: a quiet step that leaves the counters, the timer, the chain position
and the queue alone; an enqueue; or a production. The run laws are proved from `StepShape` alone.

## Main results

* `tileStep_shape` — from a tile satisfying `TileInv`, every event succeeds, its step has a shape,
  and the invariant holds after it.
* `TileReachable.inv` — every reachable tile satisfies `TileInv`.
-/

namespace FdSequencer

open Mathlib (Vector)
open TxnQueue

variable {cr : Crypto} {t t' : Tile}

/-- What holds of every reachable tile: the queue is a valid heap, the staging size fits the
staging buffer, `fee_total` is a `ulong`, and every queued entry has a payload of 1 to
`FD_SEQUENCER_TXN_MTU` bytes. -/
structure TileInv (t : Tile) : Prop where
  queue : t.queue.Valid
  fragBufSz_le : t.fragBufSz ≤ txnMtu
  feeTotal_lt : t.feeTotal < 2 ^ 64
  payloadSz : ∀ x ∈ t.queue.elems, 0 < x.payloadSz ∧ x.payloadSz ≤ txnMtu

/-! ## The tile after a production -/

section producedTile

variable (cr : Crypto) (t : Tile) (now : Int) (q : TxnQueue) (L : List Txn) (hdr : BlockHdr)

@[simp] theorem producedTile_queue : (producedTile cr t now q L hdr).queue = q := by
  simp [producedTile, advanceSlot_snd]

@[simp] theorem producedTile_txnCount : (producedTile cr t now q L hdr).txnCount = t.txnCount := by
  simp [producedTile, advanceSlot_snd]

@[simp] theorem producedTile_feeTotal :
    (producedTile cr t now q L hdr).feeTotal = (t.feeTotal + (L.map Txn.fee).sum) % 2 ^ 64 := by
  simp [producedTile, advanceSlot_snd]

@[simp] theorem producedTile_fragBufSz : (producedTile cr t now q L hdr).fragBufSz = t.fragBufSz := by
  simp [producedTile, advanceSlot_snd]

@[simp] theorem producedTile_cfg : (producedTile cr t now q L hdr).cfg = t.cfg := by
  simp [producedTile, advanceSlot_snd]

@[simp] theorem producedTile_blockStartTicks :
    (producedTile cr t now q L hdr).blockStartTicks = now := rfl

@[simp] theorem producedTile_parentHash :
    (producedTile cr t now q L hdr).parentHash = cr.sha256 hdr.bytes := by
  simp [producedTile, advanceSlot_snd]

@[simp] theorem producedTile_currentSlot :
    (producedTile cr t now q L hdr).currentSlot = (t.currentSlot + 1) % 2 ^ 64 := by
  simp [producedTile, advanceSlot_snd]

@[simp] theorem producedTile_blockCount :
    (producedTile cr t now q L hdr).blockCount = (t.blockCount + 1) % 2 ^ 64 := by
  simp [producedTile, advanceSlot_snd]

theorem producedTile_currentEpoch : (producedTile cr t now q L hdr).currentEpoch =
    if 0 < (t.currentSlot + 1) % 2 ^ 64 ∧ (t.currentSlot + 1) % 2 ^ 64 % t.cfg.epochLengthSlots = 0
    then (t.currentEpoch + 1) % 2 ^ 64 else t.currentEpoch := by
  simp [producedTile, advanceSlot_snd]

end producedTile

/-! ## The three shapes of a step -/

/-- Everything a step from an invariant-satisfying tile can do. -/
inductive StepShape (cr : Crypto) (t : Tile) : Tile → Label → Prop
  | quiet {t' : Tile} : t'.queue = t.queue → t'.txnCount = t.txnCount → t'.feeTotal = t.feeTotal →
      t'.currentSlot = t.currentSlot → t'.currentEpoch = t.currentEpoch →
      t'.blockCount = t.blockCount → t'.parentHash = t.parentHash →
      t'.blockStartTicks = t.blockStartTicks → t'.cfg = t.cfg → StepShape cr t t' .quiet
  | enqueued {t' : Tile} {txn : Txn} {optSig : Option Nat} {now : Int} :
      t'.queue.Valid → t'.queue.elems = txn ::ₘ t.queue.elems →
      t'.queue.txQueueCnt = t.queue.txQueueCnt + 1 → t'.txnCount = (t.txnCount + 1) % 2 ^ 64 →
      t'.feeTotal = t.feeTotal → t'.currentSlot = t.currentSlot →
      t'.currentEpoch = t.currentEpoch → t'.blockCount = t.blockCount →
      t'.parentHash = t.parentHash → t'.blockStartTicks = t.blockStartTicks → t'.cfg = t.cfg →
      StepShape cr t t' (.enqueued txn optSig now)
  | produced {now wallclock : Int} {stackHdr hdr : BlockHdr} {L : List Txn} {q' : TxnQueue} :
      t.cfg.blockTimeNs ≤ (max (now - t.blockStartTicks) 0).toNat → Drained t.queue L q' →
      BuiltHdr cr wallclock t stackHdr L hdr →
      L.length = min (min t.cfg.maxTxnsPerBlock 10000) t.queue.txQueueCnt →
      StepShape cr t (producedTile cr t now q' L hdr)
        (.produced now ⟨hdr, L, opensEpoch { t with
          queue := q', feeTotal := (t.feeTotal + (L.map Txn.fee).sum) % 2 ^ 64,
          parentHash := cr.sha256 hdr.bytes }⟩)

/-- A step that writes only the staging buffer, the metrics time or the private key is quiet. -/
theorem StepShape.frame (buf : Vector UInt8 txnMtu) (n : Nat) (m : Int) (k : Vector UInt8 64) :
    StepShape cr t { t with
      fragBuf := buf, fragBufSz := n, lastMetricsTicks := m, sequencerPrivkey := k } .quiet :=
  .quiet rfl rfl rfl rfl rfl rfl rfl rfl rfl

theorem StepShape.quiet_of_eq : StepShape cr t t .quiet :=
  .frame t.fragBuf t.fragBufSz t.lastMetricsTicks t.sequencerPrivkey

/-- Such a step keeps the invariant if the staging size still fits. -/
theorem TileInv.frame (hi : TileInv t) {buf : Vector UInt8 txnMtu} {n : Nat} {m : Int}
    {k : Vector UInt8 64} (hn : n ≤ txnMtu) : TileInv { t with
      fragBuf := buf, fragBufSz := n, lastMetricsTicks := m, sequencerPrivkey := k } :=
  ⟨hi.queue, hn, hi.feeTotal_lt, hi.payloadSz⟩

/-- A production keeps the invariant: what is left queued was queued before. -/
theorem TileInv.produced (hi : TileInv t) {now : Int} {q' : TxnQueue} {L : List Txn}
    {hdr : BlockHdr} (hd : Drained t.queue L q') : TileInv (producedTile cr t now q' L hdr) := by
  refine ⟨by simpa using hd.valid, by simpa using hi.fragBufSz_le, by simp; omega, ?_⟩
  intro x hx
  rw [producedTile_queue] at hx
  exact hi.payloadSz x (by rw [hd.elems]; exact Multiset.mem_add.mpr (.inr hx))

theorem tileInv_init {scratchSz : Nat} {tick : Int} {queueMem : Nat → Txn} {t : Tile} (cfg : Cfg)
    (h : unprivilegedInit scratchSz tick queueMem = some t) : TileInv { t with cfg := cfg } := by
  unfold unprivilegedInit at h
  split at h
  · cases h
  · cases h
    exact ⟨.of_empty rfl, Nat.zero_le _, Nat.two_pow_pos 64, by simp [elems]⟩

/-- `during_housekeeping` from a tile satisfying the invariant: nothing before the interval has
passed, one production after. -/
theorem tileStep_housekeeping (cr : Crypto) (hi : TileInv t) (now wallclock : Int) (stackHdr : BlockHdr)
    (stackTxns : Nat → Txn) :
    ((max (now - t.blockStartTicks) 0).toNat < t.cfg.blockTimeNs →
      tileStep cr t (.duringHousekeeping now wallclock stackHdr stackTxns) = some (t, .quiet)) ∧
    (t.cfg.blockTimeNs ≤ (max (now - t.blockStartTicks) 0).toNat → ∃ L q' hdr,
      tileStep cr t (.duringHousekeeping now wallclock stackHdr stackTxns) =
        some (producedTile cr t now q' L hdr, .produced now ⟨hdr, L, opensEpoch { t with
          queue := q', feeTotal := (t.feeTotal + (L.map Txn.fee).sum) % 2 ^ 64,
          parentHash := cr.sha256 hdr.bytes }⟩) ∧
      L.length = min (min t.cfg.maxTxnsPerBlock 10000) t.queue.txQueueCnt ∧ Drained t.queue L q' ∧
      BuiltHdr cr wallclock t stackHdr L hdr) := by
  refine ⟨fun hlt => by simp [tileStep, duringHousekeeping_of_lt cr wallclock stackHdr stackTxns hlt],
    fun hge => ?_⟩
  obtain ⟨L, q', hdr, hq', hlen, hd, hh⟩ :=
    duringHousekeeping_spec cr wallclock stackHdr stackTxns hi.queue hi.feeTotal_lt hge
  rw [advanceSlot_fst] at hq'
  exact ⟨L, q', hdr, by simp only [tileStep, hq', Option.map_some'], hlen, hd, hh⟩

/-- **No fault, three shapes.** From a tile satisfying the invariant every callback succeeds, its
step has one of the three shapes, and the invariant holds after it. -/
theorem tileStep_shape (cr : Crypto) (hi : TileInv t) (ev : Event) :
    ∃ t' l, tileStep cr t ev = some (t', l) ∧ StepShape cr t t' l ∧ TileInv t' := by
  cases ev with
  | duringFrag chunk =>
    by_cases h : txnMtu < chunk.length
    · exact ⟨{ t with fragBufSz := 0 }, .quiet, by simp [tileStep, duringFrag_of_oversized h],
        .frame _ _ _ _, hi.frame (Nat.zero_le _)⟩
    · obtain ⟨buf, hbuf, -⟩ := duringFrag_of_le (t := t) (not_lt.mp h)
      exact ⟨{ t with fragBuf := buf, fragBufSz := chunk.length }, .quiet, by simp [tileStep, hbuf],
        .frame _ _ _ _, hi.frame (not_lt.mp h)⟩
  | afterFrag optSig now =>
    by_cases h0 : t.fragBufSz = 0
    · exact ⟨t, .quiet, by simp [tileStep, afterFrag_of_empty optSig now h0], .quiet_of_eq, hi⟩
    obtain ⟨txn, -, hsz, -, hok, hfull⟩ := afterFrag_spec optSig now hi.queue hi.fragBufSz_le h0
    by_cases hlt : t.queue.txQueueCnt < t.queue.txQueueCap
    · obtain ⟨q', hq', hv', hcnt, -, helems⟩ := hok hlt
      refine ⟨{ t with queue := q', txnCount := (t.txnCount + 1) % 2 ^ 64, fragBufSz := 0 },
        .enqueued txn optSig now, by simp [tileStep, hq'],
        .enqueued hv' helems hcnt rfl rfl rfl rfl rfl rfl rfl rfl,
        ⟨hv', Nat.zero_le _, hi.feeTotal_lt, ?_⟩⟩
      rw [helems]
      rintro x hx
      rcases Multiset.mem_cons.mp hx with rfl | hx
      · have := hi.fragBufSz_le; omega
      · exact hi.payloadSz x hx
    · exact ⟨{ t with fragBufSz := 0 }, .quiet, by simp [tileStep, hfull (not_lt.mp hlt)],
        .frame _ _ _ _, hi.frame (Nat.zero_le _)⟩
  | duringHousekeeping now wallclock stackHdr stackTxns =>
    obtain ⟨hquiet, hprod⟩ := tileStep_housekeeping cr hi now wallclock stackHdr stackTxns
    by_cases hlt : (max (now - t.blockStartTicks) 0).toNat < t.cfg.blockTimeNs
    · exact ⟨t, .quiet, hquiet hlt, .quiet_of_eq, hi⟩
    obtain ⟨L, q', hdr, hstep, hlen, hd, hh⟩ := hprod (not_lt.mp hlt)
    exact ⟨_, _, hstep, .produced (not_lt.mp hlt) hd hh hlen, hi.produced hd⟩
  | metricsWrite now => exact ⟨_, _, rfl, .frame _ _ _ _, hi.frame hi.fragBufSz_le⟩
  | fini => exact ⟨_, _, rfl, .frame _ _ _ _, hi.frame hi.fragBufSz_le⟩

/-- The step a reachable-state argument is handed is the one `tileStep_shape` describes. -/
theorem tileStep_shape_of_eq (hi : TileInv t) {ev : Event} {l : Label}
    (h : tileStep cr t ev = some (t', l)) : StepShape cr t t' l ∧ TileInv t' := by
  obtain ⟨t'', l', h', hshape, hinv⟩ := tileStep_shape cr hi ev
  rw [h] at h'
  cases h'
  exact ⟨hshape, hinv⟩

/-- Every reachable tile satisfies the invariant. -/
theorem TileReachable.inv {tick₀ : Int} {hist : List Label} (h : TileReachable cr tick₀ t hist) :
    TileInv t := by
  induction h with
  | init cfg _ hinit => exact tileInv_init cfg hinit
  | step _ hstep ih => exact (tileStep_shape_of_eq ih hstep).2

end FdSequencer
