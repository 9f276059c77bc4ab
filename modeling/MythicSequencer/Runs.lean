import MythicSequencer.Invariants
import MythicSequencer.Bounds
import Mathlib.Data.List.Sort

/-!
# Laws of whole runs

A run's history is the list of its step labels, latest first. `producedBlocks` reads off the
blocks in production order, `enqueuedTxns` the entries `after_frag` enqueued, `drainedTxns` the
entries the blocks took, and `lastStart` the `fd_tickcount()` reading of the latest production, or
of init. `RunInv` says what a reachable tile's fields are in terms of its history: it holds at
init and every step shape keeps it, so it holds along every run, and the laws below are read off
it.

## Main results

* `txn_conservation` — `txn_count` counts the enqueues, and every enqueued entry is either queued
  or in exactly one block.
* `slot_epoch_of_reachable` — slots, block count and epoch follow the number of blocks produced.
* `housekeeping_cadence` — a housekeeping call produces exactly one block when the interval since
  the last production has passed, and otherwise nothing.
* `feeTotal_of_reachable` — `fee_total` is the drained fees' sum in `ulong`, which can wrap.
* `parentHash_chain` — each header's parent hash is the hash of the previous header object.
* `parentHash_reads_stack_pad` — that object's last 4 bytes are stale stack bytes.
* `produced_blocks_bounded_sorted` — every block is within the size clamp and fee-ordered.
* `tile_accesses_in_bounds` — no callback of a reachable tile faults, and push and pop touch only
  live entries, up to pop's move of the last entry.
-/

namespace FdSequencer

open Mathlib (Vector)
open TxnQueue

/-! ## What a history records -/

/-- The blocks a history produced, in production order. -/
@[simp] def producedBlocks : List Label → List Block
  | [] => []
  | .quiet :: hist => producedBlocks hist
  | .enqueued _ _ _ :: hist => producedBlocks hist
  | .produced _ b :: hist => producedBlocks hist ++ [b]

/-- The entries `after_frag` enqueued, in order. -/
@[simp] def enqueuedTxns : List Label → List Txn
  | [] => []
  | .quiet :: hist => enqueuedTxns hist
  | .enqueued txn _ _ :: hist => enqueuedTxns hist ++ [txn]
  | .produced _ _ :: hist => enqueuedTxns hist

/-- The entries the blocks of a history took, in drain order. -/
def drainedTxns (hist : List Label) : List Txn := (producedBlocks hist).flatMap Block.txns

/-- The `fd_tickcount()` reading of the latest production, or `tick₀`, that of init. -/
@[simp] def lastStart (tick₀ : Int) : List Label → Int
  | [] => tick₀
  | .quiet :: hist => lastStart tick₀ hist
  | .enqueued _ _ _ :: hist => lastStart tick₀ hist
  | .produced now _ :: _ => now

/-! ## The run invariant -/

/-- What a reachable tile's fields say about its history. Counters are `ulong`s, so each is the
count it keeps modulo `2^64`; the epoch is exact while fewer than `2^64` blocks were produced. -/
structure RunInv (cr : Crypto) (tick₀ : Int) (t : Tile) (hist : List Label) : Prop where
  txnCount : t.txnCount = (enqueuedTxns hist).length % 2 ^ 64
  conserved : (enqueuedTxns hist : Multiset Txn) = t.queue.elems + ↑(drainedTxns hist)
  blocks : ∀ b ∈ producedBlocks hist, b.hdr.txnCount = b.txns.length ∧
    b.txns.length ≤ min t.cfg.maxTxnsPerBlock 10000 ∧ b.txns.Pairwise fun x y => y.fee ≤ x.fee
  blockCount : t.blockCount = (producedBlocks hist).length % 2 ^ 64
  currentSlot : t.currentSlot = (producedBlocks hist).length % 2 ^ 64
  slots : (producedBlocks hist).map (fun b => b.hdr.slot) =
    (List.range (producedBlocks hist).length).map (· % 2 ^ 64)
  newEpochs : (producedBlocks hist).map Block.newEpoch =
    (List.range (producedBlocks hist).length).map fun k =>
      decide (0 < (k + 1) % 2 ^ 64 ∧ (k + 1) % 2 ^ 64 % t.cfg.epochLengthSlots = 0)
  currentEpoch : (producedBlocks hist).length < 2 ^ 64 →
    t.currentEpoch = (producedBlocks hist).length / t.cfg.epochLengthSlots
  blockStartTicks : t.blockStartTicks = lastStart tick₀ hist
  feeTotal : t.feeTotal = ((drainedTxns hist).map Txn.fee).sum % 2 ^ 64
  parentHashes : ((producedBlocks hist).map fun b => b.hdr.parentHash) ++ [t.parentHash] =
    zeros 32 :: (producedBlocks hist).map fun b => cr.sha256 b.hdr.bytes

@[simp] theorem drainedTxns_nil : drainedTxns [] = [] := rfl

@[simp] theorem drainedTxns_quiet (hist : List Label) : drainedTxns (.quiet :: hist) = drainedTxns hist :=
  rfl

@[simp] theorem drainedTxns_enqueued (txn : Txn) (optSig : Option Nat) (now : Int)
    (hist : List Label) : drainedTxns (.enqueued txn optSig now :: hist) = drainedTxns hist := rfl

/-- The entries a history enqueued are those its enqueue labels carry. -/
theorem mem_enqueuedTxns {x : Txn} {hist : List Label} :
    x ∈ enqueuedTxns hist ↔ ∃ optSig now, Label.enqueued x optSig now ∈ hist := by
  induction hist with
  | nil => simp
  | cons l hist ih =>
    cases l with
    | quiet => simp [ih]
    | enqueued txn optSig now =>
      simp only [enqueuedTxns, List.mem_append, List.mem_singleton, ih, List.mem_cons,
        List.not_mem_nil, or_false, Label.enqueued.injEq]
      constructor
      · rintro (⟨o, n, h⟩ | rfl)
        exacts [⟨o, n, .inr h⟩, ⟨optSig, now, .inl ⟨rfl, rfl, rfl⟩⟩]
      · rintro ⟨o, n, ⟨rfl, -, -⟩ | h⟩
        exacts [.inr rfl, .inl ⟨o, n, h⟩]
    | produced now b => simp [ih]

@[simp] theorem drainedTxns_produced (now : Int) (b : Block) (hist : List Label) :
    drainedTxns (.produced now b :: hist) = drainedTxns hist ++ b.txns := by
  simp [drainedTxns]

variable {cr : Crypto} {tick₀ : Int} {t t' : Tile} {hist : List Label} {l : Label}

theorem runInv_init {scratchSz : Nat} {queueMem : Nat → Txn} (cfg : Cfg)
    (h : unprivilegedInit scratchSz tick₀ queueMem = some t) :
    RunInv cr tick₀ { t with cfg := cfg } [] := by
  unfold unprivilegedInit at h
  split at h
  · cases h
  · cases h
    exact ⟨rfl, by simp [elems], by simp, rfl, rfl, rfl, rfl, by simp, rfl, by simp, rfl⟩

/-- The epoch law across one production: `advance_slot`'s modulo test keeps
`current_epoch = current_slot / epoch_length_slots`. -/
theorem epoch_succ {n e L : Nat} (he : e = n / L) (hn : n + 1 < 2 ^ 64) :
    (if 0 < (n % 2 ^ 64 + 1) % 2 ^ 64 ∧ (n % 2 ^ 64 + 1) % 2 ^ 64 % L = 0 then (e + 1) % 2 ^ 64
      else e) = (n + 1) / L := by
  have hle : n / L ≤ n := Nat.div_le_self n L
  rw [Nat.mod_eq_of_lt (show n < 2 ^ 64 by omega), Nat.mod_eq_of_lt hn, Nat.succ_div, he]
  by_cases hd : (n + 1) % L = 0
  · rw [if_pos ⟨Nat.succ_pos n, hd⟩, if_pos (Nat.dvd_of_mod_eq_zero hd), Nat.mod_eq_of_lt (by omega)]
  · rw [if_neg fun h => hd h.2, if_neg fun h => hd (Nat.mod_eq_zero_of_dvd h)]; rfl

theorem RunInv.quiet (hr : RunInv cr tick₀ t hist) (hq : t'.queue = t.queue)
    (hn : t'.txnCount = t.txnCount) (hf : t'.feeTotal = t.feeTotal)
    (hs : t'.currentSlot = t.currentSlot) (he : t'.currentEpoch = t.currentEpoch)
    (hb : t'.blockCount = t.blockCount) (hp : t'.parentHash = t.parentHash)
    (ht : t'.blockStartTicks = t.blockStartTicks) (hc : t'.cfg = t.cfg) :
    RunInv cr tick₀ t' (.quiet :: hist) := by
  obtain ⟨h₁, h₂, h₃, h₄, h₅, h₆, h₇, h₈, h₉, h₁₀, h₁₁⟩ := hr
  refine ⟨?_, ?_, ?_, ?_, ?_, ?_, ?_, ?_, ?_, ?_, ?_⟩ <;>
    simp only [producedBlocks, enqueuedTxns, lastStart, drainedTxns_quiet, hq, hn, hf, hs, he, hb,
      hp, ht, hc] <;>
    assumption

theorem RunInv.enqueued {txn : Txn} {optSig : Option Nat} {now : Int}
    (hr : RunInv cr tick₀ t hist)
    (helems : t'.queue.elems = txn ::ₘ t.queue.elems) (hn : t'.txnCount = (t.txnCount + 1) % 2 ^ 64)
    (hf : t'.feeTotal = t.feeTotal) (hs : t'.currentSlot = t.currentSlot)
    (he : t'.currentEpoch = t.currentEpoch) (hb : t'.blockCount = t.blockCount)
    (hp : t'.parentHash = t.parentHash) (ht : t'.blockStartTicks = t.blockStartTicks)
    (hc : t'.cfg = t.cfg) : RunInv cr tick₀ t' (.enqueued txn optSig now :: hist) := by
  obtain ⟨h₁, h₂, h₃, h₄, h₅, h₆, h₇, h₈, h₉, h₁₀, h₁₁⟩ := hr
  refine ⟨?_, ?_, ?_, ?_, ?_, ?_, ?_, ?_, ?_, ?_, ?_⟩ <;>
    simp only [producedBlocks, enqueuedTxns, lastStart, drainedTxns_enqueued, hf, hs, he, hb, hp,
      ht, hc]
  all_goals try assumption
  · rw [hn, h₁, List.length_append, List.length_singleton, Nat.mod_add_mod]
  · rw [← Multiset.coe_add, h₂, helems, Multiset.coe_singleton, ← Multiset.singleton_add,
      add_comm _ ({txn} : Multiset Txn), add_assoc]

theorem RunInv.produced {now wallclock : Int} {stackHdr hdr : BlockHdr} {L : List Txn}
    {q' : TxnQueue} (hr : RunInv cr tick₀ t hist) (hd : Drained t.queue L q')
    (hh : BuiltHdr cr wallclock t stackHdr L hdr)
    (hlen : L.length = min (min t.cfg.maxTxnsPerBlock 10000) t.queue.txQueueCnt) :
    RunInv cr tick₀ (producedTile cr t now q' L hdr) (.produced now ⟨hdr, L, opensEpoch { t with
      queue := q', feeTotal := (t.feeTotal + (L.map Txn.fee).sum) % 2 ^ 64,
      parentHash := cr.sha256 hdr.bytes }⟩ :: hist) := by
  obtain ⟨h₁, h₂, h₃, h₄, h₅, h₆, h₇, h₈, h₉, h₁₀, h₁₁⟩ := hr
  refine ⟨?_, ?_, ?_, ?_, ?_, ?_, ?_, ?_, ?_, ?_, ?_⟩ <;>
    simp only [producedBlocks, enqueuedTxns, lastStart, drainedTxns_produced, producedTile_queue,
      producedTile_txnCount, producedTile_feeTotal, producedTile_cfg, producedTile_blockStartTicks,
      producedTile_parentHash, producedTile_currentSlot, producedTile_blockCount,
      List.length_append, List.length_singleton, List.map_append, List.map_cons, List.map_nil,
      List.range_succ]
  · exact h₁
  · rw [h₂, hd.elems, ← Multiset.coe_add, add_comm (↑L : Multiset Txn), add_assoc,
      add_comm (↑L : Multiset Txn)]
  · intro b hb
    rcases List.mem_append.mp hb with hb | hb
    · exact h₃ b hb
    · rw [List.mem_singleton.mp hb]
      exact ⟨hh.txnCount, hlen ▸ Nat.min_le_left _ _, hd.sorted⟩
  · rw [h₄, Nat.mod_add_mod]
  · rw [h₅, Nat.mod_add_mod]
  · rw [h₆, hh.slot, h₅]
  · rw [h₇, opensEpoch, h₅, Nat.mod_add_mod]
  · intro hlt
    rw [producedTile_currentEpoch, h₅]
    exact epoch_succ (h₈ (by omega)) hlt
  · rw [h₁₀, List.sum_append, Nat.mod_add_mod]
  · rw [hh.parentHash, h₁₁, List.cons_append]

/-- The run invariant is kept by every step shape. -/
theorem RunInv.step (hr : RunInv cr tick₀ t hist) (hs : StepShape cr t t' l) :
    RunInv cr tick₀ t' (l :: hist) := by
  cases hs with
  | quiet hq hn hf hs he hb hp ht hc => exact hr.quiet hq hn hf hs he hb hp ht hc
  | enqueued _ helems _ hn hf hs he hb hp ht hc => exact hr.enqueued helems hn hf hs he hb hp ht hc
  | produced _ hd hh hlen => exact hr.produced hd hh hlen

/-- Every reachable tile satisfies the run invariant for its history. -/
theorem TileReachable.runInv (h : TileReachable cr tick₀ t hist) : RunInv cr tick₀ t hist := by
  induction h with
  | init cfg _ hinit => exact runInv_init cfg hinit
  | step hreach hstep ih => exact ih.step (tileStep_shape_of_eq hreach.inv hstep).1

/-! ## Steps a run can take

The runs the examples below are built on, one step at a time. -/

/-- `unprivileged_init` with exactly the scratch it asks for, then a configuration with a nonzero
epoch length: the first state of a run. -/
theorem TileReachable.init_cfg (cr : Crypto) (tick₀ : Int) (queueMem : Nat → Txn) (cfg : Cfg)
    (hpos : 0 < cfg.epochLengthSlots) :
    ∃ t, TileReachable cr tick₀ t [] ∧ t.queue = ⟨queueMem, 0, queueMax⟩ ∧
      t.blockStartTicks = tick₀ ∧ t.cfg = cfg :=
  ⟨_, .init cfg hpos (show unprivilegedInit (tileSize + queueMax * txnSize) tick₀ queueMem = some _
    from rfl), rfl, rfl, rfl⟩

/-- A fragment of at most `FD_SEQUENCER_TXN_MTU` bytes is staged. -/
theorem TileReachable.stage (h : TileReachable cr tick₀ t hist) (chunk : List UInt8)
    (hle : chunk.length ≤ txnMtu) :
    ∃ buf, TileReachable cr tick₀ { t with fragBuf := buf, fragBufSz := chunk.length }
      (.quiet :: hist) := by
  obtain ⟨buf, hbuf, -⟩ := duringFrag_of_le (t := t) hle
  exact ⟨buf, h.step (show tileStep cr t (.duringFrag chunk) = some (_, .quiet) by
    simp only [tileStep, hbuf, Option.map_some'])⟩

/-- A fragment of 1 to `FD_SEQUENCER_TXN_MTU` bytes, then `after_frag` on a queue with room:
one entry is enqueued, with the hint's fee. -/
theorem TileReachable.frag_enqueue (h : TileReachable cr tick₀ t hist)
    (hlt : t.queue.txQueueCnt < t.queue.txQueueCap) (chunk : List UInt8) (hpos : chunk ≠ [])
    (hle : chunk.length ≤ txnMtu) (optSig : Option Nat) (now : Int) :
    ∃ t' txn, TileReachable cr tick₀ t' (.enqueued txn optSig now :: .quiet :: hist) ∧
      txn.fee = afterFragFee optSig ∧ t'.queue.txQueueCnt = t.queue.txQueueCnt + 1 ∧
      t'.queue.txQueueCap = t.queue.txQueueCap ∧ t'.blockStartTicks = t.blockStartTicks ∧
      t'.cfg = t.cfg := by
  obtain ⟨buf, h₁⟩ := h.stage chunk hle
  obtain ⟨txn, -, -, hfee, hok, -⟩ := afterFrag_spec (t := { t with
    fragBuf := buf, fragBufSz := chunk.length }) optSig now h.inv.queue hle (by simpa using hpos)
  obtain ⟨q', hq', -, hcnt, hcap, -⟩ := hok hlt
  have h₂ : tileStep cr { t with fragBuf := buf, fragBufSz := chunk.length } (.afterFrag optSig now) =
      some ({ t with
        fragBuf := buf, queue := q', txnCount := (t.txnCount + 1) % 2 ^ 64, fragBufSz := 0 },
        .enqueued txn optSig now) := by
    simp only [tileStep, hq', Option.map_some']
  exact ⟨_, txn, h₁.step h₂, hfee, hcnt, hcap, rfl, rfl⟩

/-- Housekeeping once the interval since the last production has passed: one block, of
`min(max_txns_per_block, 10000, tx_queue_cnt)` entries, drained from the queue. -/
theorem TileReachable.produce (h : TileReachable cr tick₀ t hist) (now : Int)
    (hdue : t.cfg.blockTimeNs ≤ (max (now - t.blockStartTicks) 0).toNat) :
    ∃ t' b, TileReachable cr tick₀ t' (.produced now b :: hist) ∧
      b.txns.length = min (min t.cfg.maxTxnsPerBlock 10000) t.queue.txQueueCnt ∧
      t'.queue.txQueueCnt = t.queue.txQueueCnt - b.txns.length ∧ t'.blockStartTicks = now ∧
      t'.cfg = t.cfg := by
  obtain ⟨-, hprod⟩ := tileStep_housekeeping cr h.inv now 0 BlockHdr.zeroed fun _ => Txn.zeroed
  obtain ⟨L, q', hdr, hstep, hlen, hd, -⟩ := hprod hdue
  have hcard := congrArg Multiset.card hd.elems
  rw [card_elems, Multiset.card_add, Multiset.coe_card, card_elems] at hcard
  have hleft : q'.txQueueCnt = t.queue.txQueueCnt - L.length := by omega
  exact ⟨_, _, h.step hstep, hlen, by rw [producedTile_queue]; exact hleft, by simp, by simp⟩

/-- From init at tick 0 with the default configuration, two one-byte fragments, each followed by
`after_frag` at tick 0, with the hints `optSig₁` and `optSig₂`. -/
theorem TileReachable.two_enqueued (cr : Crypto) (optSig₁ optSig₂ : Option Nat) :
    ∃ t x₁ x₂, TileReachable cr 0 t
        [.enqueued x₂ optSig₂ 0, .quiet, .enqueued x₁ optSig₁ 0, .quiet] ∧
      x₁.fee = afterFragFee optSig₁ ∧ x₂.fee = afterFragFee optSig₂ ∧ t.queue.txQueueCnt = 2 ∧
      t.queue.txQueueCap = queueMax ∧ t.blockStartTicks = 0 ∧ t.cfg = cfgDefault := by
  obtain ⟨t₀, h₀, hq₀, hs₀, hc₀⟩ :=
    TileReachable.init_cfg cr 0 (fun _ => Txn.zeroed) cfgDefault (by decide)
  obtain ⟨t₁, x₁, h₁, hf₁, hn₁, hk₁, hs₁, hc₁⟩ :=
    h₀.frag_enqueue (by simp [hq₀, queueMax]) [0] (List.cons_ne_nil _ _) (by decide) optSig₁ 0
  obtain ⟨t₂, x₂, h₂, hf₂, hn₂, hk₂, hs₂, hc₂⟩ := h₁.frag_enqueue
    (by simp [hn₁, hk₁, hq₀, queueMax]) [0] (List.cons_ne_nil _ _) (by decide) optSig₂ 0
  exact ⟨t₂, x₁, x₂, h₂, hf₁, hf₂, by simp [hn₂, hn₁, hq₀], by simp [hk₂, hk₁, hq₀],
    by rw [hs₂, hs₁, hs₀], by rw [hc₂, hc₁, hc₀]⟩

/-- The same two enqueues, then housekeeping at tick 400000000, once the default interval has
passed: one block, of both entries, which empties the queue. -/
theorem TileReachable.two_enqueued_block (cr : Crypto) (optSig₁ optSig₂ : Option Nat) :
    ∃ t b x₁ x₂, TileReachable cr 0 t
        [.produced 400000000 b, .enqueued x₂ optSig₂ 0, .quiet, .enqueued x₁ optSig₁ 0, .quiet] ∧
      b.txns.Perm [x₁, x₂] ∧ x₁.fee = afterFragFee optSig₁ ∧ x₂.fee = afterFragFee optSig₂ ∧
      t.queue.txQueueCnt = 0 ∧ t.blockStartTicks = 400000000 ∧ t.cfg = cfgDefault := by
  obtain ⟨t, x₁, x₂, h, hf₁, hf₂, hcnt, -, hstart, hcfg⟩ := TileReachable.two_enqueued cr optSig₁ optSig₂
  obtain ⟨t', b, h', hlen, hcnt', hstart', hcfg'⟩ := h.produce 400000000 (by rw [hstart, hcfg]; decide)
  have hempty : t'.queue.txQueueCnt = 0 := by rw [hcnt', hlen, hcfg, hcnt]; rfl
  have hperm := h'.runInv.conserved
  simp only [enqueuedTxns, drainedTxns_produced, drainedTxns_enqueued, drainedTxns_quiet,
    drainedTxns_nil, List.nil_append, List.singleton_append, elems_eq_zero hempty, zero_add] at hperm
  exact ⟨t', b, x₁, x₂, h', (Multiset.coe_eq_coe.mp hperm).symm, hf₁, hf₂, hempty, hstart',
    hcfg'.trans hcfg⟩

/-! ## Conservation of transactions -/

/-- **Transaction conservation.** Along every run `txn_count` is, in `ulong`, the number of
successful enqueues; that number is the queue's count plus the blocks' `txn_count`s; and the
entries enqueued are, as a multiset, exactly those still queued and those the blocks took, so
none is lost or taken twice. A drop on a full queue changes neither the queue nor `txn_count`. -/
theorem txn_conservation (h : TileReachable cr tick₀ t hist) :
    t.txnCount =
      (t.queue.txQueueCnt + ((producedBlocks hist).map fun b => b.hdr.txnCount).sum) % 2 ^ 64 ∧
    t.queue.txQueueCnt + ((producedBlocks hist).map fun b => b.hdr.txnCount).sum =
      (enqueuedTxns hist).length ∧
    (enqueuedTxns hist : Multiset Txn) = t.queue.elems + ↑(drainedTxns hist) ∧
    (t.queue.txQueueCap ≤ t.queue.txQueueCnt → ∀ optSig now, ∃ t',
      tileStep cr t (.afterFrag optSig now) = some (t', .quiet) ∧ t'.queue = t.queue ∧
        t'.txnCount = t.txnCount) := by
  have hr := h.runInv
  have hi := h.inv
  have hcount : t.queue.txQueueCnt + ((producedBlocks hist).map fun b => b.hdr.txnCount).sum =
      (enqueuedTxns hist).length := by
    have hcard := congrArg Multiset.card hr.conserved
    rw [Multiset.coe_card, Multiset.card_add, card_elems, Multiset.coe_card, drainedTxns,
      List.flatMap_def, List.length_flatten, List.map_map] at hcard
    rw [hcard, List.map_congr_left fun b hb => (hr.blocks b hb).1]
    rfl
  refine ⟨hcount ▸ hr.txnCount, hcount, hr.conserved, fun hfull optSig now => ?_⟩
  by_cases h0 : t.fragBufSz = 0
  · exact ⟨t, by simp [tileStep, afterFrag_of_empty optSig now h0], rfl, rfl⟩
  · obtain ⟨txn, -, -, -, -, hdrop⟩ := afterFrag_spec optSig now hi.queue hi.fragBufSz_le h0
    exact ⟨{ t with fragBufSz := 0 }, by simp [tileStep, hdrop hfull], rfl, rfl⟩

theorem txn_conservation_two_enqueued_block :
    ∃ t hist, TileReachable ⟨fun _ => zeros 32, fun _ _ _ => zeros 64⟩ 0 t hist ∧ t.txnCount = 2 ∧
      t.queue.txQueueCnt = 0 ∧ (producedBlocks hist).map (fun b => b.hdr.txnCount) = [2] ∧
      (enqueuedTxns hist : Multiset Txn) = ↑(drainedTxns hist) := by
  obtain ⟨t, b, x₁, x₂, h, -, -, -, hcnt, -⟩ :=
    TileReachable.two_enqueued_block ⟨fun _ => zeros 32, fun _ _ _ => zeros 64⟩ none none
  obtain ⟨htxn, hcount, hperm, -⟩ := txn_conservation h
  simp only [producedBlocks, enqueuedTxns, List.nil_append, List.singleton_append, List.map_cons,
    List.map_nil, List.sum_cons, List.sum_nil, List.length_cons, List.length_nil, hcnt,
    elems_eq_zero hcnt, zero_add, add_zero] at htxn hcount hperm
  exact ⟨t, _, h, by rw [htxn, hcount]; rfl, hcnt, by simp [hcount], hperm⟩

/-! ## Slots and epochs -/

/-- **Slots and epochs.** Along every run of fewer than `2^64` productions, `block_count` and
`current_slot` are the number of blocks produced, `current_epoch` is `current_slot /
epoch_length_slots`, the `k`-th header has slot `k`, and `advance_slot` answered 1 for the `k`-th
block exactly when its new slot `k + 1` is a multiple of `epoch_length_slots`. -/
theorem slot_epoch_of_reachable (h : TileReachable cr tick₀ t hist)
    (hlt : (producedBlocks hist).length < 2 ^ 64) :
    t.blockCount = (producedBlocks hist).length ∧ t.currentSlot = (producedBlocks hist).length ∧
    t.currentEpoch = t.currentSlot / t.cfg.epochLengthSlots ∧
    (producedBlocks hist).map (fun b => b.hdr.slot) = List.range (producedBlocks hist).length ∧
    (producedBlocks hist).map Block.newEpoch = (List.range (producedBlocks hist).length).map
      fun k => decide ((k + 1) % t.cfg.epochLengthSlots = 0) := by
  have hr := h.runInv
  have hslot : t.currentSlot = (producedBlocks hist).length := hr.currentSlot.trans (Nat.mod_eq_of_lt hlt)
  refine ⟨hr.blockCount.trans (Nat.mod_eq_of_lt hlt), hslot, hslot ▸ hr.currentEpoch hlt, ?_, ?_⟩
  · rw [hr.slots, List.map_congr_left fun k hk => Nat.mod_eq_of_lt
      ((List.mem_range.mp hk).trans hlt), List.map_id']
  · rw [hr.newEpochs]
    refine List.map_congr_left fun k hk => ?_
    have hk : k + 1 < 2 ^ 64 := by have := List.mem_range.mp hk; omega
    rw [Nat.mod_eq_of_lt hk]
    simp

theorem slot_epoch_two_blocks :
    ∃ t b₁ b₂, TileReachable ⟨fun _ => zeros 32, fun _ _ _ => zeros 64⟩ 0 t
        [.produced 800000000 b₂, .produced 400000000 b₁] ∧ t.cfg.epochLengthSlots = 2 ∧
      t.blockCount = 2 ∧ t.currentSlot = 2 ∧ t.currentEpoch = 1 ∧ b₁.hdr.slot = 0 ∧
      b₂.hdr.slot = 1 ∧ b₁.newEpoch = false ∧ b₂.newEpoch = true := by
  obtain ⟨t₀, h₀, -, hs₀, hc₀⟩ := TileReachable.init_cfg ⟨fun _ => zeros 32, fun _ _ _ => zeros 64⟩ 0
    (fun _ => Txn.zeroed) ⟨400000000, 10000, 2⟩ (by decide)
  obtain ⟨t₁, b₁, h₁, -, -, hs₁, hc₁⟩ := h₀.produce 400000000 (by rw [hs₀, hc₀]; decide)
  obtain ⟨t₂, b₂, h₂, -, -, -, hc₂⟩ := h₁.produce 800000000 (by rw [hs₁, hc₁, hc₀]; decide)
  have hcfg : t₂.cfg = ⟨400000000, 10000, 2⟩ := by rw [hc₂, hc₁, hc₀]
  obtain ⟨hblocks, hslot, hepoch, hslots, hnew⟩ := slot_epoch_of_reachable h₂ (by simp)
  simp only [producedBlocks, List.nil_append, List.singleton_append, List.length_cons,
    List.length_nil, List.map_cons, List.map_nil, hcfg, show List.range 2 = [0, 1] from rfl,
    List.cons.injEq, and_true] at hblocks hslot hepoch hslots hnew
  exact ⟨t₂, b₁, b₂, h₂, by rw [hcfg], hblocks, hslot, by rw [hepoch, hslot], hslots.1,
    hslots.2, hnew.1, hnew.2⟩

/-! ## Block cadence -/

/-- **Cadence.** From every reachable tile, a housekeeping call at the reading `now` succeeds; when
`max(0, now - s)` has reached `block_time_ns`, with `s` the reading of the latest production (or
of init), it produces exactly one block, restarts the timer at `now` and advances the slot and
the block count once; otherwise it changes nothing. -/
theorem housekeeping_cadence (h : TileReachable cr tick₀ t hist) (now wallclock : Int)
    (stackHdr : BlockHdr) (stackTxns : Nat → Txn) :
    ∃ t' l, tileStep cr t (.duringHousekeeping now wallclock stackHdr stackTxns) = some (t', l) ∧
      (t.cfg.blockTimeNs ≤ (max (now - lastStart tick₀ hist) 0).toNat →
        (∃ b, l = .produced now b) ∧ t'.blockStartTicks = now ∧
        t'.currentSlot = (t.currentSlot + 1) % 2 ^ 64 ∧ t'.blockCount = (t.blockCount + 1) % 2 ^ 64) ∧
      ((max (now - lastStart tick₀ hist) 0).toNat < t.cfg.blockTimeNs → l = .quiet ∧ t' = t) := by
  have hstart := h.runInv.blockStartTicks
  obtain ⟨hquiet, hprod⟩ := tileStep_housekeeping cr h.inv now wallclock stackHdr stackTxns
  rw [hstart] at hquiet hprod
  by_cases hlt : (max (now - lastStart tick₀ hist) 0).toNat < t.cfg.blockTimeNs
  · exact ⟨t, .quiet, hquiet hlt, fun hge => absurd hge (not_le.mpr hlt), fun _ => ⟨rfl, rfl⟩⟩
  · obtain ⟨L, q', hdr, hstep, -⟩ := hprod (not_lt.mp hlt)
    exact ⟨_, _, hstep, fun _ => ⟨⟨_, rfl⟩, by simp, by simp, by simp⟩, fun h' => absurd h' hlt⟩

theorem housekeeping_cadence_first_block :
    ∃ t t' b, TileReachable ⟨fun _ => zeros 32, fun _ _ _ => zeros 64⟩ 0 t [] ∧
      tileStep ⟨fun _ => zeros 32, fun _ _ _ => zeros 64⟩ t
        (.duringHousekeeping 400000000 0 BlockHdr.zeroed fun _ => Txn.zeroed) =
        some (t', .produced 400000000 b) ∧ t'.blockStartTicks = 400000000 := by
  obtain ⟨t, h, -, -, hcfg⟩ := TileReachable.init_cfg ⟨fun _ => zeros 32, fun _ _ _ => zeros 64⟩ 0
    (fun _ => Txn.zeroed) cfgDefault (by decide)
  obtain ⟨t', l, hstep, hdue, -⟩ := housekeeping_cadence h 400000000 0 BlockHdr.zeroed fun _ => Txn.zeroed
  obtain ⟨⟨b, rfl⟩, hstart, -⟩ := hdue (by rw [hcfg]; decide)
  exact ⟨t, t', b, h, hstep, hstart⟩

/-! ## The fee total -/

/-- **The fee total is a `ulong` sum.** Along every run `fee_total` is the sum of the fees of all
entries the blocks took, modulo `2^64`; it is that sum only while the sum stays below `2^64`. -/
theorem feeTotal_of_reachable (h : TileReachable cr tick₀ t hist) :
    t.feeTotal = ((drainedTxns hist).map Txn.fee).sum % 2 ^ 64 :=
  h.runInv.feeTotal

theorem feeTotal_of_reachable_two_hints :
    ∃ t hist, TileReachable ⟨fun _ => zeros 32, fun _ _ _ => zeros 64⟩ 0 t hist ∧
      ((drainedTxns hist).map Txn.fee).Perm [2 ^ 63, 2 ^ 63] ∧ t.feeTotal = 0 := by
  obtain ⟨t, b, x₁, x₂, h, hperm, hf₁, hf₂, -⟩ :=
    TileReachable.two_enqueued_block ⟨fun _ => zeros 32, fun _ _ _ => zeros 64⟩ (some (2 ^ 63)) (some (2 ^ 63))
  have hfees : (b.txns.map Txn.fee).Perm [2 ^ 63, 2 ^ 63] := by
    have := hperm.map Txn.fee
    rwa [List.map_cons, List.map_cons, List.map_nil, hf₁, hf₂] at this
  refine ⟨t, _, h, by simpa using hfees, ?_⟩
  rw [feeTotal_of_reachable h]
  simp only [drainedTxns_produced, drainedTxns_enqueued, drainedTxns_quiet, drainedTxns_nil,
    List.nil_append, hfees.sum_eq]
  rfl

/-- Two fee hints of `2^63`, drained into one block: the drained fees sum to `2^64` and
`fee_total` has wrapped to 0. -/
theorem feeTotal_wraps :
    ∃ t hist, TileReachable ⟨fun _ => zeros 32, fun _ _ _ => zeros 64⟩ 0 t hist ∧
      ((drainedTxns hist).map Txn.fee).sum = 2 ^ 64 ∧ t.feeTotal = 0 := by
  obtain ⟨t, b, x₁, x₂, h, hperm, hf₁, hf₂, -⟩ :=
    TileReachable.two_enqueued_block ⟨fun _ => zeros 32, fun _ _ _ => zeros 64⟩ (some (2 ^ 63)) (some (2 ^ 63))
  have hsum : ((drainedTxns [.produced 400000000 b, .enqueued x₂ (some (2 ^ 63)) 0, .quiet,
      .enqueued x₁ (some (2 ^ 63)) 0, .quiet]).map Txn.fee).sum = 2 ^ 64 := by
    simp only [drainedTxns_produced, drainedTxns_enqueued, drainedTxns_quiet, drainedTxns_nil,
      List.nil_append, (hperm.map Txn.fee).sum_eq, List.map_cons, List.map_nil, List.sum_cons,
      List.sum_nil, hf₁, hf₂]
    rfl
  exact ⟨t, _, h, hsum, by rw [h.runInv.feeTotal, hsum]; rfl⟩

/-! ## The parent-hash chain -/

/-- **Parent-hash chain.** Along every run the first header's parent hash is 32 zero bytes, each
later header's is the SHA-256 of the whole previous header object, `sizeof` bytes of it, and the
tile's is that of the latest header. -/
theorem parentHash_chain (h : TileReachable cr tick₀ t hist) :
    ((producedBlocks hist).map fun b => b.hdr.parentHash) ++ [t.parentHash] =
      zeros 32 :: (producedBlocks hist).map fun b => cr.sha256 b.hdr.bytes :=
  h.runInv.parentHashes

theorem parentHash_chain_two_blocks :
    ∃ t b₁ b₂ hist,
      TileReachable ⟨fun l => Vector.replicate 32 (l.getD 0 0 + 1), fun _ _ _ => zeros 64⟩ 0 t
        (.produced 800000000 b₂ :: .produced 400000000 b₁ :: hist) ∧ b₁.txns.length = 2 ∧
      b₁.hdr.parentHash = zeros 32 ∧ b₂.hdr.parentHash = Vector.replicate 32 1 ∧
      t.parentHash = Vector.replicate 32 2 := by
  obtain ⟨t₁, b₁, x₁, x₂, h₁, hperm, -, -, -, hs₁, hc₁⟩ := TileReachable.two_enqueued_block
    ⟨fun l => Vector.replicate 32 (l.getD 0 0 + 1), fun _ _ _ => zeros 64⟩ none none
  obtain ⟨t₂, b₂, h₂, -⟩ := h₁.produce 800000000 (by rw [hs₁, hc₁]; decide)
  have hchain := parentHash_chain h₂
  have hslots := h₂.runInv.slots
  simp only [producedBlocks, List.nil_append, List.singleton_append, List.cons_append,
    List.map_cons, List.map_nil, List.length_cons, List.length_nil,
    show List.range 2 = [0, 1] from rfl, List.cons.injEq, and_true] at hchain hslots
  obtain ⟨hp₁, hp₂, hp⟩ := hchain
  have hbyte : ∀ hdr : BlockHdr, hdr.bytes.getD 0 0 = UInt8.ofNat (hdr.slot / 256 ^ 0) :=
    fun _ => rfl
  refine ⟨t₂, b₁, b₂, _, h₂, hperm.length_eq, hp₁, ?_, ?_⟩
  · rw [hp₂, hbyte, hslots.1]; rfl
  · rw [hp, hbyte, hslots.2]; rfl

/-! ## What each block holds -/

/-- **Blocks are bounded and fee-ordered.** Along every run each produced block holds at most
`min(max_txns_per_block, 10000)` entries, in non-increasing fee order, and its header's
`txn_count` is their number. -/
theorem produced_blocks_bounded_sorted (h : TileReachable cr tick₀ t hist) :
    ∀ b ∈ producedBlocks hist, b.hdr.txnCount = b.txns.length ∧
      b.txns.length ≤ min t.cfg.maxTxnsPerBlock 10000 ∧ b.txns.Pairwise fun x y => y.fee ≤ x.fee :=
  h.runInv.blocks

theorem produced_blocks_bounded_sorted_two_hints :
    ∃ t b hist, TileReachable ⟨fun _ => zeros 32, fun _ _ _ => zeros 64⟩ 0 t
        (.produced 400000000 b :: hist) ∧ b.hdr.txnCount = 2 ∧ b.txns.map Txn.fee = [900, 100] := by
  obtain ⟨t, b, x₁, x₂, h, hperm, hf₁, hf₂, -⟩ :=
    TileReachable.two_enqueued_block ⟨fun _ => zeros 32, fun _ _ _ => zeros 64⟩ (some 100) (some 900)
  obtain ⟨hcount, -, hsorted⟩ := produced_blocks_bounded_sorted h b (by simp)
  have hfees : b.txns.map Txn.fee = [900, 100] := by
    refine List.eq_of_perm_of_sorted (r := (· ≥ ·)) ?_ (List.pairwise_map.mpr hsorted) (by decide)
    have := hperm.map Txn.fee
    rw [List.map_cons, List.map_cons, List.map_nil, hf₁, hf₂] at this
    exact this.trans (.swap _ _ _)
  exact ⟨t, b, _, h, by rw [hcount, hperm.length_eq]; rfl, hfees⟩

/-- **The parent hash reads the stack.** From every reachable tile, a production that drains at
least one entry leaves as `parent_hash` the SHA-256 of the header's 180 written bytes followed by
the 4 trailing bytes of the stack buffer `hdr`, which `build_block` does not write on this path. -/
theorem parentHash_reads_stack_pad (h : TileReachable cr tick₀ t hist) (now wallclock : Int)
    (stackHdr : BlockHdr) (stackTxns : Nat → Txn)
    (hdue : t.cfg.blockTimeNs ≤ (max (now - lastStart tick₀ hist) 0).toNat)
    (hmax : 0 < t.cfg.maxTxnsPerBlock) (hcnt : 0 < t.queue.txQueueCnt) :
    ∃ t' b, tileStep cr t (.duringHousekeeping now wallclock stackHdr stackTxns) =
        some (t', .produced now b) ∧ b.hdr.pad = stackHdr.pad ∧
      t'.parentHash = cr.sha256 (b.hdr.preSigBytes ++ b.hdr.signature.toList ++ stackHdr.pad.toList) := by
  obtain ⟨-, hprod⟩ := tileStep_housekeeping cr h.inv now wallclock stackHdr stackTxns
  rw [h.runInv.blockStartTicks] at hprod
  obtain ⟨L, q', hdr, hstep, hlen, -, hh⟩ := hprod hdue
  have hne : L ≠ [] := fun hL => by simp [hL] at hlen; omega
  refine ⟨_, _, hstep, hh.pad hne, ?_⟩
  rw [producedTile_parentHash, BlockHdr.bytes, hh.pad hne]

/-- A stack buffer with a nonzero padding byte, and a hash that reads byte 180: the new parent
hash is not the hash of the header's fields with zero padding. -/
theorem parentHash_reads_stack_pad_nonzero :
    ∃ t hist t' b, TileReachable ⟨fun l => Vector.replicate 32 (l.getD 180 0), fun _ _ _ => zeros 64⟩
        0 t hist ∧
      tileStep ⟨fun l => Vector.replicate 32 (l.getD 180 0), fun _ _ _ => zeros 64⟩ t
        (.duringHousekeeping 400000000 0 { BlockHdr.zeroed with pad := ⟨[1, 0, 0, 0], rfl⟩ }
          fun _ => Txn.zeroed) = some (t', .produced 400000000 b) ∧
      t'.parentHash ≠ Vector.replicate 32
        ((b.hdr.preSigBytes ++ b.hdr.signature.toList ++ (zeros 4).toList).getD 180 0) := by
  obtain ⟨t, x₁, x₂, h, -, -, hcnt, -, -, hcfg⟩ :=
    TileReachable.two_enqueued ⟨fun l => Vector.replicate 32 (l.getD 180 0), fun _ _ _ => zeros 64⟩
      none none
  obtain ⟨t', b, hstep, -, hph⟩ := parentHash_reads_stack_pad h 400000000 0
    { BlockHdr.zeroed with pad := ⟨[1, 0, 0, 0], rfl⟩ } (fun _ => Txn.zeroed)
    (by rw [hcfg]; simp only [lastStart]; decide) (by rw [hcfg]; decide) (by rw [hcnt]; decide)
  have hlen : (b.hdr.preSigBytes ++ b.hdr.signature.toList).length ≤ 180 := by simp
  refine ⟨t, _, t', b, h, hstep, ?_⟩
  rw [hph]
  simp only [List.getD_eq_getElem?_getD, List.getElem?_append_right hlen]
  simp [zeros]
  decide

/-! ## Bounds -/

/-- **In bounds.** Every reachable tile keeps its staging size within `FD_SEQUENCER_TXN_MTU` and
its queue within capacity, with payloads of 1 to `FD_SEQUENCER_TXN_MTU` bytes; none of its
callbacks faults on any input, so every `tx_queue`, `txns_out`, staging and payload access is in
range; and push and pop on its queue touch only live entries, up to pop's move of the last
entry. -/
theorem tile_accesses_in_bounds (h : TileReachable cr tick₀ t hist) :
    t.fragBufSz ≤ txnMtu ∧ t.queue.txQueueCnt ≤ t.queue.txQueueCap ∧
    (∀ x ∈ t.queue.elems, 0 < x.payloadSz ∧ x.payloadSz ≤ txnMtu) ∧
    (∀ ev, ∃ r, tileStep cr t ev = some r) ∧ TouchesLive t.queue := by
  have hi := h.inv
  refine ⟨hi.fragBufSz_le, hi.queue.cnt_le_cap, hi.payloadSz, fun ev => ?_, hi.queue.touchesLive⟩
  obtain ⟨t', l, hs, -⟩ := tileStep_shape cr hi ev
  exact ⟨_, hs⟩

theorem tile_accesses_in_bounds_two_queued :
    ∃ t hist, TileReachable ⟨fun _ => zeros 32, fun _ _ _ => zeros 64⟩ 0 t hist ∧ t.queue.txQueueCnt = 2 ∧
      t.fragBufSz = 1 ∧ (∀ x ∈ t.queue.elems, 0 < x.payloadSz ∧ x.payloadSz ≤ txnMtu) ∧
      (∀ ev, ∃ r, tileStep ⟨fun _ => zeros 32, fun _ _ _ => zeros 64⟩ t ev = some r) ∧
      TouchesLive t.queue := by
  obtain ⟨t, x₁, x₂, h, -, -, hcnt, -⟩ := TileReachable.two_enqueued ⟨fun _ => zeros 32, fun _ _ _ => zeros 64⟩ none none
  obtain ⟨buf, h'⟩ := h.stage [0] (by decide)
  obtain ⟨-, -, hpay, hstep, hlive⟩ := tile_accesses_in_bounds h'
  exact ⟨_, _, h', hcnt, rfl, hpay, hstep, hlive⟩

/-- A reachable queue of two entries: the pop that drains it moves `tx_queue[ 1 ]` to the root
after the decrement, when the count is already 1. In range for the capacity, that read is not
below the count at its time. -/
theorem txnQueuePop_reads_past_count :
    ∃ t hist, TileReachable ⟨fun _ => zeros 32, fun _ _ _ => zeros 64⟩ 0 t hist ∧
      t.queue.txQueueCnt = 2 ∧ (popMoveLast { t.queue with txQueueCnt := 1 }).isSome ∧
      popMoveLast ({ t.queue with txQueueCnt := 1 }.withCap 1) = none := by
  obtain ⟨t, x₁, x₂, h, -, -, hcnt, hcap, -⟩ :=
    TileReachable.two_enqueued ⟨fun _ => zeros 32, fun _ _ _ => zeros 64⟩ none none
  refine ⟨t, _, h, hcnt, ?_, popMoveLast_withCap_cnt _⟩
  simp [popMoveLast, TxnQueue.load, TxnQueue.store, hcap, queueMax]

end FdSequencer
