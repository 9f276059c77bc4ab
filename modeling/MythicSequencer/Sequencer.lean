import MythicSequencer.Entries
import Mathlib.Data.Multiset.Sort

/-!
# The tile refines a fee-priority sequencer

What the tile is for, without heaps, arrays or counters: a pool of pending transactions under a
capacity, into which an accepted transaction goes, and out of which each block takes as many as
fit, largest fees first. `SeqStep` is one step of that sequencer on the labels a tile step reports:
a quiet step leaves the pool alone, an enqueue accepts one transaction into a pool below capacity,
and a production takes `min(size, |pool|)` transactions in non-increasing fee order, none with a
smaller fee than any left behind. Ties are broken in no particular order.

The tile's pool is `elems` of its queue, its capacity `FD_SEQUENCER_QUEUE_MAX` and its block size
`min(max_txns_per_block, 10000)`. The refinement is stated for runs from `unprivileged_init` and,
since a law about what follows a state needs it, for steps from any reachable state.

## Main results

* `tileStep_simulates` — from a tile satisfying the invariant, every step is a step of the
  sequencer on the queue's multiset.
* `tile_refines_sequencer` — every run of the tile is a run of the sequencer.
* `SeqPath.drain` — without arrivals, the sequencer drains its pool in fee order, across blocks.
* `drain_in_fee_order` — so does the tile, from every reachable state, once arrivals stop.
-/

namespace FdSequencer

open TxnQueue

/-! ## The sequencer -/

/-- One step of the fee-priority sequencer with capacity `cap` and block size `size`, on the
labels a tile step reports. -/
inductive SeqStep (cap size : Nat) : Multiset Txn → Label → Multiset Txn → Prop
  | quiet {M : Multiset Txn} : SeqStep cap size M .quiet M
  | accept {M : Multiset Txn} {x : Txn} {optSig : Option Nat} {now : Int} :
      Multiset.card M < cap → SeqStep cap size M (.enqueued x optSig now) (x ::ₘ M)
  | produce {M M' : Multiset Txn} {now : Int} {b : Block} : M = ↑b.txns + M' →
      b.txns.length = min size (Multiset.card M) → b.txns.Pairwise (fun x y => y.fee ≤ x.fee) →
      (∀ x ∈ b.txns, ∀ y ∈ M', y.fee ≤ x.fee) → SeqStep cap size M (.produced now b) M'

/-- The sequencer's paths from the pool `M₀`, with their labels latest first. Its runs are the
paths from the empty pool. -/
inductive SeqPath (cap size : Nat) (M₀ : Multiset Txn) : List Label → Multiset Txn → Prop
  | nil : SeqPath cap size M₀ [] M₀
  | step {hist : List Label} {M M' : Multiset Txn} {l : Label} :
      SeqPath cap size M₀ hist M → SeqStep cap size M l M' → SeqPath cap size M₀ (l :: hist) M'

/-- The pool's fees, largest first. -/
def poolFees (M : Multiset Txn) : List Nat := (M.map Txn.fee).sort (· ≥ ·)

@[simp] theorem length_poolFees (M : Multiset Txn) : (poolFees M).length = Multiset.card M := by
  simp [poolFees]

section produce

variable {cap size : Nat} {M M' : Multiset Txn} {now : Int} {b : Block}

theorem SeqStep.produce_length (h : SeqStep cap size M (.produced now b) M') :
    b.txns.length = min size (Multiset.card M) := by
  cases h with
  | produce _ hlen => exact hlen

/-- A production splits the pool's sorted fees: the block's, in block order, then those left. -/
theorem SeqStep.poolFees_produce (h : SeqStep cap size M (.produced now b) M') :
    b.txns.map Txn.fee ++ poolFees M' = poolFees M := by
  cases h with
  | produce hM _ hsorted htop =>
    refine List.eq_of_perm_of_sorted (r := (· ≥ ·)) ?_ ?_ (Multiset.sort_sorted _ _)
    · rw [← Multiset.coe_eq_coe, ← Multiset.coe_add, poolFees, Multiset.sort_eq, poolFees,
        Multiset.sort_eq, hM, Multiset.map_add, Multiset.map_coe]
    · exact List.pairwise_append.mpr ⟨List.pairwise_map.mpr hsorted, Multiset.sort_sorted _ _,
        by simpa [poolFees] using htop⟩

end produce

/-- **Draining in fee order.** Along a path that accepts nothing, the fees drained, block after
block, followed by the pool's sorted fees, are the sorted fees of the pool it started from; and
`k` productions drain `min(k · size, |M₀|)` transactions. -/
theorem SeqPath.drain {cap size : Nat} {M₀ M : Multiset Txn} {recent : List Label}
    (hp : SeqPath cap size M₀ recent M)
    (hno : ∀ x optSig now, Label.enqueued x optSig now ∉ recent) :
    (drainedTxns recent).map Txn.fee ++ poolFees M = poolFees M₀ ∧
      (drainedTxns recent).length =
        min ((producedBlocks recent).length * size) (Multiset.card M₀) := by
  induction hp with
  | nil => simp
  | @step recent M M' l _ hstep ih =>
    obtain ⟨hfees, hlen⟩ := ih fun x o n hx => hno x o n (List.mem_cons_of_mem _ hx)
    cases l with
    | quiet =>
      cases hstep
      exact ⟨hfees, hlen⟩
    | enqueued x o n => exact absurd (List.mem_cons_self _ _) (hno x o n)
    | produced now b =>
      have hcard : Multiset.card M = Multiset.card M₀ - (drainedTxns recent).length := by
        have := congrArg List.length hfees
        simp only [List.length_append, List.length_map, length_poolFees] at this
        omega
      refine ⟨by rw [drainedTxns_produced, List.map_append, List.append_assoc,
        hstep.poolFees_produce, hfees], ?_⟩
      rw [drainedTxns_produced, producedBlocks, List.length_append, List.length_append,
        hstep.produce_length, hcard, hlen, List.length_singleton, Nat.add_mul, Nat.one_mul]
      omega

/-! ## The tile simulates it -/

variable {cr : Crypto} {tick₀ : Int} {t₀ t t' : Tile} {hist recent : List Label} {l : Label}

/-- The tile's steps from `t₀`, with their labels latest first. -/
inductive TileSteps (cr : Crypto) (t₀ : Tile) : List Label → Tile → Prop
  | nil : TileSteps cr t₀ [] t₀
  | step {t t' : Tile} {recent : List Label} {ev : Event} {l : Label} :
      TileSteps cr t₀ recent t → tileStep cr t ev = some (t', l) → TileSteps cr t₀ (l :: recent) t'

/-- Steps from a reachable tile reach tiles. -/
theorem TileSteps.reachable (h₀ : TileReachable cr tick₀ t₀ hist) (hs : TileSteps cr t₀ recent t) :
    TileReachable cr tick₀ t (recent ++ hist) := by
  induction hs with
  | nil => exact h₀
  | step _ hstep ih => exact ih.step hstep

/-- **One step.** From a tile satisfying the invariant, every step is a step of the sequencer of
capacity `tx_queue_cap` and block size `min(max_txns_per_block, 10000)` on the queue's multiset,
and keeps the configuration. -/
theorem tileStep_simulates (hi : TileInv t) {ev : Event} (h : tileStep cr t ev = some (t', l)) :
    SeqStep t.queue.txQueueCap (min t.cfg.maxTxnsPerBlock 10000) t.queue.elems l t'.queue.elems ∧
      t'.cfg = t.cfg := by
  have hcap := (tileStep_frame hi h).cap
  cases (tileStep_shape_of_eq hi h).1 with
  | quiet hq _ _ _ _ _ _ _ hc => exact ⟨hq ▸ .quiet, hc⟩
  | enqueued hv helems hcnt _ _ _ _ _ _ _ hc =>
    have hle := hv.cnt_le_cap
    rw [hcnt, hcap] at hle
    exact ⟨helems ▸ .accept (by rw [card_elems]; omega), hc⟩
  | produced _ hd _ hlen =>
    refine ⟨?_, producedTile_cfg ..⟩
    rw [producedTile_queue]
    exact .produce hd.elems (by rw [card_elems]; exact hlen) hd.sorted hd.top

/-- A reachable tile's step, with the capacity `unprivileged_init` gave the queue. -/
theorem TileReachable.simulates (h : TileReachable cr tick₀ t hist) {ev : Event}
    (hstep : tileStep cr t ev = some (t', l)) :
    SeqStep queueMax (min t.cfg.maxTxnsPerBlock 10000) t.queue.elems l t'.queue.elems ∧
      t'.cfg = t.cfg :=
  h.frameInv.cap ▸ tileStep_simulates h.inv hstep

/-- **The tile refines the fee-priority sequencer.** Every run of the tile from
`unprivileged_init`, under every interleaving of callbacks and every input to them, is a run of
the sequencer of capacity `FD_SEQUENCER_QUEUE_MAX` and block size `min(max_txns_per_block, 10000)`
from the empty pool, with the same labels, the queue's multiset being the pool at every state. -/
theorem tile_refines_sequencer (h : TileReachable cr tick₀ t hist) :
    SeqPath queueMax (min t.cfg.maxTxnsPerBlock 10000) 0 hist t.queue.elems := by
  induction h with
  | init cfg _ hinit =>
    unfold unprivilegedInit at hinit
    split at hinit
    · cases hinit
    · cases hinit
      exact .nil
  | step hreach hstep ih =>
    obtain ⟨hsim, hcfg⟩ := hreach.simulates hstep
    rw [hcfg]
    exact ih.step hsim

theorem tile_refines_sequencer_two_enqueued_block :
    ∃ t b x₁ x₂, TileReachable ⟨fun _ => zeros 32, fun _ _ _ => zeros 64⟩ 0 t
        [.produced 400000000 b, .enqueued x₂ none 0, .quiet, .enqueued x₁ none 0, .quiet] ∧
      b.txns.length = 2 ∧ t.queue.elems = 0 ∧ SeqPath queueMax 10000 0
        [.produced 400000000 b, .enqueued x₂ none 0, .quiet, .enqueued x₁ none 0, .quiet] 0 := by
  obtain ⟨t, b, x₁, x₂, h, hperm, -, -, hcnt, -, hcfg⟩ :=
    TileReachable.two_enqueued_block ⟨fun _ => zeros 32, fun _ _ _ => zeros 64⟩ none none
  have hrun := tile_refines_sequencer h
  rw [hcfg, elems_eq_zero hcnt] at hrun
  exact ⟨t, b, x₁, x₂, h, hperm.length_eq, elems_eq_zero hcnt, hrun⟩

/-- From a reachable tile, any steps are a path of the sequencer from the queue's multiset, and
keep the configuration. -/
theorem TileSteps.simulates (h₀ : TileReachable cr tick₀ t₀ hist) (hs : TileSteps cr t₀ recent t) :
    SeqPath queueMax (min t₀.cfg.maxTxnsPerBlock 10000) t₀.queue.elems recent t.queue.elems ∧
      t.cfg = t₀.cfg := by
  induction hs with
  | nil => exact ⟨.nil, rfl⟩
  | step hsteps hstep ih =>
    obtain ⟨hsim, hcfg⟩ := (hsteps.reachable h₀).simulates hstep
    rw [ih.2] at hsim
    exact ⟨ih.1.step hsim, hcfg.trans ih.2⟩

/-- **Once arrivals stop, blocks drain in fee order.** From every reachable tile `t₀`, along every
sequence of steps that enqueues nothing, the fees of the entries drained, block after block,
followed by the fees still queued, sorted, are the fees queued at `t₀`, sorted; and `k`
productions drain `min(k · min(max_txns_per_block, 10000), tx_queue_cnt)` entries. So the drained
fees never increase across block boundaries, they are the largest fees queued at `t₀`, and the
queue is empty after `⌈tx_queue_cnt / min(max_txns_per_block, 10000)⌉` productions. -/
theorem drain_in_fee_order (h₀ : TileReachable cr tick₀ t₀ hist) (hs : TileSteps cr t₀ recent t)
    (hno : ∀ x optSig now, Label.enqueued x optSig now ∉ recent) :
    (drainedTxns recent).map Txn.fee ++ poolFees t.queue.elems = poolFees t₀.queue.elems ∧
      (drainedTxns recent).length =
        min ((producedBlocks recent).length * min t₀.cfg.maxTxnsPerBlock 10000)
          t₀.queue.txQueueCnt := by
  rw [← card_elems]
  exact (hs.simulates h₀).1.drain hno

theorem drain_in_fee_order_two_enqueued :
    ∃ t₀ hist t b, TileReachable ⟨fun _ => zeros 32, fun _ _ _ => zeros 64⟩ 0 t₀ hist ∧
      TileSteps ⟨fun _ => zeros 32, fun _ _ _ => zeros 64⟩ t₀ [.produced 400000000 b] t ∧
      t₀.queue.txQueueCnt = 2 ∧ t.queue.txQueueCnt = 0 := by
  obtain ⟨t₀, x₁, x₂, h, -, -, hcnt, -, hstart, hcfg⟩ :=
    TileReachable.two_enqueued ⟨fun _ => zeros 32, fun _ _ _ => zeros 64⟩ (some 7) (some 7)
  obtain ⟨-, hprod⟩ := tileStep_housekeeping ⟨fun _ => zeros 32, fun _ _ _ => zeros 64⟩ h.inv
    400000000 0 BlockHdr.zeroed fun _ => Txn.zeroed
  obtain ⟨L, q', hdr, hstep, -⟩ := hprod (by rw [hstart, hcfg]; decide)
  have hs := TileSteps.nil.step hstep
  obtain ⟨hfees, hlen⟩ := drain_in_fee_order h hs (by simp)
  have hleft := congrArg List.length hfees
  simp only [List.length_append, List.length_map, length_poolFees, card_elems, producedBlocks,
    List.nil_append, List.length_singleton, Nat.one_mul, hcfg, hcnt] at hlen hleft
  rw [show min (min cfgDefault.maxTxnsPerBlock 10000) 2 = 2 from rfl] at hlen
  exact ⟨t₀, _, _, _, h, hs, hcnt, by omega⟩

end FdSequencer
