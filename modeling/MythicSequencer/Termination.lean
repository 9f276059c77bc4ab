import MythicSequencer.Heap

/-!
# The sift loops end on every array

`siftUp_run` and `siftDown_run` go through each loop for every contents of `tx_queue` and every
`tx_queue_cnt ≤ tx_queue_cap`: nothing of the heap order is needed for the loops to end. Each
round swaps two live slots and moves `idx` one way, sift-up's strictly down towards 0 and
sift-down's strictly up and below `tx_queue_cnt`, since `best` moves only to a child below the
count. So both loops are well-founded, end within the fuel their callers pass, and give the same
answer for any larger fuel.

## Main results

* `siftUpRound_wf`, `siftDownRound_wf` — the rounds of either loop are well-founded
* `sift_loops_terminate` — the two loops are well-founded and end on every array
-/

namespace FdSequencer

open TxnQueue Relation

theorem SiftUpRound.lt {cnt : Nat} {s s' : TxnQueue × Nat} (h : SiftUpRound cnt s s') : s'.2 < s.2 := by
  have := h.pos; rw [h.parent]; omega

theorem SiftDownRound.lt {cnt : Nat} {s s' : TxnQueue × Nat} (h : SiftDownRound cnt s s') :
    s.2 < s'.2 := by
  rcases h.child with h' | h' <;> omega

/-- Sift-up rounds strictly lower `idx`. -/
theorem siftUpRound_wf (cnt : Nat) : WellFounded (flip (SiftUpRound cnt)) :=
  Subrelation.wf (fun h => h.lt) (measure Prod.snd).wf

/-- Sift-down rounds strictly lower `cnt - idx`, as `idx` stays below `cnt`. -/
theorem siftDownRound_wf (cnt : Nat) : WellFounded (flip (SiftDownRound cnt)) :=
  Subrelation.wf (fun h => show cnt - _ < cnt - _ by have := h.lt; have := h.live'; omega)
    (measure fun s : TxnQueue × Nat => cnt - s.2).wf

/-- **Both sift loops end on every array.** For every contents of `tx_queue` and every
`tx_queue_cnt ≤ tx_queue_cap`, the rounds of either loop are well-founded; from any live `idx`
each loop is a chain of its rounds, which swap two live slots and move `idx` strictly down to its
parent, resp. strictly up to a live child, and it ends within `idx`, resp. `tx_queue_cnt - idx`,
rounds, with the same answer for any larger fuel. So `push` below capacity and `pop` of a
non-empty queue return. -/
theorem sift_loops_terminate (q : TxnQueue) (hcap : q.txQueueCnt ≤ q.txQueueCap) :
    WellFounded (flip (SiftUpRound q.txQueueCnt)) ∧
      WellFounded (flip (SiftDownRound q.txQueueCnt)) ∧
      (∀ k < q.txQueueCnt, ∃ q' j, (∀ fuel, k ≤ fuel → siftUp fuel q k = some q') ∧
        ReflTransGen (SiftUpRound q.txQueueCnt) (q, k) (q', j)) ∧
      (∀ k < q.txQueueCnt, ∃ q' j,
        (∀ fuel, q.txQueueCnt - k ≤ fuel → siftDown fuel q k = some q') ∧
        ReflTransGen (SiftDownRound q.txQueueCnt) (q, k) (q', j)) ∧
      (q.txQueueCnt < q.txQueueCap → ∀ t, ∃ q', txnQueuePush q t = some (true, q')) ∧
      (0 < q.txQueueCnt → ∃ q', txnQueuePop q = some (some (q.txQueue 0), q')) :=
  ⟨siftUpRound_wf _, siftDownRound_wf _,
    fun _ hk => (siftUp_run hk hcap).imp fun _ ⟨j, hq', hc, _⟩ =>
      ⟨j, hq', hc.mono fun _ _ h => h.toSiftUpRound⟩,
    fun _ hk => (siftDown_run hk hcap).imp fun _ ⟨j, hq', hc, _⟩ =>
      ⟨j, hq', hc.mono fun _ _ h => h.toSiftDownRound⟩,
    fun h t => (txnQueuePush_total h t).imp fun _ h => h.1,
    fun h => (txnQueuePop_total hcap h).imp fun _ h => h.1⟩

/-- Sift-down from the root of three entries in increasing fee order, no heap, ends. -/
theorem sift_loops_terminate_increasing :
    ∃ q', siftDown 3 ⟨fun i => { Txn.zeroed with fee := i }, 3, 3⟩ 0 = some q' := by
  obtain ⟨-, -, -, hdown, -, -⟩ := sift_loops_terminate ⟨fun i => { Txn.zeroed with fee := i }, 3, 3⟩ le_rfl
  obtain ⟨q', -, hq', -⟩ := hdown 0 (by decide)
  exact ⟨q', hq' 3 le_rfl⟩

end FdSequencer
