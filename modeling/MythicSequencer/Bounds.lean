import MythicSequencer.Heap

/-!
# Which slots push and pop touch

`load` and `store` check each index against `tx_queue_cap`, so a run of push or pop that returns
has used only indices below the capacity. Lowering the bound to `c` (`withCap`) and getting the
same run shows more: every index it used was below `c`. With `c` the count at the time of the
accesses this says which entries an operation touches: push only those live after its increment,
pop only those live before it, and pop's sift-down only those live after its decrement. The one
access outside this is pop's move of the last entry, `tx_queue[ tx_queue_cnt ]` right after the
decrement, whose index is the count at that moment.

## Main results

* `siftUp_withCap`, `siftDown_withCap` — the sift loops touch only indices below the start index,
  resp. below `tx_queue_cnt`.
* `TxnQueue.Valid.touchesLive` — on every valid queue, push and pop touch only live entries, up to
  the move of the last entry.
* `popMoveLast_withCap_cnt` — that move reads one past the live entries.
-/

namespace FdSequencer

namespace TxnQueue

variable {q : TxnQueue}

/-- The same memory with the bound of `load` and `store` lowered to `c`: only `tx_queue[0, c)`
is addressable. -/
def withCap (q : TxnQueue) (c : Nat) : TxnQueue := { q with txQueueCap := c }

@[simp] theorem withCap_txQueue (c : Nat) : (q.withCap c).txQueue = q.txQueue := rfl

@[simp] theorem withCap_txQueueCnt (c : Nat) : (q.withCap c).txQueueCnt = q.txQueueCnt := rfl

theorem load_withCap {i c : Nat} (hc : i < c) (hi : i < q.txQueueCap) :
    (q.withCap c).load i = q.load i := by
  rw [load_of_lt hc, load_of_lt hi]; rfl

theorem swap_withCap {i j c : Nat} (hic : i < c) (hjc : j < c) (hi : i < q.txQueueCap)
    (hj : j < q.txQueueCap) : (q.withCap c).swap i j = (q.swap i j).map (·.withCap c) := by
  rw [swap_of_lt hic hjc, swap_of_lt hi hj]; rfl

end TxnQueue

open TxnQueue

variable {q : TxnQueue}

/-! ## The sift loops -/

/-- Sift-up from `k` touches only `tx_queue[0, k]`. -/
theorem siftUp_withCap {c : Nat} (fuel : Nat) (q : TxnQueue) (k : Nat) (hc : k < c)
    (hk : k < q.txQueueCap) : siftUp fuel (q.withCap c) k = (siftUp fuel q k).map (·.withCap c) := by
  induction fuel generalizing q k with
  | zero => unfold siftUp; split_ifs <;> rfl
  | succ fuel ih =>
    rcases Nat.eq_zero_or_pos k with rfl | hpos
    · simp [siftUp]
    rw [siftUp_succ hpos (show k < (q.withCap c).txQueueCap from hc), siftUp_succ hpos hk,
      withCap_txQueue]
    split_ifs
    · rfl
    · exact ih (q.swapped k ((k - 1) / 2)) _ (by omega) (by simp; omega)

theorem pickChild_withCap {c ch b : Nat} (hc : q.txQueueCnt ≤ c) (hcap : q.txQueueCnt ≤ q.txQueueCap)
    (hb : b < q.txQueueCnt) : pickChild (q.withCap c) ch b = pickChild q ch b := by
  simp only [pickChild, withCap_txQueueCnt]
  split_ifs with h
  · rw [load_withCap (by omega) (by omega), load_withCap (by omega) (by omega)]
  · rfl

/-- Sift-down from a live `k` touches only the live entries. -/
theorem siftDown_withCap {c : Nat} (fuel : Nat) (q : TxnQueue) (k : Nat) (hc : q.txQueueCnt ≤ c)
    (hcap : q.txQueueCnt ≤ q.txQueueCap) (hk : k < q.txQueueCnt) :
    siftDown fuel (q.withCap c) k = (siftDown fuel q k).map (·.withCap c) := by
  induction fuel generalizing q k with
  | zero => rfl
  | succ fuel ih =>
    obtain ⟨b₁, hb₁, hb₁c, -⟩ := pickChild_spec (c := 2 * k + 1) hk hcap
    obtain ⟨b₂, hb₂, hb₂c, -⟩ := pickChild_spec (c := 2 * k + 2) hb₁c hcap
    simp only [siftDown, pickChild_withCap hc hcap hk, hb₁, pickChild_withCap hc hcap hb₁c, hb₂,
      Option.bind_eq_bind, Option.some_bind]
    split_ifs
    · rfl
    · rw [swap_withCap (by omega) (by omega) (by omega) (by omega), swap_of_lt (by omega) (by omega)]
      exact ih _ _ hc hcap hb₂c

/-! ## Push and pop -/

/-- What push and pop touch on `q`: push only `tx_queue[0, tx_queue_cnt + 1)`, the entries live
after its increment; pop only `tx_queue[0, tx_queue_cnt)`, the entries live before it; and pop's
sift-down only the entries live after its decrement. -/
structure TouchesLive (q : TxnQueue) : Prop where
  push : ∀ txn, q.txQueueCnt < q.txQueueCap →
    txnQueuePush (q.withCap (q.txQueueCnt + 1)) txn =
      (txnQueuePush q txn).map fun r => (r.1, r.2.withCap (q.txQueueCnt + 1))
  pop : txnQueuePop (q.withCap q.txQueueCnt) =
    (txnQueuePop q).map fun r => (r.1, r.2.withCap q.txQueueCnt)
  sift : ∀ q₁, popMoveLast { q with txQueueCnt := q.txQueueCnt - 1 } = some q₁ →
    0 < q₁.txQueueCnt → siftDown q₁.txQueueCnt (q₁.withCap q₁.txQueueCnt) 0 =
      (siftDown q₁.txQueueCnt q₁ 0).map (·.withCap q₁.txQueueCnt)

theorem popMoveLast_txQueueCnt {q₁ : TxnQueue} (h : popMoveLast q = some q₁) :
    q₁.txQueueCnt = q.txQueueCnt ∧ q₁.txQueueCap = q.txQueueCap := by
  simp only [popMoveLast, TxnQueue.load, TxnQueue.store] at h
  split_ifs at h <;> simp at h
  subst h; exact ⟨rfl, rfl⟩

theorem txnQueuePush_withCap (h : q.txQueueCnt < q.txQueueCap) (txn : Txn) :
    txnQueuePush (q.withCap (q.txQueueCnt + 1)) txn =
      (txnQueuePush q txn).map fun r => (r.1, r.2.withCap (q.txQueueCnt + 1)) := by
  rw [txnQueuePush_of_lt (q := q.withCap (q.txQueueCnt + 1)) (by simp [withCap]),
    txnQueuePush_of_lt h, withCap_txQueueCnt,
    show (q.withCap (q.txQueueCnt + 1)).appended txn =
      (q.appended txn).withCap (q.txQueueCnt + 1) from rfl,
    siftUp_withCap _ _ _ (Nat.lt_succ_self _) (by simpa using h)]
  cases siftUp q.txQueueCnt (q.appended txn) q.txQueueCnt <;> rfl

theorem txnQueuePop_withCap (hcap : q.txQueueCnt ≤ q.txQueueCap) :
    txnQueuePop (q.withCap q.txQueueCnt) =
      (txnQueuePop q).map fun r => (r.1, r.2.withCap q.txQueueCnt) := by
  rcases Nat.eq_zero_or_pos q.txQueueCnt with h0 | hpos
  · rw [txnQueuePop_of_empty h0, txnQueuePop_of_empty (by simpa using h0)]; rfl
  obtain ⟨c, hc⟩ : ∃ c, q.txQueueCnt = c + 1 := ⟨_, (Nat.succ_pred_eq_of_pos hpos).symm⟩
  have hc' : (q.withCap q.txQueueCnt).txQueueCnt = c + 1 := hc
  rcases Nat.eq_zero_or_pos c with rfl | hc0
  · rw [txnQueuePop_of_one hc hcap, txnQueuePop_of_one hc' le_rfl]; rfl
  rw [txnQueuePop_of_pos hc hc0 hcap, txnQueuePop_of_pos hc' hc0 le_rfl,
    show (q.withCap q.txQueueCnt).movedLast c = (q.movedLast c).withCap q.txQueueCnt from rfl,
    siftDown_withCap c _ 0 (by simp; omega) (by simp; omega) hc0]
  cases siftDown c (q.movedLast c) 0 <;> rfl

/-- **Push and pop touch live entries.** On every valid queue push and pop touch only the entries
`TouchesLive` names. -/
theorem TxnQueue.Valid.touchesLive (hv : q.Valid) : TouchesLive q := by
  refine ⟨fun txn h => txnQueuePush_withCap h txn, txnQueuePop_withCap hv.cnt_le_cap,
    fun q₁ h hpos => ?_⟩
  obtain ⟨hcnt, hcap⟩ := popMoveLast_txQueueCnt h
  have := hv.cnt_le_cap
  exact siftDown_withCap _ _ _ le_rfl (by simp only [hcnt, hcap]; omega) hpos

/-- The move of the last entry reads `tx_queue[ tx_queue_cnt ]`: checked against the count at
that moment, it is out of range. -/
theorem popMoveLast_withCap_cnt (q : TxnQueue) : popMoveLast (q.withCap q.txQueueCnt) = none := by
  simp [popMoveLast, TxnQueue.load, withCap]

end FdSequencer
