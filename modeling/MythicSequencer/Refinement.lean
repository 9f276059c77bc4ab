import MythicSequencer.Heap

/-!
# The queue refines a bounded priority multiset

The abstract model is what the queue is for: a multiset of entries under a capacity, into which
`push` adds one entry and out of which `pop` takes one of largest fee. `BoundedPQ.Step` says what
each call may answer and which multiset it leaves; it fixes no order among equal fees, as the
spec's tie-break policy asks.

The queue's states are those reached from an empty queue (`tx_queue_cnt = 0`, any capacity, any
array contents) by any sequence of calls, `QueueReachable`. The abstraction is `elems`, the
multiset of `tx_queue[0, tx_queue_cnt)`.

## Main results

* `QueueReachable.valid` — every reachable queue is within capacity and a heap
* `queueStep_spec` — from a valid queue, every call succeeds and is a step of the abstract model,
  and the calls that answer "full", "empty" or only peek leave the queue as it was
* `txnQueue_refines_bounded_multiset` — so every call at every reachable queue is a step of the
  bounded priority multiset
* `txnQueue_reachable_heap` — every reachable queue is a heap, with a largest fee at its root
-/

namespace FdSequencer

open TxnQueue

/-- A client's call on the queue. -/
inductive QueueOp
  | push (t : Txn)
  | pop
  | peek

/-- What a call returns: `push`'s 1 or 0, the entry `pop` copies to `*out` (`none` for its 0),
and the entry `peek` points to (`none` for `NULL`). -/
inductive QueueAns
  | pushed (ok : Bool)
  | popped (out : Option Txn)
  | peeked (top : Option Txn)
  deriving DecidableEq

/-- One call on the queue. -/
def queueStep (q : TxnQueue) : QueueOp → Option (QueueAns × TxnQueue)
  | .push t => (txnQueuePush q t).map fun r => (.pushed r.1, r.2)
  | .pop => (txnQueuePop q).map fun r => (.popped r.1, r.2)
  | .peek => some (.peeked (txnQueuePeek q), q)

/-- The queues reached from an empty one by any sequence of calls. -/
inductive QueueReachable : TxnQueue → Prop
  | empty (txQueue : Nat → Txn) (cap : Nat) : QueueReachable ⟨txQueue, 0, cap⟩
  | step {q q' : TxnQueue} {op : QueueOp} {ans : QueueAns} :
      QueueReachable q → queueStep q op = some (ans, q') → QueueReachable q'

/-- The bounded priority multiset of capacity `cap`: each call's answers, and the multiset each
leaves. `pop` and `peek` may answer any entry of largest fee. -/
inductive BoundedPQ.Step (cap : Nat) : Multiset Txn → QueueOp → QueueAns → Multiset Txn → Prop
  | pushOk {M : Multiset Txn} {t : Txn} :
      Multiset.card M < cap → Step cap M (.push t) (.pushed true) (t ::ₘ M)
  | pushFull {M : Multiset Txn} {t : Txn} :
      cap ≤ Multiset.card M → Step cap M (.push t) (.pushed false) M
  | popEmpty : Step cap 0 .pop (.popped none) 0
  | popMax {M : Multiset Txn} {e : Txn} :
      e ∈ M → (∀ x ∈ M, x.fee ≤ e.fee) → Step cap M .pop (.popped (some e)) (M.erase e)
  | peekEmpty : Step cap 0 .peek (.peeked none) 0
  | peekMax {M : Multiset Txn} {e : Txn} :
      e ∈ M → (∀ x ∈ M, x.fee ≤ e.fee) → Step cap M .peek (.peeked (some e)) M

variable {q : TxnQueue}

/-- **The queue simulates the bounded priority multiset.** From a valid queue every call
succeeds, in range, and is a step of `BoundedPQ` on `elems`; a refused push, an empty pop and a
peek change nothing. -/
theorem queueStep_spec (hv : q.Valid) (op : QueueOp) :
    ∃ ans q', queueStep q op = some (ans, q') ∧ q'.Valid ∧ q'.txQueueCap = q.txQueueCap ∧
      BoundedPQ.Step q.txQueueCap q.elems op ans q'.elems ∧
      (ans = .pushed false ∨ ans = .popped none ∨ op = .peek → q' = q) := by
  cases op with
  | push t =>
    by_cases hfull : q.txQueueCap ≤ q.txQueueCnt
    · refine ⟨.pushed false, q, by simp [queueStep, txnQueuePush_of_full hfull], hv, rfl,
        .pushFull (by rwa [card_elems]), fun _ => rfl⟩
    · obtain ⟨q', hq', hv', -, hcap, helems⟩ := txnQueuePush_spec hv (not_le.mp hfull) t
      refine ⟨.pushed true, q', by simp [queueStep, hq'], hv', hcap, ?_, by simp⟩
      rw [helems]
      exact .pushOk (by rw [card_elems]; omega)
  | pop =>
    rcases Nat.eq_zero_or_pos q.txQueueCnt with h | h
    · refine ⟨.popped none, q, by simp [queueStep, txnQueuePop_of_empty h], hv, rfl, ?_,
        fun _ => rfl⟩
      rw [elems_eq_zero h]
      exact .popEmpty
    · obtain ⟨q', hq', hv', -, hcap, helems⟩ := txnQueuePop_spec hv h
      obtain ⟨hmem, hmax⟩ := hv.root_max h
      refine ⟨.popped (some (q.txQueue 0)), q', by simp [queueStep, hq'], hv', hcap, ?_, by simp⟩
      have : BoundedPQ.Step q.txQueueCap _ _ _ _ := .popMax hmem hmax
      rwa [helems, Multiset.erase_cons_head, ← helems] at this
  | peek =>
    refine ⟨.peeked (txnQueuePeek q), q, rfl, hv, rfl, ?_, fun _ => rfl⟩
    rcases Nat.eq_zero_or_pos q.txQueueCnt with h | h
    · rw [txnQueuePeek_of_empty h, elems_eq_zero h]
      exact .peekEmpty
    · rw [txnQueuePeek_of_pos h]
      exact .peekMax (hv.root_max h).1 (hv.root_max h).2

/-- Every reachable queue is within capacity and a heap. -/
theorem QueueReachable.valid (hq : QueueReachable q) : q.Valid := by
  induction hq with
  | empty txQueue cap => exact .of_empty rfl
  | step _ hstep ih =>
    obtain ⟨ans, q', hq', hv', -⟩ := queueStep_spec ih _
    rw [hstep] at hq'
    cases hq'
    exact hv'

/-- A push below capacity at a reachable queue reaches a queue with one more entry. -/
theorem QueueReachable.push (hq : QueueReachable q) (h : q.txQueueCnt < q.txQueueCap) (t : Txn) :
    ∃ q', QueueReachable q' ∧ q'.txQueueCnt = q.txQueueCnt + 1 ∧ q'.txQueueCap = q.txQueueCap ∧
      q'.elems = t ::ₘ q.elems := by
  obtain ⟨q', hpush, -, hcnt, hcap, helems⟩ := txnQueuePush_spec hq.valid h t
  exact ⟨q', hq.step (show queueStep q (.push t) = some (.pushed true, q') by
    simp [queueStep, hpush]), hcnt, hcap, helems⟩

/-- Five pushes, of fees 100, 500, 200, 900 and 300, into an empty queue of capacity 8, each entry
zeroed but for its fee. -/
theorem QueueReachable.five_pushes :
    ∃ q, QueueReachable q ∧ q.txQueueCnt = 5 ∧ q.elems.map Txn.fee = {100, 500, 200, 900, 300} ∧
      { Txn.zeroed with fee := 900 } ∈ q.elems ∧ ∀ x ∈ q.elems, x.fee ≤ 900 := by
  obtain ⟨q₁, h₁, n₁, c₁, e₁⟩ := (QueueReachable.empty (fun _ => Txn.zeroed) 8).push (by decide)
    { Txn.zeroed with fee := 100 }
  obtain ⟨q₂, h₂, n₂, c₂, e₂⟩ := h₁.push (by rw [n₁, c₁]; decide) { Txn.zeroed with fee := 500 }
  obtain ⟨q₃, h₃, n₃, c₃, e₃⟩ := h₂.push (by rw [n₂, c₂, n₁, c₁]; decide)
    { Txn.zeroed with fee := 200 }
  obtain ⟨q₄, h₄, n₄, c₄, e₄⟩ := h₃.push (by rw [n₃, c₃, n₂, c₂, n₁, c₁]; decide)
    { Txn.zeroed with fee := 900 }
  obtain ⟨q₅, h₅, n₅, -, e₅⟩ := h₄.push (by rw [n₄, c₄, n₃, c₃, n₂, c₂, n₁, c₁]; decide)
    { Txn.zeroed with fee := 300 }
  have hfees : q₅.elems.map Txn.fee = {100, 500, 200, 900, 300} := by
    rw [e₅, e₄, e₃, e₂, e₁, elems_eq_zero rfl]
    decide
  refine ⟨q₅, h₅, by rw [n₅, n₄, n₃, n₂, n₁], hfees,
    by rw [e₅, e₄]; exact Multiset.mem_cons_of_mem (Multiset.mem_cons_self _ _), fun x hx => ?_⟩
  have := Multiset.mem_map_of_mem Txn.fee hx
  rw [hfees] at this
  simp only [Multiset.insert_eq_cons, Multiset.mem_cons, Multiset.mem_singleton] at this
  omega

/-! ## The queue laws over every run -/

/-- **Refinement.** At every queue reached from empty, every call succeeds and moves the multiset
of live entries by a step of the bounded priority multiset of capacity `tx_queue_cap`: push adds
the given entry exactly when there is room, pop removes exactly one occurrence of an entry of
largest fee and answers it, peek answers one; a full push, an empty pop and a peek leave count
and array untouched. -/
theorem txnQueue_refines_bounded_multiset {q : TxnQueue} (hq : QueueReachable q) (op : QueueOp) :
    ∃ ans q', queueStep q op = some (ans, q') ∧ q'.txQueueCap = q.txQueueCap ∧
      BoundedPQ.Step q.txQueueCap q.elems op ans q'.elems ∧
      (ans = .pushed false ∨ ans = .popped none ∨ op = .peek → q' = q) := by
  obtain ⟨ans, q', hstep, -, hcap, habs, hframe⟩ := queueStep_spec hq.valid op
  exact ⟨ans, q', hstep, hcap, habs, hframe⟩

theorem txnQueue_refines_bounded_multiset_five_pushes :
    ∃ q e q', QueueReachable q ∧ q.elems.map Txn.fee = {100, 500, 200, 900, 300} ∧
      queueStep q .pop = some (.popped (some e), q') ∧ e.fee = 900 ∧
      q'.elems.map Txn.fee = {100, 500, 200, 300} := by
  obtain ⟨q, hq, -, hfees, h900, hle⟩ := QueueReachable.five_pushes
  obtain ⟨ans, q', hstep, -, habs, -⟩ := txnQueue_refines_bounded_multiset hq .pop
  generalize hM : q.elems = M at habs
  generalize hM' : q'.elems = M' at habs
  cases habs with
  | popEmpty => rw [hM] at h900; exact absurd h900 (Multiset.not_mem_zero _)
  | @popMax _ e hmem hmax =>
    subst hM
    have he : e.fee = 900 := le_antisymm (hle e hmem) (hmax _ h900)
    have hmap := congrArg (Multiset.map Txn.fee) (Multiset.cons_erase hmem)
    rw [Multiset.map_cons, hfees, he,
      show ({100, 500, 200, 900, 300} : Multiset Nat) = 900 ::ₘ {100, 500, 200, 300} by decide]
      at hmap
    exact ⟨q, e, q', hq, hfees, hstep, he, hM' ▸ (Multiset.cons_inj_right _).mp hmap⟩

/-- **Heap invariant.** Every reachable queue is within capacity, ordered as a max-heap by fee,
and so has an entry of largest fee at its root. -/
theorem txnQueue_reachable_heap {q : TxnQueue} (hq : QueueReachable q) :
    q.txQueueCnt ≤ q.txQueueCap ∧
      (∀ i, 0 < i → i < q.txQueueCnt → (q.txQueue i).fee ≤ (q.txQueue ((i - 1) / 2)).fee) ∧
      ∀ i < q.txQueueCnt, (q.txQueue i).fee ≤ (q.txQueue 0).fee :=
  ⟨hq.valid.cnt_le_cap, hq.valid.heap, hq.valid.heap.fee_le_root⟩

theorem txnQueue_reachable_heap_five_pushes :
    ∃ q : TxnQueue, QueueReachable q ∧ q.elems.map Txn.fee = {100, 500, 200, 900, 300} ∧
      (q.txQueue 0).fee = 900 ∧
      ∀ i, 0 < i → i < q.txQueueCnt → (q.txQueue i).fee ≤ (q.txQueue ((i - 1) / 2)).fee := by
  obtain ⟨q, hq, hcnt, hfees, h900, hle⟩ := QueueReachable.five_pushes
  obtain ⟨-, hheap, hroot⟩ := txnQueue_reachable_heap hq
  obtain ⟨i, hi, hqi⟩ := mem_elems.mp h900
  have hge := hroot i hi
  rw [hqi] at hge
  exact ⟨q, hq, hfees, le_antisymm (hle _ (mem_elems.mpr ⟨0, by omega, rfl⟩)) hge, hheap⟩

end FdSequencer
