import MythicSequencer.TxnQueue
import Mathlib.Data.Multiset.Range
import Mathlib.Data.Multiset.Nodup
import Mathlib.Logic.Relation

/-!
# The queue keeps a heap of the entries it was given

What each queue operation does to the live entries `tx_queue[0, tx_queue_cnt)` and to their
order. The order is the max-heap property `IsHeap`; the entries are the multiset `elems`.

Each sift loop is gone through once, for every contents of `tx_queue`: `siftUp_run` and
`siftDown_run` are inductions on the loop, which show that it ends within the fuel its caller
passes and name the rounds it takes, `SiftUpMove` and `SiftDownMove` (a swap of two live slots
that the loop's test let through), and the test it stops on. Everything else is read off that
chain of rounds. Swaps only rearrange `[0, tx_queue_cnt)`, so `elems` is fixed by the loops and
changed only by the copy-in of `push` and the copy-out of `pop`. The heap order holds along the
chain from a heap that is ordered except around `idx`, `UpReady` and `DownReady`, since one round
moves the exception one level (`UpReady.swap`, `DownReady.swap`), and the test the loop stops on
closes it (`valid_of_le`).

## Main results

* `siftUp_run`, `siftDown_run` — each loop ends on every array, after a chain of its rounds
* `txnQueuePush_total`, `txnQueuePop_total` — push below capacity and pop of a non-empty queue
  return on every array, one entry in, resp. the root out, and keep a heap a heap
* `IsHeap.fee_le_root` — the root of a heap has the largest fee
-/

namespace FdSequencer

namespace TxnQueue

variable {q : TxnQueue}

/-- The live entries `tx_queue[0, tx_queue_cnt)`, as a multiset. -/
def elems (q : TxnQueue) : Multiset Txn := (Multiset.range q.txQueueCnt).map q.txQueue

/-- Max-heap order on the live entries: no entry's fee exceeds its parent's. -/
def IsHeap (q : TxnQueue) : Prop :=
  ∀ i, 0 < i → i < q.txQueueCnt → (q.txQueue i).fee ≤ (q.txQueue ((i - 1) / 2)).fee

/-- The queue invariant: within capacity, and a heap. -/
structure Valid (q : TxnQueue) : Prop where
  cnt_le_cap : q.txQueueCnt ≤ q.txQueueCap
  heap : q.IsHeap

/-- A queue with no live entries is valid. -/
theorem Valid.of_empty (h : q.txQueueCnt = 0) : q.Valid :=
  ⟨h ▸ Nat.zero_le _, fun i _ hi => absurd (h ▸ hi) (Nat.not_lt_zero i)⟩

/-- `q'` holds the live entries of `q`, possibly rearranged, in an array of the same size. -/
structure Rearranges (q q' : TxnQueue) : Prop where
  cnt : q'.txQueueCnt = q.txQueueCnt
  cap : q'.txQueueCap = q.txQueueCap
  elems : q'.elems = q.elems

theorem Rearranges.refl (q : TxnQueue) : Rearranges q q := ⟨rfl, rfl, rfl⟩

theorem Rearranges.trans {q₁ q₂ q₃ : TxnQueue} (h₁ : Rearranges q₁ q₂) (h₂ : Rearranges q₂ q₃) :
    Rearranges q₁ q₃ :=
  ⟨h₂.cnt.trans h₁.cnt, h₂.cap.trans h₁.cap, h₂.elems.trans h₁.elems⟩

theorem card_elems (q : TxnQueue) : Multiset.card q.elems = q.txQueueCnt := by simp [elems]

theorem mem_elems {t : Txn} : t ∈ q.elems ↔ ∃ i < q.txQueueCnt, q.txQueue i = t := by
  simp [elems]

/-- A swap inside `[0, tx_queue_cnt)` permutes the live entries. -/
theorem rearranges_swapped {i j : Nat} (hi : i < q.txQueueCnt) (hj : j < q.txQueueCnt) :
    Rearranges q (q.swapped i j) := by
  refine ⟨rfl, rfl, ?_⟩
  have hperm : (Multiset.range q.txQueueCnt).map (Equiv.swap i j) = Multiset.range q.txQueueCnt := by
    rw [Multiset.Nodup.ext ((Multiset.nodup_range _).map (Equiv.injective _))
      (Multiset.nodup_range _)]
    intro k
    simp only [Multiset.mem_map, Multiset.mem_range]
    refine ⟨fun ⟨m, hm, hk⟩ => ?_, fun hk => ⟨Equiv.swap i j k, ?_, Equiv.swap_apply_self _ _ _⟩⟩
    · rw [← hk, Equiv.swap_apply_def]; split_ifs <;> omega
    · rw [Equiv.swap_apply_def]; split_ifs <;> omega
  have hfun : (q.swapped i j).txQueue = q.txQueue ∘ Equiv.swap i j := funext (swapped_apply i j)
  rw [elems, hfun, ← Multiset.map_map, swapped_txQueueCnt, hperm]
  rfl

/-- **The root is maximal.** Every live entry of a heap has a fee at most the root's. -/
theorem IsHeap.fee_le_root (h : q.IsHeap) :
    ∀ i < q.txQueueCnt, (q.txQueue i).fee ≤ (q.txQueue 0).fee := by
  intro i
  induction i using Nat.strong_induction_on with
  | _ i ih =>
    intro hi
    rcases Nat.eq_zero_or_pos i with rfl | hpos
    · exact le_rfl
    · exact (h i hpos hi).trans (ih _ (by omega) (by omega))

end TxnQueue

open TxnQueue Relation

variable {q : TxnQueue}

/-! ## Rounds

A round of either loop swaps `tx_queue[ idx ]` with a neighbour and moves `idx` there. The rounds
are relations on the pair of the queue and `idx`, and a loop's rounds form a chain of them. -/

/-- A round of either loop on `tx_queue_cnt = cnt`: `tx_queue[ s.2 ]` and `tx_queue[ s'.2 ]` are
swapped, both live, and `idx` moves from `s.2` to `s'.2`. -/
structure LiveSwap (cnt : Nat) (s s' : TxnQueue × Nat) : Prop where
  live : s.2 < cnt
  live' : s'.2 < cnt
  swap : s'.1 = s.1.swapped s.2 s'.2

/-- A round of the sift-up loop of `fd_sequencer_txn_queue_push`: `idx > 0` moves to its parent. -/
structure SiftUpRound (cnt : Nat) (s s' : TxnQueue × Nat) extends LiveSwap cnt s s' : Prop where
  pos : 0 < s.2
  parent : s'.2 = (s.2 - 1) / 2

/-- A round of the sift-down loop of `fd_sequencer_txn_queue_pop`: `idx` moves to a child. -/
structure SiftDownRound (cnt : Nat) (s s' : TxnQueue × Nat) extends LiveSwap cnt s s' : Prop where
  child : s'.2 = 2 * s.2 + 1 ∨ s'.2 = 2 * s.2 + 2

/-- A sift-up round as the loop takes it: the fee at `idx` is above its parent's. -/
structure SiftUpMove (cnt : Nat) (s s' : TxnQueue × Nat) extends SiftUpRound cnt s s' : Prop where
  lt : (s.1.txQueue s'.2).fee < (s.1.txQueue s.2).fee

/-- A sift-down round as the loop takes it: `idx` moves to its child of largest fee, which is
above the fee at `idx`. -/
structure SiftDownMove (cnt : Nat) (s s' : TxnQueue × Nat) extends SiftDownRound cnt s s' : Prop where
  lt : (s.1.txQueue s.2).fee < (s.1.txQueue s'.2).fee
  max : ∀ i, 0 < i → i < cnt → (i - 1) / 2 = s.2 → (s.1.txQueue i).fee ≤ (s.1.txQueue s'.2).fee

/-- Swaps of live slots only rearrange the live entries. -/
theorem rearranges_of_liveSwaps {k : Nat} {s : TxnQueue × Nat}
    (h : ReflTransGen (LiveSwap q.txQueueCnt) (q, k) s) : Rearranges q s.1 := by
  induction h with
  | refl => exact .refl q
  | tail _ hs ih =>
    rw [hs.swap]
    exact ih.trans (rearranges_swapped (ih.cnt ▸ hs.live) (ih.cnt ▸ hs.live'))

namespace TxnQueue

/-! ## Sift-up -/

/-- A round of sift-up at a live `k > 0`: exit when the parent's fee is at least `k`'s, else swap
and go on from the parent. -/
theorem siftUp_succ {k : Nat} (hk0 : 0 < k) (hk : k < q.txQueueCap) (fuel : Nat) :
    siftUp (fuel + 1) q k = if (q.txQueue k).fee ≤ (q.txQueue ((k - 1) / 2)).fee then some q
      else siftUp fuel (q.swapped k ((k - 1) / 2)) ((k - 1) / 2) := by
  have hp : (k - 1) / 2 < q.txQueueCap := by omega
  simp only [siftUp, hk0.ne', if_false, load_of_lt hk, load_of_lt hp, Option.bind_eq_bind,
    Option.some_bind]
  split_ifs
  · rfl
  · rw [swap_of_lt hk hp]; rfl

/-- **The sift-up loop.** From a live `k` of any array, the loop ends within `k` rounds, with the
same queue for any larger fuel, after a chain of the rounds it takes, at an index `j` whose fee is
not above its parent's. -/
theorem siftUp_run {k : Nat} (hk : k < q.txQueueCnt) (hcap : q.txQueueCnt ≤ q.txQueueCap) :
    ∃ q' j, (∀ fuel, k ≤ fuel → siftUp fuel q k = some q') ∧
      ReflTransGen (SiftUpMove q.txQueueCnt) (q, k) (q', j) ∧
      (0 < j → (q'.txQueue j).fee ≤ (q'.txQueue ((j - 1) / 2)).fee) := by
  induction k using Nat.strong_induction_on generalizing q with
  | _ k ih =>
    rcases Nat.eq_zero_or_pos k with rfl | hk0
    · exact ⟨q, 0, fun fuel _ => by cases fuel <;> simp [siftUp], .refl, (absurd · (lt_irrefl 0))⟩
    by_cases hle : (q.txQueue k).fee ≤ (q.txQueue ((k - 1) / 2)).fee
    · refine ⟨q, k, fun fuel hf => ?_, .refl, fun _ => hle⟩
      obtain ⟨f, rfl⟩ : ∃ f, fuel = f + 1 := ⟨fuel - 1, by omega⟩
      rw [siftUp_succ hk0 (by omega), if_pos hle]
    · obtain ⟨q', j, hq', hr, hexit⟩ := ih ((k - 1) / 2) (by omega)
        (q := q.swapped k ((k - 1) / 2)) (by simp; omega) (by simpa using hcap)
      have hmove : SiftUpMove q.txQueueCnt (q, k) (q.swapped k ((k - 1) / 2), (k - 1) / 2) :=
        ⟨⟨⟨hk, show (k - 1) / 2 < _ by omega, rfl⟩, hk0, rfl⟩, not_le.mp hle⟩
      refine ⟨q', j, fun fuel hf => ?_, .head hmove (by simpa using hr), hexit⟩
      obtain ⟨f, rfl⟩ : ∃ f, fuel = f + 1 := ⟨fuel - 1, by omega⟩
      rw [siftUp_succ hk0 (by omega), if_neg hle]
      exact hq' f (by omega)

/-- The heap `siftUp` works on: ordered except on the edge into `k`, and every child of `k` is
below `k`'s parent, so that moving the parent down to `k` is safe. -/
structure UpReady (q : TxnQueue) (k : Nat) : Prop where
  lt_cnt : k < q.txQueueCnt
  cnt_le_cap : q.txQueueCnt ≤ q.txQueueCap
  except : ∀ i, 0 < i → i < q.txQueueCnt → i ≠ k →
    (q.txQueue i).fee ≤ (q.txQueue ((i - 1) / 2)).fee
  grand : 0 < k → ∀ i, 0 < i → i < q.txQueueCnt → (i - 1) / 2 = k →
    (q.txQueue i).fee ≤ (q.txQueue ((k - 1) / 2)).fee

/-- The loop exits when `k`'s fee is at most its parent's; the heap is then whole. -/
theorem UpReady.valid_of_le {k : Nat} (h : q.UpReady k)
    (hle : 0 < k → (q.txQueue k).fee ≤ (q.txQueue ((k - 1) / 2)).fee) : q.Valid := by
  refine ⟨h.cnt_le_cap, fun i hi0 hi => ?_⟩
  by_cases hik : i = k
  · subst hik; exact hle hi0
  · exact h.except i hi0 hi hik

/-- One round of sift-up moves the exception from `k` to its parent. -/
theorem UpReady.swap {k : Nat} (h : q.UpReady k) (hk : 0 < k)
    (hlt : (q.txQueue ((k - 1) / 2)).fee < (q.txQueue k).fee) :
    (q.swapped k ((k - 1) / 2)).UpReady ((k - 1) / 2) := by
  have hkc := h.lt_cnt
  refine ⟨by simp; omega, h.cnt_le_cap, fun i hi0 hi hip => ?_, fun hp0 i hi0 hi hpar => ?_⟩
  all_goals simp only [swapped_apply, swapped_txQueueCnt] at hi ⊢
  · by_cases hik : i = k
    · subst hik
      rw [Equiv.swap_apply_left, Equiv.swap_apply_right]
      exact hlt.le
    rw [Equiv.swap_apply_of_ne_of_ne hik hip]
    by_cases hjk : (i - 1) / 2 = k
    · rw [hjk, Equiv.swap_apply_left]; exact h.grand hk i hi0 hi hjk
    by_cases hjp : (i - 1) / 2 = (k - 1) / 2
    · rw [hjp, Equiv.swap_apply_right]
      exact (hjp ▸ h.except i hi0 hi hik).trans hlt.le
    · rw [Equiv.swap_apply_of_ne_of_ne hjk hjp]; exact h.except i hi0 hi hik
  · have hpp : ((k - 1) / 2 - 1) / 2 ≠ k := by omega
    have hpp' : ((k - 1) / 2 - 1) / 2 ≠ (k - 1) / 2 := by omega
    have hpar_le := h.except ((k - 1) / 2) hp0 (by omega) (by omega)
    rw [Equiv.swap_apply_of_ne_of_ne hpp hpp']
    by_cases hik : i = k
    · subst hik; rw [Equiv.swap_apply_left]; exact hpar_le
    · rw [Equiv.swap_apply_of_ne_of_ne hik (by omega)]
      exact (hpar ▸ h.except i hi0 hi hik).trans hpar_le

/-- Along the rounds sift-up takes, a heap ready at the start stays ready at `idx`. -/
theorem UpReady.chain {k : Nat} {s : TxnQueue × Nat} (h : q.UpReady k)
    (hc : ReflTransGen (SiftUpMove q.txQueueCnt) (q, k) s) : s.1.UpReady s.2 := by
  induction hc with
  | refl => exact h
  | @tail s₁ s₂ _ hs ih =>
    obtain ⟨q₁, k₁⟩ := s₁
    obtain ⟨q₂, k₂⟩ := s₂
    obtain ⟨⟨⟨-, -, hswap⟩, hpos, hpar⟩, hlt⟩ := hs
    dsimp only at hswap hpos hpar hlt
    subst hpar hswap
    exact ih.swap hpos hlt

/-! ## Sift-down -/

/-- The heap `siftDown` works on: ordered except on the edges out of `k`, and every child of `k`
is below `k`'s parent, so that moving a child up to `k` is safe. -/
structure DownReady (q : TxnQueue) (k : Nat) : Prop where
  lt_cnt : k < q.txQueueCnt
  cnt_le_cap : q.txQueueCnt ≤ q.txQueueCap
  except : ∀ i, 0 < i → i < q.txQueueCnt → (i - 1) / 2 ≠ k →
    (q.txQueue i).fee ≤ (q.txQueue ((i - 1) / 2)).fee
  grand : 0 < k → ∀ i, 0 < i → i < q.txQueueCnt → (i - 1) / 2 = k →
    (q.txQueue i).fee ≤ (q.txQueue ((k - 1) / 2)).fee

/-- The loop exits when no child of `k` has a larger fee; the heap is then whole. -/
theorem DownReady.valid_of_le {k : Nat} (h : q.DownReady k)
    (hle : ∀ i, 0 < i → i < q.txQueueCnt → (i - 1) / 2 = k → (q.txQueue i).fee ≤ (q.txQueue k).fee) :
    q.Valid := by
  refine ⟨h.cnt_le_cap, fun i hi0 hi => ?_⟩
  by_cases hik : (i - 1) / 2 = k
  · rw [hik]; exact hle i hi0 hi hik
  · exact h.except i hi0 hi hik

/-- One round of sift-down moves the exception from `k` to the child `c` it swaps with, when `c`
has the largest fee among `k`'s children and a larger one than `k`. -/
theorem DownReady.swap {k c : Nat} (h : q.DownReady k) (hc0 : 0 < c) (hc : c < q.txQueueCnt)
    (hck : (c - 1) / 2 = k) (hlt : (q.txQueue k).fee < (q.txQueue c).fee)
    (hmax : ∀ i, 0 < i → i < q.txQueueCnt → (i - 1) / 2 = k → (q.txQueue i).fee ≤ (q.txQueue c).fee) :
    (q.swapped k c).DownReady c := by
  refine ⟨hc, h.cnt_le_cap, fun i hi0 hi hic => ?_, fun _ i hi0 hi hpar => ?_⟩
  all_goals simp only [swapped_apply, swapped_txQueueCnt] at hi ⊢
  · by_cases hii : i = c
    · subst hii; rw [Equiv.swap_apply_right, hck, Equiv.swap_apply_left]; exact hlt.le
    by_cases hik : i = k
    · subst hik
      rw [Equiv.swap_apply_left, Equiv.swap_apply_of_ne_of_ne (by omega) (by omega)]
      exact h.grand hi0 c hc0 hc hck
    rw [Equiv.swap_apply_of_ne_of_ne hik hii]
    by_cases hjk : (i - 1) / 2 = k
    · rw [hjk, Equiv.swap_apply_left]; exact hmax i hi0 hi hjk
    · rw [Equiv.swap_apply_of_ne_of_ne hjk hic]; exact h.except i hi0 hi hjk
  · rw [Equiv.swap_apply_of_ne_of_ne (by omega) (by omega), hck, Equiv.swap_apply_left]
    exact hpar ▸ h.except i hi0 hi (by omega)

/-- One child test: the answer is `best` or, when its fee is larger, the live child `c`; either
way it is live and at least as large as both. -/
theorem pickChild_spec {c b : Nat} (hb : b < q.txQueueCnt) (hcap : q.txQueueCnt ≤ q.txQueueCap) :
    ∃ b', pickChild q c b = some b' ∧ b' < q.txQueueCnt ∧
      (b' = b ∨ b' = c ∧ (q.txQueue b).fee < (q.txQueue c).fee) ∧
      (q.txQueue b).fee ≤ (q.txQueue b').fee ∧
      (c < q.txQueueCnt → (q.txQueue c).fee ≤ (q.txQueue b').fee) := by
  unfold pickChild
  by_cases hc : c < q.txQueueCnt
  · simp only [hc, if_true, load_of_lt (show c < q.txQueueCap by omega),
      load_of_lt (show b < q.txQueueCap by omega), Option.some_bind]
    by_cases hlt : (q.txQueue b).fee < (q.txQueue c).fee
    · exact ⟨c, by simp [hlt], hc, .inr ⟨rfl, hlt⟩, hlt.le, fun _ => le_rfl⟩
    · exact ⟨b, by simp [hlt], hb, .inl rfl, le_rfl, fun _ => by omega⟩
  · exact ⟨b, by simp [hc], hb, .inl rfl, le_rfl, fun h => absurd h hc⟩

/-- A round of sift-down at a live `k`: the two child tests give `best`, a live index at least as
large as every child of `k`; the loop exits when it is `k`, else swaps `k` with that child, of a
larger fee, and goes on from it. -/
theorem siftDown_succ {k : Nat} (hk : k < q.txQueueCnt) (hcap : q.txQueueCnt ≤ q.txQueueCap) :
    ∃ b, (∀ fuel, siftDown (fuel + 1) q k =
        if b = k then some q else siftDown fuel (q.swapped k b) b) ∧ b < q.txQueueCnt ∧
      (∀ i, 0 < i → i < q.txQueueCnt → (i - 1) / 2 = k → (q.txQueue i).fee ≤ (q.txQueue b).fee) ∧
      (b ≠ k → 0 < b ∧ (b - 1) / 2 = k ∧ (q.txQueue k).fee < (q.txQueue b).fee) := by
  obtain ⟨b₁, hb₁, hb₁c, hb₁k, hkb₁, hlb₁⟩ := pickChild_spec (c := 2 * k + 1) hk hcap
  obtain ⟨b₂, hb₂, hb₂c, hb₂b, hb₁b₂, hrb₂⟩ := pickChild_spec (c := 2 * k + 2) hb₁c hcap
  refine ⟨b₂, fun fuel => ?_, hb₂c, fun i hi0 hi hik => ?_, fun hbk => ?_⟩
  · simp only [siftDown, hb₁, hb₂, Option.bind_eq_bind, Option.some_bind]
    split_ifs
    · rfl
    · rw [swap_of_lt (by omega) (by omega)]; rfl
  · obtain rfl | rfl : i = 2 * k + 1 ∨ i = 2 * k + 2 := by omega
    · exact (hlb₁ hi).trans hb₁b₂
    · exact hrb₂ hi
  · rcases hb₂b with rfl | ⟨rfl, hlt⟩ <;> rcases hb₁k with rfl | ⟨rfl, hlt'⟩
    · exact absurd rfl hbk
    · exact ⟨by omega, by omega, hlt'⟩
    · exact ⟨by omega, by omega, hlt⟩
    · exact ⟨by omega, by omega, hlt'.trans hlt⟩

/-- **The sift-down loop.** From a live `k` of any array, the loop ends within `tx_queue_cnt - k`
rounds, with the same queue for any larger fuel, after a chain of the rounds it takes, at an index
`j` no child of which has a larger fee. -/
theorem siftDown_run {k : Nat} (hk : k < q.txQueueCnt) (hcap : q.txQueueCnt ≤ q.txQueueCap) :
    ∃ q' j, (∀ fuel, q.txQueueCnt - k ≤ fuel → siftDown fuel q k = some q') ∧
      ReflTransGen (SiftDownMove q.txQueueCnt) (q, k) (q', j) ∧
      ∀ i, 0 < i → i < q.txQueueCnt → (i - 1) / 2 = j → (q'.txQueue i).fee ≤ (q'.txQueue j).fee := by
  obtain ⟨n, hn⟩ : ∃ n, q.txQueueCnt - k = n := ⟨_, rfl⟩
  induction n using Nat.strong_induction_on generalizing q k with
  | _ n ih =>
    obtain ⟨b, hstep, hbc, hmax, hchild⟩ := siftDown_succ hk hcap
    by_cases hbe : b = k
    · refine ⟨q, k, fun fuel hf => ?_, .refl, hbe ▸ hmax⟩
      obtain ⟨f, rfl⟩ : ∃ f, fuel = f + 1 := ⟨fuel - 1, by omega⟩
      rw [hstep, if_pos hbe]
    · obtain ⟨hb0, hbk, hlt⟩ := hchild hbe
      obtain ⟨q', j, hq', hr, hexit⟩ := ih (q.txQueueCnt - b) (by omega) (q := q.swapped k b)
        (k := b) (by simpa using hbc) (by simpa using hcap) (by simp)
      have hmove : SiftDownMove q.txQueueCnt (q, k) (q.swapped k b, b) :=
        ⟨⟨⟨hk, hbc, rfl⟩, show b = _ ∨ b = _ by omega⟩, hlt, hmax⟩
      refine ⟨q', j, fun fuel hf => ?_, .head hmove (by simpa using hr), by simpa using hexit⟩
      obtain ⟨f, rfl⟩ : ∃ f, fuel = f + 1 := ⟨fuel - 1, by omega⟩
      rw [hstep, if_neg hbe]
      exact hq' f (by simp; omega)

/-- Along the rounds sift-down takes, a heap ready at the start stays ready at `idx`. -/
theorem DownReady.chain {k : Nat} {s : TxnQueue × Nat} (h : q.DownReady k)
    (hc : ReflTransGen (SiftDownMove q.txQueueCnt) (q, k) s) :
    s.1.DownReady s.2 ∧ s.1.txQueueCnt = q.txQueueCnt := by
  induction hc with
  | refl => exact ⟨h, rfl⟩
  | @tail s₁ s₂ _ hs ih =>
    obtain ⟨q₁, k₁⟩ := s₁
    obtain ⟨q₂, k₂⟩ := s₂
    obtain ⟨⟨⟨-, hlive', hswap⟩, hchild⟩, hlt, hmax⟩ := hs
    dsimp only at hlive' hswap hchild hlt hmax ih ⊢
    subst hswap
    exact ⟨ih.1.swap (by omega) (ih.2 ▸ hlive') (by omega) hlt
      fun i hi0 hi => hmax i hi0 (ih.2 ▸ hi), ih.2⟩

end TxnQueue

/-! ## Push and pop -/

theorem txnQueuePush_of_full (h : q.txQueueCap ≤ q.txQueueCnt) (t : Txn) :
    txnQueuePush q t = some (false, q) := if_pos h

/-- The queue `push` sifts up: the entry copied to `tx_queue[ tx_queue_cnt++ ]`. -/
def TxnQueue.appended (q : TxnQueue) (t : Txn) : TxnQueue :=
  ⟨fun k => if k = q.txQueueCnt then t else q.txQueue k, q.txQueueCnt + 1, q.txQueueCap⟩

@[simp] theorem appended_txQueueCnt (t : Txn) : (q.appended t).txQueueCnt = q.txQueueCnt + 1 := rfl

@[simp] theorem appended_txQueueCap (t : Txn) : (q.appended t).txQueueCap = q.txQueueCap := rfl

theorem elems_appended (t : Txn) : (q.appended t).elems = t ::ₘ q.elems := by
  simp only [elems, TxnQueue.appended, Multiset.range_succ, Multiset.map_cons, if_pos rfl]
  congr 1
  exact Multiset.map_congr rfl fun k hk => if_neg (Multiset.mem_range.mp hk).ne

/-- Appending below capacity to a heap leaves it ready for sift-up from the new entry. -/
theorem TxnQueue.Valid.upReady_appended (hv : q.Valid) (h : q.txQueueCnt < q.txQueueCap)
    (t : Txn) : (q.appended t).UpReady q.txQueueCnt := by
  refine ⟨by simp, h, fun i hi0 hi hik => ?_, fun _ i _ hi hik => by simp at hi; omega⟩
  simp only [TxnQueue.appended] at hi ⊢
  rw [if_neg hik, if_neg (by omega)]
  exact hv.heap i hi0 (by omega)

/-- `push` below capacity: the copy-in, then sift-up from the new entry. -/
theorem txnQueuePush_of_lt (h : q.txQueueCnt < q.txQueueCap) (t : Txn) :
    txnQueuePush q t = (siftUp q.txQueueCnt (q.appended t) q.txQueueCnt).map fun q' => (true, q') := by
  simp only [txnQueuePush, if_neg (not_le.mpr h)]
  simp [TxnQueue.store, h]
  change (siftUp _ (q.appended t) _).bind _ = _
  cases siftUp q.txQueueCnt (q.appended t) q.txQueueCnt <;> rfl

/-- **Push.** Below capacity `push` returns, whatever `tx_queue` holds: `t` joins the live
entries, and a heap stays a heap. -/
theorem txnQueuePush_total (h : q.txQueueCnt < q.txQueueCap) (t : Txn) :
    ∃ q', txnQueuePush q t = some (true, q') ∧ q'.txQueueCnt = q.txQueueCnt + 1 ∧
      q'.txQueueCap = q.txQueueCap ∧ q'.elems = t ::ₘ q.elems ∧ (q.Valid → q'.Valid) := by
  obtain ⟨q', j, hq', hc, hexit⟩ := siftUp_run (q := q.appended t) (k := q.txQueueCnt) (by simp)
    (by simp; omega)
  have hr : Rearranges _ q' :=
    rearranges_of_liveSwaps (hc.mono fun _ _ h => h.toSiftUpRound.toLiveSwap)
  refine ⟨q', by rw [txnQueuePush_of_lt h, hq' _ le_rfl]; rfl, hr.cnt, hr.cap,
    hr.elems.trans (elems_appended t), fun hv => ?_⟩
  exact ((hv.upReady_appended h t).chain hc).valid_of_le hexit

theorem txnQueuePush_spec (hv : q.Valid) (h : q.txQueueCnt < q.txQueueCap) (t : Txn) :
    ∃ q', txnQueuePush q t = some (true, q') ∧ q'.Valid ∧ q'.txQueueCnt = q.txQueueCnt + 1 ∧
      q'.txQueueCap = q.txQueueCap ∧ q'.elems = t ::ₘ q.elems :=
  (txnQueuePush_total h t).imp fun _ ⟨hpush, hcnt, hcap, helems, hvalid⟩ =>
    ⟨hpush, hvalid hv, hcnt, hcap, helems⟩

theorem txnQueuePop_of_empty (h : q.txQueueCnt = 0) : txnQueuePop q = some (none, q) := if_pos h

/-- The queue `pop` sifts down when `c` entries are left: the last one, `tx_queue[ c ]`, copied
over the root. -/
def TxnQueue.movedLast (q : TxnQueue) (c : Nat) : TxnQueue :=
  ⟨fun k => if k = 0 then q.txQueue c else q.txQueue k, c, q.txQueueCap⟩

@[simp] theorem movedLast_txQueueCnt (c : Nat) : (q.movedLast c).txQueueCnt = c := rfl

@[simp] theorem movedLast_txQueueCap (c : Nat) : (q.movedLast c).txQueueCap = q.txQueueCap := rfl

/-- Moving the last of `c + 1` entries over the root takes the root out of the live entries. -/
theorem elems_movedLast {c : Nat} (hc : q.txQueueCnt = c + 1) :
    q.elems = q.txQueue 0 ::ₘ (q.movedLast c).elems := by
  have hsw := rearranges_swapped (q := q) (i := 0) (j := c) (by omega) (by omega)
  rw [← hsw.elems]
  simp only [elems, swapped_txQueueCnt, hc, Multiset.range_succ, Multiset.map_cons,
    swapped_apply, Equiv.swap_apply_right]
  congr 1
  refine Multiset.map_congr rfl fun k hk => ?_
  have hk : k < c := by simpa using hk
  simp only [TxnQueue.movedLast, Equiv.swap_apply_def]
  split_ifs <;> first | rfl | omega

/-- Moving the last entry of a heap of `c + 1 > 1` entries over the root leaves it ready for
sift-down from the root. -/
theorem TxnQueue.Valid.downReady_movedLast {c : Nat} (hv : q.Valid) (hc : q.txQueueCnt = c + 1)
    (hc0 : 0 < c) : (q.movedLast c).DownReady 0 := by
  refine ⟨hc0, show c ≤ q.txQueueCap by have := hv.cnt_le_cap; omega, fun i hi0 hi hik => ?_,
    fun h0 => absurd h0 (lt_irrefl 0)⟩
  simp only [TxnQueue.movedLast] at hi ⊢
  rw [if_neg hi0.ne', if_neg hik]
  exact hv.heap i hi0 (by omega)

/-- `pop` from one entry: the root goes out and nothing moves. -/
theorem txnQueuePop_of_one (hc : q.txQueueCnt = 1) (hcap : q.txQueueCnt ≤ q.txQueueCap) :
    txnQueuePop q = some (some (q.txQueue 0), { q with txQueueCnt := 0 }) := by
  simp [txnQueuePop, hc, load_of_lt (show 0 < q.txQueueCap by omega)]

/-- `pop` from `c + 1` entries, `c > 0`: the root goes out, the last entry moves to the root, and
the result is sifted down. -/
theorem txnQueuePop_of_pos {c : Nat} (hc : q.txQueueCnt = c + 1) (hc0 : 0 < c)
    (hcap : q.txQueueCnt ≤ q.txQueueCap) :
    txnQueuePop q = (siftDown c (q.movedLast c) 0).map fun q' => (some (q.txQueue 0), q') := by
  simp [txnQueuePop, popMoveLast, hc, TxnQueue.load, TxnQueue.store, hc0,
    show c < q.txQueueCap by omega, show 0 < q.txQueueCap by omega]
  change (siftDown c (q.movedLast c) 0).bind _ = _
  cases siftDown c (q.movedLast c) 0 <;> rfl

/-- **Pop.** A non-empty queue within capacity gives up its root, whatever `tx_queue` holds; the
root leaves the live entries exactly once, and a heap stays a heap. -/
theorem txnQueuePop_total (hcap : q.txQueueCnt ≤ q.txQueueCap) (h : 0 < q.txQueueCnt) :
    ∃ q', txnQueuePop q = some (some (q.txQueue 0), q') ∧ q'.txQueueCnt = q.txQueueCnt - 1 ∧
      q'.txQueueCap = q.txQueueCap ∧ q.elems = q.txQueue 0 ::ₘ q'.elems ∧
      (q.Valid → q'.Valid) := by
  obtain ⟨c, hc⟩ : ∃ c, q.txQueueCnt = c + 1 := ⟨_, (Nat.succ_pred_eq_of_pos h).symm⟩
  rcases Nat.eq_zero_or_pos c with rfl | hc0
  · exact ⟨_, txnQueuePop_of_one hc hcap, by simp [hc], rfl, by simp [elems, hc],
      fun _ => .of_empty rfl⟩
  obtain ⟨q', j, hq', hch, hexit⟩ := siftDown_run (q := q.movedLast c) (k := 0) hc0 (by simp; omega)
  have hr : Rearranges _ q' :=
    rearranges_of_liveSwaps (hch.mono fun _ _ h => h.toSiftDownRound.toLiveSwap)
  refine ⟨q', by rw [txnQueuePop_of_pos hc hc0 hcap, hq' c (by simp)]; rfl, by simp [hr.cnt, hc],
    hr.cap, hr.elems ▸ elems_movedLast hc, fun hv => ?_⟩
  exact ((hv.downReady_movedLast hc hc0).chain hch).1.valid_of_le
    fun i hi0 hi => hexit i hi0 (hr.cnt ▸ hi)

theorem txnQueuePop_spec (hv : q.Valid) (h : 0 < q.txQueueCnt) :
    ∃ q', txnQueuePop q = some (some (q.txQueue 0), q') ∧ q'.Valid ∧
      q'.txQueueCnt = q.txQueueCnt - 1 ∧ q'.txQueueCap = q.txQueueCap ∧
      q.elems = q.txQueue 0 ::ₘ q'.elems :=
  (txnQueuePop_total hv.cnt_le_cap h).imp fun _ ⟨hpop, hcnt, hcap, helems, hvalid⟩ =>
    ⟨hpop, hvalid hv, hcnt, hcap, helems⟩

theorem elems_eq_zero (h : q.txQueueCnt = 0) : q.elems = 0 := by simp [elems, h]

/-- The root of a non-empty heap is an entry of largest fee. -/
theorem TxnQueue.Valid.root_max (hv : q.Valid) (h : 0 < q.txQueueCnt) :
    q.txQueue 0 ∈ q.elems ∧ ∀ x ∈ q.elems, x.fee ≤ (q.txQueue 0).fee := by
  refine ⟨mem_elems.mpr ⟨0, h, rfl⟩, fun x hx => ?_⟩
  obtain ⟨i, hi, rfl⟩ := mem_elems.mp hx
  exact hv.heap.fee_le_root i hi

theorem txnQueuePeek_of_pos (h : 0 < q.txQueueCnt) : txnQueuePeek q = some (q.txQueue 0) :=
  if_neg h.ne'

theorem txnQueuePeek_of_empty (h : q.txQueueCnt = 0) : txnQueuePeek q = none := if_pos h

end FdSequencer
