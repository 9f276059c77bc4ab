import MythicSequencer.Tile
import Mathlib.Data.Nat.Bitwise

/-!
# Scratch sizing and the layout of `unprivileged_init`

`fd_sequencer_tile_scratch_align` and `fd_sequencer_tile_scratch_footprint` advertise the
region the topology allocates for the tile. `fd_sequencer_tile_unprivileged_init` checks the size
it is given against `sizeof(fd_sequencer_tile_t) + FD_SEQUENCER_QUEUE_MAX *
sizeof(fd_sequencer_txn_t)`, puts the tile at the start of the region and the queue right after
it, aligned up to 64 bytes.

Addresses are `ulong`s. `fd_ulong_align_up` is kept in the mask form the code computes, wrap
included, and `fdUlongAlignUp_eq` turns it into arithmetic. A region
`[scratch, scratch + scratch_sz)` lies in the 64-bit address space.

## Main results

* `fdUlongAlignUp_eq` — the mask rounds up to a multiple of 64.
* `unprivilegedInitLayout_eq` — for every region init accepts, the queue starts at the first
  multiple of 64 after the tile.
* `unprivilegedInit_layout` — from an aligned region, init succeeds exactly from `initRequired`
  bytes on, and then the tile and the queue lie one after the other inside the region.
* `unprivilegedInitLayout_padding` — the size check counts no padding: the queue fits only when
  the region's slack covers the align-up.
-/

namespace FdSequencer

/-- `fd_sequencer_tile_scratch_align`. -/
def scratchAlign : Nat := tileAlign

/-- `fd_sequencer_tile_scratch_footprint`. -/
def scratchFootprint : Nat := tileFootprint

/-- What the size check of `unprivileged_init` requires: the tile and `FD_SEQUENCER_QUEUE_MAX`
entries, `1472 + 65536 * 1320` bytes. -/
def initRequired : Nat := tileSize + queueMax * txnSize

/-- `fd_ulong_align_up( x, a )` of `fd_bits.h`, `(x + (a - 1UL)) & ~(a - 1UL)` on `ulong`s; for a
nonzero `a` the mask `~(a - 1UL)` is `2^64 - a`. -/
def fdUlongAlignUp (x a : Nat) : Nat := (x + (a - 1)) % 2 ^ 64 &&& (2 ^ 64 - a)

/-- Where `unprivileged_init` puts the tile and `tile->tx_queue`. -/
structure InitLayout where
  tile : Nat
  txQueue : Nat
  deriving DecidableEq, Repr

/-- The pointer arithmetic of `fd_sequencer_tile_unprivileged_init` in the region at address
`scratch`: after the size check, the tile at `scratch` and the queue at
`fd_ulong_align_up( scratch + sizeof(fd_sequencer_tile_t), 64 )`. -/
def unprivilegedInitLayout (scratch scratchSz : Nat) : Option InitLayout :=
  if scratchSz < tileSize + queueMax * txnSize then none else
  some ⟨scratch, fdUlongAlignUp ((scratch + tileSize) % 2 ^ 64) 64⟩

/-! ## `fd_ulong_align_up` -/

/-- Masking with `~63` clears the low six bits of the `ulong`. -/
theorem land_alignMask (y : Nat) : y &&& (2 ^ 64 - 64) = y % 2 ^ 64 / 64 * 64 := by
  apply Nat.eq_of_testBit_eq
  intro i
  have hm : (2 : Nat) ^ 64 - 64 = (2 ^ 58 - 1) <<< 6 := by decide
  have hr : y % 2 ^ 64 / 64 * 64 = (y % 2 ^ 64) >>> 6 <<< 6 := by
    rw [Nat.shiftLeft_eq, Nat.shiftRight_eq_div_pow]
  rw [Nat.testBit_land, hm, hr, Nat.testBit_shiftLeft, Nat.testBit_shiftLeft,
    Nat.testBit_shiftRight, Nat.testBit_two_pow_sub_one, Nat.testBit_mod_two_pow]
  by_cases h : 6 ≤ i
  · rw [show 6 + (i - 6) = i by omega]
    by_cases h' : i < 64
    · simp [h, h', show i - 6 < 58 by omega]
    · simp [h, h', show ¬ i - 6 < 58 by omega]
  · simp [h]

theorem fdUlongAlignUp_eq (x : Nat) : fdUlongAlignUp x 64 = (x + 63) % 2 ^ 64 / 64 * 64 := by
  rw [fdUlongAlignUp, land_alignMask, Nat.mod_mod]

/-! ## The size check and the layout -/

theorem unprivilegedInit_isSome_iff {scratchSz : Nat} {tick : Int} {queueMem : Nat → Txn} :
    (∃ t, unprivilegedInit scratchSz tick queueMem = some t) ↔ initRequired ≤ scratchSz := by
  unfold unprivilegedInit initRequired
  split_ifs with h
  · simp only [reduceCtorEq, exists_false, false_iff]; omega
  · exact ⟨fun _ => by omega, fun _ => ⟨_, rfl⟩⟩

theorem unprivilegedInit_txQueueCap {scratchSz : Nat} {tick : Int} {queueMem : Nat → Txn}
    {t : Tile} (h : unprivilegedInit scratchSz tick queueMem = some t) :
    t.queue.txQueueCap = queueMax := by
  unfold unprivilegedInit at h
  split_ifs at h
  cases h
  rfl

/-- **Where the queue goes.** For every region in the address space that the size check
accepts, the tile is at `scratch` and the queue at the first multiple of 64 from the tile's end. -/
theorem unprivilegedInitLayout_eq {scratch scratchSz : Nat} (hspace : scratch + scratchSz ≤ 2 ^ 64)
    (h : initRequired ≤ scratchSz) :
    unprivilegedInitLayout scratch scratchSz =
      some ⟨scratch, scratch + tileSize + (64 - (scratch + tileSize) % 64) % 64⟩ := by
  have hreq : initRequired = 86508992 := rfl
  rw [unprivilegedInitLayout, if_neg (by unfold initRequired at h; omega), fdUlongAlignUp_eq,
    Nat.mod_eq_of_lt (show scratch + tileSize < 2 ^ 64 by unfold tileSize; omega),
    Nat.mod_eq_of_lt (show scratch + tileSize + 63 < 2 ^ 64 by unfold tileSize; omega)]
  congr 2
  omega

/-- **Init and the footprint.** For every scratch address aligned to `scratch_align()` whose
region lies in the address space, and every size, `unprivileged_init` takes its success path
exactly when the size is at least `initRequired`; it then puts the tile at `scratch` and the
queue region `[tx_queue, tx_queue + tx_queue_cap)` right after it, on a 64-byte boundary, and both
inside `[scratch, scratch + scratch_sz)`. -/
theorem unprivilegedInit_layout (scratch scratchSz : Nat) (tick : Int) (queueMem : Nat → Txn)
    (halign : scratch % scratchAlign = 0) (hspace : scratch + scratchSz ≤ 2 ^ 64) :
    ((∃ t, unprivilegedInit scratchSz tick queueMem = some t) ↔ initRequired ≤ scratchSz) ∧
      ∀ t, unprivilegedInit scratchSz tick queueMem = some t →
        ∃ l, unprivilegedInitLayout scratch scratchSz = some l ∧ l.tile = scratch ∧
          l.tile + tileSize ≤ l.txQueue ∧ l.txQueue % 64 = 0 ∧
          l.txQueue + t.queue.txQueueCap * txnSize ≤ scratch + scratchSz := by
  refine ⟨unprivilegedInit_isSome_iff, fun t ht => ?_⟩
  have hreq := unprivilegedInit_isSome_iff.mp ⟨t, ht⟩
  rw [unprivilegedInit_txQueueCap ht]
  refine ⟨_, unprivilegedInitLayout_eq hspace hreq, rfl, ?_⟩
  unfold scratchAlign tileAlign at halign
  unfold initRequired at hreq
  simp only [tileSize, queueMax, txnSize] at hreq ⊢
  omega

/-- The region `fd_sequencer_tile_scratch_footprint()` advertises is refused: the footprint is
4 MiB and init asks for about 82.5 MiB. -/
theorem unprivilegedInit_layout_at_footprint :
    unprivilegedInit scratchFootprint 0 (fun _ => Txn.zeroed) = none := by
  have h := (unprivilegedInit_layout 0 scratchFootprint 0 (fun _ => Txn.zeroed) rfl
    (by decide)).1
  exact Option.eq_none_iff_forall_not_mem.mpr fun t ht => absurd (h.mp ⟨t, ht⟩) (by decide)

/-- **No room for the padding.** The size check counts no align-up: for every region in the
address space that it accepts, the queue ends inside the region exactly when the region's slack
beyond `initRequired` covers the padding between the tile and the queue. An aligned region needs
none. -/
theorem unprivilegedInitLayout_padding (scratch scratchSz : Nat)
    (hspace : scratch + scratchSz ≤ 2 ^ 64) (h : initRequired ≤ scratchSz) :
    ∃ l, unprivilegedInitLayout scratch scratchSz = some l ∧
      (l.txQueue + queueMax * txnSize ≤ scratch + scratchSz ↔
        (64 - (scratch + tileSize) % 64) % 64 ≤ scratchSz - initRequired) := by
  refine ⟨_, unprivilegedInitLayout_eq hspace h, ?_⟩
  unfold initRequired at h ⊢
  simp only [tileSize, queueMax, txnSize] at h ⊢
  omega

/-- From the address 1 with exactly `initRequired` bytes the queue ends past the region. -/
theorem unprivilegedInitLayout_padding_overruns :
    ∃ l, unprivilegedInitLayout 1 initRequired = some l ∧
      1 + initRequired < l.txQueue + queueMax * txnSize := by
  obtain ⟨l, hl, hfit⟩ := unprivilegedInitLayout_padding 1 initRequired (by decide) le_rfl
  exact ⟨l, hl, lt_of_not_le fun hle => absurd (hfit.mp hle) (by decide)⟩

end FdSequencer
