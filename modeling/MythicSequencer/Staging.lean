import MythicSequencer.TileSpec

/-!
# Staging a transaction from its fragments

`during_frag` copies each fragment to the start of the staging buffer `frag_buf` and sets
`frag_buf_sz` to its size; `after_frag` builds the entry from `frag_buf[0, frag_buf_sz)`. Over a
run of fragments with no `after_frag` between them each fragment therefore replaces the one
before: the entry is built from the last fragment alone, and an oversized last fragment leaves
nothing staged.

## Main results

* `duringFrags_append_last` — after any fragments, the staging buffer holds the last one.
* `afterFrag_enqueues_last_fragment` — the entry the next `after_frag` enqueues is the last
  fragment, and nothing after an oversized one.
-/

namespace FdSequencer

open Mathlib (Vector)

/-- The tile after `during_frag` for each of `fs` in order, with no other callback between. -/
def duringFrags (t : Tile) : List (List UInt8) → Option Tile
  | [] => some t
  | f :: fs => do duringFrags (← duringFrag t f) fs

/-- `during_frag` never faults and writes only the staging buffer and its size: a fragment that
fits is copied to the start, an oversized one empties the buffer. -/
theorem duringFrag_frame (t : Tile) (f : List UInt8) :
    ∃ (buf : Vector UInt8 txnMtu) (n : Nat),
      duringFrag t f = some { t with fragBuf := buf, fragBufSz := n } ∧
      (f.length ≤ txnMtu → n = f.length ∧ buf.toList.take f.length = f) ∧
      (txnMtu < f.length → n = 0) := by
  by_cases h : txnMtu < f.length
  · exact ⟨t.fragBuf, 0, duringFrag_of_oversized h, fun h' => absurd h' (not_le.mpr h),
      fun _ => rfl⟩
  · obtain ⟨buf, hbuf, htake⟩ := duringFrag_of_le (t := t) (not_lt.mp h)
    exact ⟨buf, f.length, hbuf, fun _ => ⟨rfl, htake⟩, fun h' => absurd h' h⟩

/-- After any fragments `fs ++ [f]`, the staging buffer holds `f` alone: what `fs` wrote is
overwritten or, past `|f|`, no longer counted. -/
theorem duringFrags_append_last (t : Tile) (fs : List (List UInt8)) (f : List UInt8) :
    ∃ (buf : Vector UInt8 txnMtu) (n : Nat),
      duringFrags t (fs ++ [f]) = some { t with fragBuf := buf, fragBufSz := n } ∧
      (f.length ≤ txnMtu → n = f.length ∧ buf.toList.take f.length = f) ∧
      (txnMtu < f.length → n = 0) := by
  induction fs generalizing t with
  | nil =>
    obtain ⟨buf, n, h, hle, hgt⟩ := duringFrag_frame t f
    exact ⟨buf, n, by simp [duringFrags, h], hle, hgt⟩
  | cons g fs ih =>
    obtain ⟨buf₁, n₁, h₁, -, -⟩ := duringFrag_frame t g
    obtain ⟨buf, n, h, hle, hgt⟩ := ih { t with fragBuf := buf₁, fragBufSz := n₁ }
    exact ⟨buf, n, by simp only [List.cons_append, duringFrags, h₁, Option.bind_eq_bind,
      Option.some_bind]; exact h, hle, hgt⟩

/-- **The last fragment wins.** From any tile whose queue is below capacity, after fragments
`fs ++ [f]` delivered by `during_frag` with no `after_frag` between them: when `f` is non-empty and
fits, the next `after_frag` enqueues an entry of `payload_sz = |f|` whose payload starts with `f`,
whatever `fs` held; when `f` is oversized, it enqueues nothing. -/
theorem afterFrag_enqueues_last_fragment (t : Tile) (fs : List (List UInt8)) (f : List UInt8)
    (optSig : Option Nat) (now : Int) (hroom : t.queue.txQueueCnt < t.queue.txQueueCap) :
    ∃ t₁, duringFrags t (fs ++ [f]) = some t₁ ∧
      (0 < f.length → f.length ≤ txnMtu → ∃ t₂ txn, afterFrag t₁ optSig now = some (t₂, some txn) ∧
        txn.payloadSz = f.length ∧ txn.payload.toList.take f.length = f) ∧
      (txnMtu < f.length → afterFrag t₁ optSig now = some (t₁, none)) := by
  obtain ⟨buf, n, hrun, hle, hgt⟩ := duringFrags_append_last t fs f
  refine ⟨_, hrun, fun hpos hfit => ?_, fun hbig => afterFrag_of_empty optSig now (hgt hbig)⟩
  obtain ⟨rfl, htake⟩ := hle hfit
  obtain ⟨txn, htxn, hsz, -, hpay⟩ :=
    afterFragTxn_spec (t := { t with fragBuf := buf, fragBufSz := f.length }) optSig now hfit
  obtain ⟨q', hpush, -⟩ := txnQueuePush_total hroom txn
  exact ⟨{ t with fragBuf := buf, queue := q', txnCount := (t.txnCount + 1) % 2 ^ 64, fragBufSz := 0 },
    txn, by simp [afterFrag, htxn, hpush, hpos.ne'], hsz, hpay.trans htake⟩

/-- Two one-byte fragments `[1]` and `[2]` enqueue an entry of `payload_sz = 1` starting with
`2`: the first fragment is lost. -/
theorem afterFrag_enqueues_last_fragment_two_bytes :
    ∃ t₁ t₂ txn, duringFrags ⟨zeros _, zeros _, 0, 0, 0, 0, 0, zeros _, ⟨fun _ => Txn.zeroed, 0,
          queueMax⟩, 0, 0, cfgDefault, zeros _, 0⟩ [[1], [2]] = some t₁ ∧
      afterFrag t₁ none 0 = some (t₂, some txn) ∧ txn.payloadSz = 1 ∧
      txn.payload.toList.take 1 = [2] := by
  obtain ⟨t₁, hrun, hok, -⟩ := afterFrag_enqueues_last_fragment ⟨zeros _, zeros _, 0, 0, 0, 0, 0,
    zeros _, ⟨fun _ => Txn.zeroed, 0, queueMax⟩, 0, 0, cfgDefault, zeros _, 0⟩ [[1]] [2] none 0
    (by decide)
  obtain ⟨t₂, txn, h, hsz, hpay⟩ := hok (by decide) (by decide)
  exact ⟨t₁, t₂, txn, hrun, h, hsz, hpay⟩

end FdSequencer
