import MythicSequencer.Runs

/-!
# What no step changes, the entries a run enqueues, and the headers it signs

Three facts about every run that the step shapes of `MythicSequencer.Invariants` leave out.

No callback writes `sequencer_identity` or `tx_queue_cap`, and only `fini` writes
`sequencer_privkey`, which it clears. `unprivileged_init` zeroes the whole tile and nothing loads a
key afterwards, so the identity and the private key stay all zero along every run.

Every entry `after_frag` enqueues is built from the staging buffer: a zeroed
`fd_sequencer_txn_t` with the staged bytes as payload, a nonzero fee, and as `sig` the payload
bytes `[1, 65)` when the payload has at least 65 bytes (the first signature of the SVM wire format
after a one-byte count) and 64 zero bytes otherwise. `Txn.WellFormed` is that shape. The fee is
the one the call's hint gives, `afterFragFee`, and the label of the step carries that hint, so
every entry queued or drained along a run is tied to the call that enqueued it.

Together they fix every header `build_block` writes along a run, `Block.Sealed`: its public key is
32 zero bytes, a non-empty block is signed with the all-zero key pair and an empty one not at all,
and its merkle root hashes, for each entry, only those 64 payload bytes.

## Main results

* `tileStep_frame` — what a step from an invariant-satisfying tile keeps, and where an entry it
  enqueues comes from.
* `afterFragTxn_wellFormed` — the entry `after_frag` builds is well formed.
* `TileReachable.frameInv` — along every run the keys are zero, the capacity is
  `FD_SEQUENCER_QUEUE_MAX`, every enqueued entry is well formed and every header sealed.
* `entries_wellFormed` — every enqueued, queued and drained entry is well formed, with the fee its
  enqueuing call's hint gives.
* `produced_headers_zero_key` — every header carries the zero public key, and the zero key pair's
  signature or none.
* `merkleRoot_sigWindows` — a non-empty block's merkle root hashes payload bytes `[1, 65)` of its
  entries and nothing else of them.
-/

namespace FdSequencer

open Mathlib (Vector)
open TxnQueue

variable {cr : Crypto} {tick₀ : Int} {t t' : Tile} {hist : List Label} {l : Label}

/-! ## What a step keeps -/

@[simp] theorem producedTile_sequencerIdentity (now : Int) (q : TxnQueue) (L : List Txn)
    (hdr : BlockHdr) : (producedTile cr t now q L hdr).sequencerIdentity = t.sequencerIdentity := by
  simp [producedTile, advanceSlot_snd]

@[simp] theorem producedTile_sequencerPrivkey (now : Int) (q : TxnQueue) (L : List Txn)
    (hdr : BlockHdr) : (producedTile cr t now q L hdr).sequencerPrivkey = t.sequencerPrivkey := by
  simp [producedTile, advanceSlot_snd]

/-- What a step does besides its `StepShape`: it keeps the identity and the queue's capacity,
changes the private key only by `fini`'s wipe, and an entry it enqueues is the one `after_frag`
built from a non-empty staging buffer. -/
structure StepFrame (t t' : Tile) (l : Label) : Prop where
  identity : t'.sequencerIdentity = t.sequencerIdentity
  cap : t'.queue.txQueueCap = t.queue.txQueueCap
  privkey : t'.sequencerPrivkey = t.sequencerPrivkey ∨ t'.sequencerPrivkey = zeros 64
  enqueued : ∀ x optSig now, l = .enqueued x optSig now →
    t.fragBufSz ≠ 0 ∧ afterFragTxn t optSig now = some x

/-- A step that writes only the staging buffer or the metrics time. -/
theorem StepFrame.frame (buf : Vector UInt8 txnMtu) (n : Nat) (m : Int) :
    StepFrame t { t with fragBuf := buf, fragBufSz := n, lastMetricsTicks := m } .quiet :=
  ⟨rfl, rfl, .inl rfl, fun _ _ _ h => nomatch h⟩

/-- **What a step keeps.** Every step from a tile satisfying the invariant has a `StepFrame`. -/
theorem tileStep_frame (hi : TileInv t) {ev : Event} (h : tileStep cr t ev = some (t', l)) :
    StepFrame t t' l := by
  cases ev with
  | duringFrag chunk =>
    by_cases hlen : txnMtu < chunk.length
    · simp only [tileStep, duringFrag_of_oversized hlen, Option.map_some', Option.some.injEq] at h
      cases h
      exact .frame _ _ _
    · obtain ⟨buf, hbuf, -⟩ := duringFrag_of_le (t := t) (not_lt.mp hlen)
      simp only [tileStep, hbuf, Option.map_some', Option.some.injEq] at h
      cases h
      exact .frame _ _ _
  | afterFrag optSig now =>
    by_cases h0 : t.fragBufSz = 0
    · simp only [tileStep, afterFrag_of_empty optSig now h0, Option.map_some', Option.some.injEq]
        at h
      cases h
      exact .frame t.fragBuf t.fragBufSz t.lastMetricsTicks
    obtain ⟨txn, htxn, -, -, hok, hfull⟩ := afterFrag_spec optSig now hi.queue hi.fragBufSz_le h0
    by_cases hlt : t.queue.txQueueCnt < t.queue.txQueueCap
    · obtain ⟨q', hq', -, -, hcap, -⟩ := hok hlt
      simp only [tileStep, hq', Option.map_some', Option.some.injEq] at h
      cases h
      exact ⟨rfl, hcap, .inl rfl, fun _ _ _ hx => ⟨h0, by cases hx; exact htxn⟩⟩
    · simp only [tileStep, hfull (not_lt.mp hlt), Option.map_some', Option.some.injEq] at h
      cases h
      exact .frame _ _ _
  | duringHousekeeping now wallclock stackHdr stackTxns =>
    obtain ⟨hquiet, hprod⟩ := tileStep_housekeeping cr hi now wallclock stackHdr stackTxns
    by_cases hlt : (max (now - t.blockStartTicks) 0).toNat < t.cfg.blockTimeNs
    · rw [hquiet hlt, Option.some.injEq] at h
      cases h
      exact .frame t.fragBuf t.fragBufSz t.lastMetricsTicks
    · obtain ⟨L, q', hdr, hstep, -, hd, -⟩ := hprod (not_lt.mp hlt)
      rw [hstep, Option.some.injEq] at h
      cases h
      exact ⟨by simp, by simp [hd.cap], .inl (by simp), fun _ _ _ h => nomatch h⟩
  | metricsWrite now =>
    cases h
    exact .frame t.fragBuf t.fragBufSz now
  | fini =>
    cases h
    exact ⟨rfl, rfl, .inr rfl, fun _ _ _ h => nomatch h⟩

/-! ## The entries `after_frag` builds -/

/-- The 64 bytes `after_frag` puts in an entry's `sig`: payload bytes `[1, 65)` when the payload
has at least 65 bytes, zeros otherwise. -/
def Txn.sigWindow (x : Txn) : List UInt8 :=
  if 65 ≤ x.payloadSz then (x.payload.toList.drop 1).take 64 else List.replicate 64 0

@[simp] theorem length_sigWindow (x : Txn) : x.sigWindow.length = 64 := by
  unfold Txn.sigWindow
  split_ifs <;> simp [txnMtu]

/-- An entry as `after_frag` builds it: 1 to `FD_SEQUENCER_TXN_MTU` payload bytes and zeros after
them, a nonzero fee, and its signature window as `sig`. -/
structure Txn.WellFormed (x : Txn) : Prop where
  payloadSz_pos : 0 < x.payloadSz
  payloadSz_le : x.payloadSz ≤ txnMtu
  payload_tail : x.payload.toList.drop x.payloadSz = List.replicate (txnMtu - x.payloadSz) 0
  sig : x.sig.toList = x.sigWindow
  fee_pos : 0 < x.fee

theorem afterFragFee_pos (optSig : Option Nat) : 0 < afterFragFee optSig := by
  cases optSig with
  | none => decide
  | some s => simp only [afterFragFee]; split_ifs <;> omega

/-- **The entry `after_frag` builds.** From a staging buffer of 1 to `FD_SEQUENCER_TXN_MTU` bytes
the entry is well formed. -/
theorem afterFragTxn_wellFormed {optSig : Option Nat} {now : Int} {x : Txn}
    (hsz : t.fragBufSz ≤ txnMtu) (h0 : t.fragBufSz ≠ 0) (h : afterFragTxn t optSig now = some x) :
    x.WellFormed := by
  rw [afterFragTxn, memcpy?_eq_some _ _ (by simpa using hsz) hsz] at h
  have htail : ∀ v : List UInt8, v.length = t.fragBufSz →
      (v ++ Txn.zeroed.payload.toList.drop t.fragBufSz).drop t.fragBufSz =
        List.replicate (txnMtu - t.fragBufSz) 0 := fun v hv => by
    rw [List.drop_left' hv]
    exact List.drop_replicate _ _ _
  by_cases h65 : 65 ≤ t.fragBufSz
  · simp only [Option.bind_eq_bind, Option.some_bind, if_pos h65] at h
    rw [memcpy?_eq_some _ _ (by rw [Vector.toList_length]; decide) le_rfl] at h
    cases h
    exact ⟨Nat.pos_of_ne_zero h0, hsz, htail _ (by simp; omega), by simp [Txn.sigWindow, h65],
      afterFragFee_pos optSig⟩
  · simp only [Option.bind_eq_bind, Option.some_bind, if_neg h65] at h
    cases h
    exact ⟨Nat.pos_of_ne_zero h0, hsz, htail _ (by simp; omega),
      by simp [Txn.sigWindow, h65, Txn.zeroed, zeros], afterFragFee_pos optSig⟩

/-- The entry `after_frag` builds carries the fee the hint gives and the arrival tick. -/
theorem afterFragTxn_fee {optSig : Option Nat} {now : Int} {x : Txn}
    (h : afterFragTxn t optSig now = some x) : x.fee = afterFragFee optSig ∧ x.receivedTicks = now := by
  rw [afterFragTxn] at h
  obtain ⟨payload, -, h⟩ := Option.bind_eq_some.mp h
  dsimp only at h
  split_ifs at h
  all_goals
    obtain ⟨sig, -, h⟩ := Option.bind_eq_some.mp h
    cases h
    exact ⟨rfl, rfl⟩

/-! ## Sealed headers -/

/-- What a header written along a run carries: the all-zero public key; for a non-empty block, a
merkle root over its entries' signature windows and a signature by the all-zero key pair over the
116 bytes before `signature`; for an empty one, 64 zero bytes of signature. -/
structure Block.Sealed (cr : Crypto) (b : Block) : Prop where
  pubkey : b.hdr.sequencerPubkey = zeros 32
  merkleRoot : b.txns ≠ [] → b.hdr.merkleRoot = cr.sha256 (b.txns.flatMap Txn.sigWindow)
  signature : b.hdr.signature =
    if b.txns = [] then zeros 64 else cr.ed25519Sign b.hdr.preSigBytes (zeros 32) (zeros 64)

/-- `build_block` from a tile with zero keys, draining well-formed entries, writes a sealed
header. -/
theorem BuiltHdr.sealed {wallclock : Int} {stack hdr : BlockHdr} {L : List Txn}
    (hh : BuiltHdr cr wallclock t stack L hdr) (hid : t.sequencerIdentity = zeros 32)
    (hkey : t.sequencerPrivkey = zeros 64) (hL : ∀ x ∈ L, x.WellFormed) (e : Bool) :
    Block.Sealed cr ⟨hdr, L, e⟩ := by
  refine ⟨hh.sequencerPubkey.trans hid, fun hne => (hh.merkleRoot hne).trans
    (congrArg cr.sha256 (List.flatMap_congr fun x hx => (hL x hx).sig)), ?_⟩
  split_ifs with hne
  · rw [hh.empty hne]; rfl
  · rw [hh.signature hne, hid, hkey]

/-! ## Along every run -/

/-- What holds along every run besides `RunInv`: the identity and the private key are all zero,
the queue keeps the capacity `unprivileged_init` gave it, every entry enqueued is well formed, with
the fee of its call's hint and the tick of its arrival, and every header produced is sealed. -/
structure FrameInv (cr : Crypto) (t : Tile) (hist : List Label) : Prop where
  identity : t.sequencerIdentity = zeros 32
  privkey : t.sequencerPrivkey = zeros 64
  cap : t.queue.txQueueCap = queueMax
  entries : ∀ x optSig now, Label.enqueued x optSig now ∈ hist →
    x.WellFormed ∧ x.fee = afterFragFee optSig ∧ x.receivedTicks = now
  blocks : ∀ b ∈ producedBlocks hist, b.Sealed cr

theorem frameInv_init {scratchSz : Nat} {queueMem : Nat → Txn} (cfg : Cfg)
    (h : unprivilegedInit scratchSz tick₀ queueMem = some t) :
    FrameInv cr { t with cfg := cfg } [] := by
  unfold unprivilegedInit at h
  split at h
  · cases h
  · cases h
    exact ⟨rfl, rfl, rfl, by simp, by simp⟩

/-- The entries queued or drained are among those enqueued. -/
theorem FrameInv.queued (hf : FrameInv cr t hist) (hr : RunInv cr tick₀ t hist) :
    ∀ x ∈ t.queue.elems + ↑(drainedTxns hist), ∃ optSig now, Label.enqueued x optSig now ∈ hist ∧
      x.WellFormed ∧ x.fee = afterFragFee optSig := fun x hx => by
  obtain ⟨optSig, now, hl⟩ := mem_enqueuedTxns.mp (Multiset.mem_coe.mp (hr.conserved ▸ hx))
  obtain ⟨hw, hfee, -⟩ := hf.entries x optSig now hl
  exact ⟨optSig, now, hl, hw, hfee⟩

theorem FrameInv.step (hf : FrameInv cr t hist) (hr : RunInv cr tick₀ t hist) (hi : TileInv t)
    {ev : Event} (h : tileStep cr t ev = some (t', l)) : FrameInv cr t' (l :: hist) := by
  have hfr := tileStep_frame hi h
  have hkey : t'.sequencerPrivkey = zeros 64 := hfr.privkey.elim (·.trans hf.privkey) id
  have hid := hfr.identity.trans hf.identity
  have hcap := hfr.cap.trans hf.cap
  cases (tileStep_shape_of_eq hi h).1 with
  | quiet => exact ⟨hid, hkey, hcap, by simpa using hf.entries, by simpa using hf.blocks⟩
  | @enqueued _ txn optSig now =>
    obtain ⟨h0, htxn⟩ := hfr.enqueued txn optSig now rfl
    refine ⟨hid, hkey, hcap, fun x o n hx => ?_, by simpa using hf.blocks⟩
    rcases List.mem_cons.mp hx with hx | hx
    · cases hx
      exact ⟨afterFragTxn_wellFormed hi.fragBufSz_le h0 htxn, afterFragTxn_fee htxn⟩
    · exact hf.entries x o n hx
  | produced _ hd hh _ =>
    refine ⟨hid, hkey, hcap, by simpa using hf.entries, ?_⟩
    simp only [producedBlocks, List.mem_append, List.mem_singleton]
    rintro b (hb | rfl)
    · exact hf.blocks b hb
    · refine hh.sealed hf.identity hf.privkey (fun x hx => ?_) _
      obtain ⟨-, -, -, hw, -⟩ :=
        hf.queued hr x (Multiset.mem_add.mpr (.inl (hd.elems ▸ Multiset.mem_add.mpr (.inl hx))))
      exact hw

/-- Every reachable tile satisfies the frame invariant for its history. -/
theorem TileReachable.frameInv (h : TileReachable cr tick₀ t hist) : FrameInv cr t hist := by
  induction h with
  | init cfg _ hinit => exact frameInv_init cfg hinit
  | step hreach hstep ih => exact ih.step hreach.runInv hreach.inv hstep

/-! ## The laws -/

/-- **Every entry is well formed.** Along every run each entry `after_frag` enqueued has 1 to
`FD_SEQUENCER_TXN_MTU` payload bytes followed by zeros, a nonzero fee, and as `sig` payload bytes
`[1, 65)`, or 64 zero bytes when the payload is shorter than 65 bytes; its fee is the hint of the
call that enqueued it when that is nonzero, else 5000, and its arrival tick that call's reading.
Each entry still queued and each entry a block took is one of those. -/
theorem entries_wellFormed (h : TileReachable cr tick₀ t hist) :
    (∀ x optSig now, Label.enqueued x optSig now ∈ hist →
      x.WellFormed ∧ x.fee = afterFragFee optSig ∧ x.receivedTicks = now) ∧
    ∀ x ∈ t.queue.elems + ↑(drainedTxns hist), ∃ optSig now, Label.enqueued x optSig now ∈ hist ∧
      x.WellFormed ∧ x.fee = afterFragFee optSig :=
  ⟨h.frameInv.entries, h.frameInv.queued h.runInv⟩

theorem entries_wellFormed_two_hints :
    ∃ t b x₁ x₂, TileReachable ⟨fun _ => zeros 32, fun _ _ _ => zeros 64⟩ 0 t
        [.produced 400000000 b, .enqueued x₂ (some 900) 0, .quiet, .enqueued x₁ (some 0) 0, .quiet] ∧
      x₁.WellFormed ∧ x₁.fee = 5000 ∧ x₂.WellFormed ∧ x₂.fee = 900 ∧
      ∀ x ∈ b.txns, x.WellFormed ∧ (x.fee = 5000 ∨ x.fee = 900) := by
  obtain ⟨t, b, x₁, x₂, h, -⟩ := TileReachable.two_enqueued_block ⟨fun _ => zeros 32, fun _ _ _ => zeros 64⟩ (some 0) (some 900)
  obtain ⟨henq, hkept⟩ := entries_wellFormed h
  obtain ⟨hw₁, hf₁, -⟩ := henq x₁ (some 0) 0 (by simp)
  obtain ⟨hw₂, hf₂, -⟩ := henq x₂ (some 900) 0 (by simp)
  refine ⟨t, b, x₁, x₂, h, hw₁, hf₁, hw₂, hf₂, fun x hx => ?_⟩
  obtain ⟨optSig, now, hl, hw, hfee⟩ := hkept x (Multiset.mem_add.mpr (.inr (by simpa using hx)))
  simp only [List.mem_cons, Label.enqueued.injEq, List.mem_singleton, reduceCtorEq, false_or,
    List.not_mem_nil, or_false] at hl
  rcases hl with ⟨-, rfl, -⟩ | ⟨-, rfl, -⟩
  exacts [⟨hw, .inr hfee⟩, ⟨hw, .inl hfee⟩]

/-- **No key is ever loaded.** `unprivileged_init` zeroes the tile, and no callback writes
`sequencer_identity`, or `sequencer_privkey` other than `fini`'s wipe. So along every run both are
all zero, every header carries the all-zero public key, and every non-empty block is signed with
the all-zero key pair; an empty block's signature is 64 zero bytes. -/
theorem produced_headers_zero_key (h : TileReachable cr tick₀ t hist) :
    t.sequencerIdentity = zeros 32 ∧ t.sequencerPrivkey = zeros 64 ∧
      ∀ b ∈ producedBlocks hist, b.hdr.sequencerPubkey = zeros 32 ∧ b.hdr.signature =
        if b.txns = [] then zeros 64
        else cr.ed25519Sign b.hdr.preSigBytes (zeros 32) (zeros 64) := by
  have hf := h.frameInv
  exact ⟨hf.identity, hf.privkey, fun b hb => ⟨(hf.blocks b hb).pubkey, (hf.blocks b hb).signature⟩⟩

/-- **The merkle root commits to 64 payload bytes an entry.** Along every run every non-empty
block's merkle root is the SHA-256 of, entry by entry, payload bytes `[1, 65)`, or 64 zero bytes
for an entry shorter than 65 bytes: no other payload byte enters it. -/
theorem merkleRoot_sigWindows (h : TileReachable cr tick₀ t hist) :
    ∀ b ∈ producedBlocks hist, b.txns ≠ [] →
      b.hdr.merkleRoot = cr.sha256 (b.txns.flatMap Txn.sigWindow) :=
  fun b hb => (h.frameInv.blocks b hb).merkleRoot

theorem produced_headers_zero_key_two_enqueued :
    ∃ t b hist, TileReachable ⟨fun _ => zeros 32, fun _ _ _ => zeros 64⟩ 0 t
        (.produced 400000000 b :: hist) ∧
      b.txns ≠ [] ∧ b.hdr.sequencerPubkey = zeros 32 ∧ t.sequencerPrivkey = zeros 64 := by
  obtain ⟨t, b, x₁, x₂, h, hperm, -⟩ :=
    TileReachable.two_enqueued_block ⟨fun _ => zeros 32, fun _ _ _ => zeros 64⟩ none none
  obtain ⟨-, hkey, hb⟩ := produced_headers_zero_key h
  exact ⟨t, b, _, h, fun he => by simp [he] at hperm, (hb b (by simp)).1, hkey⟩

theorem merkleRoot_sigWindows_two_enqueued :
    ∃ t b hist,
      TileReachable ⟨fun l => Vector.replicate 32 (UInt8.ofNat l.length), fun _ _ _ => zeros 64⟩
        0 t (.produced 400000000 b :: hist) ∧
      b.txns.length = 2 ∧ b.hdr.merkleRoot = Vector.replicate 32 128 := by
  obtain ⟨t, b, x₁, x₂, h, hperm, -⟩ := TileReachable.two_enqueued_block
    ⟨fun l => Vector.replicate 32 (UInt8.ofNat l.length), fun _ _ _ => zeros 64⟩ none none
  have hlen : b.txns.length = 2 := hperm.length_eq
  have hne : b.txns ≠ [] := fun he => by simp [he] at hlen
  refine ⟨t, b, _, h, hlen, (merkleRoot_sigWindows h b (by simp) hne).trans ?_⟩
  simp only [List.length_flatMap, Function.comp_def, length_sigWindow, List.map_const',
    List.sum_replicate, hlen]
  rfl

end FdSequencer
