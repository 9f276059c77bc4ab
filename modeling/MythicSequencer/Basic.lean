import Mathlib.Data.Vector.Basic
import Mathlib.Algebra.Order.Ring.Nat

/-!
# The sequencer's data model

The records of `fd_sequencer_tile.h` — the configuration, the transaction entry and the block
header — and the fixed byte layouts that the header is hashed and signed in.

## Machine integers

Every `ulong` and `uint` field is a natural number and every `long` an integer. Wrap-around is
written out as `% 2 ^ 64` at the places where the code can overflow (the lifetime counters and
`fee_total`, in `Tile`), and nowhere else: queue indices stay below `tx_queue_cap`, and an
array of `tx_queue_cap` entries of 1320 bytes fits in a 64-bit address space only when
`tx_queue_cap < 2 ^ 54`, so `2 * idx + 2` never wraps.

## Fixed arrays

A C array `uchar x[ n ]` is a `Vector UInt8 n`, so its length is part of its type. Copies into
such an array go through `memcpy?`, which answers `none` when either side would be read or
written out of range: that `none` is the out-of-bounds branch the memory-safety results rule
out.

## Main definitions

* `FdSequencer.Cfg`, `cfgDefault` — `fd_sequencer_cfg_t` and `FD_SEQUENCER_CFG_DEFAULT`
* `FdSequencer.Txn` — `fd_sequencer_txn_t`
* `FdSequencer.BlockHdr`, `BlockHdr.bytes`, `BlockHdr.preSigBytes` — the header, its 184-byte
  object representation and the 116 bytes before `signature`
* `FdSequencer.Crypto` — the two external primitives, SHA-256 and Ed25519 signing
-/

namespace FdSequencer

open Mathlib (Vector)

/-! ## Constants of `fd_sequencer_tile.h` -/

/-- `FD_SEQUENCER_TILE_ALIGN`. -/
def tileAlign : Nat := 128

/-- `FD_SEQUENCER_TILE_FOOTPRINT`, 4 MiB. -/
def tileFootprint : Nat := 2 ^ 22

/-- `FD_SEQUENCER_TXN_MTU`, the largest SVM transaction. -/
def txnMtu : Nat := 1232

/-- `FD_SEQUENCER_QUEUE_MAX`, the capacity `unprivileged_init` gives the queue. -/
def queueMax : Nat := 65536

/-! ## Configuration -/

/-- `fd_sequencer_cfg_t`. -/
structure Cfg where
  blockTimeNs : Nat
  maxTxnsPerBlock : Nat
  epochLengthSlots : Nat
  deriving DecidableEq, Repr

/-- `FD_SEQUENCER_CFG_DEFAULT`: 400 ms blocks, at most 10000 transactions, 432000 slots an
epoch. -/
def cfgDefault : Cfg := ⟨400000000, 10000, 432000⟩

/-! ## Bytes -/

/-- `n` zero bytes, what `fd_memset( x, 0, n )` leaves. -/
def zeros (n : Nat) : Vector UInt8 n := Vector.replicate n 0

/-- `fd_memcpy( dst, src + off, sz )`: the bytes `src[off, off + sz)` overwrite the first `sz`
bytes of `dst`. Reading past `src` or writing past `dst` is a fault. -/
def memcpy? {n : Nat} (dst : Vector UInt8 n) (src : List UInt8) (off sz : Nat) :
    Option (Vector UInt8 n) :=
  if h : off + sz ≤ src.length ∧ sz ≤ n then
    some ⟨(src.drop off).take sz ++ dst.toList.drop sz, by simp; omega⟩
  else none

theorem memcpy?_eq_some {n : Nat} (dst : Vector UInt8 n) (src : List UInt8) {off sz : Nat}
    (hsrc : off + sz ≤ src.length) (hdst : sz ≤ n) :
    memcpy? dst src off sz = some ⟨(src.drop off).take sz ++ dst.toList.drop sz, by simp; omega⟩ :=
  dif_pos ⟨hsrc, hdst⟩

/-- What `memcpy?` leaves in range: the copied bytes at the start, `dst`'s own bytes after them. -/
theorem memcpy?_spec {n : Nat} (dst : Vector UInt8 n) (src : List UInt8) {off sz : Nat}
    (hsrc : off + sz ≤ src.length) (hdst : sz ≤ n) :
    ∃ v, memcpy? dst src off sz = some v ∧ v.toList.take sz = (src.drop off).take sz ∧
      v.toList.drop sz = dst.toList.drop sz := by
  have hlen : ((src.drop off).take sz).length = sz := by simp; omega
  refine ⟨_, memcpy?_eq_some dst src hsrc hdst, ?_, ?_⟩
  · exact List.take_left' hlen
  · exact List.drop_left' hlen

/-- Little-endian bytes of a `w`-byte unsigned integer; higher bits are dropped, as a store
into a `w`-byte field drops them. -/
def leBytes (w n : Nat) : List UInt8 := (List.range w).map fun i => UInt8.ofNat (n / 256 ^ i)

/-- Little-endian bytes of a `long`, in two's complement. -/
def leBytesInt (w : Nat) (x : Int) : List UInt8 := leBytes w (x % (2 ^ (8 * w) : Nat)).toNat

@[simp] theorem length_leBytes (w n : Nat) : (leBytes w n).length = w := by simp [leBytes]

@[simp] theorem length_leBytesInt (w : Nat) (x : Int) : (leBytesInt w x).length = w := by
  simp [leBytesInt]

/-! ## Transactions and block headers -/

/-- `fd_sequencer_txn_t`, one heap element. -/
structure Txn where
  payload : Vector UInt8 txnMtu
  payloadSz : Nat
  fee : Nat
  receivedTicks : Int
  sig : Vector UInt8 64
  deriving DecidableEq

/-- `fd_sequencer_block_hdr_t`. Its fields take 180 bytes and the struct is 8-aligned, so
`sizeof` is 184: `pad` is the four trailing padding bytes, part of the object that
`during_housekeeping` hashes although no field names them. -/
structure BlockHdr where
  slot : Nat
  parentHash : Vector UInt8 32
  merkleRoot : Vector UInt8 32
  timestamp : Int
  sequencerPubkey : Vector UInt8 32
  txnCount : Nat
  signature : Vector UInt8 64
  pad : Vector UInt8 4
  deriving DecidableEq

/-- `fd_sequencer_txn_t` after `fd_memset( &txn, 0, sizeof(fd_sequencer_txn_t) )`. -/
def Txn.zeroed : Txn := ⟨zeros _, 0, 0, 0, zeros _⟩

namespace BlockHdr

/-- The header after `fd_memset( hdr, 0, sizeof(fd_sequencer_block_hdr_t) )`, padding included. -/
def zeroed : BlockHdr := ⟨0, zeros _, zeros _, 0, zeros _, 0, zeros _, zeros _⟩

/-- The header bytes before `signature`, `offsetof( fd_sequencer_block_hdr_t, signature )` =
116 of them: the message `build_block` signs. -/
def preSigBytes (h : BlockHdr) : List UInt8 :=
  leBytes 8 h.slot ++ h.parentHash.toList ++ h.merkleRoot.toList ++ leBytesInt 8 h.timestamp ++
    h.sequencerPubkey.toList ++ leBytes 4 h.txnCount

/-- All `sizeof( fd_sequencer_block_hdr_t )` = 184 bytes of the header object. -/
def bytes (h : BlockHdr) : List UInt8 := h.preSigBytes ++ h.signature.toList ++ h.pad.toList

@[simp] theorem length_preSigBytes (h : BlockHdr) : h.preSigBytes.length = 116 := by
  simp [preSigBytes]

@[simp] theorem length_bytes (h : BlockHdr) : h.bytes.length = 184 := by simp [bytes]

end BlockHdr

/-! ## External primitives -/

/-- The two primitives the core calls and does not define: `fd_sha256` over a whole message
(an init, the appends in order, a fini) and `fd_ed25519_sign`. Their output sizes are part of
their types. -/
structure Crypto where
  sha256 : List UInt8 → Vector UInt8 32
  ed25519Sign : List UInt8 → Vector UInt8 32 → Vector UInt8 64 → Vector UInt8 64

end FdSequencer
