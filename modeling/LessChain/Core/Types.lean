import Mathlib.Data.Finmap
import LessChain.Lib.Rlp
import Mathlib.Tactic.Common

/-!
# Data model of package `core` and `result`

Transactions, receipts, time beacons and blocks, with the fields that the modelled
functions read or write. Go's `uint64` fields are natural numbers below `2^64`; the
sums the source forms in `uint64` go through `addU64`, which wraps as Go does. A
block number is a `*big.Int` and stays unbounded; `u64` is its `Uint64()`.

`log.Error` writes the message and then calls `os.Exit(1)`, and a nil dereference or
an index out of range panics. Both end the process, so a function with such a path
returns an `Option` and `none` stands for a process that is gone.
-/

namespace LessChain

/-- `x.Uint64()` of an unbounded integer. -/
def u64 (x : ℕ) : ℕ := x % 2 ^ 64

/-- `uint64` addition. -/
def addU64 (a b : ℕ) : ℕ := u64 (a + b)

/-- `uint64` subtraction. -/
def subU64 (a b : ℕ) : ℕ := u64 (a + (2 ^ 64 - b))

/-- `int(x)` of a `uint64`: two's complement. -/
def toInt (x : ℕ) : ℤ := if x < 2 ^ 63 then x else (x : ℤ) - 2 ^ 64

/-- `uint64(utils.Max(int(a), int(b)))`: the maximum is taken on signed values. -/
def maxU64 (a b : ℕ) : ℕ := if toInt a > toInt b then a else b

theorem u64_of_lt {x : ℕ} (h : x < 2 ^ 64) : u64 x = x := Nat.mod_eq_of_lt h

theorem subU64_of_le {a b : ℕ} (ha : a < 2 ^ 64) (hb : b ≤ a) : subU64 a b = a - b := by
  unfold subU64 u64
  omega

/-- A difference below zero comes out above the number it is taken from. -/
theorem lt_subU64 {a b : ℕ} (hb : b < 2 ^ 64) (hab : a < b) : a < subU64 a b := by
  unfold subU64 u64
  omega

/-- Below `2^63` the signed maximum is the maximum. -/
theorem maxU64_of_lt {a b : ℕ} (ha : a < 2 ^ 63) (hb : b < 2 ^ 63) : maxU64 a b = max a b := by
  unfold maxU64 toInt
  rw [if_pos ha, if_pos hb]
  split <;> omega

/-- `common.Address`, 20 bytes. -/
abbrev Address := BitVec 160

/-- Byte strings. -/
abbrev Bytes := List UInt8

/-- `addr[:]`. -/
def Address.bytes (a : Address) : Bytes := Sys.toBE 20 a.toNat

/-- `common.Hash`, 32 bytes. -/
abbrev Hash := BitVec 256

/-- `hash[:]`. -/
def Hash.bytes (h : Hash) : Bytes := Sys.toBE 32 h.toNat

/-- `common.BytesToHash`: longer strings lose their first bytes, shorter ones are padded. -/
def bytesToHash (b : Bytes) : Hash := BitVec.ofNat 256 (Sys.fromBE b)

@[simp] theorem Hash.length_bytes (h : Hash) : h.bytes.length = 32 := Sys.length_toBE 32 _

@[simp] theorem bytesToHash_bytes (h : Hash) : bytesToHash h.bytes = h := by
  apply BitVec.eq_of_toNat_eq
  rw [bytesToHash, Hash.bytes, Sys.fromBE_toBE, BitVec.toNat_ofNat]
  have := h.isLt
  rw [Nat.mod_mod_of_dvd _ (by decide)]
  exact Nat.mod_eq_of_lt this

theorem Hash.bytes_injective : Function.Injective Hash.bytes :=
  Function.LeftInverse.injective bytesToHash_bytes

@[simp] theorem Address.length_bytes (a : Address) : a.bytes.length = 20 := Sys.length_toBE 20 _

theorem Address.bytes_injective : Function.Injective Address.bytes := by
  intro a b h
  have hval := congrArg Sys.fromBE h
  rw [Address.bytes, Address.bytes, Sys.fromBE_toBE, Sys.fromBE_toBE] at hval
  apply BitVec.eq_of_toNat_eq
  have ha := a.isLt
  have hb := b.isLt
  omega

/-! ## Transactions -/

/-- `TXtype`. Everything outside the four known kinds is handled by the `default`
branches, as `UndefinedTXType` is. -/
inductive TXType where
  | undefinedTXType
  | intraTXType
  | crossTXType1
  | crossTXType2
  | rollbackTXType
deriving DecidableEq, Repr

/-- Transaction status, package `result`. -/
inductive TxStatus where
  | defaultStatus
  | intraSuccess
  | crossTXType1Success
  | crossTXType2Success
  | rollbackSuccess
  | dropped
  | crossTXType2Fail
  | rollbackFail
deriving DecidableEq, Repr

/-- `core.Transaction`. -/
structure Transaction where
  txType : TXType
  id : ℕ
  sender : Address
  recipient : Address
  value : ℤ
  timestamp : ℕ
  confirmTimestamp : ℕ
  confirmHeight : ℕ
  cross1ConfirmHeight : ℕ
  senderSid : ℕ
  recipientSid : ℕ
  txStatus : TxStatus
  cid : ℕ
  rollbackHeight : ℕ
deriving DecidableEq, Repr

/-- A transfer from account 1 in shard 0 to account 2, before it is injected. -/
def exampleTransfer (id : ℕ) (value : ℤ) (recipientSid : ℕ) : Transaction where
  txType := .undefinedTXType
  id := id
  sender := 1
  recipient := 2
  value := value
  timestamp := 0
  confirmTimestamp := 0
  confirmHeight := 0
  cross1ConfirmHeight := 0
  senderSid := 0
  recipientSid := recipientSid
  txStatus := .defaultStatus
  cid := 0
  rollbackHeight := 0

/-- The last height at which the cross2 half may still be packed, as both timeout
tests compute it: `Cross1ConfirmHeight + RollbackHeight` in `uint64`. -/
def Transaction.lastHeight (tx : Transaction) : ℕ :=
  addU64 tx.cross1ConfirmHeight tx.rollbackHeight

/-- `result.TXReceipt`. -/
structure TXReceipt where
  txID : ℕ
  confirmTimeStamp : ℕ
  txStatus : TxStatus
  shardID : ℕ
  blockHeight : ℕ
deriving DecidableEq, Repr

/-- Receipts of the cross1 half of transaction `i`. -/
def TXReceipt.isCross1 (i : ℕ) (r : TXReceipt) : Bool :=
  r.txStatus = .crossTXType1Success ∧ r.txID = i

/-! ## Time beacons and blocks -/

/-- `core.TimeBeacon`. -/
structure TimeBeacon where
  shardID : ℕ
  height : ℕ
  blockHash : String
  txHash : String
  statusHash : String
deriving DecidableEq, Repr

/-- `beaconChain.ConfirmedTB`. -/
structure ConfirmedTB extends TimeBeacon where
  confirmTime : ℕ
  confirmHeight : ℕ
deriving DecidableEq, Repr

/-- `beaconChain.TBBlock`: `tbs[i]` holds the beacons of shard `i`. -/
structure TBBlock where
  time : ℕ
  height : ℕ
  tbs : List (List ConfirmedTB)
deriving DecidableEq, Repr

/-- The beacons of the block with their shard, in the order the loops over `Tbs` visit them. -/
def TBBlock.beacons (b : TBBlock) : List (ℕ × ConfirmedTB) :=
  b.tbs.zipIdx.flatMap fun p => p.1.map fun tb => (p.2, tb)

/-- The part of `core.Header` the modelled functions use. -/
structure Header where
  number : ℕ
  root : Hash
  shardID : ℕ
deriving DecidableEq, Repr

/-- `core.Block`. -/
structure Block where
  header : Header
  transactions : List Transaction
deriving DecidableEq, Repr

/-! ## The storage chain of a shard -/

/-- `core.BlockChain`: the head is stored next to the list of blocks, and nothing in
the type ties the two. -/
structure BlockChain where
  currentBlock : Block
  blocks : List Block
deriving DecidableEq, Repr

/-- `NewBlockChain`: head and list start at the genesis block. -/
def newBlockChain (genesis : Block) : BlockChain := ⟨genesis, [genesis]⟩

/-- `WriteBlock`. -/
def BlockChain.writeBlock (bc : BlockChain) (block : Block) : BlockChain :=
  { currentBlock := block, blocks := bc.blocks ++ [block] }

/-- `CurrentBlock().Number()`. -/
def BlockChain.height (bc : BlockChain) : ℕ := bc.currentBlock.header.number

@[simp] theorem height_writeBlock (bc : BlockChain) (b : Block) :
    (bc.writeBlock b).height = b.header.number := rfl

@[simp] theorem mem_writeBlock {bc : BlockChain} {b b' : Block} :
    b' ∈ (bc.writeBlock b).blocks ↔ b' ∈ bc.blocks ∨ b' = b := by
  simp [BlockChain.writeBlock]

end LessChain
