import LessChain.Core.Types
import LessChain.Lib.Abi

/-!
# The contract `TBStorage`

The contract on the beacon chain that keeps the time beacons. A call that runs into a
panic (an index out of range, a division by zero, an overflow) is reverted, which is
`none`. `uint32` and `uint64` values are natural numbers; the only sums formed of them are
the loop counters.

`decomposeSig` reads 65 bytes from where the bytes of a signature begin, however many there
are, so a `bytes memory` comes with what follows it in memory.
-/

namespace LessChain

namespace Contract

/-- `ContractTB`. -/
structure ContractTB where
  shardID : ℕ
  height : ℕ
  blockHash : Bytes
  txHash : Bytes
  statusHash : Bytes
deriving DecidableEq, Repr

/-- What an unwritten entry of a mapping holds. -/
def zeroTB : ContractTB := ⟨0, 0, [], [], []⟩

structure LogMessage where
  message : String
  shardID : ℕ
  height : ℕ
  addr : Address
deriving DecidableEq

structure TBStorage where
  minSigCnt : ℕ
  shardNum : ℕ
  tbs : ℕ → ℕ → ContractTB
  addr2Shard : Address → ℕ
  addrRecorded : Address → Bool

/-- `tbs[shardID][height] = tb`. -/
def TBStorage.putTB (st : TBStorage) (shardID height : ℕ) (tb : ContractTB) : TBStorage :=
  { st with
    tbs := Function.update st.tbs shardID (Function.update (st.tbs shardID) height tb) }

theorem TBStorage.putTB_tbs (st : TBStorage) (shardID height : ℕ) (tb : ContractTB)
    (shardID' height' : ℕ) : (st.putTB shardID height tb).tbs shardID' height' =
      if shardID' = shardID ∧ height' = height then tb else st.tbs shardID' height' := by
  unfold putTB
  dsimp only
  by_cases hs : shardID' = shardID
  · rw [hs, Function.update_self, Function.update_apply]
    simp
  · rw [Function.update_of_ne hs, if_neg fun h => hs h.1]

/-- A `bytes memory`: its bytes, and the memory behind them. -/
structure MemBytes where
  data : Bytes
  behind : ℕ → UInt8

/-- The byte at an offset from the first. -/
def MemBytes.byteAt (b : MemBytes) (i : ℕ) : UInt8 :=
  (b.data[i]?).getD (b.behind (i - b.data.length))

/-- `mload` at an offset from the first byte. -/
def MemBytes.mload (b : MemBytes) (offset : ℕ) : Hash :=
  BitVec.ofNat 256 (Sys.fromBE ((List.range 32).map fun i => b.byteAt (offset + i)))

/-- The precompiled functions. -/
structure Evm where
  ecrecover : Hash → UInt8 → Hash → Hash → Address
  keccak256 : Bytes → Hash

/-- The arguments of `addTB`, and `blockhash` as it is when the call is executed. -/
structure AddTBCall where
  tb : ContractTB
  sigs : List MemBytes
  vrfs : List MemBytes
  seedHeight : ℕ
  signers : List Address
  blockhash : ℕ → Hash

/-- `seed`. -/
def AddTBCall.seed (call : AddTBCall) : Hash := call.blockhash call.seedHeight

/-- `abi.encode(tb.shardID, tb.height, tb.blockHash, tb.txHash, tb.statusHash)`. -/
def abiEncode (tb : ContractTB) : Bytes :=
  Sys.Abi.pack [.uint tb.shardID, .uint tb.height, .bytes tb.blockHash, .bytes tb.txHash,
    .bytes tb.statusHash]

section Functions

variable (evm : Evm)

/-- `decomposeSig`. -/
def decomposeSig (sig : MemBytes) : Hash × Hash × UInt8 :=
  let v := sig.byteAt 64
  (sig.mload 0, sig.mload 32, if v < 27 then v + 27 else v)

/-- The address `ecrecover` gives for a hash and a signature. -/
def recoveredSigner (hash : Hash) (sig : MemBytes) : Address :=
  let (r, s, v) := decomposeSig sig
  evm.ecrecover hash v r s

def verifyVrfResult (seed : Hash) (vrfValue : MemBytes) (signer : Address) : Bool :=
  recoveredSigner evm seed vrfValue = signer

/-- `msgHash`. -/
def msgHash (tb : ContractTB) : Hash := evm.keccak256 (abiEncode tb)

def verifySignature (tb : ContractTB) (sig : MemBytes) (signer : Address) : Bool :=
  recoveredSigner evm (msgHash evm tb) sig = signer

/-- `vrfIsQualified`: every first byte is. -/
def vrfIsQualified (vrfValue : MemBytes) : Option Bool :=
  (vrfValue.data[0]?).map fun b => 0 ≤ b.toNat

def vrfValue2ShardID (st : TBStorage) (vrfValue : MemBytes) : Option ℕ :=
  (vrfValue.data[0]?).bind fun b => if st.shardNum = 0 then none else some (b.toNat % st.shardNum)

/-- What the checks of `addTB` say about one signer. -/
inductive Verdict where
  | notRecorded
  | notInShard
  | vrfNotPassed
  | vrfNotQualified
  | sigNotPassed
  | valid
deriving DecidableEq, Repr

def Verdict.message : Verdict → String
  | .notRecorded => "addTB... address not recorded"
  | .notInShard => "addTB... signer not in this shard"
  | .vrfNotPassed => "addTB... vrf verification not passed"
  | .vrfNotQualified => "addTB... vrf not qualified"
  | .sigNotPassed => "addTB... signature verification not passed"
  | .valid => ""

/-- Steps 0 to 3 of the loop body. -/
def verdict (st : TBStorage) (call : AddTBCall) (i : ℕ) (sig : MemBytes) :
    Option (Verdict × Address) :=
  (call.signers[i]?).bind fun signer =>
    if st.addrRecorded signer = false then some (.notRecorded, signer)
    else if st.addr2Shard signer ≠ call.tb.shardID then some (.notInShard, signer)
    else (call.vrfs[i]?).bind fun vrf =>
      if verifyVrfResult evm call.seed vrf signer = false then some (.vrfNotPassed, signer)
      else (vrfIsQualified vrf).bind fun qualified =>
        if qualified = false then some (.vrfNotQualified, signer)
        else if verifySignature evm call.tb sig signer then some (.valid, signer)
        else some (.sigNotPassed, signer)

/-- The loop of `addTB` from index `i` on, over the signatures that are left. -/
def countSigs (st : TBStorage) (call : AddTBCall) :
    List MemBytes → ℕ → ℕ → Option (ℕ × List LogMessage)
  | [], _, validSigCnt => some (validSigCnt, [])
  | sig :: sigs, i, validSigCnt =>
      (verdict evm st call i sig).bind fun (v, signer) =>
        if v = .valid then
          if validSigCnt + 1 ≥ st.minSigCnt then some (validSigCnt + 1, [])
          else if i + 1 = 2 ^ 32 then none
          else countSigs st call sigs (i + 1) (validSigCnt + 1)
        else if i + 1 = 2 ^ 32 then none
        else (countSigs st call sigs (i + 1) validSigCnt).map fun (cnt, logs) =>
          (cnt, ⟨v.message, call.tb.shardID, call.tb.height, signer⟩ :: logs)

def addTB (st : TBStorage) (call : AddTBCall) : Option (TBStorage × List LogMessage) :=
  (countSigs evm st call call.sigs 0 0).map fun (validSigCnt, logs) =>
    if validSigCnt < st.minSigCnt then
      (st, logs ++ [⟨"addTB... insufficient valid signatures", call.tb.shardID, call.tb.height, 0⟩])
    else
      (st.putTB call.tb.shardID call.tb.height call.tb,
        logs ++ [⟨"addTB", call.tb.shardID, call.tb.height, 0⟩])

/-- The loop of `adjustRecordedAddrs` from index `j` on. -/
def adjustLoop (seed : Hash) (vrfs : List MemBytes) :
    List Address → ℕ → TBStorage → Option (TBStorage × List LogMessage)
  | [], _, st => some (st, [])
  | addr :: addrs, j, st =>
      (vrfs[j]?).bind fun vrfValue =>
        if st.addrRecorded addr = false then
          if j + 1 = 2 ^ 32 then none
          else (adjustLoop seed vrfs addrs (j + 1) st).map fun (st, logs) =>
            (st, ⟨"adjustAddr... address not recorded", 0, 0, addr⟩ :: logs)
        else if verifyVrfResult evm seed vrfValue addr = false then
          if j + 1 = 2 ^ 32 then none
          else (adjustLoop seed vrfs addrs (j + 1) st).map fun (st, logs) =>
            (st, ⟨"adjustAddr... vrf verification not passed", 0, 0, addr⟩ :: logs)
        else (vrfValue2ShardID st vrfValue).bind fun newShardID =>
          if j + 1 = 2 ^ 32 then none
          else adjustLoop seed vrfs addrs (j + 1)
            { st with addr2Shard := Function.update st.addr2Shard addr newShardID }

def adjustRecordedAddrs (st : TBStorage) (addrs : List Address) (vrfs : List MemBytes)
    (seedHeight : ℕ) (blockhash : ℕ → Hash) : Option (TBStorage × List LogMessage) :=
  adjustLoop evm (blockhash seedHeight) vrfs addrs 0 st

end Functions

def getTB (st : TBStorage) (shardID height : ℕ) : ContractTB × List LogMessage :=
  (st.tbs shardID height, [⟨"getTB", shardID, height, 0⟩])

/-- The loop of the constructor from `shardID` on, over the beacons that are left. -/
def genesisLoop (addrs : List (List Address)) :
    List ContractTB → ℕ → TBStorage → Option TBStorage
  | [], _, st => some st
  | tb :: tbs, shardID, st =>
      (addrs[shardID]?).bind fun members =>
        if shardID + 1 = 2 ^ 32 ∨ 2 ^ 32 ≤ members.length then none
        else genesisLoop addrs tbs (shardID + 1)
          { st with
            tbs := (st.putTB shardID 0 tb).tbs
            addr2Shard := fun a => if a ∈ members then shardID else st.addr2Shard a
            addrRecorded := fun a => if a ∈ members then true else st.addrRecorded a }

/-- The constructor. -/
def deploy (genesisTBs : List ContractTB) (minSigCnt shardNum : ℕ)
    (addrs : List (List Address)) : Option TBStorage :=
  (genesisLoop addrs genesisTBs 0
    { minSigCnt := 0
      shardNum := 0
      tbs := fun _ _ => zeroTB
      addr2Shard := fun _ => 0
      addrRecorded := fun _ => false }).map fun st =>
    { st with minSigCnt := minSigCnt, shardNum := shardNum }

end Contract

end LessChain
