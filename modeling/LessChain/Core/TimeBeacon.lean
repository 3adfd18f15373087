import LessChain.Contract.TBStorage
import LessChain.Core.DeriveSha

/-!
# `core/timebeacon.go`: what a time beacon commits to

A committee makes a time beacon from a block (`broadcastTbInCommittee`), and its members sign
the hash of the beacon. The contract computes that hash from its own copy of the beacon
(`abiEncode_toContract`). The hash determines the beacon, the header of the block and, through
the transaction root, the transactions, unless two of the inputs that are hashed on the way
collide.
-/

namespace LessChain

/-- The bytes of a Go string. -/
def goBytes (s : String) : Bytes := s.toUTF8.data.toList

theorem goBytes_injective : Function.Injective goBytes := by
  intro s t h
  have harray : s.toUTF8 = t.toUTF8 := ByteArray.ext (Array.toList_inj.mp h)
  exact String.toByteArray_inj.mp harray

/-! ## Hashes as text -/

/-- `common.Hash.Hex`. -/
def Hash.hex (h : Hash) : String :=
  "0x" ++ String.ofList ((Trie.nibbles h.bytes).map fun x => Nat.digitChar x.toNat)

theorem digitChar_inj {x y : UInt8} (hx : x.toNat < 16) (hy : y.toNat < 16)
    (h : Nat.digitChar x.toNat = Nat.digitChar y.toNat) : x = y := by
  have hall : ∀ i j : Fin 16, Nat.digitChar i = Nat.digitChar j → i = j := by decide
  have hfin := hall ⟨x.toNat, hx⟩ ⟨y.toNat, hy⟩ h
  exact UInt8.toNat_inj.mp (Fin.mk.inj hfin)

theorem Hash.hex_injective : Function.Injective Hash.hex := by
  intro a b h
  have hchars := congrArg String.toList h
  simp only [Hash.hex, String.toList_append, String.toList_ofList] at hchars
  have hmap := List.append_cancel_left hchars
  have hnibbles : Trie.nibbles a.bytes = Trie.nibbles b.bytes :=
    Sys.eq_of_map_eq (fun x hx y hy => digitChar_inj (Trie.isNibbles_nibbles _ x hx)
      (Trie.isNibbles_nibbles _ y hy)) hmap
  apply Hash.bytes_injective
  rw [← Trie.decodeNibbles_nibbles a.bytes, hnibbles, Trie.decodeNibbles_nibbles]

/-! ## The hash that is signed -/

/-- `AbiEncode`. -/
def TimeBeacon.abiEncode (tb : TimeBeacon) : Bytes :=
  Sys.Abi.pack [.uint tb.shardID, .uint tb.height, .bytes (goBytes tb.blockHash),
    .bytes (goBytes tb.txHash), .bytes (goBytes tb.statusHash)]

/-- `Hash`. -/
def TimeBeacon.hash (keccak : Bytes → Hash) (tb : TimeBeacon) : Hash := keccak tb.abiEncode

/-- The beacon as an argument of a call. -/
def TimeBeacon.toContract (tb : TimeBeacon) : Contract.ContractTB :=
  ⟨tb.shardID, tb.height, goBytes tb.blockHash, goBytes tb.txHash, goBytes tb.statusHash⟩

/-- The contract hashes what the nodes have signed. -/
theorem abiEncode_toContract (tb : TimeBeacon) :
    Contract.abiEncode tb.toContract = tb.abiEncode := rfl

/-- The numbers of a beacon fit their types. -/
def TimeBeacon.Fits (tb : TimeBeacon) : Prop := tb.shardID < 2 ^ 32 ∧ tb.height < 2 ^ 64

theorem TimeBeacon.abiEncode_inj {tb tb' : TimeBeacon} (h : tb.Fits) (h' : tb'.Fits)
    (hlen : tb.abiEncode.length < 2 ^ 63) (heq : tb.abiEncode = tb'.abiEncode) : tb = tb' := by
  have hty : ∀ {tb : TimeBeacon}, tb.Fits → List.Forall₂ Sys.Abi.Val.HasTy
      [.uint tb.shardID, .uint tb.height, .bytes (goBytes tb.blockHash),
        .bytes (goBytes tb.txHash), .bytes (goBytes tb.statusHash)]
      [.uint 32, .uint 64, .bytes, .bytes, .bytes] := by
    intro tb h
    exact .cons ⟨h.1, by decide⟩ (.cons ⟨h.2, by decide⟩ (.cons trivial (.cons trivial
      (.cons trivial .nil))))
  have hvals := Sys.Abi.pack_inj (hty h) (hty h') hlen heq
  simp only [List.cons.injEq, Sys.Abi.Val.uint.injEq, Sys.Abi.Val.bytes.injEq,
    goBytes_injective.eq_iff, and_true] at hvals
  rcases hvals with ⟨h1, h2, h3, h4, h5⟩
  cases tb
  cases tb'
  simp_all

namespace Wire

open Sys (minBE)
open Sys.Rlp (encodeStrings)
open Trie

/-! ## Headers -/

/-- The strings RLP writes, in the order of the fields. -/
def Header.fields (h : Header) : List Bytes :=
  [h.parentHash.bytes, h.coinbase.bytes, h.root.bytes, h.txHash.bytes, minBE h.difficulty.toNat,
    minBE h.number.toNat, minBE h.time.toNat, h.mixDigest.bytes, Sys.toBE 8 h.nonce.toNat,
    minBE h.shardID.toNat]

/-- `rlp.Encode`. -/
def Header.encode (h : Header) : Option Bytes :=
  if h.difficulty < 0 ∨ h.number < 0 then none else some (encodeStrings h.fields)

/-- `Hash`: an error is logged. -/
def Header.hash (keccak : Bytes → Hash) (h : Header) : Option Hash := h.encode.map keccak

/-- The beacon `broadcastTbInCommittee` makes from a block. -/
def Block.beacon (keccak : Bytes → Hash) (comID : UInt32) (b : Block) : Option TimeBeacon := do
  let hash ← b.header.hash keccak
  some
    { shardID := comID.toNat
      height := u64 b.header.number.toNat
      blockHash := Hash.hex hash
      txHash := Hash.hex b.header.txHash
      statusHash := Hash.hex b.header.root }

theorem toBE_injective {n : ℕ} {v w : ℕ} (hv : v < 256 ^ n) (hw : w < 256 ^ n)
    (h : Sys.toBE n v = Sys.toBE n w) : v = w := by
  have hval := congrArg Sys.fromBE h
  rwa [Sys.fromBE_toBE, Sys.fromBE_toBE, Nat.mod_eq_of_lt hv, Nat.mod_eq_of_lt hw] at hval

theorem Header.fields_inj {h h' : Header} (hd : 0 ≤ h.difficulty) (hd' : 0 ≤ h'.difficulty)
    (hn : 0 ≤ h.number) (hn' : 0 ≤ h'.number) (heq : h.fields = h'.fields) : h = h' := by
  simp only [fields, List.cons.injEq, Sys.minBE_injective.eq_iff, Address.bytes_injective.eq_iff,
    Hash.bytes_injective.eq_iff, UInt64.toNat_inj, and_true] at heq
  rcases heq with ⟨h1, h2, h3, h4, h5, h6, h7, h8, h9, h10⟩
  have h5' : h.difficulty = h'.difficulty := by omega
  have h6' : h.number = h'.number := by omega
  have h9' : h.nonce = h'.nonce := by
    apply BitVec.eq_of_toNat_eq
    exact toBE_injective (h.nonce.isLt.trans_le (by decide)) (h'.nonce.isLt.trans_le (by decide)) h9
  cases h
  cases h'
  simp_all

variable {keccak : Bytes → Hash}

/-- The parts of a beacon. -/
theorem Block.beacon_eq_some {comID : UInt32} {b : Block} {tb : TimeBeacon}
    (h : b.beacon keccak comID = some tb) :
    0 ≤ b.header.difficulty ∧ 0 ≤ b.header.number ∧ tb.Fits ∧
      tb.blockHash = Hash.hex (keccak (encodeStrings b.header.fields)) ∧
      tb.txHash = Hash.hex b.header.txHash := by
  rw [Block.beacon, Header.hash, Header.encode] at h
  split at h
  · cases h
  · rename_i hneg
    cases h
    refine ⟨by omega, by omega, ⟨comID.toNat_lt, ?_⟩, rfl, rfl⟩
    exact Nat.mod_lt _ (by decide)

/-! ## A beacon determines the block -/

/-- The trie of the transactions. -/
def txTrie (txs : List Transaction) : Node := (runWrites (txWrites txs)).getD .nil

/-- What is hashed on the way from a block to the hash that is signed. -/
def signedInputs (keccak : Bytes → Hash) (b : Block) (tb : TimeBeacon) : List Bytes :=
  tb.abiEncode :: encodeStrings b.header.fields :: hashInputs keccak (txTrie b.transactions)

/-- A block that `NewBlock` made. -/
theorem newBlock_eq_some {header : Header} {txs : List Transaction} {b : Block}
    (hlen : txs.length ≤ 2 ^ 64) (h : newBlock keccak header txs = some b) :
    (∀ tx ∈ txs, 0 ≤ tx.value) ∧ b.transactions = txs ∧
      b.header.txHash = rootHash keccak (txTrie txs) := by
  have hv : ∀ tx ∈ txs, 0 ≤ tx.value := by
    intro tx htx
    by_contra hneg
    rw [newBlock_eq_none keccak header ⟨tx, htx, by omega⟩] at h
    cases h
  rcases newBlock_eq keccak header hlen hv (List.Perm.refl _) with ⟨root, hroot, hb⟩
  rw [hb] at h
  cases h
  have htrie : txTrie txs = root := by rw [txTrie, txWrites, hroot]; rfl
  exact ⟨hv, rfl, by rw [htrie]⟩

theorem refines_txTrie (txs : List Transaction) :
    Refines (txTrie txs) (contents (txWrites txs)) := by
  rcases refines_runWrites (txWrites txs) with ⟨root, hroot, href⟩
  rw [txTrie, hroot]
  exact href

/-- A transaction is part of what is hashed. -/
theorem length_encodeIndex_lt {txs : List Transaction} (hlen : txs.length ≤ 2 ^ 64)
    (hv : ∀ tx ∈ txs, 0 ≤ tx.value) (hsmall : ∀ x ∈ hashInputs keccak (txTrie txs), x.length < 2 ^ 64)
    {tx : Transaction} (htx : tx ∈ txs) : (encodeIndex tx).length < 2 ^ 64 := by
  have href := refines_txTrie txs
  rcases List.mem_iff_getElem.mp htx with ⟨i, hi, rfl⟩
  have hget : contents (txWrites txs) (appendUint64 i) = some (encodeIndex txs[i]) := by
    have hcontents := contents_indexed (show (txs.map encodeIndex).length ≤ 2 ^ 64 by simpa)
      (fun v => encodeIndex_ne_nil_of_mem hv) (show i < 2 ^ 64 by omega)
    rw [List.length_map] at hcontents
    rw [txWrites, hcontents]
    simp [hi]
  have hhas := (href.has (keybytesToHex (appendUint64 i)) _).mpr ⟨_, rfl, hget⟩
  rcases href.isHex with hnil | hhex
  · rw [hnil] at hhas
    exact absurd hhas (has_nil _ _)
  · rcases @IsHex.length_le_of_has keccak _ hhex _ _ hhas with ⟨m, hm, hle⟩
    exact hle.trans_lt (hsmall _ (mem_hashInputs hm))

theorem txs_eq_of_rootHash_eq {txs txs' : List Transaction} (hlen : txs.length ≤ 2 ^ 64)
    (hlen' : txs'.length ≤ 2 ^ 64) (hv : ∀ tx ∈ txs, 0 ≤ tx.value)
    (hv' : ∀ tx ∈ txs', 0 ≤ tx.value) (hempty : keccak [0x80] = emptyRoot)
    (hsmall : ∀ x ∈ hashInputs keccak (txTrie txs) ++ hashInputs keccak (txTrie txs'),
      x.length < 2 ^ 64)
    (hinj : ∀ x ∈ hashInputs keccak (txTrie txs), ∀ y ∈ hashInputs keccak (txTrie txs'),
      keccak x = keccak y → x = y)
    (h : rootHash keccak (txTrie txs) = rootHash keccak (txTrie txs')) : txs = txs' := by
  have href := refines_txTrie txs
  have href' := refines_txTrie txs'
  have htrie := eq_of_rootHash_eq href.isHex href'.isHex hempty hsmall hinj h
  have hcontents : contents (txWrites txs) = contents (txWrites txs') := by
    funext key
    rw [← href.get_eq, ← href'.get_eq, htrie]
  have hvalues : txs.map encodeIndex = txs'.map encodeIndex := by
    refine eq_of_contents_eq (by simpa using hlen) (by simpa using hlen')
      (fun v => encodeIndex_ne_nil_of_mem hv) (fun v => encodeIndex_ne_nil_of_mem hv') ?_
    simpa [txWrites] using hcontents
  refine Sys.eq_of_map_eq (fun tx htx tx' htx' heq => ?_) hvalues
  have hlt := length_encodeIndex_lt hlen hv
    (fun x hx => hsmall x (List.mem_append_left _ hx)) htx
  exact encodeIndex_inj (hv tx htx) (hv' tx' htx') hlt heq

/-- Two blocks whose beacons have one hash are equal, header and transactions, unless two of
the inputs that are hashed for them collide. -/
theorem block_eq_of_beacon_hash_eq (keccak : Bytes → Hash) {header header' : Header}
    {txs txs' : List Transaction} {b b' : Block} {comID comID' : UInt32} {tb tb' : TimeBeacon}
    (hlen : txs.length ≤ 2 ^ 64) (hlen' : txs'.length ≤ 2 ^ 64)
    (hb : newBlock keccak header txs = some b) (hb' : newBlock keccak header' txs' = some b')
    (htb : b.beacon keccak comID = some tb) (htb' : b'.beacon keccak comID' = some tb')
    (hempty : keccak [0x80] = emptyRoot)
    (hsmall : ∀ x ∈ signedInputs keccak b tb ++ signedInputs keccak b' tb', x.length < 2 ^ 63)
    (hinj : ∀ x ∈ signedInputs keccak b tb, ∀ y ∈ signedInputs keccak b' tb',
      keccak x = keccak y → x = y)
    (h : tb.hash keccak = tb'.hash keccak) : tb = tb' ∧ b = b' := by
  rcases Block.beacon_eq_some htb with ⟨hd, hn, hfits, hhash, htx⟩
  rcases Block.beacon_eq_some htb' with ⟨hd', hn', hfits', hhash', htx'⟩
  rcases newBlock_eq_some hlen hb with ⟨hv, rfl, hroot⟩
  rcases newBlock_eq_some hlen' hb' with ⟨hv', rfl, hroot'⟩
  -- the beacon
  have hbeacon : tb = tb' :=
    TimeBeacon.abiEncode_inj hfits hfits' (hsmall _ (by simp [signedInputs]))
      (hinj _ List.mem_cons_self _ List.mem_cons_self h)
  -- the header
  have hheader : b.header = b'.header := by
    have hmem : ∀ (b : Block) (tb : TimeBeacon),
        encodeStrings b.header.fields ∈ signedInputs keccak b tb := by
      simp [signedInputs]
    have hkeccak : keccak (encodeStrings b.header.fields) =
        keccak (encodeStrings b'.header.fields) := by
      apply Hash.hex_injective
      rw [← hhash, ← hhash', hbeacon]
    have hlt := hsmall _ (List.mem_append_left _ (hmem b tb))
    refine Header.fields_inj hd hd' hn hn' (Sys.Rlp.encodeStrings_inj (by omega) ?_)
    exact hinj _ (hmem b tb) _ (hmem b' tb') hkeccak
  -- the transactions
  have htrans : b.transactions = b'.transactions := by
    have hmem : ∀ {b : Block} {tb : TimeBeacon} {x : Bytes},
        x ∈ hashInputs keccak (txTrie b.transactions) → x ∈ signedInputs keccak b tb :=
      fun hx => List.mem_cons_of_mem _ (List.mem_cons_of_mem _ hx)
    refine txs_eq_of_rootHash_eq hlen hlen' hv hv' hempty ?_
      (fun x hx y hy => hinj x (hmem hx) y (hmem hy)) ?_
    · intro x hx
      have hlt : x.length < 2 ^ 63 := by
        rcases List.mem_append.mp hx with hx | hx
        · exact hsmall x (List.mem_append_left _ (hmem hx))
        · exact hsmall x (List.mem_append_right _ (hmem hx))
      omega
    · rw [← hroot, ← hroot', hheader]
  refine ⟨hbeacon, ?_⟩
  cases b
  cases b'
  rw [Block.mk.injEq]
  exact ⟨hheader, htrans⟩

/-- A hash function for the example: a remainder. -/
def remainder (x : Bytes) : Hash :=
  if x = [0x80] then emptyRoot else BitVec.ofNat 256 (Sys.fromBE x % (2 ^ 127 - 1))

/-- A block with one transaction. -/
def exampleBlock (value : ℤ) : Block :=
  (newBlock remainder ⟨0, 0, 7, 0, 1, 3, 9, 0, 0, 2⟩
    [⟨1, 1, 1, 2, 0, value, 5, 0, 0, 0, 2, 2, 0, 1, 10⟩]).getD ⟨⟨0, 0, 0, 0, 0, 0, 0, 0, 0, 0⟩, []⟩

def exampleBeacon (value : ℤ) : TimeBeacon :=
  ((exampleBlock value).beacon remainder 2).getD ⟨0, 0, "", "", ""⟩

/-- Blocks that differ in the value of a transaction have beacons with different hashes. -/
theorem exampleBeacon_hash_ne :
    (exampleBeacon 1).hash remainder ≠ (exampleBeacon 2).hash remainder := by
  intro h
  have hb : ∀ value ∈ ([1, 2] : List ℤ), newBlock remainder ⟨0, 0, 7, 0, 1, 3, 9, 0, 0, 2⟩
      [⟨1, 1, 1, 2, 0, value, 5, 0, 0, 0, 2, 2, 0, 1, 10⟩] = some (exampleBlock value) := by
    decide +kernel
  have htb : ∀ value ∈ ([1, 2] : List ℤ),
      (exampleBlock value).beacon remainder 2 = some (exampleBeacon value) := by
    decide +kernel
  have heq := (block_eq_of_beacon_hash_eq remainder (by decide) (by decide) (hb 1 (by decide))
    (hb 2 (by decide)) (htb 1 (by decide)) (htb 2 (by decide)) (by decide +kernel)
    (by decide +kernel) (by decide +kernel) h).2
  exact absurd heq (by decide +kernel)

end Wire

end LessChain
