import LessChain.Trie.Binding
import LessChain.Trie.StackTrie

/-!
# `core/hashing.go` and `NewBlock`

The root of the transactions of a block. `DeriveSha` hands the transactions to a stack trie
under the RLP encodings of their indices. As byte strings these are ordered 1, …, 127, 0, 128,
…, which is the order the loops visit them in, and none is a prefix of another
(`pairwise_appendUint64`). So the root is that of the trie with the same keys and values
(`deriveSha_eq`), and it determines the list (`deriveSha_inj`).

`Transaction` of `Core.Types` folds the unknown kinds into one and leaves out the nonce of the
sender. Here a transaction has every field that RLP writes.
-/

namespace LessChain

namespace Wire

open Sys (Before minBE)
open Sys.Rlp (encodeString encodeStrings)
open Trie

/-! ## Transactions -/

/-- `core.Transaction`. The pointers are never nil: the loader sets them. -/
structure Transaction where
  txType : UInt64
  id : UInt64
  sender : Address
  recipient : Address
  senderNonce : UInt64
  value : ℤ
  timestamp : UInt64
  confirmTimestamp : UInt64
  confirmHeight : UInt64
  cross1ConfirmHeight : UInt64
  senderSid : UInt32
  recipientSid : UInt32
  txStatus : UInt64
  cid : UInt64
  rollbackHeight : UInt64
deriving DecidableEq, Repr

namespace Transaction

/-- The strings RLP writes, in the order of the fields. -/
def fields (tx : Transaction) : List Bytes :=
  [minBE tx.txType.toNat, minBE tx.id.toNat, tx.sender.bytes, tx.recipient.bytes,
    minBE tx.senderNonce.toNat, minBE tx.value.toNat, minBE tx.timestamp.toNat,
    minBE tx.confirmTimestamp.toNat, minBE tx.confirmHeight.toNat,
    minBE tx.cross1ConfirmHeight.toNat, minBE tx.senderSid.toNat, minBE tx.recipientSid.toNat,
    minBE tx.txStatus.toNat, minBE tx.cid.toNat, minBE tx.rollbackHeight.toNat]

/-- `rlp.Encode`: a negative number has no encoding. -/
def encode (tx : Transaction) : Option Bytes :=
  if tx.value < 0 then none else some (encodeStrings tx.fields)

end Transaction

/-- `EncodeIndex`: the error is dropped, and then nothing is written. -/
def encodeIndex (tx : Transaction) : Bytes := tx.encode.getD []

/-! ## `DeriveSha` -/

/-- `rlp.AppendUint64` on an empty buffer. -/
def appendUint64 (i : ℕ) : Bytes := encodeString (minBE i)

/-- The indices in the order of the three loops. -/
def deriveOrder (len : ℕ) : List ℕ :=
  List.range' 1 (min (len - 1) 0x7f) ++ (if len > 0 then [0] else []) ++
    List.range' 0x80 (len - 0x80)

/-- Keys and values for some indices. -/
def indexed (values : List Bytes) (is : List ℕ) : List (Bytes × Bytes) :=
  is.map fun i => (appendUint64 i, values.getD i [])

/-- `DeriveSha` with a stack trie, on what `EncodeIndex` writes. -/
def deriveSha (keccak : Bytes → Hash) (values : List Bytes) : Option Hash := do
  let hasher ← StackTrie.updates keccak (indexed values (deriveOrder values.length))
  hasher.rootHash keccak

/-! ## The order of the indices -/

/-- `i` is visited before `j`. -/
def Precedes (i j : ℕ) : Prop :=
  (0 < i ∧ i < 0x80 ∧ (j = 0 ∨ i < j)) ∨ (i = 0 ∧ 0x80 ≤ j) ∨ (0x80 ≤ i ∧ i < j)

variable {values : List Bytes} {txs : List Transaction} {tx : Transaction} {i : ℕ}

theorem mem_deriveOrder {len : ℕ} : i ∈ deriveOrder len ↔ i < len := by
  simp only [deriveOrder, List.mem_append, List.mem_range'_1]
  by_cases hlen : len > 0
  · simp only [if_pos hlen, List.mem_singleton]
    omega
  · simp only [if_neg hlen, List.not_mem_nil, or_false]
    omega

theorem pairwise_deriveOrder (len : ℕ) : (deriveOrder len).Pairwise Precedes := by
  have hrange : ∀ s n, (∀ i j, s ≤ i → i < j → j < s + n → Precedes i j) →
      (List.range' s n).Pairwise Precedes := by
    intro s n h
    refine (List.pairwise_lt_range' (s := s) (n := n)).imp_of_mem ?_
    intro i j hi hj hij
    rw [List.mem_range'_1] at hi hj
    exact h i j hi.1 hij hj.2
  -- the three loops of `DeriveSha`: 1 to 127, then 0, then the rest
  rw [deriveOrder, List.pairwise_append, List.pairwise_append]
  refine ⟨⟨hrange _ _ ?_, by split <;> simp, ?_⟩, hrange _ _ ?_, ?_⟩
  · intro i j hi hij hj
    exact .inl ⟨by omega, by omega, .inr hij⟩
  · intro i hi j hj
    rw [List.mem_range'_1] at hi
    have hj0 : j = 0 := by
      split at hj
      · simpa using hj
      · cases hj
    exact .inl ⟨by omega, by omega, .inl hj0⟩
  · intro i j hi hij hj
    exact .inr (.inr ⟨hi, hij⟩)
  · intro i hi j hj
    rw [List.mem_range'_1] at hj
    rcases List.mem_append.mp hi with hi | hi
    · rw [List.mem_range'_1] at hi
      exact .inl ⟨by omega, by omega, .inr (by omega)⟩
    · have hi0 : i = 0 := by
        split at hi
        · simpa using hi
        · cases hi
      exact .inr (.inl ⟨hi0, hj.1⟩)

theorem appendUint64_small (hpos : 0 < i) (hlt : i < 0x80) :
    appendUint64 i = [UInt8.ofNat i] := by
  have hbyte : Sys.Rlp.isByte [UInt8.ofNat i] = true := by
    apply Sys.Rlp.isByte_iff.mpr
    refine ⟨_, rfl, ?_⟩
    rw [UInt8.toNat_ofNat']
    omega
  rw [appendUint64, Sys.minBE_of_lt hpos (by omega), encodeString, if_pos hbyte]

theorem appendUint64_zero : appendUint64 0 = [0x80] := rfl

/-- A large index: the number of its bytes, and then its bytes. -/
theorem appendUint64_large (hge : 0x80 ≤ i) (hlt : i < 2 ^ 64) :
    appendUint64 i = UInt8.ofNat (0x80 + (minBE i).length) :: minBE i := by
  have hbyte : ¬ Sys.Rlp.isByte (minBE i) = true := by
    rw [Sys.Rlp.isByte_iff]
    rintro ⟨x, hx, hsmall⟩
    have hval := Sys.fromBE_minBE i
    rw [hx] at hval
    have : Sys.fromBE [x] = x.toNat := by simp [Sys.fromBE]
    omega
  have hlen : (minBE i).length ≤ 8 := Sys.length_minBE_le (show i < 256 ^ 8 by simpa using hlt)
  rw [appendUint64, encodeString, if_neg hbyte, Sys.Rlp.header, if_pos (by omega)]
  rfl

theorem before_appendUint64 {j : ℕ} (h : Precedes i j) (hi : i < 2 ^ 64) (hj : j < 2 ^ 64) :
    Before (appendUint64 i) (appendUint64 j) := by
  have hlen : ∀ k, k < 2 ^ 64 → (minBE k).length ≤ 8 := fun k hk =>
    Sys.length_minBE_le (show k < 256 ^ 8 by simpa using hk)
  -- it is enough that the first byte is smaller
  have hfirst : ∀ {m n : ℕ} {a b : Bytes}, m < n → n < 256 →
      Before (UInt8.ofNat m :: a) (UInt8.ofNat n :: b) := by
    intro m n a b hmn hn
    refine Sys.before_cons.mpr (.inl (UInt8.lt_iff_toNat_lt.mpr ?_))
    rw [UInt8.toNat_ofNat', UInt8.toNat_ofNat']
    omega
  rcases h with ⟨hi0, hi80, rfl | hij⟩ | ⟨rfl, hj80⟩ | ⟨hi80, hij⟩
  · rw [appendUint64_small hi0 hi80, appendUint64_zero]
    exact hfirst hi80 (by decide)
  · rw [appendUint64_small hi0 hi80]
    by_cases hj80 : j < 0x80
    · rw [appendUint64_small (by omega) hj80]
      exact hfirst hij (by omega)
    · have := hlen j hj
      rw [appendUint64_large (by omega) hj]
      exact hfirst (by omega) (by omega)
  · have := hlen j hj
    have := Sys.length_minBE_pos (show 0 < j by omega)
    rw [appendUint64_zero, appendUint64_large hj80 hj]
    exact hfirst (m := 0x80) (by omega) (by omega)
  · rw [appendUint64_large hi80 hi, appendUint64_large (by omega) hj]
    have hmono := Sys.length_minBE_mono hij.le
    by_cases heq : (minBE i).length = (minBE j).length
    · -- as many bytes: the numbers decide
      rw [heq]
      refine Sys.before_cons.mpr (.inr ⟨rfl, Sys.before_of_fromBE_lt heq ?_⟩)
      rwa [Sys.fromBE_minBE, Sys.fromBE_minBE]
    · have := hlen j hj
      exact hfirst (by omega) (by omega)

theorem pairwise_appendUint64 {len : ℕ} (hlen : len ≤ 2 ^ 64) :
    ((deriveOrder len).map appendUint64).Pairwise Before := by
  rw [List.pairwise_map]
  refine (pairwise_deriveOrder len).imp_of_mem ?_
  intro i j hi hj hij
  rw [mem_deriveOrder] at hi hj
  exact before_appendUint64 hij (by omega) (by omega)

theorem appendUint64_inj {j : ℕ} (hi : i < 2 ^ 64) (hj : j < 2 ^ 64)
    (h : appendUint64 i = appendUint64 j) : i = j := by
  have hlen : ∀ k, k < 2 ^ 64 → (minBE k).length < 2 ^ 64 := fun k hk =>
    (Sys.length_minBE_le (show k < 256 ^ 8 by simpa using hk)).trans_lt (by decide)
  exact Sys.minBE_injective (Sys.Rlp.encodeString_inj (hlen i hi) (hlen j hj) h)

/-! ## The root is that of the trie with the same contents -/

theorem perm_deriveOrder (len : ℕ) : (deriveOrder len).Perm (List.range len) := by
  have hnodup : (deriveOrder len).Nodup :=
    (pairwise_deriveOrder len).imp fun {i j} h => by
      rcases h with ⟨h1, h2, h3⟩ | ⟨h1, h2⟩ | ⟨h1, h2⟩ <;> omega
  refine (List.perm_ext_iff_of_nodup hnodup List.nodup_range).mpr fun i => ?_
  rw [mem_deriveOrder, List.mem_range]

theorem map_fst_indexed (values : List Bytes) (is : List ℕ) :
    (indexed values is).map Prod.fst = is.map appendUint64 := by
  simp [indexed]

theorem ne_nil_of_mem_indexed {is : List ℕ}
    (his : ∀ i ∈ is, i < values.length) (hvals : ∀ v ∈ values, v ≠ []) {kv : Bytes × Bytes}
    (h : kv ∈ indexed values is) : kv.2 ≠ [] := by
  rcases List.mem_map.mp h with ⟨i, hi, rfl⟩
  have hlt := his i hi
  refine hvals _ ?_
  rw [List.getD_eq_getElem?_getD, List.getElem?_eq_getElem hlt]
  exact List.getElem_mem hlt

variable (keccak : Bytes → Hash)

/-- Whatever the order of the indices. -/
theorem deriveSha_eq (hlen : values.length ≤ 2 ^ 64)
    (hvals : ∀ v ∈ values, v ≠ []) {is : List ℕ} (his : is.Perm (List.range values.length)) :
    ∃ root, runWrites (StackTrie.writes (indexed values is)) = some root ∧
      deriveSha keccak values = some (rootHash keccak root) := by
  have hkeys : ((indexed values (deriveOrder values.length)).map Prod.fst).Pairwise Before := by
    rw [map_fst_indexed]
    exact pairwise_appendUint64 hlen
  have hvals' : ∀ kv ∈ indexed values (deriveOrder values.length), kv.2 ≠ [] :=
    fun kv => ne_nil_of_mem_indexed (fun i => mem_deriveOrder.mp) hvals
  have hperm : (indexed values (deriveOrder values.length)).Perm (indexed values is) :=
    ((perm_deriveOrder _).trans his.symm).map _
  have hcontents := StackTrie.contents_writes_perm hperm
    (hkeys.imp fun h => fun heq => (heq ▸ h).apart.ne rfl) hvals'
  rcases @StackTrie.stands_updates keccak _ hkeys hvals' with ⟨st, n, hst, hn, hstands⟩
  refine ⟨n, by rw [← runWrites_congr hcontents, hn], ?_⟩
  rw [deriveSha, hst]
  exact hstands.rootHash_eq

/-- "deletion not supported". -/
theorem updates_eq_none {kvs : List (Bytes × Bytes)} (h : ∃ kv ∈ kvs, kv.2 = []) :
    StackTrie.updates keccak kvs = none := by
  have hloop : ∀ (kvs : List (Bytes × Bytes)) (st : StackTrie), (∃ kv ∈ kvs, kv.2 = []) →
      kvs.foldlM (fun st kv => st.tryUpdate keccak kv.1 kv.2) st = none := by
    intro kvs
    induction kvs with
    | nil => simp
    | cons kv kvs ih =>
        rintro st ⟨kv', hmem, hempty⟩
        rw [List.foldlM_cons]
        cases hst : st.tryUpdate keccak kv.1 kv.2 with
        | none => rfl
        | some st' =>
            rcases List.mem_cons.mp hmem with rfl | hmem
            · rw [StackTrie.tryUpdate, if_pos hempty] at hst
              cases hst
            · exact ih st' ⟨kv', hmem, hempty⟩
  exact hloop kvs .empty h

theorem deriveSha_eq_none (h : [] ∈ values) :
    deriveSha keccak values = none := by
  rcases List.mem_iff_getElem.mp h with ⟨i, hi, hget⟩
  have hmem : (appendUint64 i, []) ∈ indexed values (deriveOrder values.length) := by
    refine List.mem_map.mpr ⟨i, mem_deriveOrder.mpr hi, ?_⟩
    rw [List.getD_eq_getElem?_getD, List.getElem?_eq_getElem hi, hget]
    rfl
  rw [deriveSha, updates_eq_none keccak ⟨_, hmem, rfl⟩]
  rfl

/-! ## The root determines the list -/

theorem contents_indexed (hlen : values.length ≤ 2 ^ 64)
    (hvals : ∀ v ∈ values, v ≠ []) (hi : i < 2 ^ 64) :
    contents (StackTrie.writes (indexed values (List.range values.length))) (appendUint64 i) =
      values[i]? := by
  have hkeys : ((indexed values (List.range values.length)).map Prod.fst).Nodup := by
    rw [map_fst_indexed]
    refine List.Nodup.map_on ?_ List.nodup_range
    intro j hj k hk heq
    rw [List.mem_range] at hj hk
    exact appendUint64_inj (by omega) (by omega) heq
  apply Option.ext
  intro v
  rw [StackTrie.contents_writes_eq_some hkeys fun kv =>
    ne_nil_of_mem_indexed (fun j hj => List.mem_range.mp hj) hvals]
  simp only [indexed, List.mem_map, List.mem_range, Prod.mk.injEq]
  constructor
  · rintro ⟨j, hj, hkey, rfl⟩
    obtain rfl := appendUint64_inj (show j < 2 ^ 64 by omega) hi hkey
    rw [List.getD_eq_getElem?_getD, List.getElem?_eq_getElem hj]
    rfl
  · intro hget
    rcases List.getElem?_eq_some_iff.mp hget with ⟨hlt, -⟩
    refine ⟨i, hlt, rfl, ?_⟩
    rw [List.getD_eq_getElem?_getD, hget]
    rfl

theorem eq_of_contents_eq {values' : List Bytes} (hlen : values.length ≤ 2 ^ 64)
    (hlen' : values'.length ≤ 2 ^ 64) (hvals : ∀ v ∈ values, v ≠ [])
    (hvals' : ∀ v ∈ values', v ≠ [])
    (h : contents (StackTrie.writes (indexed values (List.range values.length))) =
      contents (StackTrie.writes (indexed values' (List.range values'.length)))) :
    values = values' := by
  apply List.ext_getElem?
  intro i
  by_cases hi : i < 2 ^ 64
  · rw [← contents_indexed hlen hvals hi, h, contents_indexed hlen' hvals' hi]
  · rw [List.getElem?_eq_none (by omega), List.getElem?_eq_none (by omega)]

theorem Transaction.fields_inj {tx' : Transaction} (hv : 0 ≤ tx.value) (hv' : 0 ≤ tx'.value)
    (h : tx.fields = tx'.fields) : tx = tx' := by
  simp only [fields, List.cons.injEq, Sys.minBE_injective.eq_iff, Address.bytes_injective.eq_iff,
    UInt64.toNat_inj, UInt32.toNat_inj, and_true] at h
  rcases h with ⟨h1, h2, h3, h4, h5, h6, h7, h8, h9, h10, h11, h12, h13, h14, h15⟩
  have h6' : tx.value = tx'.value := by omega
  cases tx
  cases tx'
  simp_all

theorem encodeIndex_of_nonneg (h : 0 ≤ tx.value) :
    encodeIndex tx = encodeStrings tx.fields := by
  rw [encodeIndex, Transaction.encode, if_neg (by omega)]
  rfl

theorem encodeStrings_ne_nil (fs : List Bytes) : encodeStrings fs ≠ [] :=
  List.ne_nil_of_length_pos ((Nat.zero_le _).trans_lt (Sys.Rlp.length_lt_encodeList _))

theorem encodeIndex_eq_nil : encodeIndex tx = [] ↔ tx.value < 0 := by
  constructor
  · intro h
    by_contra hv
    rw [encodeIndex_of_nonneg (by omega)] at h
    exact encodeStrings_ne_nil _ h
  · intro h
    rw [encodeIndex, Transaction.encode, if_pos h]
    rfl

theorem encodeIndex_inj {tx' : Transaction} (hv : 0 ≤ tx.value) (hv' : 0 ≤ tx'.value)
    (hlen : (encodeIndex tx).length < 2 ^ 64) (h : encodeIndex tx = encodeIndex tx') :
    tx = tx' := by
  rw [encodeIndex_of_nonneg hv] at h hlen
  rw [encodeIndex_of_nonneg hv'] at h
  exact Transaction.fields_inj hv hv' (Sys.Rlp.encodeStrings_inj hlen h)

/-! ## Blocks -/

/-- `core.Header`. -/
structure Header where
  parentHash : Hash
  coinbase : Address
  root : Hash
  txHash : Hash
  difficulty : ℤ
  number : ℤ
  time : UInt64
  mixDigest : Hash
  nonce : BitVec 64
  shardID : UInt64
deriving DecidableEq, Repr

/-- `core.Block`. The cached hash and the total difficulty are left out. -/
structure Block where
  header : Header
  transactions : List Transaction
deriving DecidableEq, Repr

/-- `NewBlock` with a stack trie. -/
def newBlock (keccak : Bytes → Hash) (header : Header) (txs : List Transaction) :
    Option Block :=
  if txs.length = 0 then some ⟨{ header with txHash := emptyRoot }, []⟩
  else do
    let txHash ← deriveSha keccak (txs.map encodeIndex)
    some ⟨{ header with txHash := txHash }, txs⟩

/-- The trie of the transactions, written in the order of the list. -/
def txWrites (txs : List Transaction) : List Write :=
  StackTrie.writes (indexed (txs.map encodeIndex) (List.range txs.length))

theorem encodeIndex_ne_nil_of_mem (hv : ∀ tx ∈ txs, 0 ≤ tx.value)
    {v : Bytes} (h : v ∈ txs.map encodeIndex) : v ≠ [] := by
  rcases List.mem_map.mp h with ⟨tx, htx, rfl⟩
  rw [Ne, encodeIndex_eq_nil]
  have := hv tx htx
  omega

theorem newBlock_eq (header : Header) (hlen : txs.length ≤ 2 ^ 64)
    (hv : ∀ tx ∈ txs, 0 ≤ tx.value) {is : List ℕ} (his : is.Perm (List.range txs.length)) :
    ∃ root, runWrites (StackTrie.writes (indexed (txs.map encodeIndex) is)) = some root ∧
      newBlock keccak header txs = some ⟨{ header with txHash := rootHash keccak root }, txs⟩ := by
  by_cases hnil : txs.length = 0
  · rw [List.length_eq_zero_iff] at hnil
    subst hnil
    obtain rfl : is = [] := by simpa using his
    exact ⟨.nil, rfl, by simp [newBlock, rootHash, Node.isNil]⟩
  · rcases deriveSha_eq keccak (show (txs.map encodeIndex).length ≤ 2 ^ 64 by simpa using hlen)
      (fun v => encodeIndex_ne_nil_of_mem hv) (by simpa using his) with ⟨root, hroot, hsha⟩
    refine ⟨root, hroot, ?_⟩
    rw [newBlock, if_neg hnil, hsha]
    rfl

theorem newBlock_eq_none (header : Header)
    (h : ∃ tx ∈ txs, tx.value < 0) : newBlock keccak header txs = none := by
  rcases h with ⟨tx, htx, hneg⟩
  have hlen : txs.length ≠ 0 := List.length_pos_iff.mpr (List.ne_nil_of_mem htx) |>.ne'
  have hmem : [] ∈ txs.map encodeIndex :=
    List.mem_map.mpr ⟨tx, htx, encodeIndex_eq_nil.mpr hneg⟩
  rw [newBlock, if_neg hlen, deriveSha_eq_none keccak hmem]
  rfl

/-- `NewBlock` fails exactly if the value of some transaction is negative. Otherwise its
transaction root is the root hash of the trie that has the encoded transactions under their
encoded indices, in whatever order that one is written. -/
theorem newBlock_txHash (keccak : Bytes → Hash) (header : Header) (txs : List Transaction)
    (hlen : txs.length ≤ 2 ^ 64) (is : List ℕ) (his : is.Perm (List.range txs.length)) :
    (newBlock keccak header txs = none ↔ ∃ tx ∈ txs, tx.value < 0) ∧
      ∀ b, newBlock keccak header txs = some b →
        ∃ root, runWrites (StackTrie.writes (indexed (txs.map encodeIndex) is)) = some root ∧
          b = ⟨{ header with txHash := rootHash keccak root }, txs⟩ := by
  by_cases hneg : ∃ tx ∈ txs, tx.value < 0
  · have hnone := newBlock_eq_none keccak header hneg
    refine ⟨iff_of_true hnone hneg, fun b hb => ?_⟩
    rw [hnone] at hb
    cases hb
  · have hv : ∀ tx ∈ txs, 0 ≤ tx.value := fun tx htx => by
      by_contra hlt
      exact hneg ⟨tx, htx, by omega⟩
    rcases newBlock_eq keccak header hlen hv his with ⟨root, hroot, hb⟩
    refine ⟨iff_of_false (by simp [hb]) hneg, fun b hb' => ⟨root, hroot, ?_⟩⟩
    rw [hb] at hb'
    exact (Option.some.inj hb').symm

/-- Two transactions, written to the trie in the other order. -/
theorem newBlock_txHash_two :
    ∃ b root, newBlock (fun _ => 0) ⟨0, 0, 0, 0, 1, 1, 0, 0, 0, 0⟩
        [⟨1, 1, 1, 2, 0, 5, 0, 0, 0, 0, 0, 0, 0, 0, 0⟩, ⟨1, 2, 2, 1, 0, 3, 0, 0, 0, 0, 0, 0, 0, 0, 0⟩] =
          some b ∧
      runWrites (StackTrie.writes (indexed ([⟨1, 1, 1, 2, 0, 5, 0, 0, 0, 0, 0, 0, 0, 0, 0⟩,
        ⟨1, 2, 2, 1, 0, 3, 0, 0, 0, 0, 0, 0, 0, 0, 0⟩].map encodeIndex) [1, 0])) = some root ∧
      b.header.txHash = rootHash (fun _ => 0) root := by
  have hspec := newBlock_txHash (fun _ => 0) ⟨0, 0, 0, 0, 1, 1, 0, 0, 0, 0⟩
    [⟨1, 1, 1, 2, 0, 5, 0, 0, 0, 0, 0, 0, 0, 0, 0⟩, ⟨1, 2, 2, 1, 0, 3, 0, 0, 0, 0, 0, 0, 0, 0, 0⟩]
    (by decide) [1, 0] (by decide)
  cases hb : newBlock (fun _ => 0) ⟨0, 0, 0, 0, 1, 1, 0, 0, 0, 0⟩
      [⟨1, 1, 1, 2, 0, 5, 0, 0, 0, 0, 0, 0, 0, 0, 0⟩,
        ⟨1, 2, 2, 1, 0, 3, 0, 0, 0, 0, 0, 0, 0, 0, 0⟩] with
  | none => exact absurd (hspec.1.mp hb) (by decide)
  | some b =>
      rcases hspec.2 b hb with ⟨root, hroot, rfl⟩
      exact ⟨_, root, rfl, hroot, rfl⟩

end Wire

end LessChain
