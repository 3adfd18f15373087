import LessChain.Core.Types

/-!
# Accounts and what a transaction means to them

`StateAccount` is the account record of the state trie. The rest of the module is the
specification the two interpreters of the repository are compared with: a transaction
shifts the nonce and the balance of the accounts it touches and of no other, by amounts
that do not depend on the state.
-/

namespace LessChain

/-- `types.StateAccount`. The nonce is a `uint64` and wraps; the balance is a `*big.Int`
and may become negative, as no interpreter checks it. -/
structure StateAccount where
  nonce : UInt64
  balance : ℤ
  root : Hash
  codeHash : Bytes
deriving DecidableEq, Repr

/-- `emptyRoot`: the root of an empty trie. -/
def emptyRoot : Hash :=
  0x56e81f171bcc55a6ff8345e692c0f86e5b48e01b996cadc001622fb5e363b421

/-- `emptyCodeHash`: Keccak of the empty string. -/
def emptyCodeHash : Bytes :=
  Hash.bytes 0xc5d2460186f7233c927e7db2dcc703c0e500b653ca82273b7bfad8045d85a470

/-- The account `GetOrNewStateObject` creates. -/
def newAccount : StateAccount := ⟨0, 0, emptyRoot, emptyCodeHash⟩

/-- `rlp.EncodeToBytes` of an account. A negative number has no encoding. -/
def encodeAccount (acc : StateAccount) : Option Bytes :=
  if acc.balance < 0 then none
  else some (Sys.Rlp.encodeList (Sys.Rlp.encodeString (Sys.minBE acc.nonce.toNat) ++
    Sys.Rlp.encodeString (Sys.minBE acc.balance.toNat) ++
    Sys.Rlp.encodeString acc.root.bytes ++ Sys.Rlp.encodeString acc.codeHash))

/-- `rlp.DecodeBytes` of an account: numbers without leading zeros, a nonce of 8 bytes at
most, a root of 32 bytes, and nothing behind the last field. -/
def decodeAccount (b : Bytes) : Option StateAccount := do
  let (elems, rest) ← Sys.Rlp.splitList b
  let (nonce, elems) ← Sys.Rlp.splitString elems
  let (balance, elems) ← Sys.Rlp.splitString elems
  let (root, elems) ← Sys.Rlp.splitString elems
  let (codeHash, elems) ← Sys.Rlp.splitString elems
  if rest = [] ∧ elems = [] ∧ nonce.head? ≠ some 0 ∧ nonce.length ≤ 8 ∧
      balance.head? ≠ some 0 ∧ root.length = 32 then
    some ⟨UInt64.ofNat (Sys.fromBE nonce), Sys.fromBE balance, bytesToHash root, codeHash⟩
  else none

namespace Transaction

/-- The accounts a transaction touches. -/
def touched (tx : Transaction) : Finset Address :=
  match tx.txType with
  | .intraTXType => {tx.sender, tx.recipient}
  | .crossTXType1 | .rollbackTXType => {tx.sender}
  | .crossTXType2 => {tx.recipient}
  | .undefinedTXType => ∅

/-- What a transaction adds to the nonce of account `a`. -/
def nonceDelta (tx : Transaction) (a : Address) : UInt64 :=
  match tx.txType with
  | .intraTXType | .crossTXType1 => if a = tx.sender then 1 else 0
  | .rollbackTXType => if a = tx.sender then -1 else 0
  | .crossTXType2 | .undefinedTXType => 0

/-- What a transaction adds to the balance of account `a`. -/
def balanceDelta (tx : Transaction) (a : Address) : ℤ :=
  match tx.txType with
  | .intraTXType =>
      (if a = tx.sender then -tx.value else 0) + (if a = tx.recipient then tx.value else 0)
  | .crossTXType1 => if a = tx.sender then -tx.value else 0
  | .crossTXType2 => if a = tx.recipient then tx.value else 0
  | .rollbackTXType => if a = tx.sender then tx.value else 0
  | .undefinedTXType => 0

/-- The account `a` after one transaction. -/
def effect (tx : Transaction) (a : Address) (acc : StateAccount) : StateAccount :=
  { acc with
    nonce := acc.nonce + tx.nonceDelta a
    balance := acc.balance + tx.balanceDelta a }

/-- One of the four known kinds. -/
def Known (tx : Transaction) : Prop := tx.txType ≠ .undefinedTXType

end Transaction

/-- The account `a` after a list of transactions. -/
def effects (txs : List Transaction) (a : Address) (acc : StateAccount) : StateAccount :=
  txs.foldl (fun acc tx => tx.effect a acc) acc

@[simp] theorem effects_nil (a : Address) (acc : StateAccount) : effects [] a acc = acc := rfl

@[simp] theorem effects_cons (tx : Transaction) (txs : List Transaction) (a : Address)
    (acc : StateAccount) : effects (tx :: txs) a acc = effects txs a (tx.effect a acc) := rfl

/-- An account that is not touched keeps its nonce and balance. -/
theorem Transaction.effect_of_not_mem {tx : Transaction} {a : Address}
    (h : a ∉ tx.touched) (acc : StateAccount) : tx.effect a acc = acc := by
  have hdelta : tx.nonceDelta a = 0 ∧ tx.balanceDelta a = 0 := by
    unfold Transaction.touched at h
    unfold Transaction.nonceDelta Transaction.balanceDelta
    split at h <;> simp_all
  rw [effect, hdelta.1, hdelta.2]
  simp

/-- Nonce and balance after a list of transactions are determined by nonce and balance
before it. -/
theorem effects_congr (txs : List Transaction) (a : Address) {acc acc' : StateAccount}
    (hn : acc.nonce = acc'.nonce) (hb : acc.balance = acc'.balance) :
    (effects txs a acc).nonce = (effects txs a acc').nonce ∧
      (effects txs a acc).balance = (effects txs a acc').balance := by
  induction txs generalizing acc acc' with
  | nil => exact ⟨hn, hb⟩
  | cons tx txs ih =>
      apply ih
      · show acc.nonce + _ = acc'.nonce + _
        rw [hn]
      · show acc.balance + _ = acc'.balance + _
        rw [hb]

/-- A list of transactions leaves storage root and code hash alone. -/
theorem effects_frame (txs : List Transaction) (a : Address) (acc : StateAccount) :
    (effects txs a acc).root = acc.root ∧ (effects txs a acc).codeHash = acc.codeHash := by
  induction txs generalizing acc with
  | nil => exact ⟨rfl, rfl⟩
  | cons tx txs ih => exact ih (tx.effect a acc)

/-- An account that no transaction of the list touches is left as it is. -/
theorem effects_of_not_mem {txs : List Transaction} {a : Address}
    (h : ∀ tx ∈ txs, a ∉ tx.touched) (acc : StateAccount) : effects txs a acc = acc := by
  induction txs generalizing acc with
  | nil => rfl
  | cons tx txs ih =>
      rw [effects_cons, Transaction.effect_of_not_mem (h tx List.mem_cons_self)]
      exact ih (fun t ht => h t (List.mem_cons_of_mem _ ht)) acc

end LessChain
