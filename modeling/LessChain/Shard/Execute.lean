import LessChain.Committee.Execute

/-!
# `Shard.executeTransactions`

The storage shard replays a block on its own state and compares the root. geth's
`StateDB` acts as a map from addresses to accounts: an account that does not exist reads
as the empty one, and the first write to it creates it. `intermediateRoot` stands for the
method of that name.

The main result compares this interpreter with the committee's: on the accounts the
committee asks for the two agree, and the shard changes no other.
-/

namespace LessChain

/-- `state.StateDB`. -/
abbrev StateDB := Address → Option StateAccount

namespace StateDB

/-- What the getters see of an account. -/
def account (db : StateDB) (a : Address) : StateAccount := (db a).getD newAccount

/-- `GetNonce`. -/
def getNonce (db : StateDB) (a : Address) : UInt64 := (db.account a).nonce

/-- `GetBalance`. -/
def getBalance (db : StateDB) (a : Address) : ℤ := (db.account a).balance

/-- A setter: create the account if it does not exist, then change it. -/
def modify (db : StateDB) (a : Address) (f : StateAccount → StateAccount) : StateDB :=
  Function.update db a (some (f (db.account a)))

/-- `GetOrNewStateObject`. -/
def getOrNewStateObject (db : StateDB) (a : Address) : StateDB := db.modify a id

/-- `SetNonce`. -/
def setNonce (db : StateDB) (a : Address) (nonce : UInt64) : StateDB :=
  db.modify a fun acc => { acc with nonce := nonce }

/-- `AddBalance`. -/
def addBalance (db : StateDB) (a : Address) (amount : ℤ) : StateDB :=
  db.modify a fun acc => { acc with balance := acc.balance + amount }

/-- `SubBalance`. -/
def subBalance (db : StateDB) (a : Address) (amount : ℤ) : StateDB :=
  db.modify a fun acc => { acc with balance := acc.balance - amount }

theorem account_modify (db : StateDB) (a b : Address) (f : StateAccount → StateAccount) :
    (db.modify a f).account b = if b = a then f (db.account b) else db.account b := by
  by_cases hb : b = a
  · subst hb
    simp [account, modify]
  · simp [account, modify, hb]

theorem modify_apply (db : StateDB) (a b : Address) (f : StateAccount → StateAccount) :
    db.modify a f b = if b = a then some (f (db.account b)) else db b := by
  by_cases hb : b = a
  · subst hb
    simp [modify]
  · simp [modify, hb]

end StateDB

/-- `shard.Shard`: chain, state and the counters of active accounts. -/
structure Shard where
  blockchain : BlockChain
  stateDB : StateDB
  activeAddrs : Address → ℕ
  tMPTActiveAddrs : Address → ℕ
  height2Reconfig : ℕ
  tbchainHeight : ℕ

namespace Shard

/-- `Shard.executeTransaction`. -/
def executeTransaction (tx : Transaction) (state : StateDB) : Option StateDB :=
  match tx.txType with
  | .intraTXType =>
      let state := state.setNonce tx.sender (state.getNonce tx.sender + 1)
      let state := state.subBalance tx.sender tx.value
      some (state.addBalance tx.recipient tx.value)
  | .crossTXType1 =>
      let state := state.setNonce tx.sender (state.getNonce tx.sender + 1)
      some (state.subBalance tx.sender tx.value)
  | .crossTXType2 => some (state.addBalance tx.recipient tx.value)
  | .rollbackTXType =>
      let state := state.setNonce tx.sender (state.getNonce tx.sender - 1)
      some (state.addBalance tx.sender tx.value)
  | .undefinedTXType => none

/-- `m[a] += 1`. -/
def increment (m : Address → ℕ) (a : Address) : Address → ℕ := Function.update m a (m a + 1)

/-- The loop of `Shard.executeTransactions`. -/
def executeLoop (s : Shard) (tx : Transaction) : Option Shard := do
  let state ← executeTransaction tx s.stateDB
  some { s with
    stateDB := state
    activeAddrs := increment (increment s.activeAddrs tx.sender) tx.recipient
    tMPTActiveAddrs := increment (increment s.tMPTActiveAddrs tx.sender) tx.recipient }

/-- `Shard.executeTransactions`: the new root and the shard. -/
def executeTransactions (intermediateRoot : StateDB → Hash) (s : Shard)
    (txs : List Transaction) : Option (Hash × Shard) := do
  let s' ← txs.foldlM executeLoop s
  some (intermediateRoot s'.stateDB, s')

/-! ## What execution does -/

/-- One known transaction changes the accounts it touches, and creates those that did
not exist. -/
theorem executeTransaction_spec {tx : Transaction} (hknown : tx.Known) (db : StateDB) :
    ∃ db', executeTransaction tx db = some db' ∧
      ∀ a, db' a = if a ∈ tx.touched then some (tx.effect a (db.account a)) else db a := by
  cases htype : tx.txType with
  | undefinedTXType => exact absurd htype hknown
  | _ =>
      simp only [executeTransaction, htype]
      refine ⟨_, rfl, ?_⟩
      intro a
      simp only [StateDB.setNonce, StateDB.getNonce, StateDB.addBalance, StateDB.subBalance,
        StateDB.modify_apply, StateDB.account_modify, Transaction.touched, Transaction.effect,
        Transaction.nonceDelta, Transaction.balanceDelta, htype]
      split_ifs <;> simp_all [Int.sub_eq_add_neg, UInt64.sub_eq_add_neg]

/-- A list of known transactions changes the accounts it touches and no other. -/
theorem executeTransactions_spec (intermediateRoot : StateDB → Hash) (s : Shard)
    {txs : List Transaction} (hknown : ∀ tx ∈ txs, tx.Known) :
    ∃ s', s.executeTransactions intermediateRoot txs =
        some (intermediateRoot s'.stateDB, s') ∧
      s'.blockchain = s.blockchain ∧
      ∀ a, s'.stateDB a = if ∃ tx ∈ txs, a ∈ tx.touched then
        some (effects txs a (s.stateDB.account a)) else s.stateDB a := by
  have hloop : ∃ s', txs.foldlM executeLoop s = some s' ∧ s'.blockchain = s.blockchain ∧
      ∀ a, s'.stateDB a = if ∃ tx ∈ txs, a ∈ tx.touched then
        some (effects txs a (s.stateDB.account a)) else s.stateDB a := by
    induction txs generalizing s with
    | nil => exact ⟨s, rfl, rfl, by simp⟩
    | cons tx txs ih =>
        rcases executeTransaction_spec (hknown tx List.mem_cons_self) s.stateDB with
          ⟨db, hdb, hacc⟩
        have hone : ∃ s₁, executeLoop s tx = some s₁ ∧ s₁.blockchain = s.blockchain ∧
            s₁.stateDB = db := by
          simp [executeLoop, hdb]
        rcases hone with ⟨s₁, hs₁, hchain₁, rfl⟩
        rcases ih s₁ fun t ht => hknown t (List.mem_cons_of_mem _ ht) with ⟨s', hs', hchain, hrest⟩
        refine ⟨s', ?_, hchain.trans hchain₁, ?_⟩
        · rw [List.foldlM_cons, hs₁]
          exact hs'
        · intro a
          have hview : s₁.stateDB.account a = tx.effect a (s.stateDB.account a) := by
            rw [StateDB.account, hacc]
            by_cases ha : a ∈ tx.touched
            · simp [ha]
            · simp [ha, Transaction.effect_of_not_mem, StateDB.account]
          rw [hrest, hview, hacc, effects_cons]
          by_cases htail : ∃ t ∈ txs, a ∈ t.touched
          · simp [htail]
          · by_cases ha : a ∈ tx.touched
            · -- touched by the first transaction only
              have hid := effects_of_not_mem (fun t ht hat => htail ⟨t, ht, hat⟩)
                (tx.effect a (s.stateDB.account a))
              simp [htail, ha, hid]
            · simp [htail, ha]
  rcases hloop with ⟨s', hs', hchain, hacc⟩
  exact ⟨s', by simp [executeTransactions, hs'], hchain, hacc⟩

end Shard

/-! ## The two interpreters agree -/

/-- Committee and shard agree on a block of known transactions: the committee needs
entries for exactly the addresses of `getTxRelatedAddrs`, never misses one, and ends with
the nonce and balance the shard ends with; the shard changes no other account. -/
theorem Worker.executeTransactions_agrees_with_shard (hash : Address → Bytes)
    (intermediateRoot : StateDB → Hash) (s : Shard) (txs : List Transaction)
    (hknown : ∀ tx ∈ txs, tx.Known) :
    (getTxRelatedAddrs txs).isSome ∧
    ∀ addrs, getTxRelatedAddrs txs = some addrs →
      (∀ a ∈ addrs, ∀ b ∈ addrs, hash a = hash b → a = b) →
      ∀ st : ExecState, st.updatedStates = ∅ →
        (∀ a ∈ addrs, ∃ acc, st.view a = some acc ∧
          acc.nonce = s.stateDB.getNonce a ∧ acc.balance = s.stateDB.getBalance a) →
        ∃ txs' st' root s',
          Worker.executeTransactions hash txs st = some (txs', st') ∧
          s.executeTransactions intermediateRoot txs = some (root, s') ∧
          (∀ k, k ∈ st'.updatedStates ↔ ∃ a ∈ addrs, k = hash a) ∧
          (∀ a ∈ addrs, ∃ p, st'.updatedStates.lookup (hash a) = some p ∧
            (st'.memory p).nonce = s'.stateDB.getNonce a ∧
            (st'.memory p).balance = s'.stateDB.getBalance a) ∧
          ∀ a ∉ addrs, s'.stateDB a = s.stateDB a := by
  rcases getTxRelatedAddrs_spec hknown with ⟨addrs', haddrs', hmem⟩
  refine ⟨by simp [haddrs'], ?_⟩
  intro addrs haddrs hinj st hempty hview
  obtain rfl : addrs' = addrs := Option.some.inj (haddrs'.symm.trans haddrs)
  have hdef : ∀ a, (∃ tx ∈ txs, a ∈ tx.touched) → (st.addr2State a).isSome := by
    intro a ha
    rcases hview a ((hmem a).mpr ha) with ⟨acc, hacc, -, -⟩
    cases hptr : st.addr2State a with
    | none => simp [ExecState.view, hptr] at hacc
    | some p => rfl
  rcases Worker.executeTransactions_spec hash txs st hknown hdef with ⟨st', hworker, hex⟩
  rcases s.executeTransactions_spec intermediateRoot hknown with ⟨s', hshard, -, hacc'⟩
  have hkeys : ∀ k, k ∈ st'.updatedStates ↔ ∃ a ∈ addrs', k = hash a := by
    intro k
    rw [hex.keys, hempty]
    simp [hmem, Finmap.notMem_empty]
  refine ⟨_, st', _, s', hworker, hshard, hkeys, ?_, ?_⟩
  · intro a ha
    -- the entry under `hash a` is the pointer of `a` itself, as hashes do not collide
    have hin : hash a ∈ st'.updatedStates := (hkeys _).mpr ⟨a, ha, rfl⟩
    rcases Finmap.mem_iff.mp hin with ⟨p, hp⟩
    have hptr : st.addr2State a = some p := by
      rcases hex.entries _ p hp with hk | ⟨b, hb, hab, hbp⟩
      · simp [hempty] at hk
      · rw [hinj a ha b ((hmem b).mpr hb) hab]
        exact hbp
    rcases hview a ha with ⟨acc, hacc, hnonce, hbalance⟩
    have hmemory : st'.memory p = effects txs a acc := by
      have hv := hex.accounts a
      rw [hacc] at hv
      simpa [ExecState.view, hex.pointers, hptr] using hv
    have hshardAcc : s'.stateDB.account a = effects txs a (s.stateDB.account a) := by
      rw [StateDB.account, hacc', if_pos ((hmem a).mp ha)]
      rfl
    rcases effects_congr txs a hnonce hbalance with ⟨hn, hb⟩
    refine ⟨p, hp, ?_, ?_⟩
    · rw [hmemory, StateDB.getNonce, hshardAcc, hn]
    · rw [hmemory, StateDB.getBalance, hshardAcc, hb]
  · intro a ha
    rw [hacc', if_neg (fun h => ha ((hmem a).mpr h))]

/-! ### A block of all four kinds

Account 1 exists, account 2 is created by the block and then pays itself. -/

/-- Keccak of the addresses 1 and 2. -/
def sampleHash (a : Address) : Bytes :=
  if a = 1 then
    Hash.bytes 0x1468288056310c82aa4c01a7e12a10f8111a0560e72b700555479031b86c357d
  else if a = 2 then
    Hash.bytes 0xd52688a8f926c816ca1e079067caba944f158e764817b83fc43594370ca9cf62
  else []

/-- The root of the state the sample block leaves. -/
def sampleRoot (_ : StateDB) : Hash :=
  0x8ef2fab95b2b7c1425ef96c6e426f837769d1279c19488c7081cb53beeb00100

/-- A transaction of the sample block. -/
def sampleTx (txType : TXType) (id : ℕ) (sender recipient : Address) (value : ℤ) :
    Transaction where
  txType := txType
  id := id
  sender := sender
  recipient := recipient
  value := value
  timestamp := 0
  confirmTimestamp := 0
  confirmHeight := 0
  cross1ConfirmHeight := 0
  senderSid := 0
  recipientSid := 0
  txStatus := .defaultStatus
  cid := 0
  rollbackHeight := 20

def sampleTxs : List Transaction :=
  [sampleTx .intraTXType 1 1 2 5, sampleTx .intraTXType 2 2 2 2, sampleTx .crossTXType1 3 1 3 10,
    sampleTx .rollbackTXType 4 1 3 10, sampleTx .crossTXType2 5 3 2 4]

/-- A shard that holds account 1 only. -/
def sampleShard : Shard where
  blockchain := newBlockChain ⟨⟨0, emptyRoot, 0⟩, []⟩
  stateDB := fun a => if a = 1 then some { newAccount with nonce := 7, balance := 100 } else none
  activeAddrs := fun _ => 0
  tMPTActiveAddrs := fun _ => 0
  height2Reconfig := 10
  tbchainHeight := 0

/-- The accounts the committee got for the sample block. -/
def sampleExec : ExecState where
  memory := fun p => if p = 0 then { newAccount with nonce := 7, balance := 100 } else newAccount
  addr2State := fun a => if a = 1 then some 0 else if a = 2 then some 1 else none
  updatedStates := ∅
  ptr_inj := by
    intro a b p ha hb
    split_ifs at ha hb <;> simp_all <;> omega

theorem Worker.executeTransactions_agrees_with_shard_sample :
    ∃ txs' st' root s',
      Worker.executeTransactions sampleHash sampleTxs sampleExec = some (txs', st') ∧
      sampleShard.executeTransactions sampleRoot sampleTxs = some (root, s') ∧
      (∀ k, k ∈ st'.updatedStates ↔ ∃ a ∈ ({1, 2} : Finset Address), k = sampleHash a) ∧
      (∀ a ∈ ({1, 2} : Finset Address), ∃ p, st'.updatedStates.lookup (sampleHash a) = some p ∧
        (st'.memory p).nonce = s'.stateDB.getNonce a ∧
        (st'.memory p).balance = s'.stateDB.getBalance a) ∧
      ∀ a ∉ ({1, 2} : Finset Address), s'.stateDB a = sampleShard.stateDB a := by
  have hknown : ∀ tx ∈ sampleTxs, tx.Known := by
    unfold Transaction.Known
    decide
  have haddrs : getTxRelatedAddrs sampleTxs = some {1, 2} := by decide
  have hinj : ∀ a ∈ ({1, 2} : Finset Address), ∀ b ∈ ({1, 2} : Finset Address),
      sampleHash a = sampleHash b → a = b := by
    have hne : sampleHash 1 ≠ sampleHash 2 := by decide +kernel
    simp only [Finset.mem_insert, Finset.mem_singleton]
    rintro a (rfl | rfl) b (rfl | rfl) hab
    · rfl
    · exact absurd hab hne
    · exact absurd hab.symm hne
    · rfl
  have hview : ∀ a ∈ ({1, 2} : Finset Address), ∃ acc, sampleExec.view a = some acc ∧
      acc.nonce = sampleShard.stateDB.getNonce a ∧
      acc.balance = sampleShard.stateDB.getBalance a := by
    simp only [Finset.mem_insert, Finset.mem_singleton]
    rintro a (rfl | rfl)
    · refine ⟨{ newAccount with nonce := 7, balance := 100 }, ?_, ?_, ?_⟩ <;>
        simp [sampleExec, ExecState.view, StateDB.getNonce, StateDB.getBalance, StateDB.account,
          sampleShard]
    · refine ⟨newAccount, ?_, ?_, ?_⟩ <;>
        simp [sampleExec, ExecState.view, StateDB.getNonce, StateDB.getBalance, StateDB.account,
          sampleShard]
  exact (Worker.executeTransactions_agrees_with_shard sampleHash sampleRoot sampleShard sampleTxs
    hknown).2 _ haddrs hinj sampleExec rfl hview

end LessChain
