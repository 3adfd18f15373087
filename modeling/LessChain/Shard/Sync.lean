import LessChain.Shard.Storage

/-!
# The trie of a storage leader follows its accounts

`Synced` relates the accounts of a `StateDB` to the trie behind them: an account that is
not waiting to be written is in the trie under the hash of its address. The handlers keep
it. A block that `Fits` the storage, that is, carries the next number and the root of the
trie with the accounts as its transactions leave them, passes the check of
`HandleComSendBlock`.
-/

namespace LessChain

open Trie

variable {keccak : Bytes → Hash}

variable (keccak) in
theorem length_addrKey_eq (a : Address) : (addrKey keccak a).length = 32 := Hash.length_bytes _

/-! ## Writing accounts to the trie -/

namespace Backend

@[simp] theorem trie_touch (b : Backend) (as : Finset Address) : (b.touch as).trie = b.trie := rfl

@[simp] theorem pending_touch (b : Backend) (as : Finset Address) :
    (b.touch as).pending = b.pending ∪ as := rfl

@[simp] theorem trie_commit (b : Backend) : (b.commit keccak).trie = b.trie := by
  unfold commit
  split <;> rfl

@[simp] theorem pending_commit (b : Backend) : (b.commit keccak).pending = b.pending := by
  unfold commit
  split <;> rfl

@[simp] theorem pending_intermediateRoot (db : StateDB) (order : List Address) (b : Backend) :
    (b.intermediateRoot keccak db order).pending = ∅ := rfl

/-- One account is written, if it has an encoding. -/
theorem updateStateObject_spec (hinj : Function.Injective (addrKey keccak)) {b : Backend}
    (h : IsRoot b.trie) (db : StateDB) (a : Address) :
    IsRoot (b.updateStateObject keccak db a).trie ∧
      ∀ c, tryGet (b.updateStateObject keccak db a).trie (hexKey keccak c) =
        if c = a then (encodeAccount (db.account c)).or (tryGet b.trie (hexKey keccak c))
        else tryGet b.trie (hexKey keccak c) := by
  cases hdata : encodeAccount (db.account a) with
  | none =>
      have hfail : tryUpdateAccount b.trie (addrKey keccak a) (db.account a) = none := by
        simp [tryUpdateAccount, hdata]
      simp only [updateStateObject, hfail]
      refine ⟨h, fun c => ?_⟩
      by_cases hc : c = a
      · rw [if_pos hc, hc, hdata]
        rfl
      · rw [if_neg hc]
  | some data =>
      rcases h.tryUpdateAccount_spec (length_addrKey_eq keccak a) hdata with ⟨root, hroot, hstate, hget⟩
      simp only [updateStateObject, hroot]
      refine ⟨.inr hstate, fun c => ?_⟩
      rw [hexKey, hget _ (length_addrKey_eq keccak c)]
      by_cases hc : c = a
      · rw [if_pos (by rw [hc]), if_pos hc, hc, hdata]
        rfl
      · rw [if_neg (fun heq => hc (hinj heq)), if_neg hc]

/-- The loop of `IntermediateRoot`. -/
theorem foldl_updateStateObject_spec (hinj : Function.Injective (addrKey keccak)) (db : StateDB)
    (order : List Address) {b : Backend} (h : IsRoot b.trie) :
    IsRoot (order.foldl (updateStateObject keccak db) b).trie ∧
      ∀ c, tryGet (order.foldl (updateStateObject keccak db) b).trie (hexKey keccak c) =
        if c ∈ order then (encodeAccount (db.account c)).or (tryGet b.trie (hexKey keccak c))
        else tryGet b.trie (hexKey keccak c) := by
  induction order generalizing b with
  | nil => exact ⟨h, fun c => by simp⟩
  | cons a order ih =>
      rcases updateStateObject_spec hinj h db a with ⟨hroot, hget⟩
      rcases ih hroot with ⟨hroot', hget'⟩
      refine ⟨hroot', fun c => ?_⟩
      rw [List.foldl_cons, hget', hget]
      -- writing an account twice is writing it once
      by_cases hc : c = a
      · cases encodeAccount (db.account c) <;> simp [hc]
      · simp [hc]

/-- If no write fails, the loop is `overwrite`. -/
theorem foldl_updateStateObject_eq (db : StateDB) (order : List Address) {b : Backend} {root : Node}
    (h : overwrite b.trie (order.map fun a => (addrKey keccak a, db.account a)) = some root) :
    (order.foldl (updateStateObject keccak db) b).trie = root := by
  induction order generalizing b with
  | nil => exact Option.some.inj h
  | cons a order ih =>
      rw [overwrite, List.map_cons, List.foldlM_cons] at h
      rcases Option.bind_eq_some_iff.mp h with ⟨root₁, hroot₁, hrest⟩
      rw [List.foldl_cons]
      apply ih
      simp only [updateStateObject, hroot₁]
      exact hrest

end Backend

/-! ## Accounts and trie -/

/-- An account without code or storage, as all accounts of a shard are. -/
def StateAccount.Plain (acc : StateAccount) : Prop :=
  acc.root = emptyRoot ∧ acc.codeHash = emptyCodeHash

variable (keccak) in
/-- The accounts of a `StateDB` and the trie behind them. An account that cannot be encoded
need not be there. -/
structure Synced (db : StateDB) (b : Backend) : Prop where
  isRoot : IsRoot b.trie
  plain : ∀ a acc, db a = some acc → acc.Plain
  leaf : ∀ a acc data, a ∉ b.pending → db a = some acc → encodeAccount acc = some data →
    tryGet b.trie (hexKey keccak a) = some data

theorem StateDB.account_eq {db : StateDB} {a : Address} {acc : StateAccount} (h : db a = some acc) :
    db.account a = acc := by
  rw [StateDB.account, h]
  rfl

theorem plain_newAccount : newAccount.Plain := ⟨rfl, rfl⟩

namespace Synced

variable {db db' : StateDB} {b : Backend}

theorem plain_account (h : Synced keccak db b) (a : Address) : (db.account a).Plain := by
  cases hacc : db a with
  | none =>
      rw [StateDB.account, hacc]
      exact plain_newAccount
  | some acc =>
      rw [StateDB.account_eq hacc]
      exact h.plain a acc hacc

/-- Accounts change and are put into the journal. -/
theorem touch (h : Synced keccak db b) {as : Finset Address} (hframe : ∀ a ∉ as, db' a = db a)
    (hplain : ∀ a acc, db' a = some acc → acc.Plain) : Synced keccak db' (b.touch as) where
  isRoot := h.isRoot
  plain := hplain
  leaf := by
    intro a acc data hnot hacc hdata
    rw [Backend.pending_touch, Finset.mem_union, not_or] at hnot
    rw [hframe a hnot.2] at hacc
    exact h.leaf a acc data hnot.1 hacc hdata

/-- The accounts of the journal are written. -/
theorem intermediateRoot (hinj : Function.Injective (addrKey keccak)) (h : Synced keccak db b)
    {order : List Address} (horder : Orders order b.pending) :
    Synced keccak db (b.intermediateRoot keccak db order) := by
  rcases Backend.foldl_updateStateObject_spec hinj db order h.isRoot with ⟨hroot, hget⟩
  refine ⟨hroot, h.plain, ?_⟩
  intro a acc data _ hacc hdata
  show tryGet (order.foldl _ b).trie _ = _
  rw [hget, StateDB.account_eq hacc, hdata]
  split
  · rfl
  · rename_i hnot
    exact h.leaf a acc data (fun hp => hnot ((horder.mem_iff a).mpr hp)) hacc hdata

theorem commit (h : Synced keccak db b) : Synced keccak db (b.commit keccak) := by
  refine ⟨?_, h.plain, ?_⟩
  · rw [Backend.trie_commit]
    exact h.isRoot
  · rw [Backend.trie_commit, Backend.pending_commit]
    exact h.leaf

end Synced

/-! ## What the handlers keep -/

variable (keccak) in
/-- A storage leader whose chain is in order. -/
structure Sound (st : Storage) : Prop where
  synced : Synced keccak st.shard.stateDB st.backend
  numbers : ∀ (i : ℕ) (b : Block), st.shard.blockchain.blocks[i]? = some b → b.header.number = i
  head : st.shard.blockchain.height + 1 = st.shard.blockchain.blocks.length
  passed : ∀ x ∈ st.handled, x.2 = some x.1.header.root
  running : st.running = true
  configured : 0 < st.shard.height2Reconfig

variable (keccak) in
/-- The block continues the chain of the storage. -/
structure Fits (st : Storage) (block : Block) : Prop where
  settled : st.backend.pending = ∅
  number : block.header.number = st.shard.blockchain.blocks.length
  known : ∀ tx ∈ block.transactions, tx.Known
  root : ∀ order : List Address,
    (∀ a, a ∈ order ↔ ∃ tx ∈ block.transactions, a ∈ tx.touched) →
    (overwrite st.backend.trie (order.map fun a => (addrKey keccak a,
      effects block.transactions a (st.shard.stateDB.account a)))).map (rootHash keccak) =
        some block.header.root

theorem foldl_getOrNewStateObject (addrList : List Address) (db : StateDB) (a : Address) :
    addrList.foldl StateDB.getOrNewStateObject db a =
      if a ∈ addrList then some (db.account a) else db a := by
  induction addrList generalizing db with
  | nil => simp
  | cons c addrList ih =>
      have hone : (db.getOrNewStateObject c).account a = db.account a := by
        rw [StateDB.getOrNewStateObject, StateDB.account_modify]
        split <;> rfl
      rw [List.foldl_cons, ih, hone]
      by_cases ha : a = c
      · simp [ha, StateDB.getOrNewStateObject, StateDB.modify_apply]
      · simp [ha, StateDB.getOrNewStateObject, StateDB.modify_apply]

theorem mem_dirtied {txs : List Transaction} {a : Address} :
    a ∈ Storage.dirtied txs ↔ ∃ tx ∈ txs, a ∈ tx.touched := by
  induction txs with
  | nil => simp [Storage.dirtied]
  | cons tx txs ih => simp [Storage.dirtied, ih]

/-- Execution does not touch the configuration. -/
theorem Shard.height2Reconfig_executeTransactions {intermediateRoot : StateDB → Hash}
    {s s' : Shard} {txs : List Transaction} {root : Hash}
    (h : s.executeTransactions intermediateRoot txs = some (root, s')) :
    s'.height2Reconfig = s.height2Reconfig := by
  simp only [executeTransactions, Option.bind_eq_bind, Option.bind_eq_some_iff, Option.some.injEq,
    Prod.mk.injEq] at h
  rcases h with ⟨s₁, hloop, -, rfl⟩
  refine Sys.foldlM_invariant (fun t : Shard => t.height2Reconfig = s.height2Reconfig) ?_ rfl hloop
  intro tx _ t t' ht hstep
  simp only [executeLoop, Option.bind_eq_bind, Option.bind_eq_some_iff, Option.some.injEq] at hstep
  rcases hstep with ⟨db, -, rfl⟩
  exact ht

section Handlers

variable {st : Storage} {order addrList : List Address} {block : Block}

theorem stateDB_createAccounts (a : Address) :
    (st.createAccounts keccak order addrList).shard.stateDB a =
      if a ∈ addrList then some (st.shard.stateDB.account a) else st.shard.stateDB a :=
  foldl_getOrNewStateObject addrList st.shard.stateDB a

/-- After the first half of `HandleComGetState` nothing waits to be written. -/
theorem pending_createAccounts :
    (st.createAccounts keccak order addrList).backend.pending = ∅ := by
  rw [Storage.createAccounts, Backend.pending_commit]
  rfl

/-- The first half of `HandleComGetState`. -/
theorem Sound.createAccounts (hinj : Function.Injective (addrKey keccak)) (h : Sound keccak st)
    (horder : Orders order (st.toCreate addrList)) :
    Sound keccak (st.createAccounts keccak order addrList) := by
  refine ⟨?_, h.numbers, h.head, h.passed, h.running, h.configured⟩
  apply Synced.commit
  apply Synced.intermediateRoot hinj _ horder
  apply h.synced.touch
  · intro a ha
    rw [stateDB_createAccounts]
    split
    · rename_i hmem
      cases hacc : st.shard.stateDB a with
      | none => exact absurd (by simp [hmem, hacc]) ha
      | some acc => rw [StateDB.account_eq hacc]
    · rfl
  · intro a acc hacc
    rw [stateDB_createAccounts] at hacc
    split at hacc
    · cases hacc
      exact h.synced.plain_account a
    · exact h.synced.plain a acc hacc

/-- A block that fits is executed to its end and has the root that its header says. -/
theorem Fits.execute (hfits : Fits keccak st block) (hconf : 0 < st.shard.height2Reconfig)
    (horder : Orders order (st.backend.pending ∪ Storage.dirtied block.transactions)) :
    ∃ shard, st.execute keccak order block = some (block.header.root, shard) ∧
      shard.blockchain = st.shard.blockchain.writeBlock block ∧
      shard.height2Reconfig = st.shard.height2Reconfig ∧
      ∀ a, shard.stateDB a = if ∃ tx ∈ block.transactions, a ∈ tx.touched then
        some (effects block.transactions a (st.shard.stateDB.account a))
        else st.shard.stateDB a := by
  have hmem : ∀ a, a ∈ order ↔ ∃ tx ∈ block.transactions, a ∈ tx.touched := by
    intro a
    rw [horder.mem_iff, hfits.settled, Finset.empty_union, mem_dirtied]
  rcases (st.addBlock block).executeTransactions_spec
    (fun stateDB => (st.afterBlock keccak order block stateDB).root keccak) hfits.known with
    ⟨shard, hexec, hchain, hdb⟩
  have hconf' : shard.height2Reconfig = (st.addBlock block).height2Reconfig :=
    Shard.height2Reconfig_executeTransactions hexec
  refine ⟨shard, ?_, hchain, hconf', hdb⟩
  rw [Storage.execute, if_neg (Nat.pos_iff_ne_zero.mp hconf), hexec]
  -- the shard writes the accounts that the header's root was computed from
  rcases Option.map_eq_some_iff.mp (hfits.root order hmem) with ⟨root, hover, hroot⟩
  have haccounts : (order.map fun a => (addrKey keccak a, shard.stateDB.account a)) =
      order.map fun a => (addrKey keccak a,
        effects block.transactions a (st.shard.stateDB.account a)) := by
    apply List.map_congr_left
    intro a ha
    rw [StateDB.account, hdb, if_pos ((hmem a).mp ha)]
    rfl
  rw [← haccounts] at hover
  have htrie : (st.afterBlock keccak order block shard.stateDB).trie = root :=
    Backend.foldl_updateStateObject_eq (b := st.backend.touch _) shard.stateDB order hover
  simp only [Backend.root, htrie, hroot]

/-- `HandleComSendBlock` on a block that fits. -/
theorem Sound.handleComSendBlock (hinj : Function.Injective (addrKey keccak))
    (h : Sound keccak st) (hfits : Fits keccak st block)
    (horder : Orders order (st.backend.pending ∪ Storage.dirtied block.transactions)) :
    Sound keccak (st.handleComSendBlock keccak order block) := by
  rcases hfits.execute h.configured horder with ⟨shard, hexec, hchain, hconf, hdb⟩
  simp only [Storage.handleComSendBlock, hexec]
  refine ⟨?_, ?_, ?_, ?_, by simp, by rw [hconf]; exact h.configured⟩
  · apply Synced.commit
    apply Synced.intermediateRoot hinj _ horder
    apply h.synced.touch
    · intro a ha
      rw [hdb, if_neg (fun htx => ha (mem_dirtied.mpr htx))]
    · intro a acc hacc
      rw [hdb] at hacc
      split at hacc
      · cases hacc
        rcases effects_frame block.transactions a (st.shard.stateDB.account a) with ⟨hr, hc⟩
        rcases h.synced.plain_account a with ⟨hr', hc'⟩
        exact ⟨hr.trans hr', hc.trans hc'⟩
      · exact h.synced.plain a acc hacc
  · intro i b hb
    rw [hchain] at hb
    simp only [BlockChain.writeBlock] at hb
    rcases Nat.lt_or_ge i st.shard.blockchain.blocks.length with hlt | hge
    · rw [List.getElem?_append_left hlt] at hb
      exact h.numbers i b hb
    · -- the new entry is the last one
      rw [List.getElem?_append_right hge, List.getElem?_singleton] at hb
      split at hb
      · cases hb
        have hi : i = st.shard.blockchain.blocks.length := by omega
        rw [hi]
        exact hfits.number
      · cases hb
  · rw [hchain]
    simp [BlockChain.writeBlock, BlockChain.height, hfits.number]
  · intro x hx
    rcases List.mem_append.mp hx with hx | hx
    · exact h.passed x hx
    · rw [List.mem_singleton.mp hx]

end Handlers

/-! ## The first state -/

/-- The accounts that the start creates are plain, and only those exist. -/
theorem setInitialAccountState_spec {addrs : List Address} {maxValue : ℤ} {db : StateDB}
    (h : setInitialAccountState addrs maxValue (fun _ => none) = some db) :
    (∀ a acc, db a = some acc → acc.Plain) ∧ ∀ a ∉ addrs, db a = none := by
  refine Sys.foldlM_invariant (fun db : StateDB =>
    (∀ a acc, db a = some acc → acc.Plain) ∧ ∀ a ∉ addrs, db a = none) ?_ ?_ h
  · rintro c hc db db' ⟨hplain, hnone⟩ hstep
    simp only at hstep
    split at hstep
    · cases hstep
      -- `AddBalance` creates the account if it is missing
      have hacc : (db.account c).Plain := by
        cases hdb : db c with
        | none =>
            rw [StateDB.account, hdb]
            exact plain_newAccount
        | some acc =>
            rw [StateDB.account_eq hdb]
            exact hplain c acc hdb
      constructor
      · intro a acc ha
        rw [StateDB.addBalance, StateDB.modify_apply] at ha
        split at ha
        · rename_i heq
          cases ha
          rw [heq]
          exact hacc
        · exact hplain a acc ha
      · intro a ha
        have hne : a ≠ c := by
          rintro rfl
          exact ha hc
        rw [StateDB.addBalance, StateDB.modify_apply, if_neg hne]
        exact hnone a ha
    · cases hstep
  · constructor
    · intro a acc hacc
      cases hacc
    · intro a _
      rfl

theorem sound_newStorage {genesis : Block} {height2Reconfig : ℕ} {addrs : List Address}
    {maxValue : ℤ} {st : Storage} (hgenesis : genesis.header.number = 0)
    (hconf : 0 < height2Reconfig)
    (h : newStorage genesis height2Reconfig addrs maxValue = some st) : Sound keccak st := by
  simp only [newStorage, Option.bind_eq_bind, Option.bind_eq_some_iff, Option.some.injEq] at h
  rcases h with ⟨db, hdb, rfl⟩
  rcases setInitialAccountState_spec hdb with ⟨hplain, hnone⟩
  refine ⟨⟨.inl rfl, hplain, ?_⟩, ?_, ?_, by simp, rfl, hconf⟩
  · -- every account is still to be written
    intro a acc data hpending hacc
    have hno : db a = none := hnone a fun ha => hpending (List.mem_toFinset.mpr ha)
    cases hno.symm.trans hacc
  · intro i b hb
    simp only [newBlockChain, List.getElem?_singleton] at hb
    split at hb
    · rename_i hi
      cases hb
      rw [hgenesis, hi]
    · cases hb
  · simp [newBlockChain, BlockChain.height, hgenesis]

end LessChain
