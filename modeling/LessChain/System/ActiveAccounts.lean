import LessChain.System.StorageChain

/-!
# The accounts of a tMPT synchronisation

A node that joins a committee may ask the storage leader for the accounts that were active since
the last reconfiguration: `HandleGetSyncData` answers with the keys of `tMPT_activeAddrs`. The
beacon chain starts a new epoch whenever its height has passed a multiple of `height2Reconfig`.

The leader notices this while it handles a block, by the remainder of the height, and clears
the set then. So it clears it again for every further block of that beacon height, and not at
all if the height is skipped; and until the first block of an epoch is there it still has the
accounts of the epoch before.

`since` and `base` are not in the program: the blocks handled in the current epoch, and the
accounts as they were when it began.
-/

namespace LessChain

/-! ## `HandleGetSyncData` -/

/-- The sync types of a request; any other text ends the process. -/
inductive SyncType where
  | fastsync
  | tMPTsync
  | fullsync
  | unknown
deriving DecidableEq

/-- `core.GetSyncData`, as far as the handler reads it. -/
structure GetSyncData where
  clientAddr : String
  syncType : SyncType

/-- `core.SyncData`. -/
structure SyncData where
  clientAddr : String
  states : Address → Option StateAccount
  blocks : List Block

/-- The account that a sync answer holds for an address. -/
def StateDB.syncAccount (db : StateDB) (a : Address) : StateAccount :=
  ⟨db.getNonce a, db.getBalance a, emptyRoot, emptyCodeHash⟩

namespace Shard

/-- The loop over the keys of a map of counters. A key is there once it was counted. -/
def syncStates (s : Shard) (counters : Address → ℕ) (a : Address) : Option StateAccount :=
  if counters a = 0 then none else some (s.stateDB.syncAccount a)

def handleGetSyncData (fastsyncBlockNum : ℕ) (s : Shard) (data : GetSyncData) : Option SyncData :=
  let blocks := s.blockchain.blocks
  match data.syncType with
  | .fastsync => some {
      clientAddr := data.clientAddr
      states := s.syncStates s.activeAddrs
      blocks := blocks.drop (blocks.length - min blocks.length fastsyncBlockNum) }
  | .tMPTsync => some ⟨data.clientAddr, s.syncStates s.tMPTActiveAddrs, []⟩
  | .fullsync => some ⟨data.clientAddr, fun _ => none, blocks⟩
  | .unknown => none

end Shard

namespace ActiveAccounts

/-! ## The leader of a shard -/

structure State where
  storage : Storage
  since : List Block
  base : StateDB

inductive Event where
  | addTBs (height : ℕ)
  | comGetState (order addrList : List Address)
  | comSendBlock (order : List Address) (block : Block)

/-- On the way from one height to the next the chain passes a multiple of `n`. -/
def PassesBoundary (n height height' : ℕ) : Prop := ∃ m < height', height ≤ m ∧ n ∣ m

instance (n height height' : ℕ) : Decidable (PassesBoundary n height height') :=
  inferInstanceAs (Decidable (∃ m < height', _ ∧ _))

/-- Sender and recipient of each transaction. -/
def parties (txs : List Transaction) : Finset Address :=
  (txs.flatMap fun tx => [tx.sender, tx.recipient]).toFinset

/-- The transactions handled in the current epoch. -/
def State.txs (s : State) : List Transaction := s.since.flatMap Block.transactions

/-- The next beacon block begins a new epoch. -/
def State.beginsEpoch (s : State) (height : ℕ) : Prop :=
  PassesBoundary s.storage.shard.height2Reconfig s.storage.shard.tbchainHeight height

instance (s : State) (height : ℕ) : Decidable (s.beginsEpoch height) :=
  inferInstanceAs (Decidable (PassesBoundary _ _ _))

section Model

variable (keccak : Bytes → Hash)

/-- `AddTBs`. The heights of the beacon chain increase. -/
def addTBs (height : ℕ) (s : State) : Option State :=
  if height ≤ s.storage.shard.tbchainHeight then none
  else some {
    storage := s.storage.addTBs height
    since := if s.beginsEpoch height then [] else s.since
    base := if s.beginsEpoch height then s.storage.shard.stateDB else s.base }

def comGetState (order addrList : List Address) (s : State) : Option State :=
  (s.storage.handleComGetState keccak order addrList).map fun r => { s with storage := r.2 }

def comSendBlock (order : List Address) (block : Block) (s : State) : State :=
  { s with
    storage := s.storage.handleComSendBlock keccak order block
    since := s.since ++ [block] }

def step (s : State) (e : Event) : Option State :=
  if s.storage.running = false then none
  else match e with
    | .addTBs height => addTBs height s
    | .comGetState order addrList => comGetState keccak order addrList s
    | .comSendBlock order block => some (comSendBlock keccak order block s)

/-- The leader has just started. -/
def Initial (s : State) : Prop :=
  (∃ genesis height2Reconfig addrs maxValue,
    newStorage genesis height2Reconfig addrs maxValue = some s.storage) ∧
    s.since = [] ∧ s.base = s.storage.shard.stateDB

def machine : Sys.Machine State Event := ⟨Initial, step keccak⟩

end Model

/-! ## The assumption -/

/-- A new epoch begins only while no transaction was handled in the current one, and a block
that clears the set has all accounts of the epoch itself. -/
def calm (s : State) : Event → Prop
  | .addTBs height => s.beginsEpoch height → s.txs = []
  | .comSendBlock _ block =>
      s.storage.shard.tbchainHeight % s.storage.shard.height2Reconfig = 1 →
        parties s.txs ⊆ parties block.transactions
  | .comGetState _ _ => True

instance (s : State) (e : Event) : Decidable (calm s e) :=
  match e with
  | .addTBs _ => inferInstanceAs (Decidable (_ → _))
  | .comSendBlock _ _ => inferInstanceAs (Decidable (_ → _))
  | .comGetState _ _ => .isTrue trivial

/-- The set is that of the accounts of the epoch. -/
def Exact (s : State) : Prop :=
  ∀ a, s.storage.shard.tMPTActiveAddrs a ≠ 0 ↔ a ∈ parties s.txs

/-- A tMPT answer has the current state of every account that has changed in the epoch. -/
def Complete (s : State) : Prop :=
  ∀ fastsyncBlockNum clientAddr answer,
    s.storage.shard.handleGetSyncData fastsyncBlockNum ⟨clientAddr, .tMPTsync⟩ = some answer →
      ∀ a, s.storage.shard.stateDB.account a ≠ s.base.account a →
        answer.states a = some (s.storage.shard.stateDB.syncAccount a)

/-! ## What a block does -/

theorem mem_parties {txs : List Transaction} {a : Address} :
    a ∈ parties txs ↔ ∃ tx ∈ txs, a = tx.sender ∨ a = tx.recipient := by
  simp [parties]

theorem parties_append (txs txs' : List Transaction) :
    parties (txs ++ txs') = parties txs ∪ parties txs' := by
  simp [parties]

theorem touched_subset {tx : Transaction} {a : Address} (h : a ∈ tx.touched) :
    a = tx.sender ∨ a = tx.recipient := by
  unfold Transaction.touched at h
  split at h <;> simp_all

/-- The counters after a transaction. -/
theorem increment_ne_zero {m : Address → ℕ} {a b : Address} :
    Shard.increment m a b ≠ 0 ↔ m b ≠ 0 ∨ b = a := by
  unfold Shard.increment
  by_cases hb : b = a
  · subst hb
    simp
  · simp [hb]

/-- Executing transactions counts their senders and recipients, and changes nobody else. -/
structure Executed (s : Shard) (txs : List Transaction) (s' : Shard) : Prop where
  active : ∀ a, s'.tMPTActiveAddrs a ≠ 0 ↔ s.tMPTActiveAddrs a ≠ 0 ∨ a ∈ parties txs
  account : ∀ a ∉ parties txs, s'.stateDB.account a = s.stateDB.account a
  height2Reconfig : s'.height2Reconfig = s.height2Reconfig
  tbchainHeight : s'.tbchainHeight = s.tbchainHeight

theorem executed_one {s s' : Shard} {tx : Transaction} (h : s.executeLoop tx = some s') :
    Executed s [tx] s' := by
  obtain ⟨db, hexec, heq⟩ := Option.bind_eq_some_iff.mp h
  cases heq
  constructor
  · intro a
    simp only [increment_ne_zero, mem_parties, List.mem_singleton, exists_eq_left]
    tauto
  · intro a ha
    have hknown : tx.Known := by
      intro htype
      rw [Shard.executeTransaction, htype] at hexec
      cases hexec
    obtain ⟨db', hexec', hacc⟩ := Shard.executeTransaction_spec hknown s.stateDB
    rw [hexec, Option.some.injEq] at hexec'
    subst hexec'
    have hnot : a ∉ tx.touched := by
      intro htouched
      exact ha (mem_parties.mpr ⟨tx, by simp, touched_subset htouched⟩)
    dsimp only
    rw [StateDB.account, hacc, if_neg hnot]
    rfl
  · rfl
  · rfl

theorem executed_loop {s s' : Shard} {txs : List Transaction}
    (h : txs.foldlM Shard.executeLoop s = some s') : Executed s txs s' := by
  induction txs generalizing s with
  | nil =>
      cases h
      exact ⟨by simp [parties], fun _ _ => rfl, rfl, rfl⟩
  | cons tx txs ih =>
      rw [List.foldlM_cons] at h
      obtain ⟨s₁, hone, hrest⟩ := Option.bind_eq_some_iff.mp h
      have h₁ := executed_one hone
      have h₂ := ih hrest
      have hparties : parties (tx :: txs) = parties [tx] ∪ parties txs :=
        parties_append [tx] txs
      constructor
      · intro a
        rw [h₂.active, h₁.active, hparties, Finset.mem_union, or_assoc]
      · intro a ha
        rw [hparties, Finset.mem_union, not_or] at ha
        rw [h₂.account a ha.2, h₁.account a ha.1]
      · rw [h₂.height2Reconfig, h₁.height2Reconfig]
      · rw [h₂.tbchainHeight, h₁.tbchainHeight]

/-- `HandleComSendBlock`, if the process goes on. -/
theorem executed_handleComSendBlock {keccak : Bytes → Hash} {st : Storage} {order : List Address}
    {block : Block} (hrun : (st.handleComSendBlock keccak order block).running = true) :
    Executed (st.addBlock block) block.transactions
      (st.handleComSendBlock keccak order block).shard := by
  unfold Storage.handleComSendBlock at hrun ⊢
  cases hexec : st.execute keccak order block with
  | none =>
      rw [hexec] at hrun
      cases hrun
  | some r =>
      obtain ⟨trieRoot, shard⟩ := r
      unfold Storage.execute at hexec
      split at hexec
      · cases hexec
      · obtain ⟨s', hloop, heq⟩ := Option.bind_eq_some_iff.mp hexec
        cases heq
        exact executed_loop hloop

theorem parties_eq_empty {txs : List Transaction} : parties txs = ∅ ↔ txs = [] := by
  constructor
  · intro h
    rw [List.eq_nil_iff_forall_not_mem]
    intro tx htx
    have hin : tx.sender ∈ parties txs := mem_parties.mpr ⟨tx, htx, .inl rfl⟩
    rw [h] at hin
    exact absurd hin (Finset.notMem_empty _)
  · rintro rfl
    rfl

/-- `HandleComGetState` creates empty accounts, and touches nothing else of the shard. -/
theorem comGetState_eq {keccak : Bytes → Hash} {order addrList : List Address} {s s' : State}
    (h : comGetState keccak order addrList s = some s') :
    s'.storage.shard.tMPTActiveAddrs = s.storage.shard.tMPTActiveAddrs ∧ s'.since = s.since ∧
      s'.base = s.base ∧
      ∀ a, s'.storage.shard.stateDB.account a = s.storage.shard.stateDB.account a := by
  obtain ⟨⟨response, st⟩, hget, rfl⟩ := Option.map_eq_some_iff.mp h
  unfold Storage.handleComGetState at hget
  dsimp only at hget
  split at hget
  · obtain ⟨r, -, heq⟩ := Option.bind_eq_some_iff.mp hget
    cases heq
    refine ⟨rfl, rfl, rfl, ?_⟩
    intro a
    dsimp only
    rw [StateDB.account, stateDB_createAccounts]
    split <;> rfl
  · cases hget

section Run

variable {keccak : Bytes → Hash} {s s' : State} {e : Event}

theorem running_of_step (h : step keccak s e = some s') : s.storage.running = true := by
  unfold step at h
  split at h
  · cases h
  · rename_i hrun
    simpa using hrun

/-- The step of a leader that goes on. -/
theorem step_eq (h : step keccak s e = some s') :
    match e with
    | .addTBs height => addTBs height s = some s'
    | .comGetState order addrList => comGetState keccak order addrList s = some s'
    | .comSendBlock order block => s' = comSendBlock keccak order block s := by
  have hrun := running_of_step h
  unfold step at h
  rw [if_neg (by simp [hrun])] at h
  cases e with
  | addTBs height => exact h
  | comGetState order addrList => exact h
  | comSendBlock order block => exact (Option.some.inj h).symm

theorem exact_addTBs_iff {height : ℕ} (h : Exact s) (hadd : addTBs height s = some s') :
    Exact s' ↔ calm s (.addTBs height) := by
  unfold addTBs at hadd
  split at hadd
  · cases hadd
  · have hcounters : s'.storage.shard.tMPTActiveAddrs = s.storage.shard.tMPTActiveAddrs := by
      cases hadd
      rfl
    have htxs : s'.txs = if s.beginsEpoch height then [] else s.txs := by
      cases hadd
      unfold State.txs
      split <;> rfl
    unfold Exact
    rw [hcounters, htxs]
    by_cases hbegin : s.beginsEpoch height
    · -- there is no transaction of the new epoch yet, and all counters are left over
      have hnone : (∀ a, s.storage.shard.tMPTActiveAddrs a ≠ 0 ↔ a ∈ parties []) ↔ s.txs = [] := by
        rw [← parties_eq_empty, Finset.eq_empty_iff_forall_notMem]
        apply forall_congr'
        intro a
        rw [h a]
        simp [show parties [] = ∅ from rfl]
      rw [if_pos hbegin, hnone]
      exact ⟨fun heq _ => heq, fun hcalm => hcalm hbegin⟩
    · rw [if_neg hbegin]
      exact ⟨fun _ hb => absurd hb hbegin, fun _ => h⟩

theorem exact_comSendBlock_iff {order : List Address} {block : Block} (h : Exact s)
    (hrun : (comSendBlock keccak order block s).storage.running = true) :
    Exact (comSendBlock keccak order block s) ↔ calm s (.comSendBlock order block) := by
  have hexec := executed_handleComSendBlock hrun
  have htxs : (comSendBlock keccak order block s).txs = s.txs ++ block.transactions := by
    simp [comSendBlock, State.txs]
  have hactive : ∀ a, (comSendBlock keccak order block s).storage.shard.tMPTActiveAddrs a ≠ 0 ↔
      (s.storage.addBlock block).tMPTActiveAddrs a ≠ 0 ∨ a ∈ parties block.transactions :=
    hexec.active
  unfold Exact calm
  simp only [hactive, htxs, parties_append, Finset.mem_union]
  by_cases hclear : s.storage.shard.tbchainHeight % s.storage.shard.height2Reconfig = 1
  · -- only the block itself is counted after the set was cleared
    have hzero : ∀ a, (s.storage.addBlock block).tMPTActiveAddrs a = 0 := by
      intro a
      simp [Storage.addBlock, hclear]
    simp only [hzero, ne_eq, not_true_eq_false, false_or]
    constructor
    · intro hiff _ a ha
      exact (hiff a).mpr (.inl ha)
    · intro hsub a
      exact ⟨.inr, fun ha => ha.elim (fun ha => hsub hclear ha) id⟩
  · have hkept : (s.storage.addBlock block).tMPTActiveAddrs = s.storage.shard.tMPTActiveAddrs := by
      simp [Storage.addBlock, hclear]
    rw [hkept]
    constructor
    · exact fun _ hb => absurd hb hclear
    · intro _ a
      rw [h a]

/-- The assumption is exact: from a state in which the set is right, the next one has it right
if and only if the step is calm. -/
theorem exact_step_iff (h : Exact s) (hstep : step keccak s e = some s')
    (hrun : s'.storage.running = true) : Exact s' ↔ calm s e := by
  have heq := step_eq hstep
  cases e with
  | addTBs height => exact exact_addTBs_iff h heq
  | comGetState order addrList =>
      obtain ⟨hcounters, hsince, -, -⟩ := comGetState_eq heq
      simp only [Exact, State.txs, hcounters, hsince, calm, iff_true]
      exact h
  | comSendBlock order block =>
      dsimp only at heq
      subst heq
      exact exact_comSendBlock_iff h hrun

/-- Accounts of nobody in the epoch are as they were when it began. -/
def Unchanged (s : State) : Prop :=
  ∀ a ∉ parties s.txs, s.storage.shard.stateDB.account a = s.base.account a

theorem unchanged_step (h : Unchanged s) (hstep : step keccak s e = some s')
    (hrun : s'.storage.running = true) : Unchanged s' := by
  have heq := step_eq hstep
  cases e with
  | addTBs height =>
      dsimp only [addTBs] at heq
      split at heq
      · cases heq
      · cases heq
        by_cases hbegin : s.beginsEpoch height
        · intro a _
          dsimp only
          rw [if_pos hbegin]
          rfl
        · simp only [Unchanged, State.txs, if_neg hbegin]
          exact h
  | comGetState order addrList =>
      obtain ⟨-, hsince, hbase, haccount⟩ := comGetState_eq heq
      intro a ha
      rw [haccount, hbase]
      apply h
      simpa only [State.txs, hsince] using ha
  | comSendBlock order block =>
      dsimp only at heq
      subst heq
      have hexec := executed_handleComSendBlock hrun
      intro a ha
      simp only [State.txs, comSendBlock, List.flatMap_append, List.flatMap_singleton,
        parties_append, Finset.mem_union, not_or] at ha
      exact (hexec.account a ha.2).trans (h a ha.1)

/-- An answer made from the right set misses no change. -/
theorem complete_of_exact (hexact : Exact s) (hunchanged : Unchanged s) : Complete s := by
  intro fastsyncBlockNum clientAddr answer hanswer a hne
  cases hanswer
  have hin : a ∈ parties s.txs := by
    by_contra hout
    exact hne (hunchanged a hout)
  exact if_neg ((hexact a).mpr hin)

/-- In runs whose steps are all calm, the active accounts are at every moment those of the
epoch, and a tMPT answer has every account that has changed in it. -/
theorem exact_of_calm (h : (machine keccak).ReachableBy calm s)
    (hrun : s.storage.running = true) : Exact s ∧ Complete s := by
  have hinv : s.storage.running = true → Exact s ∧ Unchanged s := by
    refine Sys.Machine.invariant_by
      (fun t : State => t.storage.running = true → Exact t ∧ Unchanged t) ?_ ?_ h
    · rintro s₀ ⟨⟨genesis, height2Reconfig, addrs, maxValue, hnew⟩, hsince, hbase⟩ -
      obtain ⟨db, -, heq⟩ := Option.bind_eq_some_iff.mp hnew
      constructor
      · intro a
        have hcounters : s₀.storage.shard.tMPTActiveAddrs a = 0 := by
          rw [← Option.some.inj heq]
        simp [hcounters, State.txs, hsince, parties]
      · intro a _
        rw [hbase]
    · intro t e t' hok hstep ht hrun'
      obtain ⟨hexact, hunchanged⟩ := ht (running_of_step hstep)
      exact ⟨(exact_step_iff hexact hstep hrun').mpr hok, unchanged_step hunchanged hstep hrun'⟩
  obtain ⟨hexact, hunchanged⟩ := hinv hrun
  exact ⟨hexact, complete_of_exact hexact hunchanged⟩

end Run

/-! ## Two blocks in one beacon height -/

open StorageChain in
def exampleState : State :=
  ⟨exampleStart.storage, [], exampleStart.storage.shard.stateDB⟩

theorem initial_exampleState : Initial exampleState :=
  ⟨⟨StorageChain.exampleGenesis, 10, [1], 100, rfl⟩, rfl, rfl⟩

/-- The payment of 5 from account 1 to account 2. -/
def firstBlock : Block :=
  ⟨⟨1, 0x2092fddec7e30ed49044d47f88e74b171bddb8dcec1e926fad19f3478c58416b, 0⟩,
    [sampleTx .intraTXType 1 1 2 5]⟩

/-- The second half of a transaction of value 0, from account 3 of another shard to account 2. -/
def secondBlock : Block :=
  ⟨⟨2, 0x2092fddec7e30ed49044d47f88e74b171bddb8dcec1e926fad19f3478c58416b, 0⟩,
    [sampleTx .crossTXType2 2 3 2 0]⟩

/-- Both blocks are handled in the first beacon height of an epoch. Account 1, which has paid,
is not among the active accounts, and the answer leaves it out. -/
theorem second_block_clears :
    ∃ s, (machine StorageChain.exampleKeccak).Reachable s ∧ s.storage.running = true ∧
      s.storage.shard.tMPTActiveAddrs 1 = 0 ∧ 1 ∈ parties s.txs ∧
      s.storage.shard.stateDB.account 1 ≠ s.base.account 1 ∧
      ((s.storage.shard.handleGetSyncData 10 ⟨"", .tMPTsync⟩).map fun answer =>
        answer.states 1) = some none :=
  Sys.Machine.exists_reachableBy _ initial_exampleState
    [.addTBs 1, .comSendBlock [1, 2] firstBlock, .comSendBlock [2] secondBlock] (by decide +kernel)

theorem exact_of_calm_example :
    ∃ s, (machine StorageChain.exampleKeccak).ReachableBy calm s ∧ s.since.length = 2 ∧
      Exact s ∧ Complete s := by
  obtain ⟨s, hs, hlength, hrun⟩ : ∃ s,
      (machine StorageChain.exampleKeccak).ReachableBy calm s ∧ s.since.length = 2 ∧
        s.storage.running = true :=
    Sys.Machine.exists_reachableBy _ initial_exampleState
      [.addTBs 1, .comSendBlock [1, 2] firstBlock, .addTBs 2, .comSendBlock [2] secondBlock]
      (by decide +kernel)
  exact ⟨s, hs, hlength, exact_of_calm hs hrun⟩

end ActiveAccounts

end LessChain
