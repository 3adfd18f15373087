import LessChain.Committee.Commit
import LessChain.Committee.WorkLoop

/-!
# A shard and the committee that builds its chain

The storage leader of a shard and the leader of the committee, whose worker runs `commit` again
and again. The height comes back on the connection on which it was asked for. `ComGetState`,
its answer and `ComSendBlock` travel on their own: any message in flight may be the next to be
handled, whatever was sent before or after it.

The worker is that of `WorkLoop`. What was a single step there, the tick of the timer that
comes with a block, is here the way through `commit` to the block; `RunPbft`, the receipts, the
beacon and reconfigurations are the steps of the work loop itself.

`commit` asks for height and state without waiting for the last block to arrive. A block
that is still on its way then makes the next one wrong, in its number and in its root. PBFT
does not come to an end a second time for one number, but `EndReconfig` makes the leader forget
the numbers (`block_overtaken`), and a worker that is closed sends its block all the same. In
the runs in which no block is in flight when a height is read, the chain is in order
(`chain_in_order`).
-/

namespace LessChain

namespace StorageChain

open Trie

/-- Where the worker is in `commit`. -/
inductive Pc where
  /-- not in `commit`, or behind `AddBlock2Shard` -/
  | idle
  /-- with the height of the parent, before it takes transactions from the pool -/
  | pending (parentHeight : ℕ)
  /-- waiting for the state of the accounts -/
  | waiting (parentHeight : ℕ) (txs : List Transaction)
  /-- with a block, before and in `RunPbft` -/
  | finalized (block : Block)
deriving DecidableEq

/-- The committee: what its work loop is given, and what it makes of a block. -/
structure Setting where
  comID : ℕ
  node_nums : ℕ
  getDigest : Pbft.PbftRequest → Pbft.Digest
  crypto : Crypto
  required : ℕ
  rlp : Block → Bytes
  beacon : Block → TimeBeacon

/-- A block as the work loop has it. -/
def Setting.proposal (cfg : Setting) (block : Block) : WorkLoop.Block :=
  ⟨block.header.number, cfg.rlp block, cfg.beacon block⟩

/-- The two leaders and the messages in flight. -/
structure State where
  storage : Storage
  pc : Pc
  work : WorkLoop.State
  comGetState : List (List Address)
  shardSendState : List ShardSendState
  comSendBlock : List Block

inductive Event where
  | getBlockHeight
  /-- the transactions are those that `Pending` returns -/
  | getStatusFromShard (txs : List Transaction) (addrs : List Address)
  | handleComGetState (i : ℕ) (order : List Address)
  /-- the accounts of the answer, in the order in which `analyseStates` meets them -/
  | handleShardSendState (i : ℕ) (data : List (Address × Bytes))
  | addBlock2Shard
  | handleComSendBlock (i : ℕ) (order : List Address)
  | addTBs (height : ℕ)
  /-- any other step of the work loop -/
  | work (ev : WorkLoop.Event)

section Model

variable (keccak : Bytes → Hash) (cfg : Setting)

/-- The timer has run out and `commit` begins: `getBlockHeight` and `HandleComGetHeight`. -/
def getBlockHeight (s : State) : Option State :=
  match s.pc with
  | .idle =>
      if s.work.pc = .select ∧ s.work.timer = true ∧ s.work.running = true ∧ s.storage.running then
        some { s with
          pc := .pending s.storage.handleComGetHeight
          work := { s.work with timer := false } }
      else none
  | _ => none

/-- `Pending`, and the request of `getStatusFromShard` for the addresses it returns. -/
def getStatusFromShard (txs : List Transaction) (addrs : List Address) (s : State) :
    Option State :=
  match s.pc with
  | .pending parentHeight =>
      if addrs.Nodup ∧ getTxRelatedAddrs txs = some addrs.toFinset then
        some { s with pc := .waiting parentHeight txs, comGetState := addrs :: s.comGetState }
      else none
  | _ => none

def handleComGetState (i : ℕ) (order : List Address) (s : State) : Option State := do
  let addrs ← s.comGetState[i]?
  if s.storage.running ∧ Orders order (s.storage.toCreate addrs) then do
    let (response, storage) ← s.storage.handleComGetState keccak order addrs
    some { s with
      storage := storage
      comGetState := s.comGetState.eraseIdx i
      shardSendState := response :: s.shardSendState }
  else none

/-- The worker gets an answer, checks it and builds the block. A trie with keys of 32 bytes
is at most 65 nodes deep. -/
def handleShardSendState (i : ℕ) (data : List (Address × Bytes)) (s : State) : Option State :=
  match s.pc with
  | .waiting parentHeight txs => do
      let response ← s.shardSendState[i]?
      if data.Perm response.accountData ∧ acceptsStates keccak response then do
        let block ← Worker.commitStates keccak 65 cfg.comID parentHeight txs
          { response with accountData := data }
        some { s with
          pc := .finalized block
          work := { s.work with pc := .setSequenceID (cfg.proposal block) }
          shardSendState := s.shardSendState.eraseIdx i }
      else none
  | _ => none

/-- `RunPbft` has returned. -/
def addBlock2Shard (s : State) : Option State :=
  match s.pc with
  | .finalized block => do
      let work ← WorkLoop.addBlock2Shard s.work
      some { s with pc := .idle, work := work, comSendBlock := block :: s.comSendBlock }
  | _ => none

/-- Whether a step of the work loop is one here. In `commit` the worker is not in its `select`;
the timer does nothing on its own only if the worker is stopped. -/
def Allowed (s : State) : WorkLoop.Event → Prop
  | .takeStart => s.pc = .idle
  | .takeExit => s.pc = .idle
  | .tick _ => s.pc = .idle ∧ s.work.running = false
  | .addBlock2Shard => False
  | _ => True

instance (s : State) (ev : WorkLoop.Event) : Decidable (Allowed s ev) :=
  match ev with
  | .takeStart => inferInstanceAs (Decidable (s.pc = .idle))
  | .takeExit => inferInstanceAs (Decidable (s.pc = .idle))
  | .tick _ => inferInstanceAs (Decidable (s.pc = .idle ∧ s.work.running = false))
  | .addBlock2Shard => .isFalse id
  | .start | .close | .setSequenceID | .propose _ | .consensusDone | .consensusExit
  | .sendTXReceipt2Client | .initMultiSign _ _ | .assign | .multiSignDone | .multiSignExit
  | .sendTB | .newBlockGenerated | .prepareReconfig | .endReconfig _ | .handlePbftMsg _ _
  | .handleMultiSignReply _ => .isTrue trivial

def work (ev : WorkLoop.Event) (s : State) : Option State :=
  if Allowed s ev then do
    let work ← WorkLoop.step cfg.getDigest cfg.crypto cfg.required s.work ev
    some { s with work := work }
  else none

def handleComSendBlock (i : ℕ) (order : List Address) (s : State) : Option State := do
  let block ← s.comSendBlock[i]?
  if s.storage.running ∧
      Orders order (s.storage.backend.pending ∪ Storage.dirtied block.transactions) then
    some { s with
      storage := s.storage.handleComSendBlock keccak order block
      comSendBlock := s.comSendBlock.eraseIdx i }
  else none

def addTBs (height : ℕ) (s : State) : Option State :=
  if s.storage.running then some { s with storage := s.storage.addTBs height } else none

def step (s : State) : Event → Option State
  | .getBlockHeight => getBlockHeight s
  | .getStatusFromShard txs addrs => getStatusFromShard txs addrs s
  | .handleComGetState i order => handleComGetState keccak i order s
  | .handleShardSendState i data => handleShardSendState keccak cfg i data s
  | .addBlock2Shard => addBlock2Shard s
  | .handleComSendBlock i order => handleComSendBlock keccak i order s
  | .addTBs height => addTBs height s
  | .work ev => work cfg ev s

/-- The two leaders before the first block. -/
def start (storage : Storage) : State :=
  ⟨storage, .idle, WorkLoop.initial cfg.node_nums, [], [], []⟩

/-- The shard starts from a genesis block and any initial accounts. -/
def Initial (s : State) : Prop :=
  ∃ genesis height2Reconfig addrs maxValue storage, genesis.header.number = 0 ∧
    0 < height2Reconfig ∧ newStorage genesis height2Reconfig addrs maxValue = some storage ∧
    s = start cfg storage

def machine : Sys.Machine State Event := ⟨Initial cfg, step keccak cfg⟩

/-- The steps of a run in which no block is overtaken by a request for the height, and in
which the nodes of the trie can be told apart by their hashes when a root is computed. -/
def orderly (s : State) : Event → Prop
  | .getBlockHeight => s.comSendBlock = []
  | .handleShardSendState _ _ => Distinct keccak s.storage.backend.trie
  | _ => True

end Model

/-! ## The steps -/

section Steps

variable (keccak : Bytes → Hash) (cfg : Setting)

/-- What a step can do. -/
inductive Taken : State → Event → State → Prop
  | getBlockHeight {st w w' reqs reps blocks} :
      Taken ⟨st, .idle, w, reqs, reps, blocks⟩ .getBlockHeight
        ⟨st, .pending st.handleComGetHeight, w', reqs, reps, blocks⟩
  | getStatusFromShard {st w parentHeight reqs reps blocks txs addrs} (hnodup : addrs.Nodup)
      (haddrs : getTxRelatedAddrs txs = some addrs.toFinset) :
      Taken ⟨st, .pending parentHeight, w, reqs, reps, blocks⟩ (.getStatusFromShard txs addrs)
        ⟨st, .waiting parentHeight txs, w, addrs :: reqs, reps, blocks⟩
  | handleComGetState {st pc w reqs reps blocks i order addrs response st'}
      (hreq : reqs[i]? = some addrs) (horder : Orders order (st.toCreate addrs))
      (hhandle : st.handleComGetState keccak order addrs = some (response, st')) :
      Taken ⟨st, pc, w, reqs, reps, blocks⟩ (.handleComGetState i order)
        ⟨st', pc, w, reqs.eraseIdx i, response :: reps, blocks⟩
  | handleShardSendState {st w w' parentHeight txs reqs reps blocks i data response block}
      (hrep : reps[i]? = some response) (hdata : data.Perm response.accountData)
      (hcommit : Worker.commitStates keccak 65 cfg.comID parentHeight txs
        { response with accountData := data } = some block) :
      Taken ⟨st, .waiting parentHeight txs, w, reqs, reps, blocks⟩ (.handleShardSendState i data)
        ⟨st, .finalized block, w', reqs, reps.eraseIdx i, blocks⟩
  | addBlock2Shard {st w w' block reqs reps blocks} :
      Taken ⟨st, .finalized block, w, reqs, reps, blocks⟩ .addBlock2Shard
        ⟨st, .idle, w', reqs, reps, block :: blocks⟩
  | handleComSendBlock {st pc w reqs reps blocks i order block} (hblock : blocks[i]? = some block)
      (horder : Orders order (st.backend.pending ∪ Storage.dirtied block.transactions)) :
      Taken ⟨st, pc, w, reqs, reps, blocks⟩ (.handleComSendBlock i order)
        ⟨st.handleComSendBlock keccak order block, pc, w, reqs, reps, blocks.eraseIdx i⟩
  | addTBs {st pc w reqs reps blocks height} :
      Taken ⟨st, pc, w, reqs, reps, blocks⟩ (.addTBs height)
        ⟨st.addTBs height, pc, w, reqs, reps, blocks⟩
  | work {st pc w w' reqs reps blocks ev} :
      Taken ⟨st, pc, w, reqs, reps, blocks⟩ (.work ev) ⟨st, pc, w', reqs, reps, blocks⟩

variable {keccak cfg}

theorem step_taken {s s' : State} {e : Event} (h : step keccak cfg s e = some s') :
    Taken keccak cfg s e s' := by
  rcases s with ⟨st, pc, w, reqs, reps, blocks⟩
  -- one constructor of `Taken` for each event; a guard that fails gives no state
  cases e with
  | getBlockHeight =>
      simp only [step, StorageChain.getBlockHeight] at h
      split at h
      · split at h
        · cases h
          exact .getBlockHeight
        · cases h
      · cases h
  | getStatusFromShard txs addrs =>
      simp only [step, StorageChain.getStatusFromShard] at h
      split at h
      · split at h
        · rename_i hguard
          cases h
          exact .getStatusFromShard hguard.1 hguard.2
        · cases h
      · cases h
  | handleComGetState i order =>
      simp only [step, StorageChain.handleComGetState, Option.bind_eq_bind,
        Option.bind_eq_some_iff] at h
      rcases h with ⟨addrs, hreq, h⟩
      split at h
      · rename_i hguard
        simp only [Option.bind_eq_some_iff, Prod.exists, Option.some.injEq] at h
        rcases h with ⟨response, st', hhandle, rfl⟩
        exact .handleComGetState hreq hguard.2 hhandle
      · cases h
  | handleShardSendState i data =>
      simp only [step, StorageChain.handleShardSendState] at h
      split at h
      · simp only [Option.bind_eq_bind, Option.bind_eq_some_iff] at h
        rcases h with ⟨response, hrep, h⟩
        split at h
        · rename_i hguard
          simp only [Option.bind_eq_some_iff, Option.some.injEq] at h
          rcases h with ⟨block, hcommit, rfl⟩
          exact .handleShardSendState hrep hguard.1 hcommit
        · cases h
      · cases h
  | addBlock2Shard =>
      simp only [step, StorageChain.addBlock2Shard] at h
      split at h
      · simp only [Option.bind_eq_bind, Option.bind_eq_some_iff, Option.some.injEq] at h
        rcases h with ⟨w', -, rfl⟩
        exact .addBlock2Shard
      · cases h
  | handleComSendBlock i order =>
      simp only [step, StorageChain.handleComSendBlock, Option.bind_eq_bind,
        Option.bind_eq_some_iff] at h
      rcases h with ⟨block, hblock, h⟩
      split at h
      · rename_i hguard
        cases h
        exact .handleComSendBlock hblock hguard.2
      · cases h
  | addTBs height =>
      simp only [step, StorageChain.addTBs] at h
      split at h
      · cases h
        exact .addTBs
      · cases h
  | work ev =>
      simp only [step, StorageChain.work] at h
      split at h
      · simp only [Option.bind_eq_bind, Option.bind_eq_some_iff, Option.some.injEq] at h
        rcases h with ⟨w', -, rfl⟩
        exact .work
      · cases h

end Steps

/-! ## The chain is in order -/

section Invariant

variable {keccak : Bytes → Hash} {cfg : Setting}

/-- The addresses of a request are those of the transactions. -/
structure Asks (txs : List Transaction) (addrs : List Address) : Prop where
  nodup : addrs.Nodup
  addrs : getTxRelatedAddrs txs = some addrs.toFinset

/-- The shard has answered, and is still in the state it answered from. -/
structure Answered (keccak : Bytes → Hash) (st : Storage) (addrs : List Address)
    (response : ShardSendState) : Prop where
  settled : st.backend.pending = ∅
  existing : ∀ a ∈ addrs, st.shard.stateDB a ≠ none
  response : st.answer keccak addrs = some response

/-- How far the two have come with the next block, in an orderly run. -/
inductive Phase (keccak : Bytes → Hash) (st : Storage) :
    Pc → List (List Address) → List ShardSendState → List Block → Prop
  | idle : Phase keccak st .idle [] [] []
  | pending {parentHeight} (hheight : parentHeight + 1 = st.shard.blockchain.blocks.length) :
      Phase keccak st (.pending parentHeight) [] [] []
  | asked {parentHeight txs addrs} (hasks : Asks txs addrs)
      (hheight : parentHeight + 1 = st.shard.blockchain.blocks.length) :
      Phase keccak st (.waiting parentHeight txs) [addrs] [] []
  | answered {parentHeight txs addrs response} (hasks : Asks txs addrs)
      (hheight : parentHeight + 1 = st.shard.blockchain.blocks.length)
      (hanswered : Answered keccak st addrs response) :
      Phase keccak st (.waiting parentHeight txs) [] [response] []
  | finalized {block} (hfits : Fits keccak st block) : Phase keccak st (.finalized block) [] [] []
  | sent {block} (hfits : Fits keccak st block) : Phase keccak st .idle [] [] [block]

/-- The invariant of orderly runs. -/
structure Inv (keccak : Bytes → Hash) (s : State) : Prop where
  sound : Sound keccak s.storage
  phase : Phase keccak s.storage s.pc s.comGetState s.shardSendState s.comSendBlock

theorem inv_initial {s : State} (h : Initial cfg s) : Inv keccak s := by
  rcases h with ⟨genesis, height2Reconfig, addrs, maxValue, storage, hnumber, hconf, hnew, rfl⟩
  exact ⟨sound_newStorage hnumber hconf hnew, .idle⟩

/-- There is one message, and it is handled. -/
theorem eq_of_getElem?_singleton {α : Type*} {x y : α} {i : ℕ} (h : [x][i]? = some y) :
    y = x ∧ [x].eraseIdx i = [] := by
  cases i with
  | zero =>
      cases h
      exact ⟨rfl, rfl⟩
  | succ i => cases h

/-- A beacon does not touch the chain. -/
theorem Phase.addTBs {st : Storage} {pc : Pc} {reqs : List (List Address)}
    {reps : List ShardSendState} {blocks : List Block} (h : Phase keccak st pc reqs reps blocks)
    (height : ℕ) : Phase keccak (st.addTBs height) pc reqs reps blocks := by
  cases h with
  | idle => exact .idle
  | pending hheight => exact .pending hheight
  | asked hasks hheight => exact .asked hasks hheight
  | answered hasks hheight hanswered =>
      exact .answered hasks hheight ⟨hanswered.settled, hanswered.existing, hanswered.response⟩
  | finalized hfits => exact .finalized ⟨hfits.settled, hfits.number, hfits.known, hfits.root⟩
  | sent hfits => exact .sent ⟨hfits.settled, hfits.number, hfits.known, hfits.root⟩

/-- `HandleComGetState` leaves the shard in the state it answers from. -/
theorem answered_of_handleComGetState (hinj : Function.Injective (addrKey keccak))
    {st st' : Storage} {order addrs : List Address} {response : ShardSendState}
    (h : Sound keccak st) (horder : Orders order (st.toCreate addrs))
    (hhandle : st.handleComGetState keccak order addrs = some (response, st')) :
    Sound keccak st' ∧ st'.shard.blockchain = st.shard.blockchain ∧
      Answered keccak st' addrs response := by
  simp only [Storage.handleComGetState] at hhandle
  split at hhandle
  · simp only [Option.bind_eq_bind, Option.bind_eq_some_iff, Option.some.injEq,
      Prod.mk.injEq] at hhandle
    rcases hhandle with ⟨response, hanswer, rfl, rfl⟩
    refine ⟨h.createAccounts hinj horder, rfl, pending_createAccounts, ?_, hanswer⟩
    intro a ha
    rw [stateDB_createAccounts, if_pos ha]
    exact Option.some_ne_none _
  · cases hhandle

theorem inv_step (hinj : Function.Injective (addrKey keccak)) {s s' : State} {e : Event}
    (hok : orderly keccak s e) (hstep : step keccak cfg s e = some s') (h : Inv keccak s) :
    Inv keccak s' := by
  rcases h with ⟨hsound, hphase⟩
  cases step_taken hstep with
  | getBlockHeight =>
      -- no block is in flight, so the height that is read is that of the last block
      have hnone : _ = [] := hok
      subst hnone
      cases hphase with
      | idle => exact ⟨hsound, .pending hsound.head⟩
  | getStatusFromShard hnodup haddrs =>
      cases hphase with
      | pending hheight => exact ⟨hsound, .asked ⟨hnodup, haddrs⟩ hheight⟩
  | handleComGetState hreq horder hhandle =>
      cases hphase with
      | asked hasks hheight =>
          rcases eq_of_getElem?_singleton hreq with ⟨rfl, herase⟩
          rcases answered_of_handleComGetState hinj hsound horder hhandle with
            ⟨hsound', hchain, hanswered⟩
          refine ⟨hsound', ?_⟩
          dsimp only
          rw [herase]
          exact .answered hasks (by rw [hchain]; exact hheight) hanswered
      | _ => cases hreq
  | handleShardSendState hrep hdata hcommit =>
      cases hphase with
      | asked => cases hrep
      | answered hasks hheight hanswered =>
          rcases eq_of_getElem?_singleton hrep with ⟨rfl, herase⟩
          have hfits := fits_of_commitStates hinj hsound hanswered.settled hanswered.existing
            hanswered.response hasks.addrs hasks.nodup hok hdata (Nat.le_refl 65) hheight hcommit
          refine ⟨hsound, ?_⟩
          dsimp only
          rw [herase]
          exact .finalized hfits
  | addBlock2Shard =>
      cases hphase with
      | finalized hfits => exact ⟨hsound, .sent hfits⟩
  | handleComSendBlock hblock horder =>
      cases hphase with
      | sent hfits =>
          rcases eq_of_getElem?_singleton hblock with ⟨rfl, herase⟩
          refine ⟨hsound.handleComSendBlock hinj hfits horder, ?_⟩
          dsimp only
          rw [herase]
          exact .idle
      | _ => cases hblock
  | addTBs =>
      refine ⟨?_, hphase.addTBs _⟩
      exact ⟨hsound.synced, hsound.numbers, hsound.head, hsound.passed, hsound.running,
        hsound.configured⟩
  | work => exact ⟨hsound, hphase⟩

/-- Storage-chain consistency. If no block is in flight whenever a height is read, and the
nodes of the trie can be told apart whenever a root is computed, then the blocks of the shard
are numbered in order, and every block that was handled has passed the check of its root. -/
theorem chain_in_order (hinj : Function.Injective (addrKey keccak)) {s : State}
    (h : (machine keccak cfg).ReachableBy (orderly keccak) s) :
    (∀ (i : ℕ) (b : Block), s.storage.shard.blockchain.blocks[i]? = some b → b.header.number = i) ∧
      ∀ x ∈ s.storage.handled, x.2 = some x.1.header.root := by
  have hinv : Inv keccak s := Sys.Machine.invariant_by (Inv keccak) (fun _ => inv_initial)
    (fun _ _ _ hok hstep hinv => inv_step hinj hok hstep hinv) h
  exact ⟨hinv.sound.numbers, hinv.sound.passed⟩

end Invariant

/-! ## Two payments

Account 1 starts with 100, account 2 does not exist. One block pays 5 from 1 to 2, the next
one 3. -/

/-- Keccak on the nodes of the tries of the two accounts: at first, after the first payment,
after the second alone, and after both. -/
def exampleNodes : List (Node × Hash) :=
  let leafOne := Sys.toBE 32 0x3468288056310c82aa4c01a7e12a10f8111a0560e72b700555479031b86c357d
  let leafTwo := Sys.toBE 32 0x352688a8f926c816ca1e079067caba944f158e764817b83fc43594370ca9cf62
  [(storedLeaf leafOne (sampleAccount 0 100),
      0xa503e4d3305b07cfc6f7628e317a98476a83f9cf26edb38b25fa21e5fc2c58ea),
    (storedLeaf leafTwo (sampleAccount 0 0),
      0xaaab21b388022652902d3c31356ecc60f02c5b787c519168e0c368542babaf81),
    (storedFull 1 13 0xa503e4d3305b07cfc6f7628e317a98476a83f9cf26edb38b25fa21e5fc2c58ea
        0xaaab21b388022652902d3c31356ecc60f02c5b787c519168e0c368542babaf81,
      0xd5cc6b6e229318192805004645d25860f9551fd974b401eb6536d22269945cda),
    (storedLeaf leafOne (sampleAccount 1 95),
      0xa88e1806ab99e4aeaa09f4c526a8c54ec2d18bca921b6fe610284fe56606c637),
    (storedLeaf leafTwo (sampleAccount 0 5),
      0x5ac27e391c7b2265567c6496434e61be0d0dd98b0a66da0177e048f2c802d98e),
    (storedFull 1 13 0xa88e1806ab99e4aeaa09f4c526a8c54ec2d18bca921b6fe610284fe56606c637
        0x5ac27e391c7b2265567c6496434e61be0d0dd98b0a66da0177e048f2c802d98e,
      0x2092fddec7e30ed49044d47f88e74b171bddb8dcec1e926fad19f3478c58416b),
    (storedLeaf leafOne (sampleAccount 1 97),
      0x45693120d3b189d6b7789affbd4a6d2febc6c9000f6f7a217c40070015b9b1c1),
    (storedLeaf leafTwo (sampleAccount 0 3),
      0x2dcc5c78f5385eda3e452ffd3ebba06061e17f6084474da14d7c8cc2c87bb26e),
    (storedFull 1 13 0x45693120d3b189d6b7789affbd4a6d2febc6c9000f6f7a217c40070015b9b1c1
        0x2dcc5c78f5385eda3e452ffd3ebba06061e17f6084474da14d7c8cc2c87bb26e,
      0x26091f88dda26d587a5dd0959267669f7bd78a15bdb08db52f14aa9671229a12),
    (storedLeaf leafOne (sampleAccount 2 92),
      0x13f30921f9ea106827824f471e5680ff866c197c5ed2b2585fce732a83f63fa8),
    (storedLeaf leafTwo (sampleAccount 0 8),
      0xf94fac418b0f71f24d66efa3de61358969abcd954eae4980db5d16842b3b1786),
    (storedFull 1 13 0x13f30921f9ea106827824f471e5680ff866c197c5ed2b2585fce732a83f63fa8
        0xf94fac418b0f71f24d66efa3de61358969abcd954eae4980db5d16842b3b1786,
      0x23cf458860c2fa529bef6046beff8c49f9bdc8579b7234f8a8bcdb2d703e0c80)]

/-- Keccak where the example asks for it. On the other addresses it is some function that
tells them apart. -/
def exampleKeccak (b : Bytes) : Hash :=
  if b = Address.bytes 1 then 0x1468288056310c82aa4c01a7e12a10f8111a0560e72b700555479031b86c357d
  else if b = Address.bytes 2 then
    0xd52688a8f926c816ca1e079067caba944f158e764817b83fc43594370ca9cf62
  else ((exampleNodes.find? fun x => x.1.encode = b).map Prod.snd).getD (bytesToHash b)

theorem bytesToHash_addressBytes (a : Address) : (bytesToHash a.bytes).toNat = a.toNat := by
  have hlt := a.isLt
  rw [bytesToHash, Address.bytes, Sys.fromBE_toBE, BitVec.toNat_ofNat]
  omega

/-- The hash of an address that the example does not use. -/
theorem exampleKeccak_of_ne {a : Address} (h1 : a ≠ 1) (h2 : a ≠ 2) :
    exampleKeccak a.bytes = bytesToHash a.bytes := by
  have hnode : exampleNodes.find? (fun x => x.1.encode = a.bytes) = none := by
    rw [List.find?_eq_none]
    intro x hx heq
    have hlong : ∀ x ∈ exampleNodes, x.1.encode.length ≠ 20 := by decide +kernel
    apply hlong x hx
    rw [of_decide_eq_true heq, Address.length_bytes]
  have hne : ∀ c : Address, a ≠ c → a.bytes ≠ c.bytes :=
    fun c hc heq => hc (Address.bytes_injective heq)
  rw [exampleKeccak, if_neg (hne 1 h1), if_neg (hne 2 h2), hnode]
  rfl

theorem addrKey_exampleKeccak_injective : Function.Injective (addrKey exampleKeccak) := by
  have hone : exampleKeccak (Address.bytes 1) =
      0x1468288056310c82aa4c01a7e12a10f8111a0560e72b700555479031b86c357d := by decide +kernel
  have htwo : exampleKeccak (Address.bytes 2) =
      0xd52688a8f926c816ca1e079067caba944f158e764817b83fc43594370ca9cf62 := by decide +kernel
  -- the hashes of 1 and 2 are too large to be addresses
  have hlarge : ∀ a c : Address, (c = 1 ∨ c = 2) → a ≠ 1 → a ≠ 2 →
      exampleKeccak a.bytes ≠ exampleKeccak c.bytes := by
    intro a c hc h1 h2 heq
    have hlt := a.isLt
    rw [← bytesToHash_addressBytes, ← exampleKeccak_of_ne h1 h2, heq] at hlt
    rcases hc with rfl | rfl
    · rw [hone] at hlt
      revert hlt
      decide
    · rw [htwo] at hlt
      revert hlt
      decide
  intro a b h
  have heq : exampleKeccak a.bytes = exampleKeccak b.bytes := Hash.bytes_injective h
  by_cases ha : a = 1 ∨ a = 2
  · by_cases hb : b = 1 ∨ b = 2
    · rcases ha with rfl | rfl <;> rcases hb with rfl | rfl
      · rfl
      · rw [hone, htwo] at heq
        revert heq
        decide
      · rw [hone, htwo] at heq
        revert heq
        decide
      · rfl
    · rw [not_or] at hb
      exact absurd heq.symm (hlarge b a ha hb.1 hb.2)
  · rw [not_or] at ha
    by_cases hb : b = 1 ∨ b = 2
    · exact absurd heq (hlarge a b hb ha.1 ha.2)
    · rw [not_or] at hb
      rw [exampleKeccak_of_ne ha.1 ha.2, exampleKeccak_of_ne hb.1 hb.2] at heq
      apply BitVec.eq_of_toNat_eq
      rw [← bytesToHash_addressBytes, heq, bytesToHash_addressBytes]

def exampleGenesis : Block := ⟨⟨0, emptyRoot, 0⟩, []⟩

/-- A committee of four that asks for two signatures. The beacon of block 1 is the one that is
signed in the example of `MultiSign`; the root stands for the encoding of a block. -/
def exampleSetting : Setting where
  comID := 0
  node_nums := 4
  getDigest := Pbft.Network.exampleDigest
  crypto := MultiSign.exampleCrypto
  required := 2
  rlp := fun block => block.header.root.bytes
  beacon := fun block => { MultiSign.requestOne.tb with height := block.header.number }

def exampleStart : State :=
  start exampleSetting ((newStorage exampleGenesis 10 [1] 100).getD
    ⟨sampleShard, ⟨.nil, ∅, false, []⟩, false, []⟩)

theorem initial_exampleStart : Initial exampleSetting exampleStart :=
  ⟨exampleGenesis, 10, [1], 100, _, rfl, by decide, rfl, rfl⟩

/-- The data of an account as the shard sends it. -/
def exampleData (a : Address) (nonce : UInt64) (balance : ℤ) : Address × Bytes :=
  (a, (encodeAccount (sampleAccount nonce balance)).getD [])

/-- `StartWorker`, after which the timer runs. -/
def startWorker : List Event := [.work .start, .work .takeStart]

/-- The events of one `commit`, from the transaction and the data it gets, with the order in
which the shard writes new accounts. Two members of the committee reply to the proposal with
its number. -/
def exampleCommit (tx : Transaction) (order : List Address) (data : List (Address × Bytes))
    (number : ℕ) : List Event :=
  [.getBlockHeight, .getStatusFromShard [tx] [1, 2], .handleComGetState 0 order,
    .handleShardSendState 0 data, .work .setSequenceID, .work (.propose 0),
    .work (.handlePbftMsg 0 (.reply ⟨number, ⟨1⟩, true⟩)),
    .work (.handlePbftMsg 1 (.reply ⟨number, ⟨2⟩, true⟩)), .work .consensusDone, .addBlock2Shard]

/-- The receipts and the beacon of block 1, which two members sign. -/
def exampleBeacon : List Event :=
  [.work .sendTXReceipt2Client, .work (.initMultiSign MultiSign.requestOne.seed 5), .work .assign,
    .work .assign, .work .assign, .work (.handleMultiSignReply MultiSign.replyOne),
    .work (.handleMultiSignReply MultiSign.replyTwo), .work .multiSignDone, .work .sendTB]

def exampleFirst : List Event :=
  startWorker ++
  exampleCommit (sampleTx .intraTXType 1 1 2 5) [1, 2] [exampleData 1 0 100, exampleData 2 0 0] 1 ++
  exampleBeacon

/-- After the first block there is a reconfiguration, in which the node stays the leader of the
committee. Its new worker builds the second block while the first one is on its way. -/
def overtaken : List Event :=
  exampleFirst ++
  [.work .prepareReconfig, .work .newBlockGenerated, .work .takeExit, .work (.endReconfig 0)] ++
  startWorker ++
  exampleCommit (sampleTx .intraTXType 2 1 2 3) [] [exampleData 1 0 100, exampleData 2 0 0] 1 ++
  [.handleComSendBlock 1 [1, 2], .handleComSendBlock 0 [1, 2]]

/-- The chain has two blocks with number 1, and the root of the second is not the one that
its header says. -/
theorem block_overtaken : ∃ s, (machine exampleKeccak exampleSetting).Reachable s ∧
    (s.storage.shard.blockchain.blocks.map fun b => b.header.number) = [0, 1, 1] ∧
    (s.storage.handled.map fun x => decide (x.2 = some x.1.header.root)) = [true, false] ∧
    s.storage.running = false :=
  Sys.Machine.exists_reachableBy _ initial_exampleStart overtaken (by decide +kernel)

instance (keccak : Bytes → Hash) (T : Node) : Decidable (Distinct keccak T) :=
  decidable_of_iff ((∀ e ∈ encodings keccak T, ∀ e' ∈ encodings keccak T,
      keccak e = keccak e' → e = e') ∧ (encodings keccak T).Nodup ∧
      ∀ e ∈ encodings keccak T, e.length < 2 ^ 64)
    ⟨fun h => ⟨h.1, h.2.1, h.2.2⟩, fun h => ⟨h.inj, h.nodup, h.size⟩⟩

instance (keccak : Bytes → Hash) (s : State) (e : Event) : Decidable (orderly keccak s e) := by
  unfold orderly
  split <;> infer_instance

/-- Each block has arrived before the next one is begun. -/
def inTurn : List Event :=
  exampleFirst ++ [.work .newBlockGenerated, .handleComSendBlock 0 [1, 2], .addTBs 11] ++
  exampleCommit (sampleTx .intraTXType 2 1 2 3) [] [exampleData 2 0 5, exampleData 1 1 95] 2 ++
  [.handleComSendBlock 0 [2, 1]]

theorem chain_in_order_inTurn : ∃ s : State,
    (s.storage.shard.blockchain.blocks.map fun b => b.header.root) = [emptyRoot,
      0x2092fddec7e30ed49044d47f88e74b171bddb8dcec1e926fad19f3478c58416b,
      0x23cf458860c2fa529bef6046beff8c49f9bdc8579b7234f8a8bcdb2d703e0c80] ∧
    s.storage.handled.length = 2 ∧
    (∀ (i : ℕ) (b : Block), s.storage.shard.blockchain.blocks[i]? = some b → b.header.number = i) ∧
    ∀ x ∈ s.storage.handled, x.2 = some x.1.header.root := by
  have hrun : ∃ s, (machine exampleKeccak exampleSetting).ReachableBy (orderly exampleKeccak) s ∧
      (s.storage.shard.blockchain.blocks.map fun b => b.header.root) = [emptyRoot,
        0x2092fddec7e30ed49044d47f88e74b171bddb8dcec1e926fad19f3478c58416b,
        0x23cf458860c2fa529bef6046beff8c49f9bdc8579b7234f8a8bcdb2d703e0c80] ∧
      s.storage.handled.length = 2 :=
    Sys.Machine.exists_reachableBy _ initial_exampleStart inTurn (by decide +kernel)
  rcases hrun with ⟨s, hreach, hroots, hlen⟩
  exact ⟨s, hroots, hlen, chain_in_order addrKey_exampleKeccak_injective hreach⟩

end StorageChain

end LessChain
