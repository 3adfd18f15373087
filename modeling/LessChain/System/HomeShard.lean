import LessChain.Client.Client
import LessChain.Committee.Commit
import LessChain.System.PoolIntegrity

/-!
# Where transactions are executed

A client groups its transactions by their home shard and sends each group to the node that
leads the committee of that shard according to the client's `ComNodeTable`. The message does
not say which committee it is meant for: `HandleClientSendtx` puts the transactions into the
pool the node has when the message arrives, and its worker sends the blocks to the shard of
the committee the node is in by then.

The nodes and their pools are those of `Handover`. Added to them are the clients with their
tables, the messages, the workers, and the accounts of the storage shards. A worker is named by
its node and the epoch in which it was started. It packs a block, asks a shard for the accounts,
executes the transactions on the answer and sends the block, each in its own time; it ends its
process if a balance becomes negative. After `InitReconfig` a worker finds a token in its
`exitCh`; if its timer has run out as well, the `select` may still choose the timer.

Heights are not kept: `Pending` gets any height. `RunPbft`, which stands between the execution
and `AddBlock2Shard`, may take any time and always returns here; in the runs below no leader
proposes a height twice.

`foreign_block` is a run with a message that arrives after the node has changed its
committee. `settled` is what has to be avoided.
-/

namespace LessChain

namespace HomeShard

open Handover (Plan exchangePlan node0 node4 PoolRef IsLeaderPool Protocol)

/-- The shard a transaction belongs to. -/
def home (tx : Transaction) : ℕ :=
  match tx.txType with
  | .crossTXType2 => tx.recipientSid
  | _ => tx.senderSid

/-- Transactions meant for a committee, or a block for a shard. -/
structure Batch where
  comID : ℕ
  txs : List Transaction

/-- All transactions are where they belong. -/
def Batch.Homed (b : Batch) : Prop := ∀ tx ∈ b.txs, home tx = b.comID

instance (b : Batch) : Decidable b.Homed := inferInstanceAs (Decidable (∀ _ ∈ _, _))

/-- How far a worker has come in `commit`. -/
inductive Work where
  /-- with the transactions and their addresses from `Pending` -/
  | packed (txs : List Transaction) (addrs : Finset Address)
  /-- waiting for the state of the accounts -/
  | waiting (txs : List Transaction)
  /-- with a block, before `AddBlock2Shard` -/
  | built (txs : List Transaction)

def Work.txs : Work → List Transaction
  | .packed txs _ => txs
  | .waiting txs => txs
  | .built txs => txs

/-- `tables` is the epoch of the `ComNodeTable` of each client. What is in `outbox` has not
been resolved to a node yet. The committee of a message in `txMsgs` is history: the message
does not tell it to the node. A `ComGetState` names a shard and addresses, a `ShardSendState`
the node it goes to and accounts. -/
structure State (NodeId : Type) where
  base : Handover.State NodeId
  clients : ℕ → Client
  tables : ℕ → ℕ
  outbox : List (ℕ × Batch)
  txMsgs : List (NodeId × Batch)
  building : PoolRef NodeId → Option Work
  closed : PoolRef NodeId → Bool
  shards : ℕ → StateDB
  comGetState : List (ℕ × Finset Address)
  shardSendState : List (NodeId × (Address → Option StateAccount))
  blockMsgs : List Batch
  executed : List Batch

/-- What can happen; `c` is a client, and `k` the position of a message or a handler. -/
inductive Event (NodeId : Type) where
  | addTXReceipts (c : ℕ) (receipts : List TXReceipt)
  | addTBs (c : ℕ) (tbblock : TBBlock) (order : List ℕ)
  | sendRollbackTxs (c maxTxNum2Pack : ℕ)
  | sendCross2Txs (c maxTxNum2Pack : ℕ)
  | sendPendingTxs (c maxTxNum2Pack now : ℕ)
  | newNodeTable (c : ℕ) (n : NodeId) (e : ℕ)
  | clientInjectTx2Com (k : ℕ)
  | clientSendTx (k : ℕ)
  | addTxs (k : ℕ)
  | pending (n : NodeId) (e maxBlockSize parentHeight : ℕ)
  | getStatusFromShard (n : NodeId) (e : ℕ)
  | handleComGetState (k : ℕ)
  | handleShardSendState (n : NodeId) (e k : ℕ)
  | addBlock2Shard (n : NodeId) (e : ℕ)
  | takeExit (n : NodeId) (e : ℕ)
  | handleComSendBlock (k : ℕ)
  | initReconfig (n : NodeId)
  | endReconfig (n : NodeId)
  | start (n : NodeId) (e : ℕ)
  | handleGetPoolTx (n : NodeId) (e : ℕ)
  | setPoolTx (n : NodeId) (e : ℕ)

section Model

variable {NodeId : Type} {shardNum : ℕ} [DecidableEq NodeId] [Fintype NodeId]
  (hash : Address → Bytes) (plan : Plan NodeId (Fin shardNum))

/-! ## Clients -/

/-- A client takes in receipts or beacons, whatever they are. -/
def receive (s : State NodeId) (c : ℕ) (handler : Client → Option Client) :
    Option (State NodeId) := do
  let client ← handler (s.clients c)
  some { s with clients := Function.update s.clients c client }

/-- One of the senders of a client. -/
def send (s : State NodeId) (c : ℕ)
    (sender : Client → Option (Client × List (ℕ × List Transaction))) :
    Option (State NodeId) := do
  let (client, msgs) ← sender (s.clients c)
  some { s with
    clients := Function.update s.clients c client
    outbox := s.outbox ++ msgs.map fun m => (c, ⟨m.1, m.2⟩) }

/-- `handleSendNewNodeTable2Client`: the table of an epoch, which each new leader sends when it
has restarted its committee. It may come late, after a newer one. -/
def newNodeTable (s : State NodeId) (c : ℕ) (n : NodeId) (e : ℕ) : Option (State NodeId) :=
  if IsLeaderPool plan (n, e) ∧ 0 < e ∧ s.base.stage (n, e) ≠ .idle ∧
      s.base.stage (n, e) ≠ .restarting then
    some { s with tables := Function.update s.tables c e }
  else none

/-- `clientInjectTx2Com`: the address is `ComNodeTable[comID][0]`. -/
def clientInjectTx2Com (s : State NodeId) (k : ℕ) : Option (State NodeId) := do
  let (c, b) ← s.outbox[k]?
  if h : b.comID < shardNum then
    some { s with
      outbox := s.outbox.eraseIdx k
      txMsgs := s.txMsgs ++ [(plan.leader (s.tables c) ⟨b.comID, h⟩, b)] }
  else none

/-! ## Nodes -/

/-- `HandleClientSendtx` looks up the pool. -/
def clientSendTx (s : State NodeId) (k : ℕ) : Option (State NodeId) := do
  let (n, b) ← s.txMsgs[k]?
  some { s with
    base := { s.base with
      adding := s.base.adding ++ [((n, (s.base.coms n).txPool), b.txs)] }
    txMsgs := s.txMsgs.eraseIdx k }

/-- The worker of epoch `e` packs a block, from the pool its node has now. -/
def pending (s : State NodeId) (n : NodeId) (e maxBlockSize parentHeight : ℕ) :
    Option (State NodeId) :=
  if IsLeaderPool plan (n, e) ∧ s.base.stage (n, e) = .done ∧ s.closed (n, e) = false ∧
      s.building (n, e) = none then do
    let p := (n, (s.base.coms n).txPool)
    let (txs, addrs, pool) ← (s.base.pools p).Pending maxBlockSize parentHeight
    some { s with
      base := { s.base with pools := Function.update s.base.pools p pool }
      building := Function.update s.building (n, e) (some (.packed txs addrs)) }
  else none

/-- The request of `getStatusFromShard`, to the shard of the committee the node is in now. -/
def getStatusFromShard (s : State NodeId) (n : NodeId) (e : ℕ) : Option (State NodeId) :=
  match s.building (n, e) with
  | some (.packed txs addrs) =>
      some { s with
        building := Function.update s.building (n, e) (some (.waiting txs))
        comGetState := s.comGetState ++ [((plan.comID (s.base.epoch n) n : ℕ), addrs)] }
  | _ => none

/-- `HandleComGetState` creates the accounts that do not exist. `NodeTable` stays as it was at
the start, so the storage leader is the first leader of the committee; it sends the answer to
the leader of the committee in its own `ComNodeTable`. -/
def handleComGetState (s : State NodeId) (k : ℕ) : Option (State NodeId) := do
  let (sid, addrs) ← s.comGetState[k]?
  if h : sid < shardNum then
    let storageLeader := plan.leader 0 ⟨sid, h⟩
    let db := s.shards sid
    some { s with
      shards := Function.update s.shards sid fun a =>
        if a ∈ addrs then some (db.account a) else db a
      comGetState := s.comGetState.eraseIdx k
      shardSendState := s.shardSendState ++ [(plan.leader (s.base.epoch storageLeader) ⟨sid, h⟩,
        fun a => if a ∈ addrs then some (db.account a) else none)] }
  else none

/-- The worker takes an answer that has come to its node and executes its transactions. An
account that is not in the answer is a nil pointer. `rebuildTrie` encodes every account that
has changed, and a negative balance has no encoding: both end the process. -/
def handleShardSendState (s : State NodeId) (n : NodeId) (e k : ℕ) : Option (State NodeId) :=
  match s.building (n, e) with
  | some (.waiting txs) => do
      let (m, states) ← s.shardSendState[k]?
      let (txs', st) ← Worker.executeTransactions hash txs (ExecState.ofStates states)
      if m = n ∧ ∀ key ∈ st.updatedStates.keys, ((st.updated key).bind encodeAccount).isSome then
        some { s with
          building := Function.update s.building (n, e) (some (.built txs'))
          shardSendState := s.shardSendState.eraseIdx k }
      else none
  | _ => none

/-- `AddBlock2Shard`: the shard is that of the committee the node is in now. -/
def addBlock2Shard (s : State NodeId) (n : NodeId) (e : ℕ) : Option (State NodeId) :=
  match s.building (n, e) with
  | some (.built txs) =>
      some { s with
        building := Function.update s.building (n, e) none
        blockMsgs := s.blockMsgs ++ [⟨plan.comID (s.base.epoch n) n, txs⟩] }
  | _ => none

/-- The worker takes the token that `NewBlockGenerated` has put into `exitCh`. -/
def takeExit (s : State NodeId) (n : NodeId) (e : ℕ) : Option (State NodeId) :=
  if s.base.initiated (n, e) = true ∧ s.building (n, e) = none then
    some { s with closed := Function.update s.closed (n, e) true }
  else none

/-- The leader of a storage shard executes a block. -/
def handleComSendBlock (s : State NodeId) (k : ℕ) : Option (State NodeId) := do
  let b ← s.blockMsgs[k]?
  let db ← b.txs.foldlM (fun db tx => Shard.executeTransaction tx db) (s.shards b.comID)
  some { s with
    shards := Function.update s.shards b.comID db
    blockMsgs := s.blockMsgs.eraseIdx k
    executed := s.executed ++ [b] }

/-- A step of the handover. -/
def handover (s : State NodeId) (ev : Handover.Event NodeId) : Option (State NodeId) := do
  let base ← Handover.step plan s.base ev
  some { s with base := base }

/-- `InitReconfig` is called by the worker, after its block. -/
def initReconfig (s : State NodeId) (n : NodeId) : Option (State NodeId) :=
  if s.building (n, s.base.epoch n) = none ∧ s.closed (n, s.base.epoch n) = false then
    handover plan s (.initReconfig n)
  else none

def step (s : State NodeId) : Event NodeId → Option (State NodeId)
  | .addTXReceipts c receipts => receive s c fun client => some (client.addTXReceipts receipts)
  | .addTBs c tbblock order => receive s c fun client => (client.addTBs tbblock order).map Prod.fst
  | .sendRollbackTxs c n => send s c (·.sendRollbackTxs n)
  | .sendCross2Txs c n => send s c (·.sendCross2Txs n)
  | .sendPendingTxs c n now => send s c (·.sendPendingTxs n now)
  | .newNodeTable c n e => newNodeTable plan s c n e
  | .clientInjectTx2Com k => clientInjectTx2Com plan s k
  | .clientSendTx k => clientSendTx s k
  | .addTxs k => handover plan s (.addTxs k)
  | .pending n e maxBlockSize parentHeight => pending plan s n e maxBlockSize parentHeight
  | .getStatusFromShard n e => getStatusFromShard plan s n e
  | .handleComGetState k => handleComGetState plan s k
  | .handleShardSendState n e k => handleShardSendState hash s n e k
  | .addBlock2Shard n e => addBlock2Shard plan s n e
  | .takeExit n e => takeExit s n e
  | .handleComSendBlock k => handleComSendBlock s k
  | .initReconfig n => initReconfig plan s n
  | .endReconfig n => handover plan s (.endReconfig n)
  | .start n e => handover plan s (.start n e)
  | .handleGetPoolTx n e => handover plan s (.handleGetPoolTx n e)
  | .setPoolTx n e => handover plan s (.setPoolTx n e)

/-- The system after start-up, with any number of clients and any accounts. -/
def initial (clients : ℕ → Client) (shards : ℕ → StateDB) : State NodeId where
  base := Handover.initial
  clients := clients
  tables := fun _ => 0
  outbox := []
  txMsgs := []
  building := fun _ => none
  closed := fun _ => false
  shards := shards
  comGetState := []
  shardSendState := []
  blockMsgs := []
  executed := []

/-- Every client has its transactions. -/
def Init (shardNum : ℕ) (s : State NodeId) : Prop :=
  ∃ (clients : ℕ → Client) (shards : ℕ → StateDB),
    (∀ c, ∃ rollbackHeight txs, clients c = (newClient c rollbackHeight shardNum).addtxs txs) ∧
    s = initial clients shards

def machine : Sys.Machine (State NodeId) (Event NodeId) := ⟨Init shardNum, step hash plan⟩

/-! ## The property and the assumption -/

/-- Every block was executed by the home shard of its transactions. -/
def State.Homed (s : State NodeId) : Prop := ∀ b ∈ s.executed, b.Homed

instance (s : State NodeId) : Decidable s.Homed := inferInstanceAs (Decidable (∀ _ ∈ _, _))

/-- A message from a client reaches a node whose pool, if it is that of a leader, belongs to
the committee the message is meant for; a worker that has begun a reconfiguration packs no
further block; reconfigurations do not overlap, as in `Handover.orderly`. -/
def settled (s : State NodeId) : Event NodeId → Prop
  | .clientSendTx k => ∀ x ∈ s.txMsgs[k]?, IsLeaderPool plan (x.1, (s.base.coms x.1).txPool) →
      (plan.comID (s.base.coms x.1).txPool x.1 : ℕ) = x.2.comID
  | .pending n e _ _ => s.base.initiated (n, e) = false
  | .initReconfig n => Handover.orderly plan s.base (.initReconfig n)
  | .endReconfig n => Handover.orderly plan s.base (.endReconfig n)
  | _ => True

instance (s : State NodeId) (ev : Event NodeId) : Decidable (settled plan s ev) := by
  unfold settled
  split <;> infer_instance

end Model

/-! ## A run that executes a transaction in the wrong shard -/

/-- A transfer from account 1 in shard 1 to account 2 in shard 0. -/
def exampleTx : Transaction := { Handover.exampleTx 7 with senderSid := 1, recipientSid := 0 }

/-- Client 0 has the transfer, the others have none. -/
def exampleClients (c : ℕ) : Client :=
  (newClient c 10 2).addtxs (if c = 0 then [exampleTx] else [])

/-- Account 1 has 100 in shard 1; nothing else exists. -/
def exampleShards (sid : ℕ) : StateDB := fun a =>
  if sid = 1 ∧ a = 1 then some { newAccount with balance := 100 } else none

/-- The receipt of the first half from the worker of node 4. -/
def exampleReceipt : TXReceipt where
  txID := 7
  confirmTimeStamp := 0
  txStatus := .crossTXType1Success
  shardID := 1
  blockHeight := 1

/-- The beacon of block 1 of shard 1. -/
def exampleTB : ConfirmedTB where
  shardID := 1
  height := 1
  blockHash := ""
  txHash := ""
  statusHash := ""
  confirmTime := 0
  confirmHeight := 1

/-- One `commit` of a worker, whose messages are the only ones of their kind in flight. -/
def commit (n : Fin 8) (e parentHeight : ℕ) : List (Event (Fin 8)) :=
  [.pending n e 10 parentHeight, .getStatusFromShard n e, .handleComGetState 0,
    .handleShardSendState n e 0, .addBlock2Shard n e, .handleComSendBlock 0]

/-- Both leaders have made a block, the first half is in that of shard 1, and the client has its
receipt and its beacon. -/
def firstHalf : List (Event (Fin 8)) :=
  [.sendPendingTxs 0 10 0, .clientInjectTx2Com 1, .clientSendTx 0, .addTxs 0] ++ commit node4 0 0 ++
  commit node0 0 0 ++ [.addTXReceipts 0 [exampleReceipt], .addTBs 0 ⟨0, 1, [[], [exampleTB]]⟩ [7]]

/-- The client sends the second half by its first table, and node 0 leads committee 1 when it
takes the message. Node 4, the storage leader of shard 1, has the new table by then. -/
def lateMessage : List (Event (Fin 8)) :=
  firstHalf ++
  [.sendCross2Txs 0 10, .clientInjectTx2Com 1, .initReconfig node0, .initReconfig node4,
    .endReconfig node0, .endReconfig node4, .start node0 1, .handleGetPoolTx node0 1,
    .setPoolTx node0 1, .clientSendTx 0, .addTxs 0] ++
  commit node0 1 1

theorem foreign_block : ∃ s, (machine sampleHash exchangePlan).Reachable s ∧ ¬ s.Homed := by
  have hinit : (machine sampleHash exchangePlan).Init (initial exampleClients exampleShards) :=
    ⟨exampleClients, exampleShards, fun c => ⟨10, _, rfl⟩, rfl⟩
  exact Sys.Machine.exists_reachableBy _ hinit lateMessage (by decide +kernel)

/-! ## What clients send -/

section Clients

variable {c c' : Client} {maxTxNum2Pack now : ℕ} {msgs : List (ℕ × List Transaction)}

/-- The cross2 queue of a client holds what its name says. -/
def Cross2Only (c : Client) : Prop := ∀ tx ∈ c.cross2Txs, tx.txType = .crossTXType2

/-- All messages of a sender go where their transactions belong. -/
def Addressed (msgs : List (ℕ × List Transaction)) : Prop := ∀ m ∈ msgs, ∀ tx ∈ m.2, home tx = m.1

theorem home_of_ne {tx : Transaction} (h : tx.txType ≠ .crossTXType2) : home tx = tx.senderSid := by
  unfold home
  split
  · rename_i hcross
    exact absurd hcross h
  · rfl

@[simp] theorem home_executed (tx : Transaction) : home tx.executed = home tx := rfl

theorem addressed_sendRollbackTxs (h : c.sendRollbackTxs maxTxNum2Pack = some (c', msgs)) :
    Addressed msgs := by
  dsimp only [Client.sendRollbackTxs] at h
  split at h
  · cases h
    exact fun m hm => nomatch hm
  · simp only [Option.bind_eq_bind, Option.bind_eq_some_iff, Option.some.injEq,
      Prod.mk.injEq] at h
    rcases h with ⟨txs, -, ms, hms, -, rfl⟩
    intro m hm tx htx
    rcases ((Client.shardtxs_spec hms).1 m hm).2 tx htx with ⟨hmem, hsid⟩
    rcases List.mem_map.mp hmem with ⟨tx₀, -, rfl⟩
    rw [← hsid]
    exact home_of_ne (fun htype => nomatch htype)

theorem addressed_sendCross2Txs (hc : Cross2Only c)
    (h : c.sendCross2Txs maxTxNum2Pack = some (c', msgs)) : Addressed msgs := by
  rcases Client.sendCross2Txs_spec h with ⟨-, -, hmsgs⟩
  intro m hm tx htx
  rcases (hmsgs m hm).2 tx htx with ⟨hmem, hsid⟩
  rw [← hsid, home, hc tx hmem]

theorem addressed_sendPendingTxs (h : c.sendPendingTxs maxTxNum2Pack now = some (c', msgs)) :
    Addressed msgs := by
  dsimp only [Client.sendPendingTxs] at h
  split at h
  · cases h
    exact fun m hm => nomatch hm
  · simp only [Option.bind_eq_bind, Option.bind_eq_some_iff, Option.some.injEq,
      Prod.mk.injEq] at h
    rcases h with ⟨ms, hms, -, rfl⟩
    intro m hm tx htx
    rcases ((Client.shardtxs_spec hms).1 m hm).2 tx htx with ⟨hmem, hsid⟩
    rcases List.mem_map.mp hmem with ⟨tx₀, -, rfl⟩
    rw [← hsid]
    apply home_of_ne
    -- a stamped transaction is an intra or a cross1 transaction
    show (if _ then _ else _) ≠ _
    split
    · exact fun htype => nomatch htype
    · exact fun htype => nomatch htype

theorem Cross2Only.sendPendingTxs (hc : Cross2Only c)
    (h : c.sendPendingTxs maxTxNum2Pack now = some (c', msgs)) : Cross2Only c' := by
  dsimp only [Client.sendPendingTxs] at h
  split at h
  · cases h
    exact hc
  · simp only [Option.bind_eq_bind, Option.bind_eq_some_iff, Option.some.injEq,
      Prod.mk.injEq] at h
    rcases h with ⟨ms, -, rfl, -⟩
    exact hc

theorem Cross2Only.sendRollbackTxs (hc : Cross2Only c)
    (h : c.sendRollbackTxs maxTxNum2Pack = some (c', msgs)) : Cross2Only c' := by
  rw [(Client.sendRollbackTxs_spec h).1]
  exact hc

theorem Cross2Only.sendCross2Txs (hc : Cross2Only c)
    (h : c.sendCross2Txs maxTxNum2Pack = some (c', msgs)) : Cross2Only c' :=
  fun tx htx => hc tx ((Client.sendCross2Txs_spec h).2.1 tx htx)

theorem Cross2Only.addTBs {b : TBBlock} {order : List ℕ}
    {toRecord : Finmap fun _ : ℕ => TXReceipt} (hc : Cross2Only c)
    (h : c.addTBs b order = some (c', toRecord)) : Cross2Only c' := by
  rcases Client.addTBs_spec h with ⟨new, expired, hframe, -, -, hnew, -, -⟩
  intro tx htx
  rw [hframe] at htx
  rcases List.mem_append.mp htx with htx | htx
  · exact hc tx htx
  · exact (hnew tx htx).1

end Clients

/-! ## What the pools hold -/

section Pools

variable {NodeId : Type} {shardNum : ℕ} {plan : Plan NodeId (Fin shardNum)}
  {b b' : Handover.State NodeId}

variable (plan) in
/-- The pools of the leaders hold transactions of their committees, and so do the handlers
about to add to them and the answers that new leaders have got. The other pools do not
matter: nothing is packed from them and nobody asks for them. -/
structure Housed (b : Handover.State NodeId) : Prop where
  adding : ∀ x ∈ b.adding, IsLeaderPool plan x.1 →
    ∀ tx ∈ x.2, home tx = (plan.comID x.1.2 x.1.1 : ℕ)
  pools : ∀ p, IsLeaderPool plan p → ∀ tx ∈ (b.pools p).txs, home tx = (plan.comID p.2 p.1 : ℕ)
  answered : ∀ n e poolTx, IsLeaderPool plan (n, e) → b.stage (n, e) = .answered poolTx →
    ∀ tx ∈ poolTx.txs, home tx = (plan.comID e n : ℕ)

theorem isLeaderPool_leader (e : ℕ) (c : Fin shardNum) : IsLeaderPool plan (plan.leader e c, e) := by
  rw [IsLeaderPool, plan.comID_leader]

theorem mem_txs_setPoolTx {pool poolTx : TxPool} {tx : Transaction}
    (h : tx ∈ (Handover.setPoolTx pool poolTx).txs) : tx ∈ poolTx.txs ∨ tx ∈ pool.txs := by
  simp only [Handover.setPoolTx, TxPool.setPending, TxPool.setPendingRollback, TxPool.txs,
    List.mem_append] at h ⊢
  tauto

/-- The old leader serves the pool of the committee that the new leader has joined. -/
theorem Housed.served (h : Housed plan b) (hp : Protocol plan b) {n : NodeId} {e old : ℕ}
    (hlead : IsLeaderPool plan (n, e)) (hstage : b.stage (n, e) = .syncing)
    (hold : (b.coms (plan.leader (e - 1) (plan.comID e n))).oldTxPool = some old) :
    ∀ tx ∈ (b.pools (plan.leader (e - 1) (plan.comID e n), old)).txs,
      home tx = (plan.comID e n : ℕ) := by
  have hepoch : e = b.epoch n := hp.epoch_eq (by simp [hstage]) (by simp [hstage])
  have hpos : e ≠ 0 := by
    rintro rfl
    rw [hp.zero n] at hstage
    cases hstage
  have hsucc : e - 1 + 1 = e := by omega
  have hinit := hp.begun n (e - 1) (by omega) (plan.comID e n)
  have hserved := hp.old (e - 1) (plan.comID e n) hinit (by
    -- the new leader is the node that asks, and it has no answer yet
    rw [hsucc, ← show n = plan.leader e (plan.comID e n) from hlead, hstage]
    rfl)
  rw [hold, Option.some.injEq] at hserved
  subst hserved
  intro tx htx
  rw [h.pools _ (isLeaderPool_leader _ _) tx htx, plan.comID_leader]

/-- The worker of a leader that has not begun a reconfiguration belongs to the epoch its node
is in, and so does the pool of the node. -/
theorem current (hp : Protocol plan b) {n : NodeId} {e : ℕ} (hlead : IsLeaderPool plan (n, e))
    (hdone : b.stage (n, e) = .done) (hinit : b.initiated (n, e) = false) :
    b.epoch n = e ∧ (b.coms n).txPool = e := by
  have hepoch : b.epoch n = e := by
    rcases lt_trichotomy (b.epoch n) e with hlt | heq | hgt
    · rw [hp.above n e hlt] at hdone
      cases hdone
    · exact heq
    · -- no node leaves an epoch before all its leaders have begun the reconfiguration
      have hbegun := hp.begun n e hgt (plan.comID e n)
      rw [← show n = plan.leader e (plan.comID e n) from hlead, hinit] at hbegun
      cases hbegun
  refine ⟨hepoch, ?_⟩
  rw [hp.txPool n, hepoch, hdone]
  simp

variable [DecidableEq NodeId]

/-- A pool gets new content. -/
theorem Housed.update (h : Housed plan b) (p : PoolRef NodeId) (pool : TxPool)
    (hpool : IsLeaderPool plan p → ∀ tx ∈ pool.txs, home tx = (plan.comID p.2 p.1 : ℕ)) :
    ∀ q, IsLeaderPool plan q → ∀ tx ∈ (Function.update b.pools p pool q).txs,
      home tx = (plan.comID q.2 q.1 : ℕ) := by
  intro q hq tx htx
  by_cases hqp : q = p
  · subst hqp
    rw [Function.update_self] at htx
    exact hpool hq tx htx
  · rw [Function.update_of_ne hqp] at htx
    exact h.pools q hq tx htx

/-- A node goes on in `EndReconfig`. -/
theorem Housed.stage (h : Housed plan b) (p : PoolRef NodeId) (st : Handover.Stage)
    (hst : ∀ poolTx, st = .answered poolTx → IsLeaderPool plan p →
      ∀ tx ∈ poolTx.txs, home tx = (plan.comID p.2 p.1 : ℕ)) :
    ∀ n e poolTx, IsLeaderPool plan (n, e) →
      Function.update b.stage p st (n, e) = .answered poolTx →
      ∀ tx ∈ poolTx.txs, home tx = (plan.comID e n : ℕ) := by
  intro n e poolTx hlead hstage
  by_cases hp : (n, e) = p
  · subst hp
    rw [Function.update_self] at hstage
    exact hst poolTx hstage hlead
  · rw [Function.update_of_ne hp] at hstage
    exact h.answered n e poolTx hlead hstage

/-- The steps of the handover keep the transactions where they belong. -/
theorem Housed.taken (h : Housed plan b) (hp : Protocol plan b) {ev : Handover.Event NodeId}
    (hev : ∀ n txs, ev ≠ .clientSendTx n txs) (htaken : Handover.Taken plan b ev b') :
    Housed plan b' := by
  cases htaken with
  | clientSendTx hnodup => exact absurd rfl (hev _ _)
  | @addTxs k p txs hk =>
      -- the answers are copies, so what is added later is not in them
      refine ⟨fun x hx => h.adding x (List.mem_of_mem_eraseIdx hx), h.update p _ ?_, h.answered⟩
      intro hlead tx htx
      rcases TxPool.mem_addTxs.mp htx with htx | htx
      · exact h.pools p hlead tx htx
      · exact h.adding _ (List.mem_of_getElem? hk) hlead tx htx
  | pending hpending =>
      refine ⟨h.adding, h.update _ _ ?_, h.answered⟩
      exact fun hlead tx htx => h.pools _ hlead tx ((TxPool.mem_of_mem_Pending hpending).2 htx)
  | initReconfig hlead hdone => exact ⟨h.adding, h.pools, h.answered⟩
  | endReconfig hall =>
      exact ⟨h.adding, h.pools, h.stage _ _ fun _ hst => nomatch hst⟩
  | start hstage =>
      exact ⟨h.adding, h.update _ _ fun _ tx htx => (nomatch htx),
        h.stage _ _ fun _ hst => nomatch hst⟩
  | handleGetPoolTx hstage hold =>
      refine ⟨h.adding, h.pools, h.stage _ _ ?_⟩
      rintro poolTx ⟨⟩ hlead
      exact h.served hp hlead hstage hold
  | @setPoolTx n e poolTx hstage =>
      have hpool : (b.coms n).txPool = e :=
        hp.txPool_eq (by simp [hstage]) (by simp [hstage]) (by simp [hstage])
      refine ⟨h.adding, h.update _ _ ?_, h.stage _ _ fun _ hst => nomatch hst⟩
      intro hlead tx htx
      rw [hpool] at hlead htx ⊢
      rcases mem_txs_setPoolTx htx with htx | htx
      · exact h.answered n e poolTx hlead hstage tx htx
      · exact h.pools _ hlead tx htx

/-- A worker that has its pool keeps it, and no step but `InitReconfig` of its node tells it
to exit. -/
theorem done_of_taken (hp : Protocol plan b) {ev : Handover.Event NodeId}
    (htaken : Handover.Taken plan b ev b') {p : PoolRef NodeId} (hdone : b.stage p = .done)
    (hinit : b.initiated p = false) :
    b'.stage p = .done ∧ (b'.initiated p = false ∨ ∃ n, ev = .initReconfig n ∧ p = (n, b.epoch n)) := by
  have hkeep : ∀ q st, b.stage q ≠ .done → Function.update b.stage q st p = .done := by
    intro q st hq
    rw [Function.update_of_ne]
    · exact hdone
    · rintro rfl
      exact hq hdone
  cases htaken with
  | clientSendTx hnodup => exact ⟨hdone, .inl hinit⟩
  | addTxs hk => exact ⟨hdone, .inl hinit⟩
  | pending hpending => exact ⟨hdone, .inl hinit⟩
  | @initReconfig n hlead hst =>
      refine ⟨hdone, ?_⟩
      by_cases hpn : p = (n, b.epoch n)
      · exact .inr ⟨n, rfl, hpn⟩
      · left
        show Function.update b.initiated _ _ p = false
        rw [Function.update_of_ne hpn, hinit]
  | @endReconfig n hall =>
      refine ⟨hkeep _ _ ?_, .inl hinit⟩
      rw [hp.above n (b.epoch n + 1) (Nat.lt_succ_self _)]
      exact fun hst => nomatch hst
  | start hstage => exact ⟨hkeep _ _ (by simp [hstage]), .inl hinit⟩
  | handleGetPoolTx hstage hold => exact ⟨hkeep _ _ (by simp [hstage]), .inl hinit⟩
  | @setPoolTx n e poolTx hstage => exact ⟨hkeep _ _ (by simp [hstage]), .inl hinit⟩

end Pools

/-! ## The invariant -/

section Inv

variable {NodeId : Type} {shardNum : ℕ} {plan : Plan NodeId (Fin shardNum)} {s s' : State NodeId}

variable (plan) in
/-- A worker with a block: its node is still in the committee the block is for. -/
structure Packed (b : Handover.State NodeId) (p : PoolRef NodeId) (txs : List Transaction) :
    Prop where
  leader : IsLeaderPool plan p
  done : b.stage p = .done
  running : b.initiated p = false
  homed : ∀ tx ∈ txs, home tx = (plan.comID p.2 p.1 : ℕ)

variable (plan) in
structure Inv (s : State NodeId) : Prop where
  protocol : Protocol plan s.base
  housed : Housed plan s.base
  cross2 : ∀ c, Cross2Only (s.clients c)
  outbox : ∀ x ∈ s.outbox, x.2.Homed
  txMsgs : ∀ x ∈ s.txMsgs, x.2.Homed
  building : ∀ p w, s.building p = some w → Packed plan s.base p w.txs
  blockMsgs : ∀ b ∈ s.blockMsgs, b.Homed
  executed : s.Homed

theorem inv_initial {clients : ℕ → Client} {shards : ℕ → StateDB}
    (h : ∀ c, (clients c).cross2Txs = []) : Inv plan (initial clients shards) where
  protocol := Handover.protocol_initial
  housed := by
    refine ⟨fun _ hx => (nomatch hx), fun _ _ _ htx => (nomatch htx), ?_⟩
    intro n e poolTx _ hstage
    dsimp only [initial, Handover.initial] at hstage
    split at hstage
    · cases hstage
    · cases hstage
  cross2 := fun c tx htx => by
    rw [show (initial clients shards : State NodeId).clients c = clients c from rfl, h c] at htx
    cases htx
  outbox := fun _ hx => nomatch hx
  txMsgs := fun _ hx => nomatch hx
  building := fun _ _ hp => nomatch hp
  blockMsgs := fun _ hb => nomatch hb
  executed := fun _ hb => nomatch hb

theorem cross2_update (h : Inv plan s) {c : ℕ} {client : Client} (hc : Cross2Only client) :
    ∀ c', Cross2Only (Function.update s.clients c client c') := by
  intro c'
  by_cases hcc : c' = c
  · rw [hcc, Function.update_self]
    exact hc
  · rw [Function.update_of_ne hcc]
    exact h.cross2 c'

theorem inv_receive {c : ℕ} {handler : Client → Option Client} (h : Inv plan s)
    (hstep : receive s c handler = some s')
    (hhandler : ∀ client, handler (s.clients c) = some client → Cross2Only client) :
    Inv plan s' := by
  rcases Option.bind_eq_some_iff.mp hstep with ⟨client, hclient, hs'⟩
  cases hs'
  exact { h with cross2 := cross2_update h (hhandler client hclient) }

theorem inv_send {c : ℕ} {sender : Client → Option (Client × List (ℕ × List Transaction))}
    (h : Inv plan s) (hstep : send s c sender = some s')
    (hsender : ∀ client msgs, sender (s.clients c) = some (client, msgs) →
      Cross2Only client ∧ Addressed msgs) : Inv plan s' := by
  rcases Option.bind_eq_some_iff.mp hstep with ⟨⟨client, msgs⟩, hclient, hs'⟩
  cases hs'
  rcases hsender client msgs hclient with ⟨hcross2, haddressed⟩
  refine { h with
    cross2 := cross2_update h hcross2
    outbox := fun x hx => ?_ }
  rcases List.mem_append.mp hx with hx | hx
  · exact h.outbox x hx
  · rcases List.mem_map.mp hx with ⟨m, hm, rfl⟩
    exact haddressed m hm

variable {n : NodeId} {e k : ℕ}

theorem inv_clientInjectTx2Com (h : Inv plan s)
    (hstep : clientInjectTx2Com plan s k = some s') : Inv plan s' := by
  rcases Option.bind_eq_some_iff.mp hstep with ⟨⟨c, b⟩, hk, hrest⟩
  dsimp only at hrest
  split at hrest
  · cases hrest
    refine { h with
      outbox := fun x hx => h.outbox x (List.mem_of_mem_eraseIdx hx)
      txMsgs := fun x hx => ?_ }
    rcases List.mem_append.mp hx with hx | hx
    · exact h.txMsgs x hx
    · rw [List.mem_singleton.mp hx]
      exact h.outbox _ (List.mem_of_getElem? hk)
  · cases hrest

theorem inv_clientSendTx (h : Inv plan s) (hok : settled plan s (.clientSendTx k))
    (hstep : clientSendTx s k = some s') : Inv plan s' := by
  rcases Option.bind_eq_some_iff.mp hstep with ⟨⟨n, b⟩, hk, hs'⟩
  cases hs'
  refine { h with
    protocol := h.protocol.congr rfl rfl rfl rfl
    housed := ⟨fun x hx => ?_, h.housed.pools, h.housed.answered⟩
    txMsgs := fun x hx => h.txMsgs x (List.mem_of_mem_eraseIdx hx)
    building := fun p txs hp => { h.building p txs hp with } }
  rcases List.mem_append.mp hx with hx | hx
  · exact h.housed.adding x hx
  · rw [List.mem_singleton.mp hx]
    intro hlead tx htx
    rw [h.txMsgs _ (List.mem_of_getElem? hk) tx htx]
    exact (hok _ hk hlead).symm

theorem inv_handleComSendBlock (h : Inv plan s)
    (hstep : handleComSendBlock s k = some s') : Inv plan s' := by
  rcases Option.bind_eq_some_iff.mp hstep with ⟨b, hk, hrest⟩
  rcases Option.bind_eq_some_iff.mp hrest with ⟨db, -, hs'⟩
  cases hs'
  refine { h with
    blockMsgs := fun x hx => h.blockMsgs x (List.mem_of_mem_eraseIdx hx)
    executed := fun x hx => ?_ }
  rcases List.mem_append.mp hx with hx | hx
  · exact h.executed x hx
  · rw [List.mem_singleton.mp hx]
    exact h.blockMsgs b (List.mem_of_getElem? hk)

theorem inv_handleComGetState (h : Inv plan s)
    (hstep : handleComGetState plan s k = some s') : Inv plan s' := by
  rcases Option.bind_eq_some_iff.mp hstep with ⟨⟨sid, addrs⟩, -, hrest⟩
  dsimp only at hrest
  split at hrest
  · cases hrest
    exact { h with }
  · cases hrest

variable [DecidableEq NodeId]

theorem inv_newNodeTable {c : ℕ} (h : Inv plan s)
    (hstep : newNodeTable plan s c n e = some s') : Inv plan s' := by
  unfold newNodeTable at hstep
  split at hstep
  · cases hstep
    exact { h with }
  · cases hstep

theorem inv_takeExit (h : Inv plan s) (hstep : takeExit s n e = some s') :
    Inv plan s' := by
  unfold takeExit at hstep
  split at hstep
  · cases hstep
    exact { h with }
  · cases hstep

/-- A worker goes on with a block, or is done with it. -/
theorem building_update (h : Inv plan s) {p : PoolRef NodeId} {w : Option Work}
    (hw : ∀ w', w = some w' → Packed plan s.base p w'.txs) :
    ∀ q w', Function.update s.building p w q = some w' → Packed plan s.base q w'.txs := by
  intro q w' hq
  by_cases hqp : q = p
  · subst hqp
    rw [Function.update_self] at hq
    exact hw w' hq
  · rw [Function.update_of_ne hqp] at hq
    exact h.building q w' hq

/-- Packing: the worker is told its pool by the node, and both belong to its epoch. -/
theorem inv_pending {maxBlockSize parentHeight : ℕ} (h : Inv plan s)
    (hok : s.base.initiated (n, e) = false)
    (hstep : pending plan s n e maxBlockSize parentHeight = some s') : Inv plan s' := by
  unfold pending at hstep
  split at hstep
  · rename_i hguard
    rcases hguard with ⟨hlead, hdone, -, -⟩
    rcases Option.bind_eq_some_iff.mp hstep with ⟨⟨txs, addrs, pool⟩, hpending, hs'⟩
    cases hs'
    have hpool := (current h.protocol hlead hdone hok).2
    have hpacked : ∀ w', some (Work.packed txs addrs) = some w' →
        Packed plan s.base (n, e) w'.txs := by
      rintro w' ⟨⟩
      refine ⟨hlead, hdone, hok, fun tx htx => ?_⟩
      have hmem := (TxPool.mem_of_mem_Pending hpending).1 htx
      rw [hpool] at hmem
      exact h.housed.pools (n, e) hlead tx hmem
    refine { h with
      protocol := h.protocol.congr rfl rfl rfl rfl
      housed := ⟨h.housed.adding, h.housed.update _ _ ?_, h.housed.answered⟩
      building := fun p w hp => { building_update h hpacked p w hp with } }
    exact fun hl tx htx => h.housed.pools _ hl tx ((TxPool.mem_of_mem_Pending hpending).2 htx)
  · cases hstep

theorem inv_getStatusFromShard (h : Inv plan s)
    (hstep : getStatusFromShard plan s n e = some s') : Inv plan s' := by
  unfold getStatusFromShard at hstep
  split at hstep
  · rename_i txs addrs hwork
    cases hstep
    have hpacked := h.building (n, e) _ hwork
    refine { h with building := building_update h ?_ }
    rintro w' ⟨⟩
    exact hpacked
  · cases hstep

/-- Whatever answer the worker takes, execution changes only the status of a transaction. -/
theorem inv_handleShardSendState {hash : Address → Bytes} (h : Inv plan s)
    (hstep : handleShardSendState hash s n e k = some s') : Inv plan s' := by
  unfold handleShardSendState at hstep
  split at hstep
  · rename_i txs hwork
    rcases Option.bind_eq_some_iff.mp hstep with ⟨⟨m, states⟩, -, hrest⟩
    rcases Option.bind_eq_some_iff.mp hrest with ⟨⟨txs', st⟩, hexec, hrest⟩
    dsimp only at hrest
    split at hrest
    · cases hrest
      have hpacked := h.building (n, e) _ hwork
      refine { h with building := building_update h ?_ }
      rintro w' ⟨⟩
      refine { hpacked with homed := fun tx htx => ?_ }
      rw [show (Work.built txs').txs = txs.map Transaction.executed from
        (Worker.executeTransactions_txs hexec).1] at htx
      rcases List.mem_map.mp htx with ⟨tx₀, htx₀, rfl⟩
      rw [home_executed]
      exact hpacked.homed tx₀ htx₀
    · cases hrest
  · cases hstep

/-- The node is still in the committee for which the block was packed. -/
theorem inv_addBlock2Shard (h : Inv plan s)
    (hstep : addBlock2Shard plan s n e = some s') : Inv plan s' := by
  unfold addBlock2Shard at hstep
  split at hstep
  · rename_i txs hwork
    cases hstep
    have hpacked := h.building (n, e) _ hwork
    have hepoch := (current h.protocol hpacked.leader hpacked.done hpacked.running).1
    refine { h with
      building := building_update h fun w' hw => (nomatch hw)
      blockMsgs := fun b hb => ?_ }
    rcases List.mem_append.mp hb with hb | hb
    · exact h.blockMsgs b hb
    · rw [List.mem_singleton.mp hb, hepoch]
      exact hpacked.homed
  · cases hstep

variable [Fintype NodeId]

/-- A step of the handover, which must not tell a worker with a block to exit. -/
theorem inv_handover {ev : Handover.Event NodeId} (h : Inv plan s)
    (hstep : handover plan s ev = some s') (hev : ∀ n txs, ev ≠ .clientSendTx n txs)
    (hok : (∃ k, ev = .addTxs k) ∨ Handover.orderly plan s.base ev)
    (hidle : ∀ n, ev = .initReconfig n → s.building (n, s.base.epoch n) = none) :
    Inv plan s' := by
  rcases Option.bind_eq_some_iff.mp hstep with ⟨b', hb', hs'⟩
  cases hs'
  have htaken := Handover.step_taken hb'
  have hprotocol : Protocol plan b' := by
    rcases hok with ⟨k, rfl⟩ | hok
    · -- adding to a pool leaves the nodes alone, orderly or not
      rcases Option.bind_eq_some_iff.mp hb' with ⟨x, -, hx⟩
      cases hx
      exact h.protocol.congr rfl rfl rfl rfl
    · exact Handover.protocol_step h.protocol hok hb'
  refine { h with
    protocol := hprotocol
    housed := h.housed.taken h.protocol hev htaken
    building := fun p txs hp => ?_ }
  have hpacked := h.building p txs hp
  rcases done_of_taken h.protocol htaken hpacked.done hpacked.running with
    ⟨hdone, hrunning | ⟨n, hinit, rfl⟩⟩
  · exact ⟨hpacked.leader, hdone, hrunning, hpacked.homed⟩
  · rw [hidle n hinit] at hp
    cases hp

theorem inv_step {hash : Address → Bytes} {ev : Event NodeId} (h : Inv plan s)
    (hok : settled plan s ev) (hstep : step hash plan s ev = some s') : Inv plan s' := by
  cases ev
  all_goals rw [step] at hstep
  case addTXReceipts c receipts =>
    refine inv_receive h hstep ?_
    rintro client ⟨⟩
    exact h.cross2 c
  case addTBs c tbblock order =>
    refine inv_receive h hstep fun client hclient => ?_
    rcases Option.map_eq_some_iff.mp hclient with ⟨⟨_, toRecord⟩, hadd, rfl⟩
    exact (h.cross2 c).addTBs hadd
  case sendRollbackTxs c n =>
    exact inv_send h hstep fun client msgs hsend =>
      ⟨(h.cross2 c).sendRollbackTxs hsend, addressed_sendRollbackTxs hsend⟩
  case sendCross2Txs c n =>
    exact inv_send h hstep fun client msgs hsend =>
      ⟨(h.cross2 c).sendCross2Txs hsend, addressed_sendCross2Txs (h.cross2 c) hsend⟩
  case sendPendingTxs c n now =>
    exact inv_send h hstep fun client msgs hsend =>
      ⟨(h.cross2 c).sendPendingTxs hsend, addressed_sendPendingTxs hsend⟩
  case newNodeTable => exact inv_newNodeTable h hstep
  case clientInjectTx2Com => exact inv_clientInjectTx2Com h hstep
  case clientSendTx => exact inv_clientSendTx h hok hstep
  case pending => exact inv_pending h hok hstep
  case getStatusFromShard => exact inv_getStatusFromShard h hstep
  case handleComGetState => exact inv_handleComGetState h hstep
  case handleShardSendState => exact inv_handleShardSendState h hstep
  case addBlock2Shard => exact inv_addBlock2Shard h hstep
  case takeExit => exact inv_takeExit h hstep
  case handleComSendBlock => exact inv_handleComSendBlock h hstep
  case addTxs k =>
    exact inv_handover h hstep (fun _ _ hev => nomatch hev) (.inl ⟨k, rfl⟩)
      (fun _ hev => nomatch hev)
  case initReconfig n =>
    unfold initReconfig at hstep
    split at hstep
    · rename_i hguard
      refine inv_handover h hstep (fun _ _ hev => nomatch hev) (.inr hok) ?_
      rintro m ⟨⟩
      exact hguard.1
    · cases hstep
  case endReconfig n =>
    exact inv_handover h hstep (fun _ _ hev => nomatch hev) (.inr hok)
      (fun _ hev => nomatch hev)
  -- the other steps of the handover are always orderly
  all_goals
    exact inv_handover h hstep (fun _ _ hev => nomatch hev) (.inr trivial)
      (fun _ hev => nomatch hev)

end Inv

/-- In settled runs every block is executed by the home shard of its transactions. -/
theorem homed_of_settled {NodeId : Type} {shardNum : ℕ} [DecidableEq NodeId] [Fintype NodeId]
    (hash : Address → Bytes) (plan : Plan NodeId (Fin shardNum)) {s : State NodeId}
    (h : (machine hash plan).ReachableBy (settled plan) s) : s.Homed := by
  have hinv : Inv plan s := by
    refine Sys.Machine.invariant_by (Inv plan) ?_ ?_ h
    · rintro s ⟨clients, shards, hclients, rfl⟩
      apply inv_initial
      intro c
      rcases hclients c with ⟨rollbackHeight, txs, hc⟩
      rw [hc]
      rfl
    · exact fun s ev s' hok hstep hs => inv_step hs hok hstep
  exact hinv.executed

/-- The message with the second half arrives before the committees change places. Node 4 takes
over the pool with the transaction in it, and packs it for shard 0, whose storage leader is
node 0. -/
def timelyMessage : List (Event (Fin 8)) :=
  firstHalf ++
  [.sendCross2Txs 0 10, .clientInjectTx2Com 1, .clientSendTx 0, .addTxs 0, .initReconfig node0,
    .initReconfig node4, .takeExit node0 0, .endReconfig node4, .endReconfig node0, .start node4 1,
    .handleGetPoolTx node4 1, .setPoolTx node4 1, .newNodeTable 0 node4 1] ++
  commit node4 1 1

theorem homed_timelyMessage : ∃ s,
    (machine sampleHash exchangePlan).ReachableBy (settled exchangePlan) s ∧
    s.executed.map (fun b => (b.comID, b.txs.map (·.txType))) =
      [(1, [.crossTXType1]), (0, []), (0, [.crossTXType2])] ∧ s.Homed := by
  have hinit : (machine sampleHash exchangePlan).Init (initial exampleClients exampleShards) :=
    ⟨exampleClients, exampleShards, fun c => ⟨10, _, rfl⟩, rfl⟩
  have hrun : ∃ s, (machine sampleHash exchangePlan).ReachableBy (settled exchangePlan) s ∧
      s.executed.map (fun b => (b.comID, b.txs.map (·.txType))) =
        [(1, [.crossTXType1]), (0, []), (0, [.crossTXType2])] :=
    Sys.Machine.exists_reachableBy _ hinit timelyMessage (by decide +kernel)
  rcases hrun with ⟨s, hs, hexecuted⟩
  exact ⟨s, hs, hexecuted, homed_of_settled sampleHash exchangePlan hs⟩

end HomeShard

end LessChain
