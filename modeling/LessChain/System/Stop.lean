import LessChain.System.CrossShard
import LessChain.System.Handover

/-!
# When to stop

In exit mode 0 a client stops when everything is injected and its queues are empty, and a
committee when all clients have reported that they have injected everything and its pool is
empty. Both tests look at their own process only. A transaction can also be in a message, in
the pool of a committee, in a block that is being agreed upon, or in a receipt under way; the
transactions of clients go to the leader of a committee only, and the other nodes have no more
than what `SetPoolTx` gave them at the last reconfiguration; and a node takes a report that is
repeated for that of another client.

`faults` is a monitor that the program does not have. It writes down what is wrong at the moment
one of the tests answers that the process can stop: a transaction of the client without a final
status, a transaction of the committee that is not in a delivered block, a client that has not
reported; and any second half or rollback that a committee is sent after its answer. `settled`
runs have no faults; `unsettled_runs` shows runs with each kind.
-/

namespace LessChain

namespace Stop

open CrossShard (Config)

inductive Fault where
  /-- the client could stop, and this transaction had no final status -/
  | unfinished (cid : ℕ) (tx : Transaction)
  /-- the committee could stop, and had this transaction in its pool or in a block under way -/
  | undelivered (comID : ℕ) (tx : Transaction)
  /-- the committee could stop, and this client had not reported -/
  | unreported (comID cid : ℕ)
  /-- the committee could stop, and was sent this cross2 or rollback transaction later -/
  | sentLater (comID : ℕ) (tx : Transaction)
deriving DecidableEq

structure State where
  shardNum : ℕ
  clientCnt : ℕ
  clients : ℕ → Client
  injectDoneMsgSent : ℕ → Bool
  /-- what each client has recorded, for each transaction ID -/
  allTXStatus : ℕ → ℕ → List TxStatus
  /-- the pool of the leader of each committee -/
  pools : ℕ → TxPool
  /-- the pools of the other nodes, by committee and number -/
  copies : ℕ × ℕ → TxPool
  /-- the block each committee is working on -/
  building : ℕ → Option (List Transaction)
  chains : ℕ → BlockChain
  /-- the counter of each node, by its committee and number -/
  injectNotDone : ℕ × ℕ → BitVec 32
  txMsgs : List (ℕ × List Transaction)
  receiptMsgs : List (ℕ × List TXReceipt)
  submitted : List (ℕ × ℕ)
  /-- history: the clients whose reports each node has received -/
  reports : ℕ × ℕ → List ℕ
  /-- history: the committees whose test has succeeded -/
  stopped : ℕ → Bool
  faults : List Fault

/-- What can happen. `k` is the position of the delivered message. -/
inductive Event where
  | addTXReceipts (k : ℕ)
  | addTBs (cid : ℕ) (tbblock : TBBlock) (order : List ℕ)
  | sendRollbackTxs (cid maxTxNum2Pack : ℕ)
  | sendCross2Txs (cid maxTxNum2Pack : ℕ)
  | sendPendingTxs (cid maxTxNum2Pack now : ℕ)
  | setInjectDone2Nodes (cid : ℕ)
  | setInjectTXDone (comID nodeID cid : ℕ)
  | clientSendTx (k : ℕ)
  | pending (comID : ℕ)
  | deliver (comID : ℕ) (states : ExecState) (root : Hash)
  | start (comID : ℕ)
  | setPoolTx (comID nodeID : ℕ) (poolTx : TxPool)
  | clientCanStop (cid : ℕ)
  | committeeCanStop (comID nodeID : ℕ)

/-! ## Clients -/

/-- `result.SetTXReceiptV2`, as far as it keeps statuses. A receipt without one ends the
process. -/
def setTXReceiptV2 (allTXStatus : ℕ → List TxStatus) (table : Finmap fun _ : ℕ => TXReceipt) :
    Option (ℕ → List TxStatus) :=
  if ∃ k ∈ table.keys, (table.lookup k).map (·.txStatus) = some .defaultStatus then none
  else some fun k => allTXStatus k ++ ((table.lookup k).map (·.txStatus)).toList

/-- The statuses with which a transaction is done. -/
def final (status : TxStatus) : Bool :=
  status = .intraSuccess ∨ status = .crossTXType2Success ∨ status = .rollbackSuccess

/-- The client has recorded a final status. -/
def State.Done (s : State) (cid txid : ℕ) : Prop := ∃ status ∈ s.allTXStatus cid txid, final status

instance (s : State) (cid txid : ℕ) : Decidable (s.Done cid txid) :=
  inferInstanceAs (Decidable (∃ _ ∈ _, _))

/-- Deliver receipts to the client they are addressed to. -/
def addTXReceipts (s : State) (k : ℕ) : Option State := do
  let (cid, receipts) ← s.receiptMsgs[k]?
  some { s with
    clients := Function.update s.clients cid ((s.clients cid).addTXReceipts receipts)
    receiptMsgs := s.receiptMsgs.eraseIdx k }

/-- Push a block of the beacon chain to a client. -/
def addTBs (s : State) (cid : ℕ) (tbblock : TBBlock) (order : List ℕ) : Option State :=
  if cid < s.clientCnt ∧ ∀ p ∈ tbblock.beacons, ∃ q ∈ s.submitted, q = (p.1, p.2.height) then do
    let (c, toRecord) ← (s.clients cid).addTBs tbblock order
    let statuses ← setTXReceiptV2 (s.allTXStatus cid) toRecord
    some { s with
      clients := Function.update s.clients cid c
      allTXStatus := Function.update s.allTXStatus cid statuses }
  else none

/-- The transactions a client sends after the first halves. -/
def isSecond (tx : Transaction) : Bool :=
  tx.txType = .crossTXType2 ∨ tx.txType = .rollbackTXType

/-- What messages bring to committees that could stop. -/
def State.sentLater (s : State) (msgs : List (ℕ × List Transaction)) : List Fault :=
  msgs.flatMap fun m =>
    if s.stopped m.1 then (m.2.filter isSecond).map (.sentLater m.1) else []

/-- One of the senders of a client. A client that has left the loop of `InjectTXs` is one that
takes no further step of this kind. -/
def send (s : State) (cid : ℕ)
    (sender : Client → Option (Client × List (ℕ × List Transaction))) : Option State :=
  if cid < s.clientCnt then do
    let (c, msgs) ← sender (s.clients cid)
    some { s with
      clients := Function.update s.clients cid c
      txMsgs := s.txMsgs ++ msgs
      faults := s.faults ++ s.sentLater msgs }
  else none

/-- The client tells all nodes that it has injected everything. -/
def setInjectDone2Nodes (s : State) (cid : ℕ) : Option State :=
  if cid < s.clientCnt ∧ (s.clients cid).canStopV2 = true ∧ s.injectDoneMsgSent cid = false then
    some { s with injectDoneMsgSent := Function.update s.injectDoneMsgSent cid true }
  else none

/-- The transactions of a client that are not done. -/
def State.unfinished (s : State) (cid : ℕ) : List Transaction :=
  (s.clients cid).txs.filter fun tx => ¬ s.Done cid tx.id

/-- `toStopClient` asks `CanStopV1`. -/
def clientCanStop (s : State) (cid : ℕ) : Option State :=
  if cid < s.clientCnt then
    if (s.clients cid).canStopV1 then
      some { s with faults := s.faults ++ (s.unfinished cid).map (.unfinished cid) }
    else some s
  else none

/-! ## Committees -/

section Committees

variable (cfg : Config)

/-- `SetInjectTXDone`. A message that was sent may arrive again, because the sender retries. -/
def setInjectTXDone (s : State) (comID nodeID cid : ℕ) : Option State :=
  if comID < s.shardNum ∧ cid < s.clientCnt ∧ s.injectDoneMsgSent cid = true then
    some { s with
      injectNotDone := Function.update s.injectNotDone (comID, nodeID)
        (s.injectNotDone (comID, nodeID) - 1)
      reports := Function.update s.reports (comID, nodeID) (s.reports (comID, nodeID) ++ [cid]) }
  else none

/-- `HandleClientSendtx` at the committee a message is addressed to. -/
def clientSendTx (s : State) (k : ℕ) : Option State := do
  let (comID, txs) ← s.txMsgs[k]?
  some { s with
    pools := Function.update s.pools comID ((s.pools comID).addTxs txs)
    txMsgs := s.txMsgs.eraseIdx k }

/-- The worker cuts a block out of the pool. -/
def pending (s : State) (comID : ℕ) : Option State :=
  if comID < s.shardNum ∧ s.building comID = none then do
    let (txs, _, pool) ← (s.pools comID).Pending cfg.maxBlockSize (s.chains comID).height
    some { s with
      pools := Function.update s.pools comID pool
      building := Function.update s.building comID (some txs) }
  else none

/-- The worker executes its block on the account data of the shard, sends it to the shard and
the receipts to the clients, and submits its beacon. -/
def deliver (s : State) (comID : ℕ) (states : ExecState) (root : Hash) : Option State :=
  if comID < s.shardNum then do
    let txs ← s.building comID
    let (txs', _) ← Worker.executeTransactions cfg.hash txs states
    let curHeight := (s.chains comID).height + 1
    let msgs ← Worker.sendTXReceipt2Client comID curHeight txs'
    some { s with
      building := Function.update s.building comID none
      chains := Function.update s.chains comID
        ((s.chains comID).writeBlock ⟨⟨curHeight, root, comID⟩, txs'⟩)
      receiptMsgs := s.receiptMsgs ++ msgs
      submitted := s.submitted ++ [(comID, u64 curHeight)] }
  else none

/-- `Committee.Start` at a leader, after a reconfiguration: the pool is a new one. -/
def start (s : State) (comID : ℕ) : Option State :=
  if comID < s.shardNum then
    some { s with pools := Function.update s.pools comID newTxPool }
  else none

/-- `EndReconfig` at a node that is not the leader: `Start` makes a new pool, and `SetPoolTx`
puts the transactions of the old leader into it, whatever these are. -/
def setPoolTx (s : State) (comID nodeID : ℕ) (poolTx : TxPool) : Option State :=
  if comID < s.shardNum ∧ nodeID ≠ 0 then
    some { s with
      copies := Function.update s.copies (comID, nodeID) (Handover.setPoolTx newTxPool poolTx) }
  else none

/-- The pool of a node. Clients send transactions to the leader, which is node 0. -/
def State.txPool (s : State) (comID nodeID : ℕ) : TxPool :=
  if nodeID = 0 then s.pools comID else s.copies (comID, nodeID)

/-- `Committee.CanStopV1` at a node. -/
def State.canStopV1 (s : State) (comID nodeID : ℕ) : Bool :=
  s.injectNotDone (comID, nodeID) = 0 ∧ (s.txPool comID nodeID).empty = true

/-- The transactions of a committee that are not in a delivered block. -/
def State.undelivered (s : State) (comID : ℕ) : List Transaction :=
  (s.pools comID).txs ++ (s.building comID).getD []

/-- The clients a node has no report of. -/
def State.unreported (s : State) (comID nodeID : ℕ) : List ℕ :=
  (List.range s.clientCnt).filter fun cid => cid ∉ s.reports (comID, nodeID)

/-- `toStopCommittee` asks `CanStopV1` at a node. -/
def committeeCanStop (s : State) (comID nodeID : ℕ) : Option State :=
  if comID < s.shardNum then
    if s.canStopV1 comID nodeID then
      some { s with
        stopped := Function.update s.stopped comID true
        faults := s.faults ++ (s.undelivered comID).map (.undelivered comID) ++
          (s.unreported comID nodeID).map (.unreported comID) }
    else some s
  else none

def step (s : State) : Event → Option State
  | .addTXReceipts k => addTXReceipts s k
  | .addTBs cid tbblock order => addTBs s cid tbblock order
  | .sendRollbackTxs cid n => send s cid (·.sendRollbackTxs n)
  | .sendCross2Txs cid n => send s cid (·.sendCross2Txs n)
  | .sendPendingTxs cid n now => send s cid (·.sendPendingTxs n now)
  | .setInjectDone2Nodes cid => setInjectDone2Nodes s cid
  | .setInjectTXDone comID nodeID cid => setInjectTXDone s comID nodeID cid
  | .clientSendTx k => clientSendTx s k
  | .pending comID => pending cfg s comID
  | .deliver comID states root => deliver cfg s comID states root
  | .start comID => start s comID
  | .setPoolTx comID nodeID poolTx => setPoolTx s comID nodeID poolTx
  | .clientCanStop cid => clientCanStop s cid
  | .committeeCanStop comID nodeID => committeeCanStop s comID nodeID

/-- The system after start-up. `InjectTX2Client` gives the client `id % clientCnt` the transaction
`id`. -/
def initial (rollbackHeight : ℤ) (shardNum clientCnt : ℕ) (genesisRoot : Hash)
    (txs : List Transaction) : State where
  shardNum := shardNum
  clientCnt := clientCnt
  clients := fun cid =>
    (newClient cid rollbackHeight shardNum).addtxs (txs.filter fun tx => tx.id % clientCnt = cid)
  injectDoneMsgSent := fun _ => false
  allTXStatus := fun _ _ => []
  pools := fun _ => newTxPool
  copies := fun _ => newTxPool
  building := fun _ => none
  chains := fun sid => newBlockChain ⟨⟨0, genesisRoot, sid⟩, []⟩
  injectNotDone := fun _ => BitVec.ofNat 32 clientCnt
  txMsgs := []
  receiptMsgs := []
  submitted := (List.range shardNum).map fun sid => (sid, 0)
  reports := fun _ => []
  stopped := fun _ => false
  faults := []

/-- The transactions are numbered apart, as `LoadETHData` numbers them, and the number of
clients is an `int32`. -/
def Init (s : State) : Prop :=
  ∃ rollbackHeight shardNum clientCnt genesisRoot txs, (txs.map Transaction.id).Nodup ∧
    clientCnt < 2 ^ 31 ∧ s = initial rollbackHeight shardNum clientCnt genesisRoot txs

def machine : Sys.Machine State Event := ⟨Init, step cfg⟩

end Committees

/-! ## The assumption -/

/-- No transaction with the property `p` is in a message to a committee, in a pool or in a block
under way. -/
def State.NoneSent (s : State) (p : Transaction → Prop) : Prop :=
  (∀ m ∈ s.txMsgs, ∀ tx ∈ m.2, ¬ p tx) ∧
    ∀ sid < s.shardNum, (∀ tx ∈ (s.pools sid).txs, ¬ p tx) ∧
      ∀ tx ∈ (s.building sid).getD [], ¬ p tx

instance (s : State) (p : Transaction → Prop) [DecidablePred p] : Decidable (s.NoneSent p) := by
  unfold State.NoneSent
  infer_instance

/-- Nothing of the client is at a committee, and no receipt is on its way to it. -/
def State.NothingOut (s : State) (cid : ℕ) : Prop :=
  s.NoneSent (·.cid = cid) ∧ ∀ m ∈ s.receiptMsgs, m.1 = cid → m.2 = []

instance (s : State) (cid : ℕ) : Decidable (s.NothingOut cid) := by
  unfold State.NothingOut
  infer_instance

/-- The client has no second half or rollback to send, and will not make one out of what it
holds. -/
def Idle (c : Client) : Prop :=
  c.cross2Txs = [] ∧ c.crossTxExpired = [] ∧ c.cross1ConfirmHeightMap.keys = ∅ ∧
    ∀ r ∈ c.txReply, r.txStatus ≠ .crossTXType1Success

instance (c : Client) : Decidable (Idle c) := by
  unfold Idle
  infer_instance

/-- No cross-shard transaction has been begun that is not done: no first half is at a committee,
no receipt of one is under way, and the clients are idle. -/
def State.NoCross (s : State) : Prop :=
  s.NoneSent (·.txType = .crossTXType1) ∧
  (∀ m ∈ s.receiptMsgs, ∀ r ∈ m.2, r.txStatus ≠ .crossTXType1Success) ∧
  ∀ cid < s.clientCnt, Idle (s.clients cid)

instance (s : State) : Decidable s.NoCross := by
  unfold State.NoCross
  infer_instance

/-- A client is asked only when nothing of it is out. Of a committee only the leader is asked,
and only when it has no block under way and no cross-shard transaction is. A node gets each report
once, and a committee is restarted only with an empty pool. -/
def settled (s : State) : Event → Prop
  | .clientCanStop cid => s.NothingOut cid
  | .committeeCanStop comID nodeID => nodeID = 0 ∧ s.building comID = none ∧ s.NoCross
  | .setInjectTXDone comID nodeID cid => cid ∉ s.reports (comID, nodeID)
  | .start comID => (s.pools comID).empty = true
  | _ => True

instance (s : State) (e : Event) : Decidable (settled s e) := by
  unfold settled
  split <;> infer_instance

/-! ## Runs that are not settled -/

open CrossShard (exampleConfig exampleStates exampleTx exampleTB)

/-- Two shards. -/
def exampleStart (clientCnt : ℕ) (txs : List Transaction) : State := initial 10 2 clientCnt 0 txs

theorem init_exampleStart (clientCnt : ℕ) (txs : List Transaction) (hlt : clientCnt < 2 ^ 31)
    (hnodup : (txs.map Transaction.id).Nodup) :
    (machine exampleConfig).Init (exampleStart clientCnt txs) :=
  ⟨10, 2, clientCnt, 0, txs, hnodup, hlt, rfl⟩

/-- A transfer from shard 0 to shard 1, as it is injected. -/
def injectedTx : Transaction := { exampleTx with txType := .crossTXType1, rollbackHeight := 10 }

/-- The first of two transfers is finished, except that its receipt is on its way; then the
second one is injected, and the committee of shard 1 is asked before the second half of that one
is sent. -/
def askedTooEarly : List Event :=
  [.sendPendingTxs 0 1 0, .clientSendTx 0, .pending 0, .deliver 0 exampleStates 0,
    .addTXReceipts 0, .addTBs 0 ⟨0, 1, [[exampleTB 0 1]]⟩ [0], .sendCross2Txs 0 1,
    .clientSendTx 2, .pending 1, .deliver 1 exampleStates 0,
    .sendPendingTxs 0 1 0, .setInjectDone2Nodes 0, .setInjectTXDone 1 0 0,
    .committeeCanStop 1 0,
    .clientSendTx 2, .pending 0, .deliver 0 exampleStates 0, .addTXReceipts 1,
    .addTBs 0 ⟨0, 2, [[exampleTB 0 2]]⟩ [0, 1], .sendCross2Txs 0 1]

/-- The client is asked while its transaction is in a message. The leader of a committee is asked
while it is working on a block, another node while the leader has a transaction in its pool. They
are asked after the first of two clients has reported twice, and while a first half is under
way. -/
theorem unsettled_runs :
    (∃ s, (machine exampleConfig).Reachable s ∧ s.faults = [.unfinished 0 injectedTx]) ∧
    (∃ s, (machine exampleConfig).Reachable s ∧ s.pools 0 = newTxPool ∧
      s.faults = [.undelivered 0 injectedTx]) ∧
    (∃ s, (machine exampleConfig).Reachable s ∧ s.building 0 = none ∧
      s.faults = [.undelivered 0 injectedTx]) ∧
    (∃ s, (machine exampleConfig).Reachable s ∧ s.faults = [.unreported 1 1]) ∧
    ∃ s, (machine exampleConfig).Reachable s ∧
      s.faults = [.sentLater 1 { injectedTx with
        txType := .crossTXType2, id := 1, confirmHeight := 2 }] := by
  have hone := init_exampleStart 1 [exampleTx] (by decide) (by decide)
  have htwo := init_exampleStart 2 [exampleTx] (by decide) (by decide)
  have hboth := init_exampleStart 1 [exampleTx, { exampleTx with id := 1 }] (by decide) (by decide)
  refine ⟨?_, ?_, ?_, ?_, ?_⟩
  · exact Sys.Machine.exists_reachableBy _ hone [.sendPendingTxs 0 10 0, .clientCanStop 0]
      (by decide +kernel)
  · exact Sys.Machine.exists_reachableBy _ hone
      [.sendPendingTxs 0 10 0, .clientSendTx 0, .setInjectDone2Nodes 0, .setInjectTXDone 0 0 0,
        .pending 0, .committeeCanStop 0 0] (by decide +kernel)
  · exact Sys.Machine.exists_reachableBy _ hone
      [.sendPendingTxs 0 10 0, .clientSendTx 0, .setInjectDone2Nodes 0, .setInjectTXDone 0 1 0,
        .committeeCanStop 0 1] (by decide +kernel)
  · exact Sys.Machine.exists_reachableBy _ htwo
      [.sendPendingTxs 0 10 0, .setInjectDone2Nodes 0, .setInjectTXDone 1 0 0,
        .setInjectTXDone 1 0 0, .committeeCanStop 1 0] (by decide +kernel)
  · exact Sys.Machine.exists_reachableBy _ hboth askedTooEarly (by decide +kernel)

end Stop

end LessChain
