import LessChain.Lib.Machine
import LessChain.Client.Client
import LessChain.Shard.Execute

/-!
# Cross-shard transactions

The client, one committee with its storage shard for each shard ID, and the messages
between them. A transaction message, a receipt message and a beacon may each be delivered
at any later time and in any order. A block is produced in one step: it is cut out of the
pool, executed on account data the shard sent (`ExecState`, here arbitrary), appended to
the chain of the shard, its receipts are put in flight and its beacon is submitted.

A call in which a process ends is not a step: nothing of it is seen by the others, and a
process that is gone is one that takes no further steps.

The client's comment on the timeout test wants no transaction to be both completed and
rolled back. Receipts and beacons travel separately, so this needs an assumption on their
order, `timelyReceipts`; `both_halves_committed` is a run without it.
-/

namespace LessChain

namespace CrossShard

/-- The state of the whole system. `enqueued` is history: every cross2 transaction the
client ever put in `cross2_txs`; no step reads it. -/
structure State where
  client : Client
  pools : ℕ → TxPool
  chains : ℕ → BlockChain
  txMsgs : List (ℕ × List Transaction)
  receiptMsgs : List (ℕ × List TXReceipt)
  submitted : List (ℕ × ℕ)
  enqueued : List Transaction

/-- Parameters of the committees: `MaxBlockSize` and the hash of an address. -/
structure Config where
  maxBlockSize : ℕ
  hash : Address → Bytes

/-- What can happen. `k` is the position of the delivered message. -/
inductive Event where
  | addTXReceipts (k : ℕ)
  | addTBs (tbblock : TBBlock) (order : List ℕ)
  | sendRollbackTxs (maxTxNum2Pack : ℕ)
  | sendCross2Txs (maxTxNum2Pack : ℕ)
  | sendPendingTxs (maxTxNum2Pack now : ℕ)
  | clientSendTx (k : ℕ)
  | commit (comID : ℕ) (states : ExecState) (root : Hash)

/-- `Worker.commit` and `broadcastTbInCommittee` of committee `comID`. -/
def commit (cfg : Config) (s : State) (comID : ℕ) (states : ExecState) (root : Hash) :
    Option State :=
  if comID < s.client.shardNum then do
    let parentHeight := (s.chains comID).height
    let (txs, _, pool) ← (s.pools comID).Pending cfg.maxBlockSize parentHeight
    let (txs', _) ← Worker.executeTransactions cfg.hash txs states
    let curHeight := parentHeight + 1
    let msgs ← Worker.sendTXReceipt2Client comID curHeight txs'
    some { s with
      pools := Function.update s.pools comID pool
      chains := Function.update s.chains comID
        ((s.chains comID).writeBlock ⟨⟨curHeight, root, comID⟩, txs'⟩)
      receiptMsgs := s.receiptMsgs ++ msgs
      submitted := s.submitted ++ [(comID, u64 curHeight)] }
  else none

/-- Deliver receipts to the client they are addressed to. -/
def addTXReceipts (s : State) (k : ℕ) : Option State := do
  let (cid, receipts) ← s.receiptMsgs[k]?
  some { s with
    client := if cid = s.client.cid then s.client.addTXReceipts receipts else s.client
    receiptMsgs := s.receiptMsgs.eraseIdx k }

/-- Push a block of the beacon chain to the client. The beacon chain confirms beacons that
were submitted to it, grouped and ordered in any way. -/
def addTBs (s : State) (tbblock : TBBlock) (order : List ℕ) : Option State :=
  if ∀ p ∈ tbblock.beacons, (p.1, p.2.height) ∈ s.submitted then do
    let (c, _) ← s.client.addTBs tbblock order
    some { s with
      client := c
      enqueued := s.enqueued ++ c.cross2Txs.drop s.client.cross2Txs.length }
  else none

/-- One of the senders of the client. -/
def send (s : State) (sender : Client → Option (Client × List (ℕ × List Transaction))) :
    Option State := do
  let (c, msgs) ← sender s.client
  some { s with client := c, txMsgs := s.txMsgs ++ msgs }

/-- `HandleClientSendtx` at the committee a message is addressed to. -/
def clientSendTx (s : State) (k : ℕ) : Option State := do
  let (comID, txs) ← s.txMsgs[k]?
  some { s with
    pools := Function.update s.pools comID ((s.pools comID).addTxs txs)
    txMsgs := s.txMsgs.eraseIdx k }

def step (cfg : Config) (s : State) : Event → Option State
  | .addTXReceipts k => addTXReceipts s k
  | .addTBs tbblock order => addTBs s tbblock order
  | .sendRollbackTxs n => send s (·.sendRollbackTxs n)
  | .sendCross2Txs n => send s (·.sendCross2Txs n)
  | .sendPendingTxs n now => send s (·.sendPendingTxs n now)
  | .clientSendTx k => clientSendTx s k
  | .commit comID states root => commit cfg s comID states root

/-- The system after start-up: the client holds its transactions, every chain holds the
genesis block, and the genesis beacons are submitted. -/
def start (cid : ℕ) (rollbackHeight : ℤ) (shardNum : ℕ) (genesisRoot : Hash)
    (txs : List Transaction) : State where
  client := (newClient cid rollbackHeight shardNum).addtxs txs
  pools := fun _ => newTxPool
  chains := fun sid => newBlockChain ⟨⟨0, genesisRoot, sid⟩, []⟩
  txMsgs := []
  receiptMsgs := []
  submitted := (List.range shardNum).map fun sid => (sid, 0)
  enqueued := []

/-- Runs start with transactions that are numbered apart, as `LoadETHData` numbers them. -/
def Init (s : State) : Prop :=
  ∃ cid rollbackHeight shardNum genesisRoot txs, (txs.map Transaction.id).Nodup ∧
    s = start cid rollbackHeight shardNum genesisRoot txs

def machine (cfg : Config) : Sys.Machine State Event := ⟨Init, step cfg⟩

/-! ## The property and the assumption -/

/-- A transaction of this kind and ID is in a block of shard `sid`. -/
def State.Committed (s : State) (txType : TXType) (i sid : ℕ) : Prop :=
  ∃ b ∈ (s.chains sid).blocks, ∃ tx ∈ b.transactions, tx.txType = txType ∧ tx.id = i

instance (s : State) (txType : TXType) (i sid : ℕ) : Decidable (s.Committed txType i sid) :=
  inferInstanceAs (Decidable (∃ b ∈ (s.chains sid).blocks, ∃ tx ∈ b.transactions, _))

/-- With the beacons of `tbblock` the client would give up waiting for `tx`. -/
def State.GivesUp (s : State) (tbblock : TBBlock) (tx : Transaction) : Prop :=
  tx.txType = .crossTXType2 ∧ tx.id ∈ s.client.cross1ConfirmHeightMap ∧
    s.client.SeesPast tbblock tx.recipientSid tx.lastHeight

/-- The receipt of the cross2 half has arrived and the beacon of its block is known. -/
def State.HasReceipt (s : State) (tbblock : TBBlock) (tx : Transaction) : Prop :=
  ∃ r ∈ s.client.txReply, r.txStatus = .crossTXType2Success ∧ r.txID = tx.id ∧
    s.client.Sees tbblock r.shardID r.blockHeight

instance (s : State) (tbblock : TBBlock) (tx : Transaction) : Decidable (s.GivesUp tbblock tx) :=
  inferInstanceAs (Decidable (_ ∧ _ ∧ _))

instance (s : State) (tbblock : TBBlock) (tx : Transaction) :
    Decidable (s.HasReceipt tbblock tx) :=
  inferInstanceAs (Decidable (∃ r ∈ s.client.txReply, _))

/-- When the client learns that a recipient shard is past the last height of a committed
cross2 transaction it still waits for, it has the receipt of that transaction. -/
def State.TimelyReceipts (s : State) (tbblock : TBBlock) : Prop :=
  ∀ sid < s.client.shardNum, ∀ b ∈ (s.chains sid).blocks, ∀ tx ∈ b.transactions,
    s.GivesUp tbblock tx → s.HasReceipt tbblock tx

instance (s : State) (tbblock : TBBlock) : Decidable (s.TimelyReceipts tbblock) :=
  inferInstanceAs (Decidable (∀ sid < _, ∀ b ∈ (s.chains sid).blocks, ∀ tx ∈ b.transactions,
    s.GivesUp tbblock tx → s.HasReceipt tbblock tx))

/-- Receipts are timely, and block numbers fit in a `uint64`. -/
def timelyReceipts (s : State) : Event → Prop
  | .addTBs tbblock _ => s.TimelyReceipts tbblock
  | .commit comID _ _ => (s.chains comID).height + 1 < 2 ^ 64
  | _ => True

instance (s : State) (e : Event) : Decidable (timelyReceipts s e) := by
  unfold timelyReceipts
  split <;> infer_instance

/-! ## A run that commits both -/

/-- Accounts for every address. -/
def exampleStates : ExecState where
  memory := fun _ => ⟨0, 100, 0, []⟩
  addr2State := fun a => some a.toNat
  updatedStates := ∅
  ptr_inj := by
    intro a b p ha hb
    rw [← hb, Option.some.injEq] at ha
    exact BitVec.eq_of_toNat_eq ha

/-- A transfer from account 1 in shard 0 to account 2 in shard 1. -/
def exampleTx : Transaction := exampleTransfer 0 5 1

def exampleTB (shardID height : ℕ) : ConfirmedTB where
  shardID := shardID
  height := height
  blockHash := ""
  txHash := ""
  statusHash := ""
  confirmTime := 0
  confirmHeight := 0

def exampleStart : State := start 0 1 2 0 [exampleTx]

def exampleConfig : Config := ⟨10, sampleHash⟩

/-- Both halves reach their shards in time, then the beacons of blocks 1 and 2 of shard 1
overtake the receipt of the cross2 half in block 1. -/
def lateReceipt : List Event :=
  [.sendPendingTxs 10 0, .clientSendTx 0, .commit 0 exampleStates 0, .addTXReceipts 0,
    .addTBs ⟨0, 1, [[exampleTB 0 1]]⟩ [0], .sendCross2Txs 10, .clientSendTx 2,
    .commit 1 exampleStates 0, .commit 1 exampleStates 0,
    .addTBs ⟨0, 2, [[], [exampleTB 1 1, exampleTB 1 2]]⟩ [0], .sendRollbackTxs 10, .clientSendTx 2,
    .commit 0 exampleStates 0]

theorem both_halves_committed :
    ∃ s, (machine exampleConfig).Reachable s ∧ s.Committed .crossTXType1 0 0 ∧
      s.Committed .crossTXType2 0 1 ∧ s.Committed .rollbackTXType 0 0 := by
  have hinit : (machine exampleConfig).Init exampleStart :=
    ⟨0, 1, 2, 0, [exampleTx], by decide, rfl⟩
  exact Sys.Machine.exists_reachableBy _ hinit lateReceipt (by decide +kernel)

end CrossShard

end LessChain
