import LessChain.Committee.MultiSign
import LessChain.Pbft.Network

/-!
# The work loop of a committee leader

`newWorkLoop` of one node, with the calls it makes on the way of a block: `RunPbft`, the
block and its receipts, `initMultiSign`, the beacon. Around it are the goroutines that
handle PBFT messages and multi-sign replies, whoever calls `close`, and the reconfigurations
after which the node may get a new worker.

How a block is built does not matter here: it comes with the tick of the timer. The ghost
fields keep which replies the leader has counted, in which round `OneConsensusDone` was
signalled and because of which of them, and what was published.
-/

namespace LessChain

namespace WorkLoop

open MultiSign (SignedTB MultiSignReply)

/-- A block as `commit` has built it: its number, its encoding and its beacon. -/
structure Block where
  number : ℕ
  rlp : Bytes
  tb : TimeBeacon
deriving DecidableEq

/-- A token in `OneConsensusDone`: the round in which it was sent, and the `MessageID`s of
the replies that were counted for it. -/
structure Signal where
  round : ℕ
  messageIDs : List ℕ
deriving DecidableEq

/-- Where the worker is. -/
inductive Pc where
  /-- in the `select` of `newWorkLoop` -/
  | select
  /-- at the calls of `SetSequenceID` and of `Propose`, and in the `select` of `RunPbft` -/
  | setSequenceID (block : Block)
  | propose (block : Block)
  | consensus (block : Block) (seqID : ℕ)
  /-- `RunPbft` has returned, and the block is sent, then the receipts -/
  | addBlock2Shard (block : Block) (seqID : ℕ) (signal : Option Signal)
  | sendTXReceipt2Client (block : Block) (seqID : ℕ) (signal : Option Signal)
  /-- before and in `initMultiSign`, and with its result -/
  | broadcastTb (block : Block)
  | multiSign
  | sendTB (tb : SignedTB)
  | newBlockGenerated
  | closed
deriving DecidableEq

/-- Something sent out for a block, with the round it was proposed in and the token with
which `RunPbft` returned. -/
structure Published where
  block : Block
  seqID : ℕ
  round : ℕ
  signal : Option Signal
deriving DecidableEq

structure State where
  pc : Pc
  running : Bool
  /-- whether the channels, which have room for one token, hold it -/
  startCh : Bool
  exitCh : Bool
  /-- whether the timer is running -/
  timer : Bool
  to_reconfig : Bool
  pbft : Pbft.Node
  sign : MultiSign.State
  round : ℕ
  counted : List ℕ
  signal : Option Signal
  blocks : List Published
  receipts : List Published
  tbs : List SignedTB

inductive Event where
  /-- `StartWorker`, `Close` -/
  | start
  | close
  /-- the alternatives of `newWorkLoop`; the block is what `commit` builds -/
  | takeStart
  | takeExit
  | tick (block : Block)
  | setSequenceID
  | propose (now : ℤ)
  /-- the alternatives of `RunPbft` -/
  | consensusDone
  | consensusExit
  | addBlock2Shard
  | sendTXReceipt2Client
  /-- `initMultiSign`, with the answer of `GetEthChainBlockHash` -/
  | initMultiSign (seed : Hash) (height : ℕ)
  | assign
  | multiSignDone
  | multiSignExit
  | sendTB
  | newBlockGenerated
  /-- a beacon block after which the committee is to be reconfigured -/
  | prepareReconfig
  /-- the node gets an ID in its new committee -/
  | endReconfig (nodeID : ℕ)
  | handlePbftMsg (addr : ℕ) (msg : Pbft.Message)
  | handleMultiSignReply (rep : MultiSignReply)

section Model

variable (getDigest : Pbft.PbftRequest → Pbft.Digest) (crypto : Crypto) (required : ℕ)

def start (s : State) : Option State :=
  if s.startCh then none else some { s with running := true, startCh := true }

def close (s : State) : Option State :=
  if s.exitCh then none else some { s with running := false, exitCh := true }

def takeStart (s : State) : Option State :=
  if s.pc = .select ∧ s.startCh = true then some { s with startCh := false, timer := true }
  else none

def takeExit (s : State) : Option State :=
  if s.pc = .select ∧ s.exitCh = true then some { s with exitCh := false, pc := .closed } else none

def tick (s : State) (block : Block) : Option State :=
  if s.pc = .select ∧ s.timer = true then
    some { s with timer := false, pc := if s.running then .setSequenceID block else .select }
  else none

/-- `SetSequenceID(block.NumberU64())`. -/
def setSequenceID (s : State) : Option State :=
  match s.pc with
  | .setSequenceID block =>
      match s.pbft.setSequenceID (u64 block.number) with
      | .ok p => some { s with pbft := p, pc := .propose block }
      | .error _ => none
  | _ => none

def propose (s : State) (now : ℤ) : Option State :=
  match s.pc with
  | .propose block =>
      match s.pbft.propose getDigest block.rlp now with
      | .ok (p, _) => some { s with
          pbft := p
          pc := .consensus block s.pbft.sequenceID
          round := s.round + 1 }
      | .error _ => none
  | _ => none

def consensusDone (s : State) : Option State :=
  match s.pc with
  | .consensus block seqID =>
      if s.pbft.oneConsensusDone then
        some { s with
          pbft := { s.pbft with oneConsensusDone := false }
          pc := .addBlock2Shard block seqID s.signal
          signal := none }
      else none
  | _ => none

/-- The token of `exitCh` is put back. -/
def consensusExit (s : State) : Option State :=
  match s.pc with
  | .consensus block seqID =>
      if s.exitCh then some { s with pc := .addBlock2Shard block seqID none } else none
  | _ => none

def addBlock2Shard (s : State) : Option State :=
  match s.pc with
  | .addBlock2Shard block seqID signal => some { s with
      pc := .sendTXReceipt2Client block seqID signal
      blocks := ⟨block, seqID, s.round, signal⟩ :: s.blocks }
  | _ => none

def sendTXReceipt2Client (s : State) : Option State :=
  match s.pc with
  | .sendTXReceipt2Client block seqID signal => some { s with
      pc := .broadcastTb block
      receipts := ⟨block, seqID, s.round, signal⟩ :: s.receipts }
  | _ => none

def initMultiSign (s : State) (seed : Hash) (height : ℕ) : Option State :=
  match s.pc with
  | .broadcastTb block => (MultiSign.initMultiSign s.sign ⟨seed, height, block.tb⟩).map fun sg =>
      { s with sign := sg, pc := .multiSign }
  | _ => none

def assign (s : State) : Option State :=
  if s.pc = .multiSign then (MultiSign.assign s.sign).map fun sg => { s with sign := sg } else none

def multiSignDone (s : State) : Option State :=
  match s.pc, s.sign.phase with
  | .multiSign, .waiting r => (MultiSign.returnDone s.sign).map fun sg =>
      { s with sign := sg, pc := .sendTB (s.sign.data.signedTB r) }
  | _, _ => none

/-- The token of `exitCh` is put back. -/
def multiSignExit (s : State) : Option State :=
  match s.pc, s.sign.phase with
  | .multiSign, .waiting r =>
      if s.exitCh then (MultiSign.returnExit s.sign).map fun sg =>
        { s with sign := sg, pc := .sendTB (s.sign.data.signedTB r) }
      else none
  | _, _ => none

def sendTB (s : State) : Option State :=
  match s.pc with
  | .sendTB tb => some { s with pc := .newBlockGenerated, tbs := tb :: s.tbs }
  | _ => none

/-- `NewBlockGenerated`: before a reconfiguration the worker closes itself. -/
def newBlockGenerated (s : State) : Option State :=
  if s.pc = .newBlockGenerated then
    if s.to_reconfig then
      if s.exitCh then none
      else some { s with exitCh := true, to_reconfig := false, timer := true, pc := .select }
    else some { s with timer := true, pc := .select }
  else none

/-- `EndReconfig` at a node whose worker is gone: a leader gets a new worker and a reset PBFT
node, of which the channel and the locks stay. -/
def endReconfig (s : State) (nodeID : ℕ) : Option State :=
  if s.pc = .closed then
    let p := { s.pbft with nodeInfo := ⟨nodeID⟩ }
    if nodeID = 0 then
      some { s with
        pc := .select
        running := false
        startCh := false
        exitCh := false
        timer := false
        to_reconfig := false
        pbft := p.reset
        counted := [] }
    else some { s with to_reconfig := false, pbft := p }
  else none

/-- What the ghost fields keep of a message that turns the node into `p`. -/
def State.log (s : State) (p : Pbft.Node) : Pbft.Message → State
  | .reply rmsg =>
      if s.pbft.Counts rmsg.messageID then
        if s.pbft.oneConsensusDone = p.oneConsensusDone then
          { s with counted := rmsg.messageID :: s.counted }
        else { s with counted := [], signal := some ⟨s.round, rmsg.messageID :: s.counted⟩ }
      else s
  | _ => s

def handlePbftMsg (s : State) (addr : ℕ) (msg : Pbft.Message) : Option State :=
  match s.pbft.handlePbftMsg getDigest addr msg with
  | .ok (p, _) => some { s.log p msg with pbft := p }
  | .error _ => none

def handleMultiSignReply (s : State) (rep : MultiSignReply) : Option State :=
  (MultiSign.reply crypto required s.sign rep).map fun sg => { s with sign := sg }

def step (s : State) : Event → Option State
  | .start => start s
  | .close => close s
  | .takeStart => takeStart s
  | .takeExit => takeExit s
  | .tick block => tick s block
  | .setSequenceID => setSequenceID s
  | .propose now => propose getDigest s now
  | .consensusDone => consensusDone s
  | .consensusExit => consensusExit s
  | .addBlock2Shard => addBlock2Shard s
  | .sendTXReceipt2Client => sendTXReceipt2Client s
  | .initMultiSign seed height => initMultiSign s seed height
  | .assign => assign s
  | .multiSignDone => multiSignDone s
  | .multiSignExit => multiSignExit s
  | .sendTB => sendTB s
  | .newBlockGenerated => newBlockGenerated s
  | .prepareReconfig => some { s with to_reconfig := true }
  | .endReconfig nodeID => endReconfig s nodeID
  | .handlePbftMsg addr msg => handlePbftMsg getDigest s addr msg
  | .handleMultiSignReply rep => handleMultiSignReply crypto required s rep

/-- A leader in a committee of `node_nums`, with its first worker. -/
def initial (node_nums : ℕ) : State where
  pc := .select
  running := false
  startCh := false
  exitCh := false
  timer := false
  to_reconfig := false
  pbft := Pbft.newPbftNode ⟨0⟩ node_nums
  sign := MultiSign.initial
  round := 0
  counted := []
  signal := none
  blocks := []
  receipts := []
  tbs := []

def machine (node_nums : ℕ) : Sys.Machine State Event :=
  ⟨(· = initial node_nums), step getDigest crypto required⟩

/-! ## The assumption -/

/-- The worker waits for the consensus on the sequence ID. -/
def Pc.awaits (seqID : ℕ) : Pc → Prop
  | .consensus _ q => q = seqID
  | _ => False

instance (seqID : ℕ) (pc : Pc) : Decidable (pc.awaits seqID) :=
  match pc with
  | .consensus _ _ => inferInstanceAs (Decidable (_ = _))
  | .select | .setSequenceID _ | .propose _ | .addBlock2Shard _ _ _ | .sendTXReceipt2Client _ _ _
  | .broadcastTb _ | .multiSign | .sendTB _ | .newBlockGenerated | .closed => .isFalse id

/-- The worker is closed only between two blocks, no block is begun when it is to be closed,
and a reply that the leader counts belongs to the round it waits for. -/
def calm (s : State) : Event → Prop
  | .close => s.pc = .select
  | .tick _ => s.exitCh = false
  | .handlePbftMsg _ (.reply rmsg) => s.pbft.Counts rmsg.messageID → s.pc.awaits rmsg.messageID
  | _ => True

instance (s : State) (ev : Event) : Decidable (calm s ev) := by
  unfold calm
  split <;> infer_instance

end Model

end WorkLoop

end LessChain
