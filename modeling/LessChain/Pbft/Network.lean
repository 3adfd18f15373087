import LessChain.Lib.Machine
import LessChain.Pbft.Node

/-!
# A committee of PBFT nodes

`N` nodes, some of them Byzantine. An honest node runs the handlers of `Pbft.Node` on the
messages that reach it, in whatever order they do; a Byzantine node sends what it likes to
whom it likes. Every message is decoded afresh, so its `SenderInfo` gets an address of its
own.

The logs `sent`, `handled` and `replied` are not in the program. They keep what honest
nodes have sent, the commits they have handled, and the calls of `reply`, of which the
program keeps the digest but not the sequence ID.
-/

namespace LessChain

namespace Pbft

namespace Network

/-- A message on its way. -/
structure Packet (N : ℕ) where
  src : Fin N
  dst : Fin N
  msg : Message
deriving DecidableEq

structure State (N : ℕ) where
  nodes : Fin N → Node
  /-- the next address the allocator of a node gives out -/
  heap : Fin N → ℕ
  inflight : List (Packet N)
  sent : List (Fin N × Message)
  handled : Fin N → List (Commit NodeInfo)
  replied : Fin N → List (ℕ × Digest)

inductive Event (N : ℕ) where
  /-- the two calls of `RunPbft` -/
  | setSequenceID (n : Fin N) (id : ℕ)
  | propose (n : Fin N) (rlp_block : Bytes) (now : ℤ)
  /-- `RunPbft` takes the token out of `OneConsensusDone` -/
  | consensusDone (n : Fin N)
  /-- a Byzantine node sends a message -/
  | send (b dst : Fin N) (msg : Message)
  | deliver (k : ℕ)

section Model

variable {N : ℕ}

/-- `sendPbftMsg`: to everybody else in the committee, a reply only to its first node. -/
def sendPbftMsg (src : Fin N) (msg : Message) : List (Packet N) :=
  let table := match msg with
    | .reply _ => (List.finRange N).take 1
    | _ => List.finRange N
  (table.filter (· ≠ src)).map fun dst => ⟨src, dst, msg⟩

/-- Node `n` has become `p` and hands `out` to the message hub. -/
def State.post (s : State N) (n : Fin N) (p : Node) (out : List Message) : State N :=
  { s with
    nodes := Function.update s.nodes n p
    inflight := s.inflight ++ out.flatMap (sendPbftMsg n)
    sent := s.sent ++ out.map (n, ·) }

/-- What the logs keep when `n` handles a message and becomes `p`. -/
def State.log (s : State N) (n : Fin N) (p : Node) : Message → State N
  | .commit cmsg =>
      { s with
        handled := Function.update s.handled n (cmsg :: s.handled n)
        replied :=
          if (s.nodes n).isReply cmsg.digest = false ∧ p.isReply cmsg.digest = true then
            Function.update s.replied n ((cmsg.seqID, cmsg.digest) :: s.replied n)
          else s.replied }
  | _ => s

variable (getDigest : PbftRequest → Digest) (byz : Finset (Fin N))

/-- The handler of an honest node. -/
def handle (s : State N) (n : Fin N) (msg : Message) : Option (State N) :=
  match (s.nodes n).handlePbftMsg getDigest (s.heap n) msg with
  | .error _ => none
  | .ok (p, out) =>
      let s := s.log n p msg
      some { s.post n p out with heap := Function.update s.heap n (s.heap n + 1) }

def deliver (s : State N) (k : ℕ) : Option (State N) := do
  let pk ← s.inflight[k]?
  let s := { s with inflight := s.inflight.eraseIdx k }
  if pk.dst ∈ byz then some s else handle getDigest s pk.dst pk.msg

def setSequenceID (s : State N) (n : Fin N) (id : ℕ) : Option (State N) :=
  if n ∈ byz then none
  else match (s.nodes n).setSequenceID id with
    | .error _ => none
    | .ok p => some (s.post n p [])

def propose (s : State N) (n : Fin N) (rlp_block : Bytes) (now : ℤ) : Option (State N) :=
  if n ∈ byz then none
  else match (s.nodes n).propose getDigest rlp_block now with
    | .error _ => none
    | .ok (p, out) => some (s.post n p out)

def consensusDone (s : State N) (n : Fin N) : Option (State N) :=
  if n ∉ byz ∧ (s.nodes n).oneConsensusDone = true then
    some (s.post n { s.nodes n with oneConsensusDone := false } [])
  else none

def send (s : State N) (b dst : Fin N) (msg : Message) : Option (State N) :=
  if b ∈ byz then some { s with inflight := s.inflight ++ [⟨b, dst, msg⟩] } else none

def step (s : State N) : Event N → Option (State N)
  | .setSequenceID n id => setSequenceID byz s n id
  | .propose n rlp_block now => propose getDigest byz s n rlp_block now
  | .consensusDone n => consensusDone byz s n
  | .send b dst msg => send byz s b dst msg
  | .deliver k => deliver getDigest byz s k

def initial : State N where
  nodes := fun n => newPbftNode ⟨n⟩ N
  heap := fun _ => 0
  inflight := []
  sent := []
  handled := fun _ => []
  replied := fun _ => []

def machine : Sys.Machine (State N) (Event N) := ⟨(· = initial), step getDigest byz⟩

/-! ## The checks the handlers leave out -/

/-- The sequence ID has no digest yet and the digest no sequence ID, or they are together. -/
def Bindable (p : Node) (seqID : ℕ) (digest : Digest) : Prop :=
  p.height2Digest seqID = some digest ∨
    p.height2Digest seqID = none ∧ p.requestPool digest = none

instance (p : Node) (seqID : ℕ) (digest : Digest) : Decidable (Bindable p seqID digest) :=
  inferInstanceAs (Decidable (_ ∨ _ ∧ _))

/-- The commits a node handles for one digest are from different senders and for one
sequence ID, and the one that completes the quorum finds the node prepared. -/
def CommitOk (p : Node) (handled : List (Commit NodeInfo)) (cmsg : Commit NodeInfo) : Prop :=
  (∀ c ∈ handled, c.digest = cmsg.digest →
    c.seqID = cmsg.seqID ∧ c.senderInfo.nodeID ≠ cmsg.senderInfo.nodeID) ∧
  (p.isReply cmsg.digest = false →
    2 * p.malicious_nums ≤ (p.cntCommitConfirm cmsg.digest).length + 1 →
      p.isCommitBordcast cmsg.digest = true ∧ p.height2Digest cmsg.seqID = some cmsg.digest)

instance (p : Node) (handled : List (Commit NodeInfo)) (cmsg : Commit NodeInfo) :
    Decidable (CommitOk p handled cmsg) :=
  inferInstanceAs (Decidable ((∀ _ ∈ _, _ → _) ∧ (_ → _ → _ ∧ _)))

def MessageOk (p : Node) (handled : List (Commit NodeInfo)) : Message → Prop
  | .prePrepare ppmsg => getDigest ppmsg.requestMsg = ppmsg.digest →
      Bindable p ppmsg.seqID ppmsg.digest
  | .prepare pmsg => (p.requestPool pmsg.digest).isSome →
      p.height2Digest pmsg.seqID = some pmsg.digest
  | .commit cmsg => CommitOk p handled cmsg
  | .reply _ => True

instance (p : Node) (handled : List (Commit NodeInfo)) (msg : Message) :
    Decidable (MessageOk getDigest p handled msg) := by
  unfold MessageOk
  split <;> infer_instance

/-- The sender a message names. -/
def Message.sender? : Message → Option ℕ
  | .prePrepare _ => none
  | .prepare pmsg => some pmsg.senderInfo.nodeID
  | .commit cmsg => some cmsg.senderInfo.nodeID
  | .reply rmsg => some rmsg.senderInfo.nodeID

/-- Honest nodes propose and handle what passes the checks, and Byzantine nodes send under
their own name. -/
def orderly (s : State N) : Event N → Prop
  | .propose n rlp_block now => Bindable (s.nodes n) (s.nodes n).sequenceID
      (getDigest (Node.blockRequest rlp_block now))
  | .send b _ msg => ∀ id ∈ Message.sender? msg, id = b
  | .deliver k => ∀ pk ∈ s.inflight[k]?, pk.dst ∉ byz →
      MessageOk getDigest (s.nodes pk.dst) (s.handled pk.dst) pk.msg
  | _ => True

instance (s : State N) (ev : Event N) : Decidable (orderly getDigest byz s ev) := by
  unfold orderly
  split <;> infer_instance

end Model

/-! ## One node speaks for a quorum

`doubleCommits` is a run in which it does, `finishedRound` one without repeated votes. -/

/-- Four nodes, the last of them Byzantine. -/
def exampleByz : Finset (Fin 4) := {3}

def exampleRequest (block : UInt8) : PbftRequest := Node.blockRequest [block] 1

def digestOne : Digest :=
  Hash.bytes 0xc4532a6f27b47357aac6294b4ea7decfc29cc2513a974623ba60a6f4a4003f2b#256

def digestTwo : Digest :=
  Hash.bytes 0xe9f566fec7eecf02c7b9bb066bd3862f7c211594ff8dd6d79fd397b19190a2ab#256

/-- `getDigest` on the two requests of the examples. -/
def exampleDigest (r : PbftRequest) : Digest :=
  if r = exampleRequest 1 then digestOne else if r = exampleRequest 2 then digestTwo else []

/-- Node 3 sends each of two nodes the same commit twice, of one digest to node 1 and of
another to node 2. -/
def doubleCommits : List (Event 4) :=
  let commit (digest : Digest) : Message := .commit ⟨digest, 1, ⟨3⟩⟩
  [.send 3 1 (commit digestOne), .send 3 1 (commit digestOne), .send 3 2 (commit digestTwo),
    .send 3 2 (commit digestTwo), .deliver 0, .deliver 0, .deliver 0, .deliver 0]

/-- A round that nodes 1 and 2 finish, while node 3 is silent except for one commit of
another digest. -/
def finishedRound : List (Event 4) :=
  [.setSequenceID 0 1, .propose 0 [1] 1, .send 3 1 (.commit ⟨digestTwo, 1, ⟨3⟩⟩)] ++
    [0, 0, 1, 1, 2, 2, 2, 1, 2, 8, 2, 4].map .deliver

theorem replies_disagree :
    ∃ s, (machine exampleDigest exampleByz).Reachable s ∧
      (s.nodes 1).isReply digestOne = true ∧ (1, digestOne) ∈ s.replied 1 ∧
      (s.nodes 2).isReply digestTwo = true ∧ (1, digestTwo) ∈ s.replied 2 ∧
      digestOne ≠ digestTwo :=
  Sys.Machine.exists_reachableBy _ rfl doubleCommits (by decide +kernel)

end Network

end Pbft

end LessChain
