import LessChain.Core.Types

/-!
# The PBFT node

`PbftConsensusNode` with its handlers. A handler runs under `p.lock` from its first to its
last line, so it is one function from node to node, together with the messages it hands to
the message hub. `sequenceLock` is taken in `Propose` and released in `HandleReply`, and is
a field of the node.

The counting maps have the pointer of the decoded `SenderInfo` as their key. A pointer is
the address of an object together with what the object holds.
-/

namespace LessChain

namespace Pbft

/-! ## Messages -/

/-- `core.NodeInfo`, of which the handlers read the ID of the node. -/
structure NodeInfo where
  nodeID : ℕ
deriving DecidableEq, Repr

/-- A `*core.NodeInfo`. -/
structure NodeInfoPtr where
  addr : ℕ
  info : NodeInfo
deriving DecidableEq, Repr

/-- `core.PbftRequest`. -/
structure PbftRequest where
  msgType : String
  msg : Bytes
  reqTime : ℤ
deriving DecidableEq, Repr

/-- A digest, used as a map key. -/
abbrev Digest := Bytes

structure PrePrepare where
  requestMsg : PbftRequest
  digest : Digest
  seqID : ℕ
deriving DecidableEq, Repr

/-- `core.Prepare`; `SenderInfo` is a record on the wire and a pointer once decoded. -/
structure Prepare (Info : Type) where
  digest : Digest
  seqID : ℕ
  senderInfo : Info
deriving DecidableEq, Repr

/-- `core.Commit`. -/
structure Commit (Info : Type) where
  digest : Digest
  seqID : ℕ
  senderInfo : Info
deriving DecidableEq, Repr

/-- `core.Reply`. -/
structure Reply (Info : Type) where
  messageID : ℕ
  senderInfo : Info
  result : Bool
deriving DecidableEq, Repr

/-- `core.RequestOldMessage`. Its handler changes nothing at the leader. -/
structure RequestOldMessage where
  seqStartHeight : ℕ
  seqEndHeight : ℕ
  senderInfo : NodeInfo
deriving DecidableEq, Repr

structure SendOldMessage where
  seqStartHeight : ℕ
  seqEndHeight : ℕ
  oldRequest : List PbftRequest
  receiverInfo : NodeInfo
deriving DecidableEq, Repr

/-- What the message hub sends for a node. -/
inductive Message where
  | prePrepare (ppmsg : PrePrepare)
  | prepare (pmsg : Prepare NodeInfo)
  | commit (cmsg : Commit NodeInfo)
  | reply (rmsg : Reply NodeInfo)
deriving DecidableEq, Repr

/-! ## The node -/

structure Node where
  nodeInfo : NodeInfo
  node_nums : ℕ
  malicious_nums : ℕ
  view : ℕ
  sequenceID : ℕ
  requestPool : Digest → Option PbftRequest
  cntPrepareConfirm : Digest → List NodeInfoPtr
  cntCommitConfirm : Digest → List NodeInfoPtr
  isCommitBordcast : Digest → Bool
  isReply : Digest → Bool
  replyCnt : ℕ
  gotEnoughReply : ℕ → Bool
  height2Digest : ℕ → Option Digest
  /-- whether `sequenceLock` is held -/
  sequenceLock : Bool
  /-- whether the channel, which has room for one token, holds it -/
  oneConsensusDone : Bool

/-- `(p.node_nums - 1) / 3` in `uint32`. -/
def maliciousNums (node_nums : ℕ) : ℕ := (node_nums + (2 ^ 32 - 1)) % 2 ^ 32 / 3

theorem maliciousNums_of_pos {n : ℕ} (hpos : 0 < n) (hlt : n < 2 ^ 32) :
    maliciousNums n = (n - 1) / 3 := by
  unfold maliciousNums
  omega

/-- `NewPbftNode`. -/
def newPbftNode (nodeInfo : NodeInfo) (shardSize : ℕ) : Node where
  nodeInfo := nodeInfo
  node_nums := shardSize
  malicious_nums := maliciousNums shardSize
  view := 0
  sequenceID := 0
  requestPool := fun _ => none
  cntPrepareConfirm := fun _ => []
  cntCommitConfirm := fun _ => []
  isCommitBordcast := fun _ => false
  isReply := fun _ => false
  replyCnt := 0
  gotEnoughReply := fun _ => false
  height2Digest := fun _ => none
  sequenceLock := false
  oneConsensusDone := false

/-- Why a call does not come to its end. -/
inductive Fault where
  /-- it waits for a lock or for room in a channel -/
  | blocked
  /-- `fatal error: sync: unlock of unlocked mutex` -/
  | unlockOfUnlocked
deriving DecidableEq, Repr

namespace Node

/-- `Reset`: the locks, `sequenceID` and the channel stay as they are. -/
def reset (p : Node) : Node :=
  { p with
    requestPool := fun _ => none
    cntPrepareConfirm := fun _ => []
    cntCommitConfirm := fun _ => []
    isCommitBordcast := fun _ => false
    isReply := fun _ => false
    replyCnt := 0
    gotEnoughReply := fun _ => false
    height2Digest := fun _ => none }

/-- `set2DMap`: an entry for a pointer. -/
def set2DMap (p : Node) (isPrePareConfirm : Bool) (key : Digest) (val : NodeInfoPtr) : Node :=
  if isPrePareConfirm then
    { p with cntPrepareConfirm :=
        Function.update p.cntPrepareConfirm key ((p.cntPrepareConfirm key).insert val) }
  else
    { p with cntCommitConfirm :=
        Function.update p.cntCommitConfirm key ((p.cntCommitConfirm key).insert val) }

def setSequenceID (p : Node) (id : ℕ) : Except Fault Node :=
  if p.sequenceLock then .error .blocked else .ok { p with sequenceID := id }

/-- The two map entries a request gets at a sequence ID. -/
def putRequest (p : Node) (digest : Digest) (r : PbftRequest) (seqID : ℕ) : Node :=
  { p with
    requestPool := Function.update p.requestPool digest (some r)
    height2Digest := Function.update p.height2Digest seqID (some digest) }

section Handlers

variable (getDigest : PbftRequest → Digest)

/-- The request `Propose` makes of an encoded block. -/
def blockRequest (rlp_block : Bytes) (now : ℤ) : PbftRequest := ⟨"*block", rlp_block, now⟩

/-- `Propose`, which leaves `sequenceLock` held. -/
def propose (p : Node) (rlp_block : Bytes) (now : ℤ) : Except Fault (Node × List Message) :=
  if p.view ≠ p.nodeInfo.nodeID then .ok (p, [])
  else if p.sequenceLock then .error .blocked
  else
    let r := blockRequest rlp_block now
    let digest := getDigest r
    .ok ({ p.putRequest digest r p.sequenceID with sequenceLock := true },
      [.prePrepare ⟨r, digest, p.sequenceID⟩])

def handlePrePrepare (p : Node) (ppmsg : PrePrepare) : Node × List Message :=
  -- `debug` is set, so the node takes over the sequence ID of the message
  let p := { p with sequenceID := ppmsg.seqID }
  let digest := getDigest ppmsg.requestMsg
  if digest ≠ ppmsg.digest then (p, [])
  else if p.sequenceID < ppmsg.seqID then (p.putRequest digest ppmsg.requestMsg ppmsg.seqID, [])
  else
    -- `HandleinPrePrepare` answers true
    (p.putRequest digest ppmsg.requestMsg ppmsg.seqID,
      [.prepare ⟨ppmsg.digest, ppmsg.seqID, p.nodeInfo⟩])

/-- The number of prepares a node waits for; the leader does not send one itself. -/
def specifiedcnt (p : Node) : ℤ :=
  2 * p.malicious_nums - if p.nodeInfo.nodeID ≠ p.view then 1 else 0

def handlePrepare (p : Node) (pmsg : Prepare NodeInfoPtr) : Node × List Message :=
  if (p.requestPool pmsg.digest).isNone then (p, [])
  else if p.sequenceID < pmsg.seqID then (p, [])
  else
    let p := p.set2DMap true pmsg.digest pmsg.senderInfo
    let cnt : ℤ := (p.cntPrepareConfirm pmsg.digest).length
    if cnt ≥ p.specifiedcnt ∧ p.isCommitBordcast pmsg.digest = false then
      ({ p with isCommitBordcast := Function.update p.isCommitBordcast pmsg.digest true },
        [.commit ⟨pmsg.digest, pmsg.seqID, p.nodeInfo⟩])
    else (p, [])

/-- `reply`: the leader does not send one. -/
def reply (p : Node) (seqID : ℕ) (digest : Digest) : Node × List Message :=
  let p := { p with isReply := Function.update p.isReply digest true }
  (p, if p.nodeInfo.nodeID ≠ p.view then [.reply ⟨seqID, p.nodeInfo, true⟩] else [])

def handleCommit (p : Node) (cmsg : Commit NodeInfoPtr) : Node × List Message :=
  let p := p.set2DMap false cmsg.digest cmsg.senderInfo
  let cnt := (p.cntCommitConfirm cmsg.digest).length
  let required_cnt := 2 * p.malicious_nums
  if cnt ≥ required_cnt ∧ p.isReply cmsg.digest = false then
    let (p, out) := p.reply cmsg.seqID cmsg.digest
    if p.nodeInfo.nodeID ≠ p.view then ({ p with sequenceID := addU64 p.sequenceID 1 }, out)
    else (p, out)
  else (p, [])

/-- `HandleReply`. Sending into the full channel waits with `p.lock` held, so the call is
taken as one that has not begun. -/
def handleReply (p : Node) (rmsg : Reply NodeInfoPtr) : Except Fault Node :=
  if p.nodeInfo.nodeID ≠ p.view then .ok p
  else if p.gotEnoughReply rmsg.messageID then .ok p
  else if p.replyCnt + 1 ≥ 2 * p.malicious_nums then
    if p.oneConsensusDone then .error .blocked
    else if p.sequenceLock = false then .error .unlockOfUnlocked
    else .ok { p with
      replyCnt := 0
      gotEnoughReply := Function.update p.gotEnoughReply rmsg.messageID true
      sequenceID := addU64 p.sequenceID 1
      oneConsensusDone := true
      sequenceLock := false }
  else .ok { p with replyCnt := p.replyCnt + 1 }

/-- The loop of `HandleSendOldSeq` over the requests from `seqID` on. -/
def replyOld (p : Node) : List PbftRequest → ℕ → Node × List Message
  | [], _ => (p, [])
  | r :: rs, seqID =>
      let digest := getDigest r
      let (p, out) := (p.putRequest digest r seqID).reply seqID digest
      let (p, out') := replyOld p rs (addU64 seqID 1)
      (p, out ++ out')

/-- `HandleSendOldSeq` up to its last line. It asks nobody whether the requests were agreed
upon. The last line unlocks `askForLock`, which nothing locks any more. -/
def handleSendOldSeq (p : Node) (som : SendOldMessage) : Node × List Message :=
  let (p, out) := p.replyOld getDigest som.oldRequest som.seqStartHeight
  let p := { p with sequenceID := addU64 som.seqEndHeight 1 }
  match (p.height2Digest p.sequenceID).bind p.requestPool with
  | none => (p, out)
  | some r => (p, out ++ [.prepare ⟨getDigest r, p.sequenceID, p.nodeInfo⟩])

/-- `handlePbftMsg`: `addr` is where the decoder puts the `SenderInfo` of the message. -/
def handlePbftMsg (p : Node) (addr : ℕ) : Message → Except Fault (Node × List Message)
  | .prePrepare ppmsg => .ok (p.handlePrePrepare getDigest ppmsg)
  | .prepare ⟨digest, seqID, info⟩ => .ok (p.handlePrepare ⟨digest, seqID, ⟨addr, info⟩⟩)
  | .commit ⟨digest, seqID, info⟩ => .ok (p.handleCommit ⟨digest, seqID, ⟨addr, info⟩⟩)
  | .reply ⟨messageID, info, result⟩ => do
      let p ← p.handleReply ⟨messageID, ⟨addr, info⟩, result⟩
      .ok (p, [])

end Handlers

/-! ## What a call does to the round of the leader

The fields that `HandleReply` reads and writes. All other calls leave them alone, except that
`Propose` takes the lock. -/

/-- The round of `p'` is as far as that of `p`. -/
structure SameRound (p p' : Node) : Prop where
  nodeInfo : p'.nodeInfo = p.nodeInfo
  view : p'.view = p.view
  malicious_nums : p'.malicious_nums = p.malicious_nums
  replyCnt : p'.replyCnt = p.replyCnt
  gotEnoughReply : p'.gotEnoughReply = p.gotEnoughReply
  sequenceLock : p'.sequenceLock = p.sequenceLock
  oneConsensusDone : p'.oneConsensusDone = p.oneConsensusDone

/-- The node counts a reply: it is the leader, and does not have enough for this ID. -/
def Counts (p : Node) (messageID : ℕ) : Prop :=
  p.nodeInfo.nodeID = p.view ∧ p.gotEnoughReply messageID = false

instance (p : Node) (messageID : ℕ) : Decidable (p.Counts messageID) :=
  inferInstanceAs (Decidable (_ ∧ _))

/-- What becomes of the leader when it has enough replies. -/
def completeRound (p : Node) (messageID : ℕ) : Node :=
  { p with
    replyCnt := 0
    gotEnoughReply := Function.update p.gotEnoughReply messageID true
    sequenceID := addU64 p.sequenceID 1
    oneConsensusDone := true
    sequenceLock := false }

/-- The ways a reply is handled. -/
inductive Replied (p : Node) (messageID : ℕ) : Node → Prop where
  | dropped (hnot : ¬ p.Counts messageID) : Replied p messageID p
  | counted (hcounts : p.Counts messageID) (hfew : p.replyCnt + 1 < 2 * p.malicious_nums) :
      Replied p messageID { p with replyCnt := p.replyCnt + 1 }
  | completed (hcounts : p.Counts messageID) (henough : 2 * p.malicious_nums ≤ p.replyCnt + 1)
      (hempty : p.oneConsensusDone = false) (hlock : p.sequenceLock = true) :
      Replied p messageID (p.completeRound messageID)

section Round

variable {getDigest : PbftRequest → Digest} {p p' : Node} {out : List Message}

theorem setSequenceID_round {id : ℕ} (h : p.setSequenceID id = .ok p') :
    SameRound p p' ∧ p.sequenceLock = false := by
  unfold setSequenceID at h
  split at h
  · cases h
  · rename_i hfree
    cases h
    exact ⟨⟨rfl, rfl, rfl, rfl, rfl, rfl, rfl⟩, by simpa using hfree⟩

/-- `Propose` does nothing at a backup, and takes the lock at a leader. -/
theorem propose_round {rlp_block : Bytes} {now : ℤ}
    (h : p.propose getDigest rlp_block now = .ok (p', out)) :
    p.nodeInfo.nodeID ≠ p.view ∧ p' = p ∨
      p.nodeInfo.nodeID = p.view ∧ p.sequenceLock = false ∧
        SameRound { p with sequenceLock := true } p' := by
  unfold propose at h
  split at h
  · rename_i hbackup
    cases h
    exact .inl ⟨hbackup.symm, rfl⟩
  · rename_i hleader
    rw [not_ne_iff] at hleader
    split at h
    · cases h
    · rename_i hfree
      cases h
      exact .inr ⟨hleader.symm, by simpa using hfree, ⟨rfl, rfl, rfl, rfl, rfl, rfl, rfl⟩⟩

theorem handlePrePrepare_round (ppmsg : PrePrepare) :
    SameRound p (p.handlePrePrepare getDigest ppmsg).1 := by
  unfold handlePrePrepare
  dsimp only
  repeat' split
  all_goals exact ⟨rfl, rfl, rfl, rfl, rfl, rfl, rfl⟩

theorem handlePrepare_round (pmsg : Prepare NodeInfoPtr) :
    SameRound p (p.handlePrepare pmsg).1 := by
  unfold handlePrepare
  dsimp only
  repeat' split
  all_goals exact ⟨rfl, rfl, rfl, rfl, rfl, rfl, rfl⟩

theorem handleCommit_round (cmsg : Commit NodeInfoPtr) :
    SameRound p (p.handleCommit cmsg).1 := by
  unfold handleCommit
  dsimp only
  repeat' split
  all_goals exact ⟨rfl, rfl, rfl, rfl, rfl, rfl, rfl⟩

/-- Of the messages only a reply is about the round of the leader. -/
theorem handlePbftMsg_round {addr : ℕ} {msg : Message} (hmsg : ∀ rmsg, msg ≠ .reply rmsg)
    (h : p.handlePbftMsg getDigest addr msg = .ok (p', out)) : SameRound p p' := by
  cases msg with
  | prePrepare ppmsg =>
      have hp := congrArg Prod.fst (Except.ok.inj h)
      rw [← show _ = p' from hp]
      exact handlePrePrepare_round ppmsg
  | prepare pmsg =>
      have hp := congrArg Prod.fst (Except.ok.inj h)
      rw [← show _ = p' from hp]
      exact handlePrepare_round _
  | commit cmsg =>
      have hp := congrArg Prod.fst (Except.ok.inj h)
      rw [← show _ = p' from hp]
      exact handleCommit_round _
  | reply rmsg => exact absurd rfl (hmsg rmsg)

theorem handleReply_replied {rmsg : Reply NodeInfoPtr} (h : p.handleReply rmsg = .ok p') :
    Replied p rmsg.messageID p' := by
  unfold handleReply at h
  split at h
  · rename_i hbackup
    cases h
    exact .dropped fun hcounts => hbackup hcounts.1
  · rename_i hleader
    rw [not_ne_iff] at hleader
    split at h
    · rename_i hgot
      cases h
      exact .dropped fun hcounts => Bool.false_ne_true (hcounts.2.symm.trans hgot)
    · rename_i hgot
      have hcounts : p.Counts rmsg.messageID := ⟨hleader, by simpa using hgot⟩
      split at h
      · rename_i henough
        split at h
        · cases h
        · rename_i hempty
          split at h
          · cases h
          · rename_i hlock
            cases h
            exact .completed hcounts henough (by simpa using hempty) (by simpa using hlock)
      · rename_i hfew
        cases h
        exact .counted hcounts (by omega)

/-- The reply that unlocks a free lock is one too many. -/
theorem counts_of_unlockOfUnlocked {rmsg : Reply NodeInfoPtr}
    (h : p.handleReply rmsg = .error .unlockOfUnlocked) :
    p.Counts rmsg.messageID ∧ p.sequenceLock = false := by
  unfold handleReply at h
  split at h
  · cases h
  · rename_i hleader
    rw [not_ne_iff] at hleader
    split at h
    · cases h
    · rename_i hgot
      split at h
      · split at h
        · cases h
        · split at h
          · rename_i hfree
            exact ⟨⟨hleader, by simpa using hgot⟩, hfree⟩
          · cases h
      · cases h

/-- `handlePbftMsg` on a reply. -/
theorem handlePbftMsg_reply {addr : ℕ} {rmsg : Reply NodeInfo}
    (h : p.handlePbftMsg getDigest addr (.reply rmsg) = .ok (p', out)) :
    Replied p rmsg.messageID p' := by
  unfold handlePbftMsg at h
  cases hp : p.handleReply ⟨rmsg.messageID, ⟨addr, rmsg.senderInfo⟩, rmsg.result⟩ with
  | error fault =>
      simp only [hp] at h
      cases h
  | ok q =>
      simp only [hp] at h
      cases h
      exact handleReply_replied hp

theorem handlePbftMsg_unlockOfUnlocked {addr : ℕ} {msg : Message}
    (h : p.handlePbftMsg getDigest addr msg = .error .unlockOfUnlocked) :
    ∃ rmsg, msg = .reply rmsg ∧ p.Counts rmsg.messageID ∧ p.sequenceLock = false := by
  cases msg with
  | prePrepare ppmsg => cases h
  | prepare pmsg => cases h
  | commit cmsg => cases h
  | reply rmsg =>
      refine ⟨rmsg, rfl, ?_⟩
      unfold handlePbftMsg at h
      cases hp : p.handleReply ⟨rmsg.messageID, ⟨addr, rmsg.senderInfo⟩, rmsg.result⟩ with
      | error fault =>
          simp only [hp] at h
          cases h
          exact counts_of_unlockOfUnlocked hp
      | ok q =>
          simp only [hp] at h
          cases h

end Round

end Node

end Pbft

end LessChain
