import LessChain.Pbft.Network
import Mathlib.Data.Finset.Card

/-!
# Whose votes does a node count?

One node, and whatever the network delivers to it. It broadcasts its commit once
`cntPrepareConfirm` has enough entries for a digest, and calls `reply` once
`cntCommitConfirm` has. The entries are pointers that the decoder makes anew for every
message, so a sender who repeats a message is counted again; in `one_node_quorum` one node is
both quorums. With `firstVotes` an entry is a node.

`received`, `bordcast` and `replied` are logs that the program does not keep: the messages
delivered, the digests of the commits sent (with `true` if the node was the leader then),
and the calls of `reply`.
-/

namespace LessChain

namespace Pbft

namespace Votes

/-- What `handlePbftMsg` decodes. -/
inductive Incoming where
  | pbft (msg : Message)
  | requestOld (rom : RequestOldMessage)
  | sendOld (som : SendOldMessage)
deriving DecidableEq

structure State where
  node : Node
  /-- the next address the allocator gives out -/
  heap : ℕ
  running : Bool
  received : List Message
  bordcast : List (Digest × Bool)
  replied : List Digest

inductive Event where
  | deliver (m : Incoming)
  /-- the steps of `RunPbft` -/
  | setSequenceID (id : ℕ)
  | propose (rlp_block : Bytes) (now : ℤ)
  | consensusDone
  /-- the steps of a reconfiguration -/
  | updateNodeInfo (nodeInfo : NodeInfo)
  | reset

/-- The sender of a prepare for `digest`. -/
def preparer? (digest : Digest) : Message → Option ℕ
  | .prepare pmsg => if pmsg.digest = digest then some pmsg.senderInfo.nodeID else none
  | _ => none

/-- The sender of a commit for `digest`. -/
def committer? (digest : Digest) : Message → Option ℕ
  | .commit cmsg => if cmsg.digest = digest then some cmsg.senderInfo.nodeID else none
  | _ => none

/-- The nodes from which a prepare for `digest` was received. -/
def State.preparers (s : State) (digest : Digest) : Finset ℕ :=
  (s.received.filterMap (preparer? digest)).toFinset

/-- The nodes from which a commit for `digest` was received. -/
def State.committers (s : State) (digest : Digest) : Finset ℕ :=
  (s.received.filterMap (committer? digest)).toFinset

def isLeader (p : Node) : Bool := p.nodeInfo.nodeID = p.view

/-- The digests of the commits among the messages sent. -/
def commitDigests (out : List Message) : List Digest :=
  out.filterMap fun
    | .commit cmsg => some cmsg.digest
    | _ => none

/-- Whether the handling of `msg` that made `p'` of `p` called `reply`. -/
def replies (p p' : Node) : Message → List Digest
  | .commit cmsg =>
      if p.isReply cmsg.digest = false ∧ p'.isReply cmsg.digest = true then [cmsg.digest] else []
  | _ => []

/-- The node has handled `msg`, has become `p` and sends `out`. -/
def State.handled (s : State) (msg : Message) (p : Node) (out : List Message) : State where
  node := p
  heap := s.heap + 1
  running := s.running
  received := s.received ++ [msg]
  bordcast := s.bordcast ++ (commitDigests out).map (·, isLeader s.node)
  replied := s.replied ++ replies s.node p msg

section Model

variable (getDigest : PbftRequest → Digest)

def handle (s : State) (msg : Message) : Option State :=
  match s.node.handlePbftMsg getDigest s.heap msg with
  | .error _ => none
  | .ok (p, out) => some (s.handled msg p out)

/-- `HandleSendOldSeq` calls `reply` for each request, and then ends the process. -/
def handleOld (s : State) (som : SendOldMessage) : State :=
  { s with
    node := (s.node.handleSendOldSeq getDigest som).1
    running := false
    replied := s.replied ++ som.oldRequest.map getDigest }

def setSequenceID (s : State) (id : ℕ) : Option State :=
  match s.node.setSequenceID id with
  | .error _ => none
  | .ok p => some { s with node := p }

def propose (s : State) (rlp_block : Bytes) (now : ℤ) : Option State :=
  match s.node.propose getDigest rlp_block now with
  | .error _ => none
  | .ok (p, out) => some { s with
      node := p
      bordcast := s.bordcast ++ (commitDigests out).map (·, isLeader s.node) }

def step (s : State) (ev : Event) : Option State :=
  if s.running = false then none
  else match ev with
    | .deliver (.pbft msg) => handle getDigest s msg
    -- the leader sends its old requests back and stays as it is
    | .deliver (.requestOld _) => some s
    | .deliver (.sendOld som) => some (handleOld getDigest s som)
    | .setSequenceID id => setSequenceID s id
    | .propose rlp_block now => propose getDigest s rlp_block now
    | .consensusDone => some { s with node := { s.node with oneConsensusDone := false } }
    | .updateNodeInfo nodeInfo => some { s with node := { s.node with nodeInfo := nodeInfo } }
    | .reset => some { s with node := s.node.reset }

def initial (nodeInfo : NodeInfo) (shardSize : ℕ) : State where
  node := newPbftNode nodeInfo shardSize
  heap := 0
  running := true
  received := []
  bordcast := []
  replied := []

def machine : Sys.Machine State Event :=
  ⟨fun s => ∃ nodeInfo shardSize, s = initial nodeInfo shardSize, step getDigest⟩

end Model

/-! ## The assumption -/

/-- The node has not counted another message of this sender. -/
def NotCounted (counted : List NodeInfoPtr) (info : NodeInfo) : Prop :=
  ∀ ptr ∈ counted, ptr.info.nodeID ≠ info.nodeID

instance (counted : List NodeInfoPtr) (info : NodeInfo) : Decidable (NotCounted counted info) :=
  inferInstanceAs (Decidable (∀ _ ∈ _, _))

/-- No sender repeats a prepare or a commit that was counted for the same digest, and
nobody sends old requests. -/
def firstVotes (s : State) : Event → Prop
  | .deliver (.pbft (.prepare pmsg)) =>
      NotCounted (s.node.cntPrepareConfirm pmsg.digest) pmsg.senderInfo
  | .deliver (.pbft (.commit cmsg)) =>
      NotCounted (s.node.cntCommitConfirm cmsg.digest) cmsg.senderInfo
  | .deliver (.sendOld som) => som.oldRequest = []
  | _ => True

instance (s : State) (ev : Event) : Decidable (firstVotes s ev) := by
  unfold firstVotes
  split <;> infer_instance

/-! ## Entries and senders -/

/-- The entries are from different nodes, all of them among `senders`. -/
structure Counted (counted : List NodeInfoPtr) (senders : Finset ℕ) : Prop where
  nodup : (counted.map fun ptr => ptr.info.nodeID).Nodup
  subset : ∀ ptr ∈ counted, ptr.info.nodeID ∈ senders

theorem Counted.nil (senders : Finset ℕ) : Counted [] senders :=
  ⟨List.nodup_nil, by simp⟩

variable {senders : Finset ℕ} {counted : List NodeInfoPtr}

theorem Counted.mono {senders' : Finset ℕ}
    (h : Counted counted senders) (hsub : senders ⊆ senders') : Counted counted senders' :=
  { h with subset := fun ptr hptr => hsub (h.subset ptr hptr) }

theorem Counted.length_le (h : Counted counted senders) : counted.length ≤ senders.card := by
  calc counted.length = (counted.map fun ptr => ptr.info.nodeID).length := by simp
    _ = (counted.map fun ptr => ptr.info.nodeID).toFinset.card :=
        (List.toFinset_card_of_nodup h.nodup).symm
    _ ≤ senders.card := by
        apply Finset.card_le_card
        intro id hid
        obtain ⟨ptr, hptr, rfl⟩ := List.mem_map.mp (List.mem_toFinset.mp hid)
        exact h.subset ptr hptr

theorem Counted.insert {ptr : NodeInfoPtr}
    (h : Counted counted senders) (hnew : NotCounted counted ptr.info)
    (hmem : ptr.info.nodeID ∈ senders) : Counted (counted.insert ptr) senders := by
  have hnotMem : ptr ∉ counted := fun hold => hnew ptr hold rfl
  rw [List.insert_of_not_mem hnotMem]
  constructor
  · rw [List.map_cons, List.nodup_cons]
    refine ⟨?_, h.nodup⟩
    intro hid
    obtain ⟨ptr', hptr', heq⟩ := List.mem_map.mp hid
    exact hnew ptr' hptr' heq
  · intro ptr' hptr'
    rcases List.mem_cons.mp hptr' with rfl | hold
    · exact hmem
    · exact h.subset ptr' hold

/-- The entries for one digest change. -/
theorem Counted.update {cnt : Digest → List NodeInfoPtr} {senders : Digest → Finset ℕ}
    (h : ∀ digest, Counted (cnt digest) (senders digest)) {digest : Digest}
    (hnew : Counted counted (senders digest)) :
    ∀ d, Counted (Function.update cnt digest counted d) (senders d) := by
  intro d
  by_cases hd : d = digest
  · rw [hd, Function.update_self]
    exact hnew
  · rw [Function.update_of_ne hd]
    exact h d

/-! ## What a step does to the votes -/

/-- The votes of `p'` are those of `p`. -/
structure SameVotes (p p' : Node) : Prop where
  malicious_nums : p'.malicious_nums = p.malicious_nums
  cntPrepareConfirm : p'.cntPrepareConfirm = p.cntPrepareConfirm
  cntCommitConfirm : p'.cntCommitConfirm = p.cntCommitConfirm

theorem SameVotes.refl (p : Node) : SameVotes p p := ⟨rfl, rfl, rfl⟩

section Handlers

variable {getDigest : PbftRequest → Digest} {p p' : Node} {out : List Message}

theorem setSequenceID_votes {id : ℕ} (h : p.setSequenceID id = .ok p') : SameVotes p p' := by
  unfold Node.setSequenceID at h
  split at h
  · cases h
  · cases h
    exact ⟨rfl, rfl, rfl⟩

theorem propose_votes {rlp_block : Bytes} {now : ℤ}
    (h : p.propose getDigest rlp_block now = .ok (p', out)) :
    SameVotes p p' ∧ commitDigests out = [] := by
  unfold Node.propose at h
  split at h
  · cases h
    exact ⟨.refl p, rfl⟩
  · split at h
    · cases h
    · cases h
      exact ⟨⟨rfl, rfl, rfl⟩, rfl⟩

theorem handlePrePrepare_votes (ppmsg : PrePrepare) :
    SameVotes p (p.handlePrePrepare getDigest ppmsg).1 ∧
      commitDigests (p.handlePrePrepare getDigest ppmsg).2 = [] := by
  unfold Node.handlePrePrepare
  dsimp only
  split
  · exact ⟨⟨rfl, rfl, rfl⟩, rfl⟩
  · split
    · exact ⟨⟨rfl, rfl, rfl⟩, rfl⟩
    · exact ⟨⟨rfl, rfl, rfl⟩, rfl⟩

theorem handleReply_votes {rmsg : Reply NodeInfoPtr} (h : p.handleReply rmsg = .ok p') :
    SameVotes p p' := by
  unfold Node.handleReply at h
  repeat' split at h
  all_goals cases h
  all_goals exact ⟨rfl, rfl, rfl⟩

/-- A prepare is left out, or counted, or counted and followed by the commit. -/
theorem handlePrepare_votes (pmsg : Prepare NodeInfoPtr) :
    SameVotes p (p.handlePrepare pmsg).1 ∧ commitDigests (p.handlePrepare pmsg).2 = [] ∨
    SameVotes (p.set2DMap true pmsg.digest pmsg.senderInfo) (p.handlePrepare pmsg).1 ∧
      (commitDigests (p.handlePrepare pmsg).2 = [] ∨
        commitDigests (p.handlePrepare pmsg).2 = [pmsg.digest] ∧
          p.specifiedcnt ≤ (((p.cntPrepareConfirm pmsg.digest).insert pmsg.senderInfo).length : ℤ)) := by
  have hcnt : (p.set2DMap true pmsg.digest pmsg.senderInfo).cntPrepareConfirm pmsg.digest =
      (p.cntPrepareConfirm pmsg.digest).insert pmsg.senderInfo := Function.update_self ..
  unfold Node.handlePrepare
  dsimp only
  rw [hcnt]
  split
  · exact .inl ⟨.refl p, rfl⟩
  · split
    · exact .inl ⟨.refl p, rfl⟩
    · right
      split
      · rename_i hfire
        exact ⟨⟨rfl, rfl, rfl⟩, .inr ⟨rfl, hfire.1⟩⟩
      · exact ⟨.refl _, .inl rfl⟩

/-- A commit is counted, and `reply` is called only when there are enough. -/
theorem handleCommit_votes (cmsg : Commit NodeInfoPtr) :
    SameVotes (p.set2DMap false cmsg.digest cmsg.senderInfo) (p.handleCommit cmsg).1 ∧
      commitDigests (p.handleCommit cmsg).2 = [] ∧
      ((p.handleCommit cmsg).1.isReply = p.isReply ∨
        2 * p.malicious_nums ≤ ((p.cntCommitConfirm cmsg.digest).insert cmsg.senderInfo).length) := by
  have hcnt : (p.set2DMap false cmsg.digest cmsg.senderInfo).cntCommitConfirm cmsg.digest =
      (p.cntCommitConfirm cmsg.digest).insert cmsg.senderInfo := Function.update_self ..
  unfold Node.handleCommit Node.reply
  dsimp only
  rw [hcnt]
  split
  · rename_i hfire
    -- a backup also sends its reply and goes on to the next sequence ID
    split
    · exact ⟨⟨rfl, rfl, rfl⟩, rfl, .inr hfire.1⟩
    · exact ⟨⟨rfl, rfl, rfl⟩, rfl, .inr hfire.1⟩
  · exact ⟨.refl _, rfl, .inl rfl⟩

end Handlers

/-! ## The invariant -/

/-- The number of prepares the leader, or a backup, waits for. -/
def prepareQuorum (malicious_nums : ℕ) (leader : Bool) : ℤ :=
  2 * malicious_nums - if leader then 0 else 1

theorem specifiedcnt_eq (p : Node) :
    p.specifiedcnt = prepareQuorum p.malicious_nums (isLeader p) := by
  unfold Node.specifiedcnt prepareQuorum isLeader
  by_cases h : p.nodeInfo.nodeID = p.view <;> simp [h]

/-- Every commit sent and every `reply` called had its quorum of different nodes. -/
structure State.Quorate (s : State) : Prop where
  bordcast : ∀ digest leader, (digest, leader) ∈ s.bordcast →
    prepareQuorum s.node.malicious_nums leader ≤ (s.preparers digest).card
  replied : ∀ digest ∈ s.replied, 2 * s.node.malicious_nums ≤ (s.committers digest).card

structure Inv (s : State) : Prop extends s.Quorate where
  prepared : ∀ digest, Counted (s.node.cntPrepareConfirm digest) (s.preparers digest)
  committed : ∀ digest, Counted (s.node.cntCommitConfirm digest) (s.committers digest)

theorem inv_initial (nodeInfo : NodeInfo) (shardSize : ℕ) : Inv (initial nodeInfo shardSize) where
  bordcast := by simp [initial]
  replied := by simp [initial]
  prepared := fun _ => .nil _
  committed := fun _ => .nil _

/-- A step that does not touch the votes and sends no commit. -/
theorem Inv.quiet {s s' : State} (h : Inv s) (hvotes : SameVotes s.node s'.node)
    (hreceived : s'.received = s.received) (hbordcast : s'.bordcast = s.bordcast)
    (hreplied : s'.replied = s.replied) : Inv s' := by
  have hpre : s'.preparers = s.preparers := by
    unfold State.preparers
    rw [hreceived]
  have hcom : s'.committers = s.committers := by
    unfold State.committers
    rw [hreceived]
  constructor
  · constructor
    · rw [hbordcast, hvotes.malicious_nums, hpre]
      exact h.bordcast
    · rw [hreplied, hvotes.malicious_nums, hcom]
      exact h.replied
  · rw [hvotes.cntPrepareConfirm, hpre]
    exact h.prepared
  · rw [hvotes.cntCommitConfirm, hcom]
    exact h.committed

theorem Inv.reset {s : State} (h : Inv s) : Inv { s with node := s.node.reset } where
  bordcast := h.bordcast
  replied := h.replied
  prepared := fun _ => .nil _
  committed := fun _ => .nil _

/-- The state after a message was taken in, before anything is made of it. -/
def State.receive (s : State) (msg : Message) : State :=
  { s with received := s.received ++ [msg] }

/-- One message more. -/
theorem toFinset_filterMap_concat (voter? : Message → Option ℕ) (msgs : List Message)
    (msg : Message) :
    ((msgs ++ [msg]).filterMap voter?).toFinset =
      (msgs.filterMap voter?).toFinset ∪ (voter? msg).toFinset := by
  rw [List.filterMap_append, List.toFinset_append]
  cases hmsg : voter? msg <;> simp [hmsg]

theorem preparers_receive (s : State) (msg : Message) (digest : Digest) :
    (s.receive msg).preparers digest =
      s.preparers digest ∪ (preparer? digest msg).toFinset :=
  toFinset_filterMap_concat ..

theorem committers_receive (s : State) (msg : Message) (digest : Digest) :
    (s.receive msg).committers digest =
      s.committers digest ∪ (committer? digest msg).toFinset :=
  toFinset_filterMap_concat ..

theorem Inv.receive {s : State} (h : Inv s) (msg : Message) : Inv (s.receive msg) := by
  have hpre : ∀ digest, s.preparers digest ⊆ (s.receive msg).preparers digest := by
    intro digest
    rw [preparers_receive]
    exact Finset.subset_union_left
  have hcom : ∀ digest, s.committers digest ⊆ (s.receive msg).committers digest := by
    intro digest
    rw [committers_receive]
    exact Finset.subset_union_left
  constructor
  · constructor
    · intro digest leader hmem
      have hcard := Finset.card_le_card (hpre digest)
      have hquorum := h.bordcast digest leader hmem
      exact hquorum.trans (by exact_mod_cast hcard)
    · intro digest hmem
      exact (h.replied digest hmem).trans (Finset.card_le_card (hcom digest))
  · intro digest
    exact (h.prepared digest).mono (hpre digest)
  · intro digest
    exact (h.committed digest).mono (hcom digest)

/-- A message is handled that is not counted. -/
theorem Inv.handled {s : State} (h : Inv s) {msg : Message} {p : Node} {out : List Message}
    (hvotes : SameVotes s.node p) (hout : commitDigests out = [])
    (hreplies : replies s.node p msg = []) : Inv (s.handled msg p out) := by
  refine (h.receive msg).quiet hvotes rfl ?_ ?_
  · simp [State.receive, State.handled, hout]
  · simp [State.receive, State.handled, hreplies]

section Steps

variable {getDigest : PbftRequest → Digest} {s s' : State}

theorem handle_prePrepare (s : State) (ppmsg : PrePrepare) :
    let r := s.node.handlePrePrepare getDigest ppmsg
    handle getDigest s (.prePrepare ppmsg) = some (s.handled (.prePrepare ppmsg) r.1 r.2) := rfl

theorem handle_prepare (s : State) (pmsg : Prepare NodeInfo) :
    let r := s.node.handlePrepare ⟨pmsg.digest, pmsg.seqID, ⟨s.heap, pmsg.senderInfo⟩⟩
    handle getDigest s (.prepare pmsg) = some (s.handled (.prepare pmsg) r.1 r.2) := rfl

theorem handle_commit (s : State) (cmsg : Commit NodeInfo) :
    let r := s.node.handleCommit ⟨cmsg.digest, cmsg.seqID, ⟨s.heap, cmsg.senderInfo⟩⟩
    handle getDigest s (.commit cmsg) = some (s.handled (.commit cmsg) r.1 r.2) := rfl

/-- A prepare from a node that was not counted yet. -/
theorem Inv.prepare (h : Inv s) {pmsg : Prepare NodeInfo}
    (hnew : NotCounted (s.node.cntPrepareConfirm pmsg.digest) pmsg.senderInfo)
    (hstep : handle getDigest s (.prepare pmsg) = some s') : Inv s' := by
  rw [handle_prepare, Option.some.injEq] at hstep
  have hvotes := handlePrepare_votes (p := s.node)
    ⟨pmsg.digest, pmsg.seqID, ⟨s.heap, pmsg.senderInfo⟩⟩
  generalize s.node.handlePrepare ⟨pmsg.digest, pmsg.seqID, ⟨s.heap, pmsg.senderInfo⟩⟩ = r
    at hstep hvotes
  subst hstep
  rcases hvotes with ⟨hsame, hout⟩ | ⟨hsame, hout⟩
  · exact h.handled hsame hout rfl
  · -- first the message is taken in, then its sender is counted
    have hrec := h.receive (.prepare pmsg)
    have hmem : pmsg.senderInfo.nodeID ∈ (s.receive (.prepare pmsg)).preparers pmsg.digest := by
      rw [preparers_receive]
      simp [preparer?]
    have hcounted : Counted ((s.node.cntPrepareConfirm pmsg.digest).insert ⟨s.heap, pmsg.senderInfo⟩)
        ((s.receive (.prepare pmsg)).preparers pmsg.digest) :=
      (hrec.prepared pmsg.digest).insert hnew hmem
    constructor
    · constructor
      · intro digest leader hin
        dsimp only [State.handled] at hin ⊢
        rw [hsame.malicious_nums]
        rcases List.mem_append.mp hin with hold | hsent
        · exact hrec.bordcast digest leader hold
        · rcases hout with hout | ⟨hout, hquorum⟩
          · simp [hout] at hsent
          · -- the commit is sent because of the entries, and these are of different nodes
            rw [hout, List.map_singleton, List.mem_singleton] at hsent
            cases hsent
            rw [specifiedcnt_eq] at hquorum
            exact hquorum.trans (by exact_mod_cast hcounted.length_le)
      · intro digest hin
        dsimp only [State.handled] at hin ⊢
        rw [hsame.malicious_nums]
        exact hrec.replied digest (by simpa [replies, State.receive] using hin)
    · intro digest
      dsimp only [State.handled]
      rw [hsame.cntPrepareConfirm]
      exact Counted.update hrec.prepared hcounted digest
    · intro digest
      dsimp only [State.handled]
      rw [hsame.cntCommitConfirm]
      exact hrec.committed digest

/-- A commit from a node that was not counted yet. -/
theorem Inv.commit (h : Inv s) {cmsg : Commit NodeInfo}
    (hnew : NotCounted (s.node.cntCommitConfirm cmsg.digest) cmsg.senderInfo)
    (hstep : handle getDigest s (.commit cmsg) = some s') : Inv s' := by
  rw [handle_commit, Option.some.injEq] at hstep
  obtain ⟨hsame, hout, hreply⟩ :=
    handleCommit_votes (p := s.node) ⟨cmsg.digest, cmsg.seqID, ⟨s.heap, cmsg.senderInfo⟩⟩
  generalize s.node.handleCommit ⟨cmsg.digest, cmsg.seqID, ⟨s.heap, cmsg.senderInfo⟩⟩ = r
    at hstep hsame hout hreply
  subst hstep
  have hrec := h.receive (.commit cmsg)
  have hmem : cmsg.senderInfo.nodeID ∈ (s.receive (.commit cmsg)).committers cmsg.digest := by
    rw [committers_receive]
    simp [committer?]
  have hcounted : Counted ((s.node.cntCommitConfirm cmsg.digest).insert ⟨s.heap, cmsg.senderInfo⟩)
      ((s.receive (.commit cmsg)).committers cmsg.digest) :=
    (hrec.committed cmsg.digest).insert hnew hmem
  constructor
  · constructor
    · intro digest leader hin
      dsimp only [State.handled] at hin ⊢
      rw [hout, List.map_nil, List.append_nil] at hin
      rw [hsame.malicious_nums]
      exact hrec.bordcast digest leader hin
    · intro digest hin
      dsimp only [State.handled] at hin ⊢
      rw [hsame.malicious_nums]
      rcases List.mem_append.mp hin with hold | hcalled
      · exact hrec.replied digest hold
      · dsimp only [replies] at hcalled
        split at hcalled
        · rename_i hflip
          rw [List.mem_singleton] at hcalled
          rw [hcalled]
          rcases hreply with hsame' | hquorum
          · -- `isReply` went from false to true, so it is not as before
            rw [hsame', hflip.1] at hflip
            cases hflip.2
          · exact hquorum.trans hcounted.length_le
        · cases hcalled
  · intro digest
    dsimp only [State.handled]
    rw [hsame.cntPrepareConfirm]
    exact hrec.prepared digest
  · intro digest
    dsimp only [State.handled]
    rw [hsame.cntCommitConfirm]
    exact Counted.update hrec.committed hcounted digest

theorem Inv.handle (h : Inv s) {msg : Message} (hok : firstVotes s (.deliver (.pbft msg)))
    (hstep : handle getDigest s msg = some s') : Inv s' := by
  cases msg with
  | prePrepare ppmsg =>
      rw [handle_prePrepare, Option.some.injEq] at hstep
      obtain ⟨hsame, hout⟩ := @handlePrePrepare_votes getDigest s.node ppmsg
      rw [← hstep]
      exact h.handled hsame hout rfl
  | prepare pmsg => exact h.prepare hok hstep
  | commit cmsg => exact h.commit hok hstep
  | reply rmsg =>
      obtain ⟨messageID, info, result⟩ := rmsg
      dsimp only [Votes.handle, Node.handlePbftMsg] at hstep
      cases hreply : s.node.handleReply ⟨messageID, ⟨s.heap, info⟩, result⟩ with
      | error fault =>
          rw [hreply] at hstep
          cases hstep
      | ok p =>
          rw [hreply] at hstep
          cases hstep
          exact h.handled (handleReply_votes hreply) rfl rfl

theorem inv_step {ev : Event} (hok : firstVotes s ev) (hstep : step getDigest s ev = some s')
    (h : Inv s) : Inv s' := by
  unfold step at hstep
  split at hstep
  · cases hstep
  · split at hstep
    · exact h.handle hok hstep
    · cases hstep
      exact h
    · -- without old requests `HandleSendOldSeq` calls no `reply`
      rename_i som
      cases hstep
      have hnone : som.oldRequest = [] := hok
      have hreplied : (handleOld getDigest s som).replied = s.replied := by
        simp [handleOld, hnone]
      have hvotes : SameVotes s.node (handleOld getDigest s som).node := by
        unfold handleOld Node.handleSendOldSeq
        rw [hnone]
        dsimp only [Node.replyOld]
        split <;> exact ⟨rfl, rfl, rfl⟩
      exact h.quiet hvotes rfl rfl hreplied
    · unfold setSequenceID at hstep
      split at hstep
      · cases hstep
      · rename_i p hset
        cases hstep
        exact h.quiet (setSequenceID_votes hset) rfl rfl rfl
    · unfold propose at hstep
      split at hstep
      · cases hstep
      · rename_i p out hpropose
        cases hstep
        obtain ⟨hsame, hout⟩ := propose_votes hpropose
        exact h.quiet hsame rfl (by simp [hout]) rfl
    · cases hstep
      exact h.quiet ⟨rfl, rfl, rfl⟩ rfl rfl rfl
    · cases hstep
      exact h.quiet ⟨rfl, rfl, rfl⟩ rfl rfl rfl
    · cases hstep
      exact h.reset

/-- In runs in which no sender is heard twice for a digest, a commit is sent on the
prepares, and `reply` called on the commits, of as many different nodes as there should be. -/
theorem quorate_of_firstVotes (h : (machine getDigest).ReachableBy firstVotes s) : s.Quorate := by
  have hinv : Inv s := by
    refine Sys.Machine.invariant_by Inv ?_ ?_ h
    · rintro s₀ ⟨nodeInfo, shardSize, rfl⟩
      exact inv_initial nodeInfo shardSize
    · intro t ev t' hok hstep ht
      exact inv_step hok hstep ht
  exact hinv.toQuorate

end Steps

/-! ## One node is a quorum -/

/-- The leader of four nodes proposes a block and hears node 3 only, twice each time. -/
def repeatedVotes : List Event :=
  let prepare : Message := .prepare ⟨Network.digestOne, 0, ⟨3⟩⟩
  let commit : Message := .commit ⟨Network.digestOne, 0, ⟨3⟩⟩
  [.propose [1] 1, .deliver (.pbft prepare), .deliver (.pbft prepare), .deliver (.pbft commit),
    .deliver (.pbft commit)]

theorem one_node_quorum :
    ∃ s, (machine Network.exampleDigest).Reachable s ∧ s.node.malicious_nums = 1 ∧
      (Network.digestOne, true) ∈ s.bordcast ∧ s.preparers Network.digestOne = {3} ∧
      Network.digestOne ∈ s.replied ∧ s.committers Network.digestOne = {3} :=
  Sys.Machine.exists_reachableBy _ ⟨⟨0⟩, 4, rfl⟩ repeatedVotes (by decide +kernel)

/-- The leader hears two backups. -/
def votesOfTwo : List Event :=
  let prepare (id : ℕ) : Message := .prepare ⟨Network.digestOne, 0, ⟨id⟩⟩
  let commit (id : ℕ) : Message := .commit ⟨Network.digestOne, 0, ⟨id⟩⟩
  [.propose [1] 1, .deliver (.pbft (prepare 1)), .deliver (.pbft (prepare 2)),
    .deliver (.pbft (commit 1)), .deliver (.pbft (commit 2))]

theorem quorate_votesOfTwo :
    ∃ s, (machine Network.exampleDigest).ReachableBy firstVotes s ∧
      (Network.digestOne, true) ∈ s.bordcast ∧ Network.digestOne ∈ s.replied ∧ s.Quorate := by
  obtain ⟨s, hs, hbordcast, hreplied⟩ :
      ∃ s, (machine Network.exampleDigest).ReachableBy firstVotes s ∧
        (Network.digestOne, true) ∈ s.bordcast ∧ Network.digestOne ∈ s.replied :=
    Sys.Machine.exists_reachableBy _ ⟨⟨0⟩, 4, rfl⟩ votesOfTwo (by decide +kernel)
  exact ⟨s, hs, hbordcast, hreplied, quorate_of_firstVotes hs⟩

end Votes

end Pbft

end LessChain
