import LessChain.Pbft.Votes

/-!
# The locks of the PBFT node

`sequenceLock` is taken by `Propose` at the leader and given back by `HandleReply`, in another
goroutine, once there are enough replies. `askForLock` is given back by `HandleSendOldSeq`; the
line that would take it is commented out. Unlocking a mutex that is free ends the process.

`HandleReply` counts messages, whatever sequence they are for and whether or not anything was
proposed. In orderly runs a reply that is counted is for the proposal that waits for it, and
then the lock is held exactly as long as there is such a proposal.

`proposals` is not in the program: what was proposed, each with the number of replies to its
sequence ID that the node has handled since.
-/

namespace LessChain

namespace Pbft

namespace Locks

open Network (exampleDigest)
open Votes (Event Incoming)

structure Proposal where
  seqID : ℕ
  replies : ℕ
deriving DecidableEq

structure State where
  node : Node
  /-- the next address the allocator gives out -/
  heap : ℕ
  /-- whether `askForLock` is held -/
  askForLock : Bool
  /-- `fatal error: sync: unlock of unlocked mutex` -/
  fatal : Bool
  proposals : List Proposal

/-- The replies a proposal needs: two for each Byzantine node, and one if there is none, because
`HandleReply` looks at the counter only when a reply has come. -/
def replyQuorum (malicious_nums : ℕ) : ℕ := max 1 (2 * malicious_nums)

/-- The proposal has not yet collected its replies. -/
def Proposal.Open (malicious_nums : ℕ) (pr : Proposal) : Prop :=
  pr.replies < replyQuorum malicious_nums

instance (malicious_nums : ℕ) (pr : Proposal) : Decidable (pr.Open malicious_nums) :=
  inferInstanceAs (Decidable (_ < _))

/-- A message is handled. -/
def Proposal.receive (pr : Proposal) : Message → Proposal
  | .reply rmsg => if rmsg.messageID = pr.seqID then { pr with replies := pr.replies + 1 } else pr
  | _ => pr

section Model

variable (getDigest : PbftRequest → Digest)

def handle (s : State) (msg : Message) : Option State :=
  match s.node.handlePbftMsg getDigest s.heap msg with
  | .error .blocked => none
  | .error .unlockOfUnlocked => some { s with fatal := true }
  | .ok (p, _) => some { s with
      node := p
      heap := s.heap + 1
      proposals := s.proposals.map (·.receive msg) }

/-- `HandleSendOldSeq` with its last line. -/
def handleOld (s : State) (som : SendOldMessage) : State :=
  let s := { s with node := (s.node.handleSendOldSeq getDigest som).1 }
  if s.askForLock then { s with askForLock := false } else { s with fatal := true }

def setSequenceID (s : State) (id : ℕ) : Option State :=
  match s.node.setSequenceID id with
  | .error _ => none
  | .ok p => some { s with node := p }

def propose (s : State) (rlp_block : Bytes) (now : ℤ) : Option State :=
  match s.node.propose getDigest rlp_block now with
  | .error _ => none
  | .ok (p, _) => some { s with
      node := p
      proposals :=
        if s.node.nodeInfo.nodeID = s.node.view then s.proposals ++ [⟨s.node.sequenceID, 0⟩]
        else s.proposals }

def step (s : State) (ev : Event) : Option State :=
  if s.fatal then none
  else match ev with
    | .deliver (.pbft msg) => handle getDigest s msg
    -- the leader sends its old requests back and stays as it is
    | .deliver (.requestOld _) => some s
    | .deliver (.sendOld som) => some (handleOld getDigest s som)
    | .setSequenceID id => setSequenceID s id
    | .propose rlp_block now => propose getDigest s rlp_block now
    | .consensusDone => some { s with node := { s.node with oneConsensusDone := false } }
    | .updateNodeInfo nodeInfo => some { s with node := { s.node with nodeInfo := nodeInfo } }
    | .reset => some { s with node := s.node.reset }

def initial (nodeInfo : NodeInfo) (shardSize : ℕ) : State where
  node := newPbftNode nodeInfo shardSize
  heap := 0
  askForLock := false
  fatal := false
  proposals := []

def machine : Sys.Machine State Event :=
  ⟨fun s => ∃ nodeInfo shardSize, s = initial nodeInfo shardSize, step getDigest⟩

end Model

/-! ## The assumption -/

/-- A reply that is counted is for the proposal that waits for it, what is proposed does not have
enough replies from an earlier round, old requests are never sent, and a node is reconfigured only
while nothing is proposed. -/
def orderly (s : State) : Event → Prop
  | .deliver (.pbft (.reply rmsg)) => s.node.Counts rmsg.messageID →
      s.node.sequenceLock = true ∧
        s.proposals.getLast?.map Proposal.seqID = some rmsg.messageID
  | .deliver (.sendOld _) => False
  | .propose _ _ => s.node.nodeInfo.nodeID = s.node.view →
      s.node.gotEnoughReply s.node.sequenceID = false
  | .updateNodeInfo _ => s.node.sequenceLock = false
  | .reset => s.node.sequenceLock = false
  | _ => True

instance (s : State) (ev : Event) : Decidable (orderly s ev) :=
  match ev with
  | .deliver (.pbft (.reply _)) => inferInstanceAs (Decidable (_ → _))
  | .deliver (.pbft (.prePrepare _)) => .isTrue trivial
  | .deliver (.pbft (.prepare _)) => .isTrue trivial
  | .deliver (.pbft (.commit _)) => .isTrue trivial
  | .deliver (.requestOld _) => .isTrue trivial
  | .deliver (.sendOld _) => .isFalse id
  | .setSequenceID _ => .isTrue trivial
  | .propose _ _ => inferInstanceAs (Decidable (_ → _))
  | .consensusDone => .isTrue trivial
  | .updateNodeInfo _ => inferInstanceAs (Decidable (_ = _))
  | .reset => inferInstanceAs (Decidable (_ = _))

/-! ## The invariant -/

/-- No free lock was unlocked, and `sequenceLock` is held exactly while a proposal waits for its
replies. -/
structure Disciplined (s : State) : Prop where
  alive : s.fatal = false
  held_iff : s.node.sequenceLock = true ↔ ∃ pr ∈ s.proposals, pr.Open s.node.malicious_nums

/-- The lock is held for the last proposal, whose replies `replyCnt` counts. -/
structure Waiting (p : Node) (settled : List Proposal) (pr : Proposal) : Prop where
  closed : ∀ d ∈ settled, ¬ d.Open p.malicious_nums
  opened : pr.Open p.malicious_nums
  replyCnt : pr.replies = p.replyCnt
  counts : p.Counts pr.seqID

structure Inv (s : State) : Prop where
  alive : s.fatal = false
  free : s.node.sequenceLock = false →
    s.node.replyCnt = 0 ∧ ∀ pr ∈ s.proposals, ¬ pr.Open s.node.malicious_nums
  held : s.node.sequenceLock = true →
    ∃ settled pr, s.proposals = settled ++ [pr] ∧ Waiting s.node settled pr

theorem Inv.disciplined {s : State} (h : Inv s) : Disciplined s := by
  refine ⟨h.alive, ?_, ?_⟩
  · intro hlock
    obtain ⟨settled, pr, hproposals, hwaiting⟩ := h.held hlock
    exact ⟨pr, by simp [hproposals], hwaiting.opened⟩
  · rintro ⟨pr, hmem, hopen⟩
    by_contra hfree
    rw [Bool.not_eq_true] at hfree
    exact (h.free hfree).2 pr hmem hopen

theorem inv_initial (nodeInfo : NodeInfo) (shardSize : ℕ) : Inv (initial nodeInfo shardSize) where
  alive := rfl
  free := fun _ => ⟨rfl, by simp [initial]⟩
  held := by
    intro hlock
    cases hlock

variable {msg : Message} {pr : Proposal}

theorem Waiting.of_sameRound {p p' : Node} {settled : List Proposal}
    (h : Waiting p settled pr) (hround : Node.SameRound p p') : Waiting p' settled pr := by
  constructor
  · rw [hround.malicious_nums]
    exact h.closed
  · rw [hround.malicious_nums]
    exact h.opened
  · rw [hround.replyCnt]
    exact h.replyCnt
  · unfold Node.Counts
    rw [hround.nodeInfo, hround.view, hround.gotEnoughReply]
    exact h.counts

/-- A step that is not about the round of the leader. -/
theorem Inv.of_sameRound {s s' : State} (h : Inv s) (hround : Node.SameRound s.node s'.node)
    (hfatal : s'.fatal = s.fatal) (hproposals : s'.proposals = s.proposals) : Inv s' := by
  constructor
  · rw [hfatal]
    exact h.alive
  · rw [hround.sequenceLock, hround.replyCnt, hround.malicious_nums, hproposals]
    exact h.free
  · rw [hround.sequenceLock, hproposals]
    intro hlock
    obtain ⟨settled, pr, heq, hwaiting⟩ := h.held hlock
    exact ⟨settled, pr, heq, hwaiting.of_sameRound hround⟩

/-! ## Replies -/

theorem Proposal.receive_of_ne (hmsg : ∀ rmsg, msg ≠ .reply rmsg) :
    pr.receive msg = pr := by
  cases msg with
  | reply rmsg => exact absurd rfl (hmsg rmsg)
  | prePrepare | prepare | commit => rfl

theorem Proposal.receive_other {rmsg : Reply NodeInfo}
    (hne : rmsg.messageID ≠ pr.seqID) : pr.receive (.reply rmsg) = pr :=
  if_neg hne

theorem Proposal.receive_own {rmsg : Reply NodeInfo}
    (heq : rmsg.messageID = pr.seqID) :
    pr.receive (.reply rmsg) = { pr with replies := pr.replies + 1 } :=
  if_pos heq

/-- A proposal that has its replies may get more. -/
theorem Proposal.not_open_receive {f : ℕ} (h : ¬ pr.Open f) :
    ¬ (pr.receive msg).Open f := by
  unfold Proposal.Open at h ⊢
  cases msg with
  | reply rmsg =>
      dsimp only [Proposal.receive]
      split
      · dsimp only
        omega
      · exact h
  | prePrepare | prepare | commit => exact h

theorem not_open_map_receive {f : ℕ} {proposals : List Proposal}
    (h : ∀ pr ∈ proposals, ¬ pr.Open f) :
    ∀ pr ∈ proposals.map (·.receive msg), ¬ pr.Open f := by
  intro pr hmem
  obtain ⟨d, hd, rfl⟩ := List.mem_map.mp hmem
  exact Proposal.not_open_receive (h d hd)

section Steps

variable {getDigest : PbftRequest → Digest} {s s' : State}

/-- The state after a message that was handled to its end. -/
theorem handle_eq {msg : Message} (halive : s.fatal = false)
    (hok : orderly s (.deliver (.pbft msg))) (hstep : handle getDigest s msg = some s') :
    ∃ p out, s.node.handlePbftMsg getDigest s.heap msg = .ok (p, out) ∧ s'.fatal = false ∧
      s'.node = p ∧ s'.proposals = s.proposals.map (·.receive msg) := by
  unfold handle at hstep
  split at hstep
  · cases hstep
  · -- a counted reply comes only while the lock is held
    rename_i herror
    obtain ⟨rmsg, rfl, hcounts, hfree⟩ := Node.handlePbftMsg_unlockOfUnlocked herror
    have hheld := (hok hcounts).1
    rw [hfree] at hheld
    cases hheld
  · rename_i p out hhandled
    cases hstep
    exact ⟨p, out, hhandled, halive, rfl, rfl⟩

variable {rmsg : Reply NodeInfo}

/-- A reply that is not counted is not for the open proposal. -/
theorem Inv.dropped (h : Inv s)
    (hnot : ¬ s.node.Counts rmsg.messageID) (hfatal : s'.fatal = false)
    (hnode : s'.node = s.node)
    (hproposals : s'.proposals = s.proposals.map (·.receive (.reply rmsg))) : Inv s' := by
  refine ⟨hfatal, ?_, ?_⟩
  · rw [hnode, hproposals]
    intro hfree
    obtain ⟨hcnt, hclosed⟩ := h.free hfree
    exact ⟨hcnt, not_open_map_receive hclosed⟩
  · rw [hnode, hproposals]
    intro hlock
    obtain ⟨settled, pr, heq, hwaiting⟩ := h.held hlock
    have hother : rmsg.messageID ≠ pr.seqID := by
      intro hid
      rw [hid] at hnot
      exact hnot hwaiting.counts
    refine ⟨settled.map (·.receive (.reply rmsg)), pr, ?_, ?_⟩
    · rw [heq, List.map_append, List.map_singleton, Proposal.receive_other hother]
    · exact { hwaiting with closed := not_open_map_receive hwaiting.closed }

/-- A reply that is counted is for the open proposal. -/
theorem Inv.open_of_counts (h : Inv s)
    (hok : orderly s (.deliver (.pbft (.reply rmsg)))) (hcounts : s.node.Counts rmsg.messageID) :
    s.node.sequenceLock = true ∧ ∃ settled pr, s.proposals = settled ++ [pr] ∧
      rmsg.messageID = pr.seqID ∧ Waiting s.node settled pr := by
  obtain ⟨hlock, hlast⟩ := hok hcounts
  obtain ⟨settled, pr, heq, hwaiting⟩ := h.held hlock
  refine ⟨hlock, settled, pr, heq, ?_, hwaiting⟩
  simpa [heq] using hlast.symm

theorem Inv.reply (h : Inv s) {p : Node}
    (hok : orderly s (.deliver (.pbft (.reply rmsg))))
    (hreplied : Node.Replied s.node rmsg.messageID p) (hfatal : s'.fatal = false)
    (hnode : s'.node = p)
    (hproposals : s'.proposals = s.proposals.map (·.receive (.reply rmsg))) : Inv s' := by
  cases hreplied with
  | dropped hnot => exact h.dropped hnot hfatal hnode hproposals
  | counted hcounts hfew =>
      obtain ⟨hlock, settled, pr, heq, hid, hwaiting⟩ := h.open_of_counts hok hcounts
      have hstays : s'.node.sequenceLock = true := by
        rw [hnode]
        exact hlock
      refine ⟨hfatal, ?_, ?_⟩
      · intro hfree
        rw [hstays] at hfree
        cases hfree
      · intro _
        refine ⟨settled.map (·.receive (.reply rmsg)), { pr with replies := pr.replies + 1 },
          ?_, ?_⟩
        · rw [hproposals, heq, List.map_append, List.map_singleton, Proposal.receive_own hid]
        · rw [hnode]
          have hcnt := hwaiting.replyCnt
          constructor
          · exact not_open_map_receive hwaiting.closed
          · unfold Proposal.Open replyQuorum
            dsimp only
            omega
          · exact congrArg (· + 1) hcnt
          · exact hwaiting.counts
  | completed hcounts henough hempty hlock =>
      obtain ⟨-, settled, pr, heq, hid, hwaiting⟩ := h.open_of_counts hok hcounts
      refine ⟨hfatal, ?_, ?_⟩
      · rw [hnode, hproposals, heq, List.map_append, List.map_singleton,
          Proposal.receive_own hid]
        intro _
        refine ⟨rfl, ?_⟩
        intro d hd
        rcases List.mem_append.mp hd with hold | hnew
        · exact not_open_map_receive hwaiting.closed d hold
        · -- the last reply it was waiting for
          rw [List.mem_singleton] at hnew
          rw [hnew]
          have hcnt := hwaiting.replyCnt
          unfold Proposal.Open replyQuorum Node.completeRound
          dsimp only
          omega
      · rw [hnode]
        intro hheld
        cases hheld

theorem Inv.handle (h : Inv s) {msg : Message} (hok : orderly s (.deliver (.pbft msg)))
    (hstep : handle getDigest s msg = some s') : Inv s' := by
  obtain ⟨p, out, hhandled, hfatal, hnode, hproposals⟩ := handle_eq h.alive hok hstep
  by_cases hmsg : ∀ rmsg, msg ≠ .reply rmsg
  · have hround := Node.handlePbftMsg_round hmsg hhandled
    have hsame : s'.proposals = s.proposals := by
      rw [hproposals]
      simp [Proposal.receive_of_ne hmsg]
    refine h.of_sameRound ?_ (hfatal.trans h.alive.symm) hsame
    rw [hnode]
    exact hround
  · push Not at hmsg
    obtain ⟨rmsg, rfl⟩ := hmsg
    exact h.reply hok (Node.handlePbftMsg_reply hhandled) hfatal hnode hproposals

/-! ## Proposals and reconfigurations -/

theorem Inv.setSequenceID (h : Inv s) {id : ℕ} (hstep : setSequenceID s id = some s') :
    Inv s' := by
  unfold Locks.setSequenceID at hstep
  split at hstep
  · cases hstep
  · rename_i p hset
    cases hstep
    exact h.of_sameRound (Node.setSequenceID_round hset).1 rfl rfl

theorem Inv.propose (h : Inv s) {rlp_block : Bytes} {now : ℤ}
    (hok : orderly s (.propose rlp_block now))
    (hstep : propose getDigest s rlp_block now = some s') : Inv s' := by
  unfold Locks.propose at hstep
  split at hstep
  · cases hstep
  · rename_i p out hpropose
    rcases Node.propose_round hpropose with ⟨hbackup, hsame⟩ | ⟨hleader, hfree, hround⟩
    · rw [if_neg hbackup, hsame] at hstep
      cases hstep
      exact h
    · rw [if_pos hleader] at hstep
      cases hstep
      obtain ⟨hcnt, hclosed⟩ := h.free hfree
      refine ⟨h.alive, ?_, ?_⟩
      · intro hstill
        dsimp only at hstill
        rw [hround.sequenceLock] at hstill
        cases hstill
      · intro _
        refine ⟨s.proposals, ⟨s.node.sequenceID, 0⟩, rfl, ?_⟩
        have hwaiting : Waiting { s.node with sequenceLock := true } s.proposals
            ⟨s.node.sequenceID, 0⟩ := by
          refine ⟨hclosed, ?_, hcnt.symm, hleader, hok hleader⟩
          unfold Proposal.Open replyQuorum
          dsimp only
          omega
        exact hwaiting.of_sameRound hround

/-- A reconfiguration finds the lock free. -/
theorem Inv.reconfigured (h : Inv s) {p : Node} (hfree : s.node.sequenceLock = false)
    (hlock : p.sequenceLock = s.node.sequenceLock)
    (hnums : p.malicious_nums = s.node.malicious_nums)
    (hcnt : p.replyCnt = s.node.replyCnt ∨ p.replyCnt = 0) : Inv { s with node := p } := by
  obtain ⟨hzero, hclosed⟩ := h.free hfree
  refine ⟨h.alive, ?_, ?_⟩
  · intro _
    dsimp only
    rw [hnums]
    refine ⟨?_, hclosed⟩
    rcases hcnt with hcnt | hcnt
    · rw [hcnt, hzero]
    · exact hcnt
  · intro hheld
    dsimp only at hheld
    rw [hlock, hfree] at hheld
    cases hheld

theorem inv_step {ev : Event} (hok : orderly s ev) (hstep : step getDigest s ev = some s')
    (h : Inv s) : Inv s' := by
  unfold step at hstep
  rw [if_neg (by simp [h.alive])] at hstep
  split at hstep
  · exact h.handle hok hstep
  · cases hstep
    exact h
  · exact hok.elim
  · exact h.setSequenceID hstep
  · exact h.propose hok hstep
  · -- the token is taken out of the channel
    cases hstep
    refine ⟨h.alive, h.free, ?_⟩
    intro hlock
    obtain ⟨settled, pr, heq, hwaiting⟩ := h.held hlock
    exact ⟨settled, pr, heq, hwaiting.closed, hwaiting.opened, hwaiting.replyCnt, hwaiting.counts⟩
  · cases hstep
    exact h.reconfigured hok rfl rfl (.inl rfl)
  · cases hstep
    exact h.reconfigured hok rfl rfl (.inr rfl)

/-- In orderly runs no step unlocks a lock that is free, and `sequenceLock` is held exactly while
a proposal waits for its replies. -/
theorem disciplined_of_orderly (h : (machine getDigest).ReachableBy orderly s) :
    Disciplined s := by
  refine (Sys.Machine.invariant_by Inv ?_ ?_ h).disciplined
  · rintro s₀ ⟨nodeInfo, shardSize, rfl⟩
    exact inv_initial nodeInfo shardSize
  · intro t ev t' hok hstep ht
    exact inv_step hok hstep ht

end Steps

/-! ## Runs that are not orderly -/

/-- The leader of a committee of four. -/
def exampleStart : State := initial ⟨0⟩ 4

theorem init_exampleStart : (machine exampleDigest).Init exampleStart := ⟨⟨0⟩, 4, rfl⟩

/-- A reply from a backup. -/
def replyFrom (nodeID messageID : ℕ) : Event :=
  .deliver (.pbft (.reply ⟨messageID, ⟨nodeID⟩, true⟩))

/-- One message with old requests ends the process, and so do two replies when nothing is proposed.
Two replies that are for another sequence ID free the lock of a proposal that has none yet. -/
theorem unlocks_without_lock :
    (∃ s, (machine exampleDigest).Reachable s ∧ s.askForLock = false ∧ s.fatal = true) ∧
    (∃ s, (machine exampleDigest).Reachable s ∧ s.node.sequenceLock = false ∧
      s.proposals = [] ∧ s.fatal = true) ∧
    ∃ s, (machine exampleDigest).Reachable s ∧ s.node.sequenceLock = false ∧ s.fatal = false ∧
      s.proposals = [⟨2, 0⟩] := by
  refine ⟨?_, ?_, ?_⟩
  · exact Sys.Machine.exists_reachableBy _ init_exampleStart [.deliver (.sendOld ⟨1, 0, [], ⟨0⟩⟩)]
      (by decide +kernel)
  · exact Sys.Machine.exists_reachableBy _ init_exampleStart [replyFrom 1 1, replyFrom 2 1]
      (by decide +kernel)
  · exact Sys.Machine.exists_reachableBy _ init_exampleStart
      [.setSequenceID 2, .propose [1] 1, replyFrom 1 1, replyFrom 2 1] (by decide +kernel)

/-- Two rounds, the first of them with a late reply. -/
theorem disciplined_of_orderly_rounds :
    ∃ s, (machine exampleDigest).ReachableBy orderly s ∧ s.proposals = [⟨1, 3⟩, ⟨2, 1⟩] ∧
      Disciplined s := by
  obtain ⟨s, hs, hproposals⟩ : ∃ s, (machine exampleDigest).ReachableBy orderly s ∧
      s.proposals = [⟨1, 3⟩, ⟨2, 1⟩] :=
    Sys.Machine.exists_reachableBy _ init_exampleStart
      [.setSequenceID 1, .propose [1] 1, replyFrom 1 1, replyFrom 2 1, .consensusDone,
        .setSequenceID 2, .propose [2] 1, replyFrom 3 1, replyFrom 1 2] (by decide +kernel)
  exact ⟨s, hs, hproposals, disciplined_of_orderly hs⟩

end Locks

end Pbft

end LessChain
