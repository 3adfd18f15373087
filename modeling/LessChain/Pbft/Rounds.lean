import LessChain.Pbft.Votes

/-!
# The rounds of the leader

`RunPbft` sets the sequence ID of a block, proposes it and waits for `OneConsensusDone`, which
`HandleReply` signals when `replyCnt` has come to `2f`. There is one such counter for all
sequence IDs and it does not know whose replies it counts, so a backup that replies twice, or
replies to an earlier round that come late, end the round as well. A token that is in the channel
when `RunPbft` returns because of `exit` ends the round after it.

In fresh runs every reply that is counted is the first one, in this round, of a backup that has
sent it since the block was proposed. Then a round ends only after `2f` backups have replied.

`sent`, `since`, `counted`, `proposer` and `returned` are not in the program.
-/

namespace LessChain

namespace Pbft

namespace Rounds

open Network (exampleDigest)

/-- Where `RunPbft` is. -/
inductive Pc where
  | idle
  | propose (seqID : ℕ)
  | select (seqID : ℕ)
deriving DecidableEq

/-- `RunPbft` has returned through `OneConsensusDone`, after replies from these backups. -/
structure Returned where
  seqID : ℕ
  backups : Finset ℕ
deriving DecidableEq

structure State where
  node : Node
  /-- the next address the allocator gives out -/
  heap : ℕ
  pc : Pc
  /-- every reply that was sent; it may arrive late, and more than once -/
  sent : List (Reply NodeInfo)
  /-- the replies sent since the last proposal -/
  since : List (Reply NodeInfo)
  /-- the senders of the replies counted since the last proposal -/
  counted : List ℕ
  /-- the node ID under which the block was proposed, if it was -/
  proposer : Option ℕ
  returned : List Returned

inductive Event where
  | runPbft (seqID : ℕ)
  | propose (rlp_block : Bytes) (now : ℤ)
  | consensusDone
  | exit
  | send (rmsg : Reply NodeInfo)
  | deliver (msg : Message)
  | updateNodeInfo (nodeInfo : NodeInfo)
  | reset

/-- The backups that have replied to `seqID` since the block was proposed. -/
def State.backups (s : State) (seqID : ℕ) : Finset ℕ :=
  match s.proposer with
  | none => ∅
  | some leader =>
      ((s.since.filter (·.messageID = seqID)).map (·.senderInfo.nodeID)).toFinset.erase leader

section Model

variable (getDigest : PbftRequest → Digest)

/-- `RunPbft` up to `Propose`. -/
def runPbft (s : State) (seqID : ℕ) : Option State :=
  match s.pc, s.node.setSequenceID seqID with
  | .idle, .ok p => some { s with node := p, pc := .propose seqID }
  | _, _ => none

def propose (s : State) (rlp_block : Bytes) (now : ℤ) : Option State :=
  match s.pc, s.node.propose getDigest rlp_block now with
  | .propose seqID, .ok (p, _) => some { s with
      node := p
      pc := .select seqID
      since := []
      counted := []
      proposer :=
        if s.node.nodeInfo.nodeID = s.node.view then some s.node.nodeInfo.nodeID else none }
  | _, _ => none

/-- The first case of the `select` in `RunPbft`. -/
def consensusDone (s : State) : Option State :=
  match s.pc with
  | .select seqID =>
      if s.node.oneConsensusDone then some { s with
        node := { s.node with oneConsensusDone := false }
        pc := .idle
        returned := s.returned ++ [⟨seqID, s.backups seqID⟩] }
      else none
  | _ => none

/-- Its second case. -/
def exit (s : State) : Option State :=
  match s.pc with
  | .select _ => some { s with pc := .idle }
  | _ => none

/-- A reply that is counted. -/
def State.count (s : State) : Message → List ℕ
  | .reply rmsg =>
      if s.node.Counts rmsg.messageID then s.counted ++ [rmsg.senderInfo.nodeID] else s.counted
  | _ => s.counted

/-- Nobody invents a reply. -/
def State.CanArrive (s : State) : Message → Prop
  | .reply rmsg => rmsg ∈ s.sent
  | _ => True

instance (s : State) (msg : Message) : Decidable (s.CanArrive msg) :=
  match msg with
  | .reply _ => inferInstanceAs (Decidable (_ ∈ _))
  | .prePrepare _ | .prepare _ | .commit _ => .isTrue trivial

def deliver (s : State) (msg : Message) : Option State :=
  if s.CanArrive msg then
    match s.node.handlePbftMsg getDigest s.heap msg with
    | .error _ => none
    | .ok (p, _) => some { s with node := p, heap := s.heap + 1, counted := s.count msg }
  else none

def step (s : State) : Event → Option State
  | .runPbft seqID => runPbft s seqID
  | .propose rlp_block now => propose getDigest s rlp_block now
  | .consensusDone => consensusDone s
  | .exit => exit s
  | .send rmsg => some { s with sent := s.sent ++ [rmsg], since := s.since ++ [rmsg] }
  | .deliver msg => deliver getDigest s msg
  | .updateNodeInfo nodeInfo => some { s with node := { s.node with nodeInfo := nodeInfo } }
  | .reset => some { s with node := s.node.reset }

def initial (nodeInfo : NodeInfo) (shardSize : ℕ) : State where
  node := newPbftNode nodeInfo shardSize
  heap := 0
  pc := .idle
  sent := []
  since := []
  counted := []
  proposer := none
  returned := []

def machine : Sys.Machine State Event :=
  ⟨fun s => ∃ nodeInfo shardSize, s = initial nodeInfo shardSize, step getDigest⟩

end Model

/-! ## The assumption -/

/-- A reply that is counted is for the round that is open, was sent in it, and is the first to be
counted of that backup. `RunPbft` does not leave a token behind. -/
def fresh (s : State) : Event → Prop
  | .deliver (.reply rmsg) => s.node.Counts rmsg.messageID →
      s.pc = .select rmsg.messageID ∧ s.node.sequenceLock = true ∧ rmsg ∈ s.since ∧
        s.proposer ≠ some rmsg.senderInfo.nodeID ∧ rmsg.senderInfo.nodeID ∉ s.counted
  | .exit => s.node.oneConsensusDone = false
  | _ => True

instance (s : State) (ev : Event) : Decidable (fresh s ev) := by
  unfold fresh
  split <;> infer_instance

/-! ## The invariant -/

/-- Every round that has come to its end had replies from `2f` backups. -/
def Finished (s : State) : Prop :=
  ∀ r ∈ s.returned, 2 * s.node.malicious_nums ≤ r.backups.card

/-- The round of `seqID` is open. -/
structure Collecting (s : State) (seqID : ℕ) : Prop where
  proposed : s.proposer ≠ none
  replyCnt : s.node.replyCnt ≤ s.counted.length
  nodup : s.counted.Nodup
  subset : ∀ id ∈ s.counted, id ∈ s.backups seqID

structure Inv (s : State) : Prop where
  finished : Finished s
  /-- the lock is free between two rounds -/
  proposing : ∀ seqID, s.pc = .propose seqID → s.node.sequenceLock = false
  free : s.node.sequenceLock = false → s.node.replyCnt = 0
  held : s.node.sequenceLock = true → ∀ seqID, s.pc = .select seqID → Collecting s seqID
  token : s.node.oneConsensusDone = true →
    ∃ seqID, s.pc = .select seqID ∧ s.node.sequenceLock = false ∧
      2 * s.node.malicious_nums ≤ (s.backups seqID).card

theorem inv_initial (nodeInfo : NodeInfo) (shardSize : ℕ) : Inv (initial nodeInfo shardSize) where
  finished := by simp [Finished, initial]
  proposing := fun _ _ => rfl
  free := fun _ => rfl
  held := by
    intro hlock
    cases hlock
  token := by
    intro htoken
    cases htoken

theorem mem_backups {s : State} {seqID id : ℕ} :
    id ∈ s.backups seqID ↔ ∃ leader, s.proposer = some leader ∧ id ≠ leader ∧
      ∃ rmsg ∈ s.since, rmsg.messageID = seqID ∧ rmsg.senderInfo.nodeID = id := by
  unfold State.backups
  cases s.proposer with
  | none => simp
  | some leader => simp [and_assoc]

/-- More replies have been sent. -/
theorem backups_mono {s s' : State} (hproposer : s'.proposer = s.proposer)
    (hsince : ∀ rmsg ∈ s.since, rmsg ∈ s'.since) (seqID : ℕ) :
    s.backups seqID ⊆ s'.backups seqID := by
  intro id hid
  obtain ⟨leader, hleader, hne, rmsg, hmem, hrest⟩ := mem_backups.mp hid
  exact mem_backups.mpr ⟨leader, hproposer.trans hleader, hne, rmsg, hsince rmsg hmem, hrest⟩

/-- A reply that is counted comes from one backup more. -/
theorem Collecting.backups_card {s : State} {seqID id : ℕ} (h : Collecting s seqID)
    (hnew : id ∉ s.counted) (hid : id ∈ s.backups seqID) :
    s.counted.length + 1 ≤ (s.backups seqID).card := by
  have hnodup : (id :: s.counted).Nodup := List.nodup_cons.mpr ⟨hnew, h.nodup⟩
  have hsub : (id :: s.counted).toFinset ⊆ s.backups seqID := by
    intro a ha
    rcases List.mem_cons.mp (List.mem_toFinset.mp ha) with rfl | hold
    · exact hid
    · exact h.subset a hold
  calc s.counted.length + 1 = (id :: s.counted).toFinset.card :=
        (List.toFinset_card_of_nodup hnodup).symm
    _ ≤ (s.backups seqID).card := Finset.card_le_card hsub

/-- It is one more that is counted. -/
theorem Collecting.count {s : State} {seqID id heap : ℕ} {p : Node} (h : Collecting s seqID)
    (hnew : id ∉ s.counted) (hid : id ∈ s.backups seqID)
    (hcnt : p.replyCnt = s.node.replyCnt + 1) :
    Collecting { s with node := p, heap := heap, counted := s.counted ++ [id] } seqID := by
  constructor
  · exact h.proposed
  · have hold := h.replyCnt
    simp only [List.length_append, List.length_singleton]
    omega
  · have hnodup := h.nodup.concat hnew
    rwa [List.concat_eq_append] at hnodup
  · intro a ha
    rcases List.mem_append.mp ha with hold | hlast
    · exact h.subset a hold
    · rw [List.mem_singleton] at hlast
      rw [hlast]
      exact hid

/-- A step that is not about the round: the counter may be set back, and replies may be sent. -/
theorem Inv.quiet {s s' : State} (h : Inv s)
    (hlock : s'.node.sequenceLock = s.node.sequenceLock)
    (htoken : s'.node.oneConsensusDone = s.node.oneConsensusDone)
    (hnums : s'.node.malicious_nums = s.node.malicious_nums)
    (hcnt : s'.node.replyCnt ≤ s.node.replyCnt) (hpc : s'.pc = s.pc)
    (hsince : ∀ rmsg ∈ s.since, rmsg ∈ s'.since) (hcounted : s'.counted = s.counted)
    (hproposer : s'.proposer = s.proposer) (hreturned : s'.returned = s.returned) : Inv s' := by
  have hmono := backups_mono hproposer hsince
  constructor
  · unfold Finished
    rw [hreturned, hnums]
    exact h.finished
  · rw [hpc, hlock]
    exact h.proposing
  · rw [hlock]
    intro hfree
    -- the counter can only go down, so it stays 0
    have hzero := h.free hfree
    omega
  · rw [hlock, hpc]
    intro hheld seqID hselect
    have hcollecting := h.held hheld seqID hselect
    constructor
    · rw [hproposer]
      exact hcollecting.proposed
    · rw [hcounted]
      exact hcnt.trans hcollecting.replyCnt
    · rw [hcounted]
      exact hcollecting.nodup
    · rw [hcounted]
      exact fun id hid => hmono seqID (hcollecting.subset id hid)
  · rw [htoken, hpc, hlock, hnums]
    intro hfull
    obtain ⟨seqID, hselect, hfree, henough⟩ := h.token hfull
    exact ⟨seqID, hselect, hfree, henough.trans (Finset.card_le_card (hmono seqID))⟩

/-- No token is in the channel before `RunPbft` waits for it. -/
theorem Inv.no_token {s : State} (h : Inv s) (hpc : ∀ seqID, s.pc ≠ .select seqID) :
    s.node.oneConsensusDone = false := by
  by_contra hfull
  rw [Bool.not_eq_false] at hfull
  obtain ⟨seqID, hselect, -⟩ := h.token hfull
  exact hpc seqID hselect

section Steps

variable {getDigest : PbftRequest → Digest} {s s' : State}

theorem Inv.runPbft (h : Inv s) {seqID : ℕ} (hstep : runPbft s seqID = some s') : Inv s' := by
  unfold Rounds.runPbft at hstep
  split at hstep
  · rename_i p hpc hset
    cases hstep
    obtain ⟨hround, hfree⟩ := Node.setSequenceID_round hset
    have hempty := h.no_token (by simp [hpc])
    constructor
    · unfold Finished
      dsimp only
      rw [hround.malicious_nums]
      exact h.finished
    · intro _ _
      exact hround.sequenceLock.trans hfree
    · intro _
      exact hround.replyCnt.trans (h.free hfree)
    · intro _ _ hselect
      cases hselect
    · intro hfull
      dsimp only at hfull
      rw [hround.oneConsensusDone, hempty] at hfull
      cases hfull
  · cases hstep

theorem Inv.propose (h : Inv s) {rlp_block : Bytes} {now : ℤ}
    (hstep : propose getDigest s rlp_block now = some s') : Inv s' := by
  unfold Rounds.propose at hstep
  split at hstep
  · rename_i seqID p out hpc hpropose
    cases hstep
    have hempty := h.no_token (by simp [hpc])
    have hfree := h.proposing seqID hpc
    have hzero := h.free hfree
    rcases Node.propose_round hpropose with ⟨hbackup, rfl⟩ | ⟨hleader, -, hround⟩
    · -- at a backup nothing is proposed, and the lock stays free
      refine ⟨h.finished, ?_, fun _ => hzero, ?_, ?_⟩
      · intro _ hp
        cases hp
      · intro hheld
        dsimp only at hheld
        rw [hfree] at hheld
        cases hheld
      · intro hfull
        dsimp only at hfull
        rw [hempty] at hfull
        cases hfull
    · have hcnt : p.replyCnt = 0 := hround.replyCnt.trans hzero
      refine ⟨?_, ?_, fun _ => hcnt, ?_, ?_⟩
      · unfold Finished
        dsimp only
        rw [hround.malicious_nums]
        exact h.finished
      · intro _ hp
        cases hp
      · intro _ seqID' _
        refine ⟨?_, ?_, List.nodup_nil, by simp⟩
        · rw [if_pos hleader]
          exact Option.some_ne_none _
        · dsimp only
          rw [hcnt]
          exact Nat.zero_le _
      · intro hfull
        dsimp only at hfull
        rw [hround.oneConsensusDone, hempty] at hfull
        cases hfull
  · cases hstep

theorem Inv.consensusDone (h : Inv s) (hstep : consensusDone s = some s') : Inv s' := by
  unfold Rounds.consensusDone at hstep
  split at hstep
  · rename_i seqID hpc
    split at hstep
    · rename_i hfull
      cases hstep
      obtain ⟨seqID', hselect, -, henough⟩ := h.token hfull
      rw [hpc] at hselect
      cases hselect
      refine ⟨?_, ?_, h.free, ?_, ?_⟩
      · intro r hr
        rcases List.mem_append.mp hr with hold | hnew
        · exact h.finished r hold
        · rw [List.mem_singleton] at hnew
          rw [hnew]
          exact henough
      · intro _ hp
        cases hp
      · intro _ _ hp
        cases hp
      · intro hstill
        cases hstill
    · cases hstep
  · cases hstep

theorem Inv.exit (h : Inv s) (hok : fresh s .exit) (hstep : exit s = some s') : Inv s' := by
  unfold Rounds.exit at hstep
  split at hstep
  · cases hstep
    refine ⟨h.finished, ?_, h.free, ?_, ?_⟩
    · intro _ hp
      cases hp
    · intro _ _ hp
      cases hp
    · intro hfull
      have hempty : s.node.oneConsensusDone = false := hok
      dsimp only at hfull
      rw [hempty] at hfull
      cases hfull
  · cases hstep

/-- What a fresh reply that is counted finds. -/
theorem Inv.collecting (h : Inv s) {rmsg : Reply NodeInfo} (hok : fresh s (.deliver (.reply rmsg)))
    (hcounts : s.node.Counts rmsg.messageID) :
    s.pc = .select rmsg.messageID ∧ s.node.sequenceLock = true ∧
      Collecting s rmsg.messageID ∧ rmsg.senderInfo.nodeID ∉ s.counted ∧
      rmsg.senderInfo.nodeID ∈ s.backups rmsg.messageID := by
  obtain ⟨hpc, hlock, hsince, hbackup, hnew⟩ := hok hcounts
  have hcollecting := h.held hlock rmsg.messageID hpc
  obtain ⟨leader, hleader⟩ := Option.ne_none_iff_exists'.mp hcollecting.proposed
  refine ⟨hpc, hlock, hcollecting, hnew, ?_⟩
  refine mem_backups.mpr ⟨leader, hleader, ?_, rmsg, hsince, rfl, rfl⟩
  rintro rfl
  exact hbackup hleader

theorem Inv.reply (h : Inv s) {rmsg : Reply NodeInfo} {p : Node} {heap : ℕ}
    (hok : fresh s (.deliver (.reply rmsg)))
    (hreplied : Node.Replied s.node rmsg.messageID p) :
    Inv { s with node := p, heap := heap, counted := s.count (.reply rmsg) } := by
  cases hreplied with
  -- not of the round, counted, or the one that completes it
  | dropped hnot =>
      have hcount : s.count (.reply rmsg) = s.counted := if_neg hnot
      exact h.quiet rfl rfl rfl le_rfl rfl (fun _ hmem => hmem) hcount rfl rfl
  | counted hcounts hfew =>
      obtain ⟨hpc, hlock, hcollecting, hnew, hid⟩ := h.collecting hok hcounts
      have hcount : s.count (.reply rmsg) = s.counted ++ [rmsg.senderInfo.nodeID] := if_pos hcounts
      rw [hcount]
      refine ⟨h.finished, h.proposing, ?_, ?_, h.token⟩
      · intro hfree
        dsimp only at hfree
        rw [hlock] at hfree
        cases hfree
      · intro _ seqID hselect
        dsimp only at hselect
        rw [hpc] at hselect
        cases hselect
        exact hcollecting.count hnew hid rfl
  | completed hcounts henough hempty hlock =>
      obtain ⟨hpc, -, hcollecting, hnew, hid⟩ := h.collecting hok hcounts
      refine ⟨h.finished, ?_, fun _ => rfl, ?_, ?_⟩
      · intro _ hp
        dsimp only at hp
        rw [hpc] at hp
        cases hp
      · intro hheld
        cases hheld
      · intro _
        refine ⟨rmsg.messageID, hpc, rfl, ?_⟩
        have hcnt := hcollecting.replyCnt
        have hcard := hcollecting.backups_card hnew hid
        -- each counted reply is from another backup
        calc 2 * s.node.malicious_nums ≤ s.node.replyCnt + 1 := henough
          _ ≤ s.counted.length + 1 := by omega
          _ ≤ (s.backups rmsg.messageID).card := hcard

theorem Inv.deliver (h : Inv s) {msg : Message} (hok : fresh s (.deliver msg))
    (hstep : deliver getDigest s msg = some s') : Inv s' := by
  unfold Rounds.deliver at hstep
  split at hstep
  · split at hstep
    · cases hstep
    · rename_i p out hhandled
      cases hstep
      by_cases hmsg : ∀ rmsg, msg ≠ .reply rmsg
      · have hround := Node.handlePbftMsg_round hmsg hhandled
        have hcount : s.count msg = s.counted := by
          cases msg with
          | reply rmsg => exact absurd rfl (hmsg rmsg)
          | prePrepare | prepare | commit => rfl
        exact h.quiet hround.sequenceLock hround.oneConsensusDone hround.malicious_nums
          hround.replyCnt.le rfl (fun _ hmem => hmem) hcount rfl rfl
      · push Not at hmsg
        obtain ⟨rmsg, rfl⟩ := hmsg
        exact h.reply hok (Node.handlePbftMsg_reply hhandled)
  · cases hstep

theorem inv_step {ev : Event} (hok : fresh s ev) (hstep : step getDigest s ev = some s')
    (h : Inv s) : Inv s' := by
  cases ev with
  | runPbft seqID => exact h.runPbft hstep
  | propose rlp_block now => exact h.propose hstep
  | consensusDone => exact h.consensusDone hstep
  | exit => exact h.exit hok hstep
  | send rmsg =>
      cases hstep
      exact h.quiet rfl rfl rfl le_rfl rfl (fun _ hmem => List.mem_append_left _ hmem) rfl rfl rfl
  | deliver msg => exact h.deliver hok hstep
  | updateNodeInfo nodeInfo =>
      cases hstep
      exact h.quiet rfl rfl rfl le_rfl rfl (fun _ hmem => hmem) rfl rfl rfl
  | reset =>
      cases hstep
      exact h.quiet rfl rfl rfl (Nat.zero_le _) rfl (fun _ hmem => hmem) rfl rfl rfl

/-- In fresh runs `RunPbft` returns through `OneConsensusDone` only after `2f` backups have
replied to its sequence ID since the block was proposed. -/
theorem finished_of_fresh (h : (machine getDigest).ReachableBy fresh s) : Finished s := by
  refine (Sys.Machine.invariant_by Inv ?_ ?_ h).finished
  · rintro s₀ ⟨nodeInfo, shardSize, rfl⟩
    exact inv_initial nodeInfo shardSize
  · intro t ev t' hok hstep ht
    exact inv_step hok hstep ht

end Steps

/-! ## One backup twice -/

/-- The leader of a committee of four. -/
def exampleStart : State := initial ⟨0⟩ 4

theorem init_exampleStart : (machine exampleDigest).Init exampleStart := ⟨⟨0⟩, 4, rfl⟩

def replyOf (nodeID messageID : ℕ) : Reply NodeInfo := ⟨messageID, ⟨nodeID⟩, true⟩

/-- The reply of one backup arrives twice, and ends the round. -/
theorem one_backup_finishes :
    ∃ s, (machine exampleDigest).Reachable s ∧ s.node.malicious_nums = 1 ∧
      s.returned = [⟨1, {1}⟩] :=
  Sys.Machine.exists_reachableBy _ init_exampleStart
    [.runPbft 1, .propose [1] 1, .send (replyOf 1 1), .deliver (.reply (replyOf 1 1)),
      .deliver (.reply (replyOf 1 1)), .consensusDone] (by decide +kernel)

/-- Two rounds. A reply of the first one that comes late is not counted. -/
theorem finished_of_fresh_rounds :
    ∃ s, (machine exampleDigest).ReachableBy fresh s ∧
      s.returned = [⟨1, {1, 2}⟩, ⟨2, {2, 3}⟩] ∧ Finished s := by
  obtain ⟨s, hs, hreturned⟩ : ∃ s, (machine exampleDigest).ReachableBy fresh s ∧
      s.returned = [⟨1, {1, 2}⟩, ⟨2, {2, 3}⟩] :=
    Sys.Machine.exists_reachableBy _ init_exampleStart
      [.runPbft 1, .propose [1] 1, .send (replyOf 1 1), .send (replyOf 2 1),
        .deliver (.reply (replyOf 1 1)), .deliver (.reply (replyOf 2 1)), .consensusDone,
        .runPbft 2, .propose [2] 1, .send (replyOf 3 1), .deliver (.reply (replyOf 3 1)),
        .send (replyOf 2 2), .send (replyOf 3 2), .deliver (.reply (replyOf 2 2)),
        .deliver (.reply (replyOf 3 2)), .consensusDone] (by decide +kernel)
  exact ⟨s, hs, hreturned, finished_of_fresh hs⟩

end Rounds

end Pbft

end LessChain
