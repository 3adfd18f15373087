import LessChain.Pbft.Network
import Mathlib.Data.Finset.Basic

/-!
# Messages out of order

Every message is handled in a goroutine of its own, so the messages of a request reach a backup
in any order. `Tally` is what one would expect of them: each message is counted, whenever it
comes, and the order does not matter (`count_right_comm`).

`HandleCommit` counts in this way. `HandlePrepare` refuses a prepare whose request is not in the
pool yet, and does not remember it. So the node agrees with the tally on the commits in any order,
and on everything if no prepare overtakes the pre-prepare.
-/

namespace LessChain

namespace Pbft

namespace Reordering

open Network (exampleDigest exampleRequest digestOne)

/-! ## A node and the messages it handles -/

structure Handled where
  node : Node
  /-- the next address the allocator gives out -/
  heap : ℕ
  sent : List Message

/-- A handler has returned a node and what it sends. -/
def Handled.next (h : Handled) (r : Node × List Message) : Handled :=
  ⟨r.1, h.heap + 1, h.sent ++ r.2⟩

section Model

variable (getDigest : PbftRequest → Digest)

def handle (h : Handled) (msg : Message) : Except Fault Handled := do
  let r ← h.node.handlePbftMsg getDigest h.heap msg
  .ok (h.next r)

def handleAll (h : Handled) (msgs : List Message) : Except Fault Handled :=
  msgs.foldlM (handle getDigest) h

/-- The messages that agree on the request `r` at `seqID`. -/
def OfRequest (r : PbftRequest) (seqID : ℕ) : Message → Prop
  | .prePrepare ppmsg => ppmsg = ⟨r, getDigest r, seqID⟩
  | .prepare pmsg => pmsg.digest = getDigest r ∧ pmsg.seqID = seqID
  | .commit cmsg => cmsg.digest = getDigest r ∧ cmsg.seqID = seqID
  | .reply _ => False

instance (r : PbftRequest) (seqID : ℕ) (msg : Message) :
    Decidable (OfRequest getDigest r seqID msg) :=
  match msg with
  | .prePrepare _ => inferInstanceAs (Decidable (_ = _))
  | .prepare _ => inferInstanceAs (Decidable (_ ∧ _))
  | .commit _ => inferInstanceAs (Decidable (_ ∧ _))
  | .reply _ => .isFalse id

end Model

/-- The addresses of the counted pointers have been given out. -/
def Allocated (counted : List NodeInfoPtr) (heap : ℕ) : Prop := ∀ ptr ∈ counted, ptr.addr < heap

/-- No prepare comes before the first pre-prepare. -/
def inTurn : List Message → Bool
  | [] => true
  | .prePrepare _ :: _ => true
  | .prepare _ :: _ => false
  | .commit _ :: msgs => inTurn msgs
  | .reply _ :: msgs => inTurn msgs

def isCommit : Message → Bool
  | .commit _ => true
  | _ => false

/-- What becomes of a request: the two flags of its digest, and what was sent. -/
structure SameOutcome (digest : Digest) (h h' : Handled) : Prop where
  isCommitBordcast : h.node.isCommitBordcast digest = h'.node.isCommitBordcast digest
  isReply : h.node.isReply digest = h'.node.isReply digest
  sent : ∀ msg, msg ∈ h.sent ↔ msg ∈ h'.sent

/-! ## Counting in any order -/

/-- A request as its votes would have it. -/
@[ext]
structure Tally where
  prepares : ℕ
  commits : ℕ
  bordcast : Bool
  replied : Bool
  sent : Finset Message

section Tally

variable (digest : Digest) (seqID : ℕ) (info : NodeInfo) (f : ℕ)

namespace Tally

/-- `2f - 1` prepares of other nodes are there with the next one. -/
def Prepared (t : Tally) : Prop := 2 * f ≤ t.prepares + 2

/-- `2f` commits are there with the next one. -/
def Committed (t : Tally) : Prop := 2 * f ≤ t.commits + 1

instance (t : Tally) : Decidable (t.Prepared f) := inferInstanceAs (Decidable (_ ≤ _))

instance (t : Tally) : Decidable (t.Committed f) := inferInstanceAs (Decidable (_ ≤ _))

def count (t : Tally) : Message → Tally
  | .prePrepare _ => { t with sent := insert (.prepare ⟨digest, seqID, info⟩) t.sent }
  | .prepare _ => { t with
      prepares := t.prepares + 1
      bordcast := t.bordcast || t.Prepared f
      sent :=
        if t.Prepared f ∧ t.bordcast = false then insert (.commit ⟨digest, seqID, info⟩) t.sent
        else t.sent }
  | .commit _ => { t with
      commits := t.commits + 1
      replied := t.replied || t.Committed f
      sent :=
        if t.Committed f ∧ t.replied = false then insert (.reply ⟨seqID, info, true⟩) t.sent
        else t.sent }
  | .reply _ => t

theorem insert_ite_comm {a b : Message} {s : Finset Message} {c : Prop} [Decidable c] :
    insert a (if c then insert b s else s) = if c then insert b (insert a s) else insert a s := by
  split
  · exact Finset.insert_comm ..
  · rfl

theorem ite_insert_comm {a b : Message} {s : Finset Message} {c d : Prop} [Decidable c]
    [Decidable d] :
    (if c then insert a (if d then insert b s else s) else if d then insert b s else s) =
      if d then insert b (if c then insert a s else s) else if c then insert a s else s := by
  split
  · exact insert_ite_comm
  · rfl

/-- Two messages may change places. -/
theorem count_right_comm (t : Tally) (x y : Message) :
    (t.count digest seqID info f x).count digest seqID info f y =
      (t.count digest seqID info f y).count digest seqID info f x := by
  -- messages of one kind are counted alike, and those of two kinds meet only in `sent`
  cases x with
  | prePrepare =>
      cases y with
      | prePrepare | reply => rfl
      | prepare => exact Tally.ext rfl rfl rfl rfl insert_ite_comm.symm
      | commit => exact Tally.ext rfl rfl rfl rfl insert_ite_comm.symm
  | prepare =>
      cases y with
      | prepare | reply => rfl
      | prePrepare => exact Tally.ext rfl rfl rfl rfl insert_ite_comm
      | commit => exact Tally.ext rfl rfl rfl rfl ite_insert_comm
  | commit =>
      cases y with
      | commit | reply => rfl
      | prePrepare => exact Tally.ext rfl rfl rfl rfl insert_ite_comm
      | prepare => exact Tally.ext rfl rfl rfl rfl ite_insert_comm
  | reply => rfl

theorem count_perm (t : Tally) {msgs msgs' : List Message} (hperm : msgs.Perm msgs') :
    msgs.foldl (count digest seqID info f) t = msgs'.foldl (count digest seqID info f) t :=
  hperm.foldl_eq' (fun x _ y _ z => count_right_comm digest seqID info f z x y) t

end Tally

end Tally

/-- The tallies agree, except on the prepares and what follows from them. -/
structure SameReplies (t t' : Tally) : Prop where
  commits : t.commits = t'.commits
  replied : t.replied = t'.replied
  sent : ∀ msg, isCommit msg = false → (msg ∈ t.sent ↔ msg ∈ t'.sent)

theorem SameReplies.refl (t : Tally) : SameReplies t t := ⟨rfl, rfl, fun _ _ => Iff.rfl⟩

theorem SameReplies.symm {t t' : Tally} (h : SameReplies t t') : SameReplies t' t :=
  ⟨h.commits.symm, h.replied.symm, fun msg hmsg => (h.sent msg hmsg).symm⟩

theorem SameReplies.trans {t t' t'' : Tally} (h : SameReplies t t') (h' : SameReplies t' t'') :
    SameReplies t t'' :=
  ⟨h.commits.trans h'.commits, h.replied.trans h'.replied,
    fun msg hmsg => (h.sent msg hmsg).trans (h'.sent msg hmsg)⟩

section Steps

variable {getDigest : PbftRequest → Digest} {r : PbftRequest} {seqID : ℕ} {info : NodeInfo}
  {f : ℕ} {h : Handled} {msg : Message}

/-- The prepares do not matter for the rest. -/
theorem SameReplies.count {t t' : Tally} (h : SameReplies t t') (digest : Digest) (msg : Message) :
    SameReplies (t.count digest seqID info f msg) (t'.count digest seqID info f msg) := by
  cases msg with
  | prePrepare ppmsg =>
      refine ⟨h.commits, h.replied, ?_⟩
      intro m hm
      simp only [Tally.count, Finset.mem_insert, h.sent m hm]
  | prepare pmsg =>
      refine ⟨h.commits, h.replied, ?_⟩
      intro m hm
      have hne : m ≠ .commit ⟨digest, seqID, info⟩ := by
        rintro rfl
        cases hm
      simp only [Tally.count]
      split <;> split <;> simp [hne, h.sent m hm]
  | commit cmsg =>
      have henough : t.Committed f ↔ t'.Committed f := by
        unfold Tally.Committed
        rw [h.commits]
      refine ⟨congrArg (· + 1) h.commits, ?_, ?_⟩
      · simp only [Tally.count, h.replied, henough]
      · intro m hm
        simp only [Tally.count, h.replied, henough]
        split <;> simp [h.sent m hm]
  | reply rmsg => exact h

theorem SameReplies.foldl {t t' : Tally} (h : SameReplies t t') (digest : Digest)
    (msgs : List Message) :
    SameReplies (msgs.foldl (Tally.count digest seqID info f) t)
      (msgs.foldl (Tally.count digest seqID info f) t') := by
  induction msgs generalizing t t' with
  | nil => exact h
  | cons msg msgs ih => exact ih (h.count digest msg)

/-! ## What the node makes of a message -/

/-- The tally of what the node has. -/
def Handled.tally (h : Handled) (digest : Digest) : Tally where
  prepares := (h.node.cntPrepareConfirm digest).length
  commits := (h.node.cntCommitConfirm digest).length
  bordcast := h.node.isCommitBordcast digest
  replied := h.node.isReply digest
  sent := h.sent.toFinset

/-- What no message of the request changes. -/
structure Backup (info : NodeInfo) (f : ℕ) (digest : Digest) (h : Handled) : Prop where
  nodeInfo : h.node.nodeInfo = info
  backup : h.node.nodeInfo.nodeID ≠ h.node.view
  malicious_nums : h.node.malicious_nums = f
  prepareConfirm : Allocated (h.node.cntPrepareConfirm digest) h.heap
  commitConfirm : Allocated (h.node.cntCommitConfirm digest) h.heap

/-- The pre-prepare was handled: prepares are counted from now on. A node that has replied has
gone on to the next sequence ID. -/
def Ready (digest : Digest) (seqID : ℕ) (h : Handled) : Prop :=
  (h.node.requestPool digest).isSome ∧
    (h.node.sequenceID = seqID ∨
      h.node.sequenceID = seqID + 1 ∧ h.node.isReply digest = true)

variable {digest : Digest} {counted : List NodeInfoPtr}

theorem Allocated.mono {heap : ℕ} (h : Allocated counted heap) :
    Allocated counted (heap + 1) := fun ptr hptr => Nat.lt_succ_of_lt (h ptr hptr)

theorem Allocated.insert {heap : ℕ} (h : Allocated counted heap)
    (info : NodeInfo) : Allocated (counted.insert ⟨heap, info⟩) (heap + 1) := by
  intro ptr hptr
  rcases List.mem_insert_iff.mp hptr with rfl | hold
  · exact Nat.lt_succ_self heap
  · exact h.mono ptr hold

/-- A pointer the decoder has just made is counted, whoever the sender is. -/
theorem Allocated.length_insert {heap : ℕ}
    (h : Allocated counted heap) (info : NodeInfo) :
    (counted.insert ⟨heap, info⟩).length = counted.length + 1 := by
  apply List.length_insert_of_not_mem
  intro hmem
  exact lt_irrefl _ (h _ hmem)

/-- The step from `h` to `h'` counts the message as the tally does, at least among the commits;
and a prepare only if the node is ready. -/
structure Counts (digest : Digest) (seqID : ℕ) (info : NodeInfo) (f : ℕ) (msg : Message)
    (h h' : Handled) : Prop where
  backup : Backup info f digest h'
  replies : SameReplies (h'.tally digest) ((h.tally digest).count digest seqID info f msg)
  all : Ready digest seqID h ∨ (∀ pmsg, msg ≠ .prepare pmsg) →
    h'.tally digest = (h.tally digest).count digest seqID info f msg
  ready : seqID + 1 < 2 ^ 64 → Ready digest seqID h ∨ (∃ ppmsg, msg = .prePrepare ppmsg) →
    Ready digest seqID h'

theorem toFinset_concat (msgs : List Message) (msg : Message) :
    (msgs ++ [msg]).toFinset = insert msg msgs.toFinset := by
  ext m
  simp

/-- The message is counted. -/
theorem Counts.of_tally {h' : Handled} (hbackup : Backup info f digest h')
    (htally : h'.tally digest = (h.tally digest).count digest seqID info f msg)
    (hready : seqID + 1 < 2 ^ 64 → Ready digest seqID h ∨ (∃ ppmsg, msg = .prePrepare ppmsg) →
      Ready digest seqID h') :
    Counts digest seqID info f msg h h' where
  backup := hbackup
  replies := by
    rw [htally]
    exact .refl _
  all := fun _ => htally
  ready := hready

theorem counts_prePrepare (hb : Backup info f (getDigest r) h) :
    Counts (getDigest r) seqID info f (.prePrepare ⟨r, getDigest r, seqID⟩) h
      (h.next (h.node.handlePrePrepare getDigest ⟨r, getDigest r, seqID⟩)) := by
  -- the node takes over the sequence ID, so it does not lag behind the message
  have hhandle : h.node.handlePrePrepare getDigest ⟨r, getDigest r, seqID⟩ =
      (Node.putRequest { h.node with sequenceID := seqID } (getDigest r) r seqID,
        [.prepare ⟨getDigest r, seqID, h.node.nodeInfo⟩]) := by
    simp [Node.handlePrePrepare]
  rw [hhandle]
  apply Counts.of_tally
  · exact ⟨hb.nodeInfo, hb.backup, hb.malicious_nums, hb.prepareConfirm.mono,
      hb.commitConfirm.mono⟩
  · refine Tally.ext rfl rfl rfl rfl ?_
    rw [← hb.nodeInfo]
    exact toFinset_concat ..
  · intro _ _
    exact ⟨by simp [Handled.next, Node.putRequest], .inl rfl⟩

/-- The node while it counts a prepare. -/
theorem set2DMap_prepare {p : Node} {ptr : NodeInfoPtr} :
    (p.set2DMap true digest ptr).cntPrepareConfirm digest =
      (p.cntPrepareConfirm digest).insert ptr := Function.update_self ..

theorem set2DMap_commit {p : Node} {ptr : NodeInfoPtr} :
    (p.set2DMap false digest ptr).cntCommitConfirm digest =
      (p.cntCommitConfirm digest).insert ptr := Function.update_self ..

/-- A prepare that is refused. -/
theorem counts_refused {pmsg : Prepare NodeInfo} (hb : Backup info f digest h)
    (hnot : ¬ Ready digest seqID h) :
    Counts digest seqID info f (.prepare pmsg) h (h.next (h.node, [])) := by
  have htally : (h.next (h.node, [])).tally digest = h.tally digest := by
    simp [Handled.tally, Handled.next]
  constructor
  · exact ⟨hb.nodeInfo, hb.backup, hb.malicious_nums, hb.prepareConfirm.mono,
      hb.commitConfirm.mono⟩
  · rw [htally]
    refine ⟨rfl, rfl, ?_⟩
    intro m hm
    have hne : m ≠ .commit ⟨digest, seqID, info⟩ := by
      rintro rfl
      cases hm
    simp only [Tally.count]
    split <;> simp [hne]
  · rintro (hready | hother)
    · exact absurd hready hnot
    · exact absurd rfl (hother pmsg)
  · rintro - (hready | ⟨ppmsg, heq⟩)
    · exact absurd hready hnot
    · cases heq

/-- A backup waits for one prepare less than `2f`. -/
theorem specifiedcnt_le {p : Node} (hbackup : p.nodeInfo.nodeID ≠ p.view) {n : ℕ} :
    ((n + 1 : ℕ) : ℤ) ≥ p.specifiedcnt ↔ 2 * p.malicious_nums ≤ n + 2 := by
  unfold Node.specifiedcnt
  rw [if_pos hbackup]
  omega

/-- A flag is raised when there are enough votes. -/
theorem or_decide_of {b : Bool} {enough : Prop} [Decidable enough] (h : enough) :
    (b || decide enough) = true := by simp [h]

/-- Otherwise it stays as it is. -/
theorem or_decide_of_not {b : Bool} {enough : Prop} [Decidable enough]
    (h : ¬ (enough ∧ b = false)) : (b || decide enough) = b := by
  cases b with
  | true => rfl
  | false =>
      have hfew : ¬ enough := fun hyes => h ⟨hyes, rfl⟩
      simp [hfew]

theorem counts_prepare (hb : Backup info f digest h) (sender : NodeInfo) :
    Counts digest seqID info f (.prepare ⟨digest, seqID, sender⟩) h
      (h.next (h.node.handlePrepare ⟨digest, seqID, ⟨h.heap, sender⟩⟩)) := by
  have hcnt : ((h.node.set2DMap true digest ⟨h.heap, sender⟩).cntPrepareConfirm digest).length =
      (h.node.cntPrepareConfirm digest).length + 1 := by
    rw [set2DMap_prepare]
    exact hb.prepareConfirm.length_insert sender
  have hconfirm : Allocated
      ((h.node.set2DMap true digest ⟨h.heap, sender⟩).cntPrepareConfirm digest) (h.heap + 1) := by
    rw [set2DMap_prepare]
    exact hb.prepareConfirm.insert sender
  have henough : (((h.node.cntPrepareConfirm digest).length + 1 : ℕ) : ℤ) ≥
      (h.node.set2DMap true digest ⟨h.heap, sender⟩).specifiedcnt ↔
      (h.tally digest).Prepared f := by
    rw [← hb.malicious_nums]
    exact specifiedcnt_le hb.backup
  unfold Node.handlePrepare
  dsimp only
  split
  · -- the request is not in the pool
    rename_i hpool
    apply counts_refused hb
    intro hready
    have hsome := hready.1
    rw [Option.isNone_iff_eq_none.mp hpool] at hsome
    cases hsome
  · split
    · -- the node is not at this sequence ID yet
      apply counts_refused hb
      rintro ⟨-, hseq | ⟨hseq, -⟩⟩ <;> omega
    · split
      · -- enough prepares, and no commit was sent: it is sent now
        rename_i hfire
        rw [hcnt, henough] at hfire
        have hsend : (h.tally digest).Prepared f ∧ (h.tally digest).bordcast = false := hfire
        apply Counts.of_tally
        · exact ⟨hb.nodeInfo, hb.backup, hb.malicious_nums, hconfirm, hb.commitConfirm.mono⟩
        · refine Tally.ext hcnt rfl ?_ rfl ?_
          · exact (Function.update_self ..).trans (or_decide_of hsend.1).symm
          · simp only [Tally.count, if_pos hsend]
            rw [← hb.nodeInfo]
            exact toFinset_concat ..
        · rintro - (hready | ⟨ppmsg, heq⟩)
          · exact hready
          · cases heq
      · rename_i hquiet
        rw [hcnt, henough] at hquiet
        have hnot : ¬ ((h.tally digest).Prepared f ∧ (h.tally digest).bordcast = false) := hquiet
        apply Counts.of_tally
        · exact ⟨hb.nodeInfo, hb.backup, hb.malicious_nums, hconfirm, hb.commitConfirm.mono⟩
        · refine Tally.ext hcnt rfl (or_decide_of_not hnot).symm rfl ?_
          simp only [Tally.count, if_neg hnot]
          simp [Handled.tally, Handled.next]
        · rintro - (hready | ⟨ppmsg, heq⟩)
          · exact hready
          · cases heq

theorem counts_commit (hb : Backup info f digest h) (sender : NodeInfo) :
    Counts digest seqID info f (.commit ⟨digest, seqID, sender⟩) h
      (h.next (h.node.handleCommit ⟨digest, seqID, ⟨h.heap, sender⟩⟩)) := by
  have hcnt : ((h.node.set2DMap false digest ⟨h.heap, sender⟩).cntCommitConfirm digest).length =
      (h.node.cntCommitConfirm digest).length + 1 := by
    rw [set2DMap_commit]
    exact hb.commitConfirm.length_insert sender
  have hconfirm : Allocated
      ((h.node.set2DMap false digest ⟨h.heap, sender⟩).cntCommitConfirm digest) (h.heap + 1) := by
    rw [set2DMap_commit]
    exact hb.commitConfirm.insert sender
  have henough : (h.node.cntCommitConfirm digest).length + 1 ≥
      2 * (h.node.set2DMap false digest ⟨h.heap, sender⟩).malicious_nums ↔
      (h.tally digest).Committed f := by
    rw [← hb.malicious_nums]
    rfl
  have hbackup : (h.node.set2DMap false digest ⟨h.heap, sender⟩).nodeInfo.nodeID ≠
      (h.node.set2DMap false digest ⟨h.heap, sender⟩).view := hb.backup
  unfold Node.handleCommit
  dsimp only
  split
  · -- enough commits, and no reply was sent: it is sent now, and the node goes on
    rename_i hfire
    rw [hcnt, henough] at hfire
    have hsend : (h.tally digest).Committed f ∧ (h.tally digest).replied = false := hfire
    have hreply : (h.node.set2DMap false digest ⟨h.heap, sender⟩).reply seqID digest =
        ({ h.node.set2DMap false digest ⟨h.heap, sender⟩ with
            isReply := Function.update h.node.isReply digest true },
          [.reply ⟨seqID, h.node.nodeInfo, true⟩]) := by
      unfold Node.reply
      dsimp only
      rw [if_pos hbackup]
      rfl
    rw [hreply]
    dsimp only
    rw [if_pos hbackup]
    apply Counts.of_tally
    · exact ⟨hb.nodeInfo, hb.backup, hb.malicious_nums, hb.prepareConfirm.mono, hconfirm⟩
    · refine Tally.ext rfl hcnt rfl ?_ ?_
      · exact (Function.update_self ..).trans (or_decide_of hsend.1).symm
      · simp only [Tally.count, if_pos hsend]
        rw [← hb.nodeInfo]
        exact toFinset_concat ..
    · rintro hseq (⟨hpool, hcurrent | ⟨-, hreplied⟩⟩ | ⟨ppmsg, heq⟩)
      · refine ⟨hpool, .inr ⟨?_, Function.update_self ..⟩⟩
        show addU64 h.node.sequenceID 1 = seqID + 1
        rw [hcurrent]
        exact Nat.mod_eq_of_lt hseq
      · exact absurd (hreplied.symm.trans hsend.2) (by simp)
      · cases heq
  · rename_i hquiet
    rw [hcnt, henough] at hquiet
    have hnot : ¬ ((h.tally digest).Committed f ∧ (h.tally digest).replied = false) := hquiet
    apply Counts.of_tally
    · exact ⟨hb.nodeInfo, hb.backup, hb.malicious_nums, hb.prepareConfirm.mono, hconfirm⟩
    · refine Tally.ext rfl hcnt rfl (or_decide_of_not hnot).symm ?_
      simp only [Tally.count, if_neg hnot]
      simp [Handled.tally, Handled.next]
    · rintro - (hready | ⟨ppmsg, heq⟩)
      · exact hready
      · cases heq

/-- One message of the request. -/
theorem handle_counts (hb : Backup info f (getDigest r) h)
    (hmsg : OfRequest getDigest r seqID msg) :
    ∃ h', handle getDigest h msg = .ok h' ∧ Counts (getDigest r) seqID info f msg h h' := by
  cases msg with
  | prePrepare ppmsg =>
      obtain rfl : ppmsg = ⟨r, getDigest r, seqID⟩ := hmsg
      exact ⟨_, rfl, counts_prePrepare hb⟩
  | prepare pmsg =>
      obtain ⟨digest, seqID', sender⟩ := pmsg
      obtain ⟨rfl, rfl⟩ := hmsg
      exact ⟨_, rfl, counts_prepare hb sender⟩
  | commit cmsg =>
      obtain ⟨digest, seqID', sender⟩ := cmsg
      obtain ⟨rfl, rfl⟩ := hmsg
      exact ⟨_, rfl, counts_commit hb sender⟩
  | reply rmsg => exact hmsg.elim

/-! ## All messages -/

/-- In any order the node counts the commits; and everything from the moment it is ready, or if
the messages come in turn. -/
theorem handleAll_counts (hb : Backup info f (getDigest r) h)
    {msgs : List Message} (hmsgs : ∀ msg ∈ msgs, OfRequest getDigest r seqID msg) :
    ∃ h', handleAll getDigest h msgs = .ok h' ∧
      SameReplies (h'.tally (getDigest r))
        (msgs.foldl (Tally.count (getDigest r) seqID info f) (h.tally (getDigest r))) ∧
      (seqID + 1 < 2 ^ 64 → Ready (getDigest r) seqID h ∨ inTurn msgs = true →
        h'.tally (getDigest r) =
          msgs.foldl (Tally.count (getDigest r) seqID info f) (h.tally (getDigest r))) := by
  induction msgs generalizing h with
  | nil => exact ⟨h, rfl, .refl _, fun _ _ => rfl⟩
  | cons msg msgs ih =>
      obtain ⟨h₁, hone, hcounts⟩ := handle_counts hb (hmsgs msg List.mem_cons_self)
      obtain ⟨h₂, hrest, hreplies, hall⟩ :=
        ih hcounts.backup fun m hm => hmsgs m (List.mem_cons_of_mem _ hm)
      refine ⟨h₂, ?_, ?_, ?_⟩
      · unfold handleAll at hrest ⊢
        rw [List.foldlM_cons, hone]
        exact hrest
      · rw [List.foldl_cons]
        exact hreplies.trans (hcounts.replies.foldl _ msgs)
      · intro hseq hturn
        rw [List.foldl_cons]
        have hone' : h₁.tally (getDigest r) =
            (h.tally (getDigest r)).count (getDigest r) seqID info f msg := by
          apply hcounts.all
          -- not ready yet: the messages come in turn, and this one is no prepare
          rcases hturn with hready | hturn
          · exact .inl hready
          · right
            rintro pmsg rfl
            cases hturn
        rw [← hone']
        apply hall hseq
        rcases hturn with hready | hturn
        · exact .inl (hcounts.ready hseq (.inl hready))
        · cases msg with
          | prePrepare ppmsg => exact .inl (hcounts.ready hseq (.inr ⟨ppmsg, rfl⟩))
          | prepare pmsg => cases hturn
          | commit cmsg => exact .inr hturn
          | reply rmsg => exact .inr hturn

theorem SameOutcome.of_tally {h h' : Handled}
    (htally : h.tally digest = h'.tally digest) : SameOutcome digest h h' where
  isCommitBordcast := congrArg Tally.bordcast htally
  isReply := congrArg Tally.replied htally
  sent := by
    intro m
    have hsent : h.sent.toFinset = h'.sent.toFinset := congrArg Tally.sent htally
    rw [← List.mem_toFinset, hsent, List.mem_toFinset]

/-- A backup handles the messages of a request in two orders. Whether it replies, and what it
sends apart from its commit, is the same; and so is everything if no prepare comes before the
pre-prepare. -/
theorem outcome_of_perm {p : Node} {heap : ℕ} {msgs msgs' : List Message}
    (hbackup : p.nodeInfo.nodeID ≠ p.view)
    (hprepares : Allocated (p.cntPrepareConfirm (getDigest r)) heap)
    (hcommits : Allocated (p.cntCommitConfirm (getDigest r)) heap)
    (hmsgs : ∀ msg ∈ msgs, OfRequest getDigest r seqID msg) (hperm : msgs.Perm msgs') :
    ∃ h h', handleAll getDigest ⟨p, heap, []⟩ msgs = .ok h ∧
      handleAll getDigest ⟨p, heap, []⟩ msgs' = .ok h' ∧
      h.node.isReply (getDigest r) = h'.node.isReply (getDigest r) ∧
      (∀ msg, isCommit msg = false → (msg ∈ h.sent ↔ msg ∈ h'.sent)) ∧
      (seqID + 1 < 2 ^ 64 → inTurn msgs = true → inTurn msgs' = true →
        SameOutcome (getDigest r) h h') := by
  have hb : Backup p.nodeInfo p.malicious_nums (getDigest r) ⟨p, heap, []⟩ :=
    ⟨rfl, hbackup, rfl, hprepares, hcommits⟩
  have hmsgs' : ∀ msg ∈ msgs', OfRequest getDigest r seqID msg :=
    fun msg hmsg => hmsgs msg (hperm.mem_iff.mpr hmsg)
  obtain ⟨h, hrun, hreplies, hall⟩ := handleAll_counts hb hmsgs
  obtain ⟨h', hrun', hreplies', hall'⟩ := handleAll_counts hb hmsgs'
  rw [← Tally.count_perm _ _ _ _ _ hperm] at hreplies' hall'
  have hsame : SameReplies (h.tally (getDigest r)) (h'.tally (getDigest r)) :=
    hreplies.trans hreplies'.symm
  refine ⟨h, h', hrun, hrun', hsame.replied, ?_, ?_⟩
  · intro m hm
    simpa [Handled.tally] using hsame.sent m hm
  · intro hseq hturn hturn'
    exact .of_tally ((hall hseq (.inr hturn)).trans (hall' hseq (.inr hturn')).symm)

end Steps

/-! ## A prepare that comes too early -/

/-- A backup in a committee of four. -/
def exampleBackup : Handled := ⟨newPbftNode ⟨1⟩ 4, 0, []⟩

def examplePrePrepare : Message := .prePrepare ⟨exampleRequest 1, digestOne, 1⟩

def examplePrepare : Message := .prepare ⟨digestOne, 1, ⟨2⟩⟩

def exampleCommit (nodeID : ℕ) : Message := .commit ⟨digestOne, 1, ⟨nodeID⟩⟩

/-- The pre-prepare and the prepare of node 2. In this order the backup sends its commit, and in
the other order it does not. -/
theorem early_prepare_is_lost :
    (∃ h, handleAll exampleDigest exampleBackup [examplePrePrepare, examplePrepare] = .ok h ∧
      h.node.isCommitBordcast digestOne = true ∧ .commit ⟨digestOne, 1, ⟨1⟩⟩ ∈ h.sent) ∧
    ∃ h, handleAll exampleDigest exampleBackup [examplePrepare, examplePrePrepare] = .ok h ∧
      h.node.isCommitBordcast digestOne = false ∧ .commit ⟨digestOne, 1, ⟨1⟩⟩ ∉ h.sent := by
  refine ⟨⟨_, rfl, ?_⟩, ⟨_, rfl, ?_⟩⟩ <;> decide +kernel

/-- All messages of a round; in the second order a commit is the first. -/
theorem outcome_of_perm_round :
    ∃ h h', handleAll exampleDigest exampleBackup
        [examplePrePrepare, examplePrepare, exampleCommit 0, exampleCommit 2] = .ok h ∧
      handleAll exampleDigest exampleBackup
        [exampleCommit 2, examplePrePrepare, exampleCommit 0, examplePrepare] = .ok h' ∧
      SameOutcome (exampleDigest (exampleRequest 1)) h h' := by
  obtain ⟨h, h', hrun, hrun', -, -, hsame⟩ := outcome_of_perm
    (show exampleBackup.node.nodeInfo.nodeID ≠ exampleBackup.node.view by decide)
    (show Allocated (exampleBackup.node.cntPrepareConfirm (exampleDigest (exampleRequest 1))) 0 by
      rintro ptr ⟨⟩)
    (show Allocated (exampleBackup.node.cntCommitConfirm (exampleDigest (exampleRequest 1))) 0 by
      rintro ptr ⟨⟩)
    (show ∀ msg ∈ [examplePrePrepare, examplePrepare, exampleCommit 0, exampleCommit 2],
      OfRequest exampleDigest (exampleRequest 1) 1 msg by decide +kernel)
    (show List.Perm _ [exampleCommit 2, examplePrePrepare, exampleCommit 0, examplePrepare] by
      decide +kernel)
  exact ⟨h, h', hrun, hrun', hsame (by decide) rfl rfl⟩

end Reordering

end Pbft

end LessChain
