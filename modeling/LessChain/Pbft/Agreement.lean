import LessChain.Lib.Quorum
import LessChain.Pbft.Network

/-!
# Agreement

When the messages an honest node acts on pass the checks of `orderly`, no two honest nodes
call `reply` for different digests under one sequence ID.

A commit is a vote of its sender for a digest at a sequence ID. An honest node votes only
for the digest it has at that sequence ID, and the checks never let this digest change. A
node that calls `reply` has `2f` commits of others and its own, so a certificate of `2f+1`
votes, and two of these meet in an honest node.
-/

namespace LessChain

namespace Pbft

/-! ## What a handler does to the votes -/

/-- The part of a node that its votes depend on. -/
structure Ballot where
  nodeInfo : NodeInfo
  malicious_nums : ℕ
  requestPool : Digest → Option PbftRequest
  height2Digest : ℕ → Option Digest
  cntCommitConfirm : Digest → List NodeInfoPtr
  isCommitBordcast : Digest → Bool
  isReply : Digest → Bool

def Node.ballot (p : Node) : Ballot where
  nodeInfo := p.nodeInfo
  malicious_nums := p.malicious_nums
  requestPool := p.requestPool
  height2Digest := p.height2Digest
  cntCommitConfirm := p.cntCommitConfirm
  isCommitBordcast := p.isCommitBordcast
  isReply := p.isReply

/-- The node has seen the request and votes for it at `seqID` only. -/
def Ballot.bind (b : Ballot) (digest : Digest) (r : PbftRequest) (seqID : ℕ) : Ballot :=
  { b with
    requestPool := Function.update b.requestPool digest (some r)
    height2Digest := Function.update b.height2Digest seqID (some digest) }

def Ballot.bordcast (b : Ballot) (digest : Digest) : Ballot :=
  { b with isCommitBordcast := Function.update b.isCommitBordcast digest true }

def Ballot.count (b : Ballot) (digest : Digest) (val : NodeInfoPtr) : Ballot :=
  { b with cntCommitConfirm :=
      Function.update b.cntCommitConfirm digest ((b.cntCommitConfirm digest).insert val) }

def Ballot.reply (b : Ballot) (digest : Digest) : Ballot :=
  { b with isReply := Function.update b.isReply digest true }

/-- What a step other than the handling of a commit does to the ballot of its node, and
what it sends. -/
inductive Effect (b : Ballot) : Ballot → List Message → Prop
  | quiet {out : List Message} (hout : ∀ c, .commit c ∉ out) : Effect b b out
  | bind {out : List Message} {digest : Digest} {r : PbftRequest} {seqID : ℕ}
      (hbind : b.height2Digest seqID = some digest ∨
        b.height2Digest seqID = none ∧ b.requestPool digest = none)
      (hout : ∀ c, .commit c ∉ out) : Effect b (b.bind digest r seqID) out
  | commit {digest : Digest} {seqID : ℕ} (hbound : b.height2Digest seqID = some digest) :
      Effect b (b.bordcast digest) [.commit ⟨digest, seqID, b.nodeInfo⟩]

section Handlers

variable {getDigest : PbftRequest → Digest} {p p' : Node} {out : List Message}

theorem setSequenceID_ballot {id : ℕ} (h : p.setSequenceID id = .ok p') :
    p'.ballot = p.ballot := by
  unfold Node.setSequenceID at h
  split at h
  · cases h
  · cases h
    rfl

theorem propose_effect {rlp_block : Bytes} {now : ℤ}
    (hok : Network.Bindable p p.sequenceID (getDigest (Node.blockRequest rlp_block now)))
    (h : p.propose getDigest rlp_block now = .ok (p', out)) : Effect p.ballot p'.ballot out := by
  unfold Node.propose at h
  split at h
  · cases h
    exact .quiet (by simp)
  · split at h
    · cases h
    · cases h
      exact .bind hok (by simp)

theorem handlePrePrepare_effect {ppmsg : PrePrepare}
    (hok : getDigest ppmsg.requestMsg = ppmsg.digest →
      Network.Bindable p ppmsg.seqID ppmsg.digest) :
    Effect p.ballot (p.handlePrePrepare getDigest ppmsg).1.ballot
      (p.handlePrePrepare getDigest ppmsg).2 := by
  unfold Node.handlePrePrepare
  dsimp only
  split
  · exact .quiet (by simp)
  · rename_i hdigest
    rw [not_ne_iff] at hdigest
    have hbind := hok hdigest
    rw [hdigest]
    split
    · exact .bind hbind (by simp)
    · exact .bind hbind (by simp)

theorem handlePrepare_effect {pmsg : Prepare NodeInfoPtr}
    (hok : (p.requestPool pmsg.digest).isSome → p.height2Digest pmsg.seqID = some pmsg.digest) :
    Effect p.ballot (p.handlePrepare pmsg).1.ballot (p.handlePrepare pmsg).2 := by
  unfold Node.handlePrepare
  dsimp only
  split
  · exact .quiet (by simp)
  · rename_i hpool
    -- the digest a commit is sent for was pooled, so the check covers it
    have hbound := hok (by simpa [Option.isSome_iff_ne_none] using hpool)
    split
    · exact .quiet (by simp)
    · split
      · exact Effect.commit (b := p.ballot) hbound
      · exact Effect.quiet (b := p.ballot) (by simp)

theorem handleReply_ballot {rmsg : Reply NodeInfoPtr} (h : p.handleReply rmsg = .ok p') :
    p'.ballot = p.ballot := by
  unfold Node.handleReply at h
  repeat' split at h
  all_goals cases h
  all_goals rfl

theorem reply_no_commit (seqID : ℕ) (digest : Digest) (c : Commit NodeInfo) :
    .commit c ∉ (p.reply seqID digest).2 := by
  unfold Node.reply
  dsimp only
  split <;> simp

/-- The commit brings the count to `2f`, and `reply` has not been called for its digest. -/
def Ballot.Completes (b : Ballot) (cmsg : Commit NodeInfoPtr) : Prop :=
  2 * b.malicious_nums ≤ ((b.cntCommitConfirm cmsg.digest).insert cmsg.senderInfo).length ∧
    b.isReply cmsg.digest = false

theorem handleCommit_no_commit (cmsg : Commit NodeInfoPtr) (c : Commit NodeInfo) :
    .commit c ∉ (p.handleCommit cmsg).2 := by
  unfold Node.handleCommit
  dsimp only
  split
  · split
    · exact reply_no_commit _ _ c
    · exact reply_no_commit _ _ c
  · simp

theorem set2DMap_cntCommitConfirm (digest : Digest) (val : NodeInfoPtr) :
    (p.set2DMap false digest val).cntCommitConfirm digest =
      (p.cntCommitConfirm digest).insert val :=
  Function.update_self ..

theorem handleCommit_of_completes {cmsg : Commit NodeInfoPtr} (h : p.ballot.Completes cmsg) :
    (p.handleCommit cmsg).1.ballot =
      (p.ballot.count cmsg.digest cmsg.senderInfo).reply cmsg.digest := by
  unfold Node.handleCommit
  dsimp only
  rw [set2DMap_cntCommitConfirm]
  split
  · split
    · rfl
    · rfl
  · rename_i hnot
    exact absurd h hnot

theorem handleCommit_of_not_completes {cmsg : Commit NodeInfoPtr}
    (h : ¬ p.ballot.Completes cmsg) :
    (p.handleCommit cmsg).1.ballot = p.ballot.count cmsg.digest cmsg.senderInfo := by
  unfold Node.handleCommit
  dsimp only
  rw [set2DMap_cntCommitConfirm]
  split
  · rename_i hfire
    exact absurd hfire h
  · rfl

end Handlers

/-! ## One honest node -/

namespace Network

variable {N : ℕ}

/-- What holds of an honest node with ballot `b`, the next free address `next`, the votes
`voted`, and the logs `handled` and `replied`. -/
structure Local (n : Fin N) (b : Ballot) (next : ℕ) (voted : Commit NodeInfo → Prop)
    (handled : List (Commit NodeInfo)) (replied : List (ℕ × Digest)) : Prop where
  nodeInfo : b.nodeInfo = ⟨n⟩
  malicious_nums : b.malicious_nums = maliciousNums N
  pooled : ∀ q d, b.height2Digest q = some d → b.requestPool d ≠ none
  unique : ∀ q q' d, b.height2Digest q = some d → b.height2Digest q' = some d → q = q'
  bound : ∀ c, voted c → b.height2Digest c.seqID = some c.digest
  bordcast : ∀ d, b.isCommitBordcast d = true → ∃ c, voted c ∧ c.digest = d
  fresh : ∀ d, ∀ r ∈ b.cntCommitConfirm d, r.addr < next
  counted : ∀ d, (b.cntCommitConfirm d).length = handled.countP (·.digest = d)
  distinct : handled.Pairwise fun c c' => c.digest = c'.digest →
    c.senderInfo.nodeID ≠ c'.senderInfo.nodeID
  isReply : ∀ d, b.isReply d = true ↔ ∃ q, (q, d) ∈ replied

section Local

variable {n : Fin N} {b : Ballot} {next : ℕ} {voted : Commit NodeInfo → Prop}
  {handled : List (Commit NodeInfo)} {replied : List (ℕ × Digest)}

theorem Local.mono_next (h : Local n b next voted handled replied) {next' : ℕ}
    (hle : next ≤ next') : Local n b next' voted handled replied :=
  { h with fresh := fun d r hr => (h.fresh d r hr).trans_le hle }

/-- A request may come in for a sequence ID without digest, or once more. -/
theorem Local.bind (h : Local n b next voted handled replied) {digest : Digest}
    {r : PbftRequest} {seqID : ℕ}
    (hbind : b.height2Digest seqID = some digest ∨
      b.height2Digest seqID = none ∧ b.requestPool digest = none) :
    Local n (b.bind digest r seqID) next voted handled replied := by
  -- the digest is at no other sequence ID
  have honly : ∀ q, b.height2Digest q = some digest → q = seqID := by
    intro q hq
    rcases hbind with hbound | ⟨-, hnew⟩
    · exact h.unique q seqID digest hq hbound
    · exact absurd hnew (h.pooled q digest hq)
  -- and the sequence ID has no other digest
  have hkeep : ∀ q d, b.height2Digest q = some d → (b.bind digest r seqID).height2Digest q =
      some d := by
    intro q d hq
    by_cases hqs : q = seqID
    · subst hqs
      rcases hbind with hbound | ⟨hnone, -⟩
      · rw [← hq, hbound]
        exact Function.update_self ..
      · rw [hnone] at hq
        cases hq
    · rw [← hq]
      exact Function.update_of_ne hqs ..
  have hold : ∀ q d, (b.bind digest r seqID).height2Digest q = some d →
      q = seqID ∧ d = digest ∨ b.height2Digest q = some d := by
    intro q d hq
    by_cases hqs : q = seqID
    · left
      have hself : (b.bind digest r seqID).height2Digest seqID = some digest :=
        Function.update_self ..
      rw [hqs, hself, Option.some.injEq] at hq
      exact ⟨hqs, hq.symm⟩
    · right
      rw [← hq]
      exact (Function.update_of_ne hqs ..).symm
  -- the counts and the logs do not read the two maps that change
  refine { h with pooled := ?_, unique := ?_, bound := ?_ }
  · intro q d hq
    by_cases hd : d = digest
    · have hself : (b.bind digest r seqID).requestPool digest = some r := Function.update_self ..
      rw [hd, hself]
      exact Option.some_ne_none r
    · have hpool : (b.bind digest r seqID).requestPool d = b.requestPool d :=
        Function.update_of_ne hd ..
      rw [hpool]
      rcases hold q d hq with ⟨-, hd'⟩ | hq'
      · exact absurd hd' hd
      · exact h.pooled q d hq'
  · intro q q' d hq hq'
    rcases hold q d hq with ⟨hqs, hd⟩ | hq₀
    · rcases hold q' d hq' with ⟨hqs', -⟩ | hq₀'
      · rw [hqs, hqs']
      · rw [hqs, honly q' (hd ▸ hq₀')]
    · rcases hold q' d hq' with ⟨hqs', hd⟩ | hq₀'
      · rw [hqs', honly q (hd ▸ hq₀)]
      · exact h.unique q q' d hq₀ hq₀'
  · intro c hc
    exact hkeep _ _ (h.bound c hc)

/-- The node votes. -/
theorem Local.vote (h : Local n b next voted handled replied) {digest : Digest} {seqID : ℕ}
    (hbound : b.height2Digest seqID = some digest) {voted' : Commit NodeInfo → Prop}
    (hvoted : ∀ c, voted' c ↔ voted c ∨ c = ⟨digest, seqID, b.nodeInfo⟩) :
    Local n (b.bordcast digest) next voted' handled replied := by
  refine { h with bound := ?_, bordcast := ?_ }
  · intro c hc
    rcases (hvoted c).mp hc with hc | hc
    · exact h.bound c hc
    · rw [hc]
      exact hbound
  · intro d hd
    by_cases heq : d = digest
    · exact ⟨_, (hvoted _).mpr (.inr rfl), heq.symm⟩
    · have hsame : (b.bordcast digest).isCommitBordcast d = b.isCommitBordcast d :=
        Function.update_of_ne heq ..
      obtain ⟨c, hc, hcd⟩ := h.bordcast d (hsame ▸ hd)
      exact ⟨c, (hvoted c).mpr (.inl hc), hcd⟩

/-- The decoded `SenderInfo` is a new key of the map, whoever sent the commit. -/
theorem Local.length_insert (h : Local n b next voted handled replied) (digest : Digest)
    (info : NodeInfo) : ((b.cntCommitConfirm digest).insert ⟨next, info⟩).length =
      (b.cntCommitConfirm digest).length + 1 := by
  apply List.length_insert_of_not_mem
  -- every pointer in the map was decoded before, so has a lower address
  intro hmem
  exact lt_irrefl _ (h.fresh digest _ hmem)

/-- The node counts a commit of a sender it has not counted for the digest. -/
theorem Local.count (h : Local n b next voted handled replied) {c : Commit NodeInfo}
    (hnew : ∀ c' ∈ handled, c'.digest = c.digest → c'.senderInfo.nodeID ≠ c.senderInfo.nodeID) :
    Local n (b.count c.digest ⟨next, c.senderInfo⟩) (next + 1) voted (c :: handled) replied := by
  have hself : (b.count c.digest ⟨next, c.senderInfo⟩).cntCommitConfirm c.digest =
      (b.cntCommitConfirm c.digest).insert ⟨next, c.senderInfo⟩ := Function.update_self ..
  have hother : ∀ d, d ≠ c.digest → (b.count c.digest ⟨next, c.senderInfo⟩).cntCommitConfirm d =
      b.cntCommitConfirm d := fun d hd => Function.update_of_ne hd ..
  refine { h with fresh := ?_, counted := ?_, distinct := ?_ }
  · intro d r hr
    by_cases hd : d = c.digest
    · rw [hd, hself, List.mem_insert_iff] at hr
      rcases hr with hr | hr
      · rw [hr]
        exact Nat.lt_succ_self next
      · exact (h.fresh _ r hr).trans (Nat.lt_succ_self next)
    · rw [hother d hd] at hr
      exact (h.fresh d r hr).trans (Nat.lt_succ_self next)
  · intro d
    rw [List.countP_cons, ← h.counted d]
    by_cases hd : d = c.digest
    · rw [hd, hself, h.length_insert]
      simp
    · rw [hother d hd]
      simp [Ne.symm hd]
  · rw [List.pairwise_cons]
    constructor
    · intro c' hc' heq
      exact (hnew c' hc' heq.symm).symm
    · exact h.distinct

/-- The node calls `reply`. -/
theorem Local.reply (h : Local n b next voted handled replied) (q : ℕ) (digest : Digest) :
    Local n (b.reply digest) next voted handled ((q, digest) :: replied) := by
  refine { h with isReply := ?_ }
  intro d
  by_cases hd : d = digest
  · have hself : (b.reply digest).isReply digest = true := Function.update_self ..
    rw [hd, hself]
    exact ⟨fun _ => ⟨q, List.mem_cons_self⟩, fun _ => rfl⟩
  · have hother : (b.reply digest).isReply d = b.isReply d := Function.update_of_ne hd ..
    rw [hother, h.isReply d]
    simp [hd]

theorem Local.congr_voted (h : Local n b next voted handled replied)
    {voted' : Commit NodeInfo → Prop} (hvoted : ∀ c, voted' c ↔ voted c) :
    Local n b next voted' handled replied := by
  have heq : voted' = voted := funext fun c => propext (hvoted c)
  rw [heq]
  exact h

theorem Local.effect (h : Local n b next voted handled replied) {b' : Ballot}
    {out : List Message} (heffect : Effect b b' out) {voted' : Commit NodeInfo → Prop}
    (hvoted : ∀ c, voted' c ↔ voted c ∨ .commit c ∈ out) :
    Local n b' next voted' handled replied := by
  cases heffect with
  | quiet hout => exact h.congr_voted fun c => by simp [hvoted c, hout c]
  | bind hbind hout => exact (h.bind hbind).congr_voted fun c => by simp [hvoted c, hout c]
  | commit hbound => exact h.vote hbound fun c => by simp [hvoted c]

/-- A node signs its commits with its own ID. -/
theorem Local.sender_eq (h : Local n b next voted handled replied) {b' : Ballot}
    {out : List Message} (heffect : Effect b b' out) {c : Commit NodeInfo}
    (hc : .commit c ∈ out) : c.senderInfo = ⟨n⟩ := by
  cases heffect with
  | quiet hout => exact absurd hc (hout c)
  | bind hbind hout => exact absurd hc (hout c)
  | commit hbound =>
      cases List.mem_singleton.mp hc
      exact h.nodeInfo

end Local

/-! ## What a step does -/

section System

variable {getDigest : PbftRequest → Digest} {byz : Finset (Fin N)} {s s' : State N}

theorem of_mem_sendPbftMsg {n : Fin N} {msg : Message} {pk : Packet N}
    (h : pk ∈ sendPbftMsg n msg) : pk.dst ≠ n ∧ pk.msg = msg := by
  unfold sendPbftMsg at h
  obtain ⟨dst, hdst, rfl⟩ := List.mem_map.mp h
  exact ⟨by simpa using (List.mem_filter.mp hdst).2, rfl⟩

variable (byz) in
/-- The steps, as far as the votes go: a Byzantine node sends or receives, an honest node
does something that only concerns its own ballot, or an honest node handles a commit. -/
inductive Taken (s : State N) : State N → Prop
  | adversary {inflight : List (Packet N)}
      (hin : ∀ pk ∈ inflight, pk ∈ s.inflight ∨
        pk.src ∈ byz ∧ ∀ id ∈ Message.sender? pk.msg, id = pk.src) :
      Taken s { s with inflight := inflight }
  | acts {n : Fin N} {p : Node} {out : List Message} {heap : Fin N → ℕ}
      {inflight : List (Packet N)} (hn : n ∉ byz)
      (heffect : Effect (s.nodes n).ballot p.ballot out) (hheap : ∀ m, s.heap m ≤ heap m)
      (hin : ∀ pk ∈ inflight, pk ∈ s.inflight ∨ ∃ msg ∈ out, pk ∈ sendPbftMsg n msg) :
      Taken s { s with
        nodes := Function.update s.nodes n p
        heap := heap
        inflight := inflight
        sent := s.sent ++ out.map (n, ·) }
  | commit {n src : Fin N} {cmsg : Commit NodeInfo} {p : Node} {out : List Message}
      {inflight : List (Packet N)} (hn : n ∉ byz) (hpk : ⟨src, n, .commit cmsg⟩ ∈ s.inflight)
      (hok : CommitOk (s.nodes n) (s.handled n) cmsg)
      (hp : (s.nodes n).handleCommit ⟨cmsg.digest, cmsg.seqID, ⟨s.heap n, cmsg.senderInfo⟩⟩ =
        (p, out))
      (hin : ∀ pk ∈ inflight, pk ∈ s.inflight ∨ ∃ msg ∈ out, pk ∈ sendPbftMsg n msg) :
      Taken s { s with
        nodes := Function.update s.nodes n p
        heap := Function.update s.heap n (s.heap n + 1)
        inflight := inflight
        sent := s.sent ++ out.map (n, ·)
        handled := (s.log n p (.commit cmsg)).handled
        replied := (s.log n p (.commit cmsg)).replied }

/-- The packets after a node has handed `out` to the hub. -/
theorem mem_post {n : Fin N} {out : List Message} {inflight : List (Packet N)} {pk : Packet N}
    (hsub : ∀ pk ∈ inflight, pk ∈ s.inflight)
    (h : pk ∈ inflight ++ out.flatMap (sendPbftMsg n)) :
    pk ∈ s.inflight ∨ ∃ msg ∈ out, pk ∈ sendPbftMsg n msg := by
  rcases List.mem_append.mp h with h | h
  · exact .inl (hsub pk h)
  · exact .inr (List.mem_flatMap.mp h)

theorem handle_taken {n src : Fin N} {msg : Message} {k : ℕ} (hn : n ∉ byz)
    (hpk : ⟨src, n, msg⟩ ∈ s.inflight)
    (hok : MessageOk getDigest (s.nodes n) (s.handled n) msg)
    (h : handle getDigest { s with inflight := s.inflight.eraseIdx k } n msg = some s') :
    Taken byz s s' := by
  have hsub : ∀ pk ∈ s.inflight.eraseIdx k, pk ∈ s.inflight := fun pk => List.mem_of_mem_eraseIdx
  have hheap : ∀ m, s.heap m ≤ Function.update s.heap n (s.heap n + 1) m := by
    intro m
    by_cases hm : m = n
    · rw [hm, Function.update_self]
      exact Nat.le_succ _
    · rw [Function.update_of_ne hm]
  unfold handle at h
  cases msg with
  | prePrepare ppmsg =>
      cases h
      exact .acts hn (handlePrePrepare_effect hok) hheap fun pk => mem_post hsub
  | prepare pmsg =>
      cases h
      exact .acts hn (handlePrepare_effect hok) hheap fun pk => mem_post hsub
  | commit cmsg =>
      -- the only handler that touches the two logs
      cases h
      exact .commit hn hpk hok rfl fun pk => mem_post hsub
  | reply rmsg =>
      unfold Node.handlePbftMsg at h
      cases hp : (s.nodes n).handleReply ⟨rmsg.messageID, ⟨s.heap n, rmsg.senderInfo⟩,
          rmsg.result⟩ with
      | error e =>
          simp only [hp] at h
          cases h
      | ok p =>
          simp only [hp] at h
          cases h
          refine .acts hn ?_ hheap fun pk => mem_post hsub
          rw [handleReply_ballot hp]
          exact .quiet (by simp)

theorem step_taken {ev : Event N} (hok : orderly getDigest byz s ev)
    (hstep : step getDigest byz s ev = some s') : Taken byz s s' := by
  cases ev with
  | setSequenceID n id =>
      simp only [step, setSequenceID] at hstep
      split at hstep
      · cases hstep
      · rename_i hn
        split at hstep
        · cases hstep
        · rename_i p hp
          cases hstep
          refine .acts hn ?_ (fun _ => le_rfl) fun pk => mem_post fun _ h => h
          rw [setSequenceID_ballot hp]
          exact .quiet (by simp)
  | propose n rlp_block now =>
      simp only [step, propose] at hstep
      split at hstep
      · cases hstep
      · rename_i hn
        split at hstep
        · cases hstep
        · rename_i p out hp
          cases hstep
          exact .acts hn (propose_effect hok hp) (fun _ => le_rfl) fun pk => mem_post fun _ h => h
  | consensusDone n =>
      simp only [step, consensusDone] at hstep
      split at hstep
      · rename_i hn
        cases hstep
        exact .acts hn.1 (.quiet (by simp)) (fun _ => le_rfl) fun pk => mem_post fun _ h => h
      · cases hstep
  | send b dst msg =>
      simp only [step, send] at hstep
      split at hstep
      · rename_i hb
        cases hstep
        -- a Byzantine node sends what it likes, under its own ID
        refine .adversary fun pk hpk => ?_
        rcases List.mem_append.mp hpk with hpk | hpk
        · exact .inl hpk
        · rw [List.mem_singleton.mp hpk]
          exact .inr ⟨hb, hok⟩
      · cases hstep
  | deliver k =>
      simp only [step, deliver, Option.bind_eq_bind, Option.bind_eq_some_iff] at hstep
      obtain ⟨pk, hk, hstep⟩ := hstep
      split at hstep
      · cases hstep
        exact .adversary fun pk hpk => .inl (List.mem_of_mem_eraseIdx hpk)
      · rename_i hdst
        exact handle_taken hdst (List.mem_of_getElem? hk) (hok pk hk hdst) hstep

/-! ## The whole committee -/

def State.voted (s : State N) (m : Fin N) (c : Commit NodeInfo) : Prop :=
  (m, .commit c) ∈ s.sent

/-- `m` has voted for the digest at the sequence ID. -/
def State.votedFor (s : State N) (q : ℕ) (d : Digest) (m : Fin N) : Prop :=
  ∃ c, s.voted m c ∧ c.seqID = q ∧ c.digest = d

variable (byz) in
/-- The commit names a node other than `n`, which voted for it if it is honest. -/
def FromOther (s : State N) (n : Fin N) (c : Commit NodeInfo) : Prop :=
  ∃ m : Fin N, m ≠ n ∧ c.senderInfo.nodeID = m ∧ (m ∉ byz → s.voted m c)

theorem FromOther.mono {n : Fin N} {c : Commit NodeInfo} (h : FromOther byz s n c)
    (hsent : ∀ x ∈ s.sent, x ∈ s'.sent) : FromOther byz s' n c := by
  obtain ⟨m, hmn, hid, hvoted⟩ := h
  exact ⟨m, hmn, hid, fun hm => hsent _ (hvoted hm)⟩

variable (byz) in
structure Inv (s : State N) : Prop where
  node : ∀ n, n ∉ byz →
    Local n (s.nodes n).ballot (s.heap n) (s.voted n) (s.handled n) (s.replied n)
  inflight : ∀ pk ∈ s.inflight, ∀ c, pk.msg = .commit c → pk.dst ∉ byz → FromOther byz s pk.dst c
  handled : ∀ n, n ∉ byz → ∀ c ∈ s.handled n, FromOther byz s n c
  certified : ∀ n, n ∉ byz → ∀ q d, (q, d) ∈ s.replied n →
    Sys.Certified byz (2 * maliciousNums N + 1) (s.votedFor q d)

theorem inv_initial : Inv byz (initial : State N) := by
  refine ⟨fun n _ => ?_, nofun, nofun, nofun⟩
  exact {
    nodeInfo := rfl
    malicious_nums := rfl
    pooled := nofun
    unique := nofun
    bound := nofun
    bordcast := nofun
    fresh := nofun
    counted := fun _ => rfl
    distinct := List.Pairwise.nil
    isReply := fun d => by simp [initial, Node.ballot, newPbftNode] }

/-- The senders of the commits a node has handled for a digest. -/
def senders (handled : List (Commit NodeInfo)) (d : Digest) : Finset (Fin N) :=
  Finset.univ.filter fun m => ∃ c ∈ handled, c.digest = d ∧ c.senderInfo.nodeID = m

theorem countP_le_card_senders {handled : List (Commit NodeInfo)}
    (hdistinct : handled.Pairwise fun c c' => c.digest = c'.digest →
      c.senderInfo.nodeID ≠ c'.senderInfo.nodeID)
    (hnode : ∀ c ∈ handled, ∃ m : Fin N, c.senderInfo.nodeID = m) (d : Digest) :
    handled.countP (·.digest = d) ≤ (senders handled d : Finset (Fin N)).card := by
  have hnodup : ((handled.filter (·.digest = d)).map (·.senderInfo.nodeID)).Nodup := by
    rw [List.Nodup, List.pairwise_map, List.pairwise_filter]
    refine hdistinct.imp fun hne hc hc' => hne ?_
    simp only [decide_eq_true_eq] at hc hc'
    rw [hc, hc']
  rw [List.countP_eq_length_filter, ← List.length_map (·.senderInfo.nodeID),
    ← List.toFinset_card_of_nodup hnodup, ← Finset.card_image_of_injective _ Fin.val_injective]
  apply Finset.card_le_card
  intro id hid
  simp only [List.mem_toFinset, List.mem_map, List.mem_filter, decide_eq_true_eq] at hid
  obtain ⟨c, ⟨hc, hd⟩, rfl⟩ := hid
  obtain ⟨m, hm⟩ := hnode c hc
  rw [hm]
  apply Finset.mem_image_of_mem
  simp only [senders, Finset.mem_filter, Finset.mem_univ, true_and]
  exact ⟨c, hc, hd, hm⟩

/-- The commit that makes an honest node call `reply` leaves it with a certificate. -/
theorem Inv.certified_of_completes (h : Inv byz s) {n : Fin N} (hn : n ∉ byz)
    {cmsg : Commit NodeInfo} (hok : CommitOk (s.nodes n) (s.handled n) cmsg)
    (hfrom : FromOther byz s n cmsg)
    (hcompletes : (s.nodes n).ballot.Completes
      ⟨cmsg.digest, cmsg.seqID, ⟨s.heap n, cmsg.senderInfo⟩⟩) :
    Sys.Certified byz (2 * maliciousNums N + 1) (s.votedFor cmsg.seqID cmsg.digest) := by
  have hnode := h.node n hn
  have hcount := hnode.count fun c hc heq => (hok.1 c hc heq).2
  obtain ⟨hreached, hnotyet⟩ := hcompletes
  have hself : ((s.nodes n).ballot.count cmsg.digest
      ⟨s.heap n, cmsg.senderInfo⟩).cntCommitConfirm cmsg.digest =
      ((s.nodes n).cntCommitConfirm cmsg.digest).insert ⟨s.heap n, cmsg.senderInfo⟩ :=
    Function.update_self ..
  -- by the check the node has voted for the digest itself
  obtain ⟨hbordcast, hbound⟩ := hok.2 hnotyet (hreached.trans_eq (hnode.length_insert ..))
  have hfroms : ∀ c ∈ cmsg :: s.handled n, FromOther byz s n c := by
    intro c hc
    rcases List.mem_cons.mp hc with hc | hc
    · exact hc ▸ hfrom
    · exact h.handled n hn c hc
  have hothers : 2 * maliciousNums N ≤
      (senders (cmsg :: s.handled n) cmsg.digest : Finset (Fin N)).card := by
    calc 2 * maliciousNums N = 2 * (s.nodes n).ballot.malicious_nums := by
          rw [hnode.malicious_nums]
      _ ≤ (cmsg :: s.handled n).countP (·.digest = cmsg.digest) := by
          rw [← hcount.counted cmsg.digest, hself]
          exact hreached
      _ ≤ _ := countP_le_card_senders hcount.distinct (fun c hc => ?_) cmsg.digest
    obtain ⟨m, -, hid, -⟩ := hfroms c hc
    exact ⟨m, hid⟩
  -- the node itself is not among those whose commits it has handled
  have hnot : n ∉ (senders (cmsg :: s.handled n) cmsg.digest : Finset (Fin N)) := by
    intro hmem
    simp only [senders, Finset.mem_filter, Finset.mem_univ, true_and] at hmem
    obtain ⟨c, hc, -, hid⟩ := hmem
    obtain ⟨m, hmn, hid', -⟩ := hfroms c hc
    exact hmn (Fin.val_injective (hid'.symm.trans hid))
  refine ⟨insert n (senders (cmsg :: s.handled n) cmsg.digest), ?_, ?_⟩
  · rw [Finset.card_insert_of_notMem hnot]
    omega
  · intro m hm hbyz
    rcases Finset.mem_insert.mp hm with rfl | hm
    · -- its own vote is at the sequence ID of the commit, where the digest is
      obtain ⟨c, hc, hd⟩ := hnode.bordcast _ hbordcast
      have hseq := hnode.bound c hc
      rw [hd] at hseq
      exact ⟨c, hc, hnode.unique _ _ _ hseq hbound, hd⟩
    · simp only [senders, Finset.mem_filter, Finset.mem_univ, true_and] at hm
      obtain ⟨c, hc, hd, hid⟩ := hm
      obtain ⟨m', -, hid', hvoted⟩ := hfroms c hc
      have hmm : m' = m := Fin.val_injective (hid'.symm.trans hid)
      subst hmm
      refine ⟨c, hvoted hbyz, ?_, hd⟩
      rcases List.mem_cons.mp hc with hc | hc
      · rw [hc]
      · exact (hok.1 c hc hd).1

/-- The parts of the invariant that only grow with what was sent. -/
theorem Inv.certified_mono (h : Inv byz s) (hsent : ∀ x ∈ s.sent, x ∈ s'.sent) {n : Fin N}
    (hn : n ∉ byz) {q : ℕ} {d : Digest} (hmem : (q, d) ∈ s.replied n) :
    Sys.Certified byz (2 * maliciousNums N + 1) (s'.votedFor q d) := by
  refine (h.certified n hn q d hmem).mono fun m hm => ?_
  obtain ⟨c, hc, heq⟩ := hm
  exact ⟨c, hsent _ hc, heq⟩

/-- What an honest node posts is from it. -/
theorem Inv.inflight_post (h : Inv byz s) (hsent : ∀ x ∈ s.sent, x ∈ s'.sent) {n : Fin N}
    {out : List Message} (hvoted : ∀ c, .commit c ∈ out → s'.voted n c ∧ c.senderInfo = ⟨n⟩)
    (hin : ∀ pk ∈ s'.inflight, pk ∈ s.inflight ∨ ∃ msg ∈ out, pk ∈ sendPbftMsg n msg) :
    ∀ pk ∈ s'.inflight, ∀ c, pk.msg = .commit c → pk.dst ∉ byz → FromOther byz s' pk.dst c := by
  intro pk hpk c hc hdst
  rcases hin pk hpk with hold | ⟨msg, hmsg, hnew⟩
  · exact (h.inflight pk hold c hc hdst).mono hsent
  · obtain ⟨hne, heq⟩ := of_mem_sendPbftMsg hnew
    rw [← heq, hc] at hmsg
    obtain ⟨hv, hinfo⟩ := hvoted c hmsg
    exact ⟨n, hne.symm, by rw [hinfo], fun _ => hv⟩

theorem Inv.adversary (h : Inv byz s) {inflight : List (Packet N)}
    (hin : ∀ pk ∈ inflight, pk ∈ s.inflight ∨
      pk.src ∈ byz ∧ ∀ id ∈ Message.sender? pk.msg, id = pk.src) :
    Inv byz { s with inflight := inflight } := by
  refine ⟨h.node, ?_, h.handled, h.certified⟩
  intro pk hpk c hc hdst
  rcases hin pk hpk with hold | ⟨hsrc, hid⟩
  · exact h.inflight pk hold c hc hdst
  · refine ⟨pk.src, ?_, ?_, fun hnot => absurd hsrc hnot⟩
    · intro heq
      exact hdst (heq ▸ hsrc)
    · exact hid _ (by rw [hc]; rfl)

theorem voted_append {n m : Fin N} {out : List Message} {c : Commit NodeInfo} :
    (m, Message.commit c) ∈ s.sent ++ out.map (n, ·) ↔
      s.voted m c ∨ m = n ∧ .commit c ∈ out := by
  simp only [List.mem_append, List.mem_map, Prod.mk.injEq, State.voted]
  constructor
  · rintro (h | ⟨msg, hmsg, rfl, rfl⟩)
    · exact .inl h
    · exact .inr ⟨rfl, hmsg⟩
  · rintro (h | ⟨rfl, hmsg⟩)
    · exact .inl h
    · exact .inr ⟨_, hmsg, rfl, rfl⟩

theorem Inv.acts (h : Inv byz s) {n : Fin N} {p : Node} {out : List Message}
    {heap : Fin N → ℕ} {inflight : List (Packet N)} (hn : n ∉ byz)
    (heffect : Effect (s.nodes n).ballot p.ballot out) (hheap : ∀ m, s.heap m ≤ heap m)
    (hin : ∀ pk ∈ inflight, pk ∈ s.inflight ∨ ∃ msg ∈ out, pk ∈ sendPbftMsg n msg) :
    Inv byz { s with
      nodes := Function.update s.nodes n p
      heap := heap
      inflight := inflight
      sent := s.sent ++ out.map (n, ·) } := by
  have hsent : ∀ x ∈ s.sent, x ∈ s.sent ++ out.map (n, ·) := fun x => List.mem_append_left _
  constructor
  · intro m hm
    refine Local.mono_next ?_ (hheap m)
    dsimp only
    by_cases hmn : m = n
    · subst hmn
      rw [Function.update_self]
      exact (h.node m hm).effect heffect fun c => voted_append.trans (by simp)
    · rw [Function.update_of_ne hmn]
      exact (h.node m hm).congr_voted fun c => voted_append.trans (by simp [hmn])
  · exact h.inflight_post hsent (fun c hc => ⟨voted_append.mpr (.inr ⟨rfl, hc⟩),
      (h.node n hn).sender_eq heffect hc⟩) hin
  · intro m hm c hc
    exact (h.handled m hm c hc).mono hsent
  · intro m hm q d hmem
    exact h.certified_mono hsent hm hmem

/-- An honest node has handled a commit, and is in order itself. -/
theorem Inv.handle (h : Inv byz s) {n : Fin N} {cmsg : Commit NodeInfo} {p : Node}
    {out : List Message} {inflight : List (Packet N)} {replied : Fin N → List (ℕ × Digest)}
    (hfrom : FromOther byz s n cmsg)
    (hnode : Local n p.ballot (s.heap n + 1) (s.voted n) (cmsg :: s.handled n) (replied n))
    (hothers : ∀ m, m ≠ n → replied m = s.replied m)
    (hcert : ∀ q d, (q, d) ∈ replied n →
      Sys.Certified byz (2 * maliciousNums N + 1) (s.votedFor q d))
    (hout : ∀ c, .commit c ∉ out)
    (hin : ∀ pk ∈ inflight, pk ∈ s.inflight ∨ ∃ msg ∈ out, pk ∈ sendPbftMsg n msg) :
    Inv byz { s with
      nodes := Function.update s.nodes n p
      heap := Function.update s.heap n (s.heap n + 1)
      inflight := inflight
      sent := s.sent ++ out.map (n, ·)
      handled := Function.update s.handled n (cmsg :: s.handled n)
      replied := replied } := by
  have hsent : ∀ x ∈ s.sent, x ∈ s.sent ++ out.map (n, ·) := fun x => List.mem_append_left _
  constructor
  · intro m hm
    dsimp only
    by_cases hmn : m = n
    · subst hmn
      rw [Function.update_self, Function.update_self, Function.update_self]
      exact hnode.congr_voted fun c => voted_append.trans (by simp [hout c])
    · -- the votes of the others are where they were
      rw [Function.update_of_ne hmn, Function.update_of_ne hmn, Function.update_of_ne hmn,
        hothers m hmn]
      exact (h.node m hm).congr_voted fun c => voted_append.trans (by simp [hmn])
  · exact h.inflight_post hsent (fun c hc => absurd hc (hout c)) hin
  · intro m hm c hc
    by_cases hmn : m = n
    · subst hmn
      simp only [Function.update_self, List.mem_cons] at hc
      rcases hc with hc | hc
      · rw [hc]
        exact hfrom.mono hsent
      · exact (h.handled m hm c hc).mono hsent
    · simp only [Function.update_of_ne hmn] at hc
      exact (h.handled m hm c hc).mono hsent
  · intro m hm q d hmem
    by_cases hmn : m = n
    · subst hmn
      refine (hcert q d hmem).mono fun m' hm' => ?_
      obtain ⟨c, hc, heq⟩ := hm'
      exact ⟨c, hsent _ hc, heq⟩
    · simp only [hothers m hmn] at hmem
      exact h.certified_mono hsent hm hmem

theorem Inv.commit (h : Inv byz s) {n src : Fin N} {cmsg : Commit NodeInfo} {p : Node}
    {out : List Message} {inflight : List (Packet N)} (hn : n ∉ byz)
    (hpk : ⟨src, n, .commit cmsg⟩ ∈ s.inflight)
    (hok : CommitOk (s.nodes n) (s.handled n) cmsg)
    (hp : (s.nodes n).handleCommit ⟨cmsg.digest, cmsg.seqID, ⟨s.heap n, cmsg.senderInfo⟩⟩ =
      (p, out))
    (hin : ∀ pk ∈ inflight, pk ∈ s.inflight ∨ ∃ msg ∈ out, pk ∈ sendPbftMsg n msg) :
    Inv byz { s with
      nodes := Function.update s.nodes n p
      heap := Function.update s.heap n (s.heap n + 1)
      inflight := inflight
      sent := s.sent ++ out.map (n, ·)
      handled := (s.log n p (.commit cmsg)).handled
      replied := (s.log n p (.commit cmsg)).replied } := by
  have hfrom : FromOther byz s n cmsg := h.inflight _ hpk cmsg rfl hn
  have hout : ∀ c, .commit c ∉ out := by
    intro c
    have hno := handleCommit_no_commit (p := s.nodes n)
      ⟨cmsg.digest, cmsg.seqID, ⟨s.heap n, cmsg.senderInfo⟩⟩ c
    rwa [hp] at hno
  have hcount := (h.node n hn).count fun c hc heq => (hok.1 c hc heq).2
  -- whether the handler goes on to `reply` decides what is logged
  by_cases hcompletes : (s.nodes n).ballot.Completes
      ⟨cmsg.digest, cmsg.seqID, ⟨s.heap n, cmsg.senderInfo⟩⟩
  · have hballot := handleCommit_of_completes hcompletes
    rw [hp] at hballot
    have hset : p.isReply cmsg.digest = true :=
      (congrFun (congrArg Ballot.isReply hballot) _).trans (Function.update_self ..)
    have hlog : (s.log n p (.commit cmsg)).replied =
        Function.update s.replied n ((cmsg.seqID, cmsg.digest) :: s.replied n) :=
      if_pos ⟨hcompletes.2, hset⟩
    rw [hlog]
    refine h.handle hfrom ?_ (fun m hmn => Function.update_of_ne hmn ..) ?_ hout hin
    · rw [hballot, Function.update_self]
      exact hcount.reply cmsg.seqID cmsg.digest
    · intro q d hmem
      rw [Function.update_self, List.mem_cons, Prod.mk.injEq] at hmem
      rcases hmem with ⟨hq, hd⟩ | hmem
      · rw [hq, hd]
        exact h.certified_of_completes hn hok hfrom hcompletes
      · exact h.certified n hn q d hmem
  · have hballot := handleCommit_of_not_completes hcompletes
    rw [hp] at hballot
    have hsame : p.isReply cmsg.digest = (s.nodes n).isReply cmsg.digest :=
      congrFun (congrArg Ballot.isReply hballot) _
    have hlog : (s.log n p (.commit cmsg)).replied = s.replied := by
      refine if_neg fun hflip => ?_
      rw [hsame, hflip.1] at hflip
      cases hflip.2
    rw [hlog]
    refine h.handle hfrom ?_ (fun _ _ => rfl) (h.certified n hn) hout hin
    rw [hballot]
    exact hcount

/-! ## Agreement -/

theorem inv_of_reachable
    (h : (machine getDigest byz).ReachableBy (orderly getDigest byz) s) : Inv byz s := by
  refine Sys.Machine.invariant_by (Inv byz) ?_ ?_ h
  · intro s hs
    rw [show s = initial from hs]
    exact inv_initial
  · intro s ev s' hok hstep hinv
    cases step_taken hok hstep with
    | adversary hin => exact hinv.adversary hin
    | acts hn heffect hheap hin => exact hinv.acts hn heffect hheap hin
    | commit hn hpk hmsg hp hin => exact hinv.commit hn hpk hmsg hp hin

/-- The log and the map agree on the digests an honest node has replied to. -/
theorem isReply_iff (h : (machine getDigest byz).ReachableBy (orderly getDigest byz) s)
    {n : Fin N} (hn : n ∉ byz) (d : Digest) :
    (s.nodes n).isReply d = true ↔ ∃ q, (q, d) ∈ s.replied n :=
  ((inv_of_reachable h).node n hn).isReply d

/-- Two honest nodes that call `reply` for a sequence ID do so for the same digest, when the
messages they act on pass the checks of `orderly`, a third of the committee less one is an
exact number, and no more than that are Byzantine. -/
theorem replies_agree (hN : N % 3 = 1) (hlt : N < 2 ^ 32) (hbyz : byz.card ≤ maliciousNums N)
    (h : (machine getDigest byz).ReachableBy (orderly getDigest byz) s) {a b : Fin N}
    (ha : a ∉ byz) (hb : b ∉ byz) {q : ℕ} {d d' : Digest} (hd : (q, d) ∈ s.replied a)
    (hd' : (q, d') ∈ s.replied b) : d = d' := by
  have hinv := inv_of_reachable h
  have hf := maliciousNums_of_pos (n := N) (by omega) hlt
  -- with `N = 3f + 1` two certificates have more than `f` nodes in common
  have hcard : Fintype.card (Fin N) + byz.card <
      2 * maliciousNums N + 1 + (2 * maliciousNums N + 1) := by
    rw [Fintype.card_fin]
    omega
  obtain ⟨m, hm, ⟨c, hc, hcq, hcd⟩, ⟨c', hc', hcq', hcd'⟩⟩ :=
    (hinv.certified a ha q d hd).exists_common (hinv.certified b hb q d' hd') hcard
  -- the honest node in both certificates has one digest at `q`
  have hbound := (hinv.node m hm).bound c hc
  have hbound' := (hinv.node m hm).bound c' hc'
  rw [hcq, hcd] at hbound
  rw [hcq', hcd', hbound] at hbound'
  exact Option.some.inj hbound'

end System

theorem replies_agree_finishedRound :
    ∃ s, (machine exampleDigest exampleByz).ReachableBy (orderly exampleDigest exampleByz) s ∧
      (1, digestOne) ∈ s.replied 1 ∧ (1, digestOne) ∈ s.replied 2 ∧
      ∀ d, (1, d) ∈ s.replied 2 → digestOne = d := by
  obtain ⟨s, hreach, hone, htwo⟩ :
      ∃ s, (machine exampleDigest exampleByz).ReachableBy (orderly exampleDigest exampleByz) s ∧
        (1, digestOne) ∈ s.replied 1 ∧ (1, digestOne) ∈ s.replied 2 :=
    Sys.Machine.exists_reachableBy _ rfl finishedRound (by decide +kernel)
  refine ⟨s, hreach, hone, htwo, fun d hd => ?_⟩
  exact replies_agree (by decide) (by decide) (by decide) hreach (by decide) (by decide) hone hd

end Network

end Pbft

end LessChain
