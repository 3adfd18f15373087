import LessChain.Committee.WorkLoop

/-!
# Nothing is published without consensus

In calm runs a block and its receipts are sent only after `OneConsensusDone` was signalled
in the round of the block, because of replies to its sequence ID, and a beacon is sent only
with the required number of signatures.
-/

namespace LessChain

namespace WorkLoop

open MultiSign (SignedTB MultiSignReply)

section

variable {getDigest : Pbft.PbftRequest → Pbft.Digest} {crypto : Crypto} {required : ℕ}
  {s s' : State}

/-! ## What a step does -/

theorem propose_channel {p p' : Pbft.Node} {rlp_block : Bytes} {now : ℤ}
    {out : List Pbft.Message} (h : p.propose getDigest rlp_block now = .ok (p', out)) :
    p'.oneConsensusDone = p.oneConsensusDone := by
  rcases Pbft.Node.propose_round h with ⟨-, rfl⟩ | ⟨-, -, hround⟩
  · rfl
  · exact hround.oneConsensusDone

variable (crypto required) in
/-- The steps by what they change. In the first, the worker stays where it is. -/
inductive Taken (s : State) : Event → State → Prop
  | control {ev : Event} {running startCh timer to_reconfig : Bool} :
      Taken s ev { s with
        running := running, startCh := startCh, timer := timer, to_reconfig := to_reconfig }
  | close : Taken s .close { s with running := false, exitCh := true }
  | takeExit (hpc : s.pc = .select) : Taken s .takeExit { s with exitCh := false, pc := .closed }
  | tick {block : Block} (hpc : s.pc = .select) :
      Taken s (.tick block) { s with timer := false, pc := .setSequenceID block }
  | setSequenceID {block : Block} {p : Pbft.Node} (hpc : s.pc = .setSequenceID block)
      (hdone : p.oneConsensusDone = s.pbft.oneConsensusDone) :
      Taken s .setSequenceID { s with pbft := p, pc := .propose block }
  | propose {block : Block} {now : ℤ} {p : Pbft.Node} (hpc : s.pc = .propose block)
      (hdone : p.oneConsensusDone = s.pbft.oneConsensusDone) :
      Taken s (.propose now) { s with
        pbft := p
        pc := .consensus block s.pbft.sequenceID
        round := s.round + 1 }
  | consensusDone {block : Block} {seqID : ℕ} (hpc : s.pc = .consensus block seqID)
      (hdone : s.pbft.oneConsensusDone = true) :
      Taken s .consensusDone { s with
        pbft := { s.pbft with oneConsensusDone := false }
        pc := .addBlock2Shard block seqID s.signal
        signal := none }
  | consensusExit {block : Block} {seqID : ℕ} (hpc : s.pc = .consensus block seqID)
      (hexit : s.exitCh = true) :
      Taken s .consensusExit { s with pc := .addBlock2Shard block seqID none }
  | addBlock2Shard {block : Block} {seqID : ℕ} {signal : Option Signal}
      (hpc : s.pc = .addBlock2Shard block seqID signal) :
      Taken s .addBlock2Shard { s with
        pc := .sendTXReceipt2Client block seqID signal
        blocks := ⟨block, seqID, s.round, signal⟩ :: s.blocks }
  | sendTXReceipt2Client {block : Block} {seqID : ℕ} {signal : Option Signal}
      (hpc : s.pc = .sendTXReceipt2Client block seqID signal) :
      Taken s .sendTXReceipt2Client { s with
        pc := .broadcastTb block
        receipts := ⟨block, seqID, s.round, signal⟩ :: s.receipts }
  | initMultiSign {block : Block} {seed : Hash} {height : ℕ} {sg : MultiSign.State}
      (hpc : s.pc = .broadcastTb block)
      (hsign : MultiSign.initMultiSign s.sign ⟨seed, height, block.tb⟩ = some sg) :
      Taken s (.initMultiSign seed height) { s with sign := sg, pc := .multiSign }
  | assign {sg : MultiSign.State} (hsign : MultiSign.assign s.sign = some sg) :
      Taken s .assign { s with sign := sg }
  | multiSignDone {r : MultiSign.Request} {sg : MultiSign.State} (hpc : s.pc = .multiSign)
      (hphase : s.sign.phase = .waiting r) (hsign : MultiSign.returnDone s.sign = some sg) :
      Taken s .multiSignDone { s with sign := sg, pc := .sendTB (s.sign.data.signedTB r) }
  | multiSignExit {r : MultiSign.Request} {sg : MultiSign.State} (hpc : s.pc = .multiSign)
      (hphase : s.sign.phase = .waiting r) (hexit : s.exitCh = true) :
      Taken s .multiSignExit { s with sign := sg, pc := .sendTB (s.sign.data.signedTB r) }
  | sendTB {tb : SignedTB} (hpc : s.pc = .sendTB tb) :
      Taken s .sendTB { s with pc := .newBlockGenerated, tbs := tb :: s.tbs }
  | newBlockGenerated {exitCh to_reconfig : Bool} (hpc : s.pc = .newBlockGenerated) :
      Taken s .newBlockGenerated { s with
        exitCh := exitCh, to_reconfig := to_reconfig, timer := true, pc := .select }
  | becomeMember {nodeID : ℕ} (hpc : s.pc = .closed) :
      Taken s (.endReconfig nodeID) { s with
        to_reconfig := false, pbft := { s.pbft with nodeInfo := ⟨nodeID⟩ } }
  | becomeLeader (hpc : s.pc = .closed) :
      Taken s (.endReconfig 0) { s with
        pc := .select
        running := false
        startCh := false
        exitCh := false
        timer := false
        to_reconfig := false
        pbft := Pbft.Node.reset { s.pbft with nodeInfo := ⟨0⟩ }
        counted := [] }
  | message {addr : ℕ} {msg : Pbft.Message} {p : Pbft.Node}
      (hdone : p.oneConsensusDone = s.pbft.oneConsensusDone)
      (hgot : p.gotEnoughReply = s.pbft.gotEnoughReply) :
      Taken s (.handlePbftMsg addr msg) { s with pbft := p }
  | counted {addr : ℕ} {rmsg : Pbft.Reply Pbft.NodeInfo} {p : Pbft.Node}
      (hcounts : s.pbft.Counts rmsg.messageID) (hdone : p.oneConsensusDone = s.pbft.oneConsensusDone)
      (hgot : p.gotEnoughReply = s.pbft.gotEnoughReply) :
      Taken s (.handlePbftMsg addr (.reply rmsg))
        { s with pbft := p, counted := rmsg.messageID :: s.counted }
  | signalled {addr : ℕ} {rmsg : Pbft.Reply Pbft.NodeInfo} {p : Pbft.Node}
      (hcounts : s.pbft.Counts rmsg.messageID) (hgot : p.gotEnoughReply rmsg.messageID = true) :
      Taken s (.handlePbftMsg addr (.reply rmsg)) { s with
        pbft := p
        counted := []
        signal := some ⟨s.round, rmsg.messageID :: s.counted⟩ }
  | handleMultiSignReply {rep : MultiSignReply} {sg : MultiSign.State}
      (hsign : MultiSign.reply crypto required s.sign rep = some sg) :
      Taken s (.handleMultiSignReply rep) { s with sign := sg }

theorem handlePbftMsg_taken {addr : ℕ} {msg : Pbft.Message} {p : Pbft.Node}
    {out : List Pbft.Message} (hp : s.pbft.handlePbftMsg getDigest addr msg = .ok (p, out)) :
    Taken crypto required s (.handlePbftMsg addr msg) { s.log p msg with pbft := p } := by
  cases msg with
  | reply rmsg =>
      have hcases := Pbft.Node.handlePbftMsg_reply hp
      cases hcases with
      | dropped hnot =>
          rw [State.log, if_neg hnot]
          exact .message rfl rfl
      | counted hcounts =>
          rw [State.log, if_pos hcounts, if_pos rfl]
          exact .counted hcounts rfl rfl
      | completed hcounts _ hempty =>
          -- the token is in the channel now
          have hfull : ¬ s.pbft.oneConsensusDone =
              (s.pbft.completeRound rmsg.messageID).oneConsensusDone := by
            rw [hempty]
            exact Bool.false_ne_true
          rw [State.log, if_pos hcounts, if_neg hfull]
          exact .signalled hcounts (Function.update_self ..)
  | prePrepare ppmsg =>
      have hround := Pbft.Node.handlePbftMsg_round (by simp) hp
      exact .message hround.oneConsensusDone hround.gotEnoughReply
  | prepare pmsg =>
      have hround := Pbft.Node.handlePbftMsg_round (by simp) hp
      exact .message hround.oneConsensusDone hround.gotEnoughReply
  | commit cmsg =>
      have hround := Pbft.Node.handlePbftMsg_round (by simp) hp
      exact .message hround.oneConsensusDone hround.gotEnoughReply

theorem step_taken {ev : Event} (hstep : step getDigest crypto required s ev = some s') :
    Taken crypto required s ev s' := by
  cases ev with
  | start =>
      simp only [step, start] at hstep
      split at hstep
      · cases hstep
      · cases hstep
        exact .control
  | close =>
      simp only [step, close] at hstep
      split at hstep
      · cases hstep
      · cases hstep
        exact .close
  | takeStart =>
      simp only [step, takeStart] at hstep
      split at hstep
      · cases hstep
        exact .control
      · cases hstep
  | takeExit =>
      simp only [step, takeExit] at hstep
      split at hstep
      · rename_i h
        cases hstep
        exact .takeExit h.1
      · cases hstep
  | tick block =>
      simp only [step, tick] at hstep
      split at hstep
      · rename_i h
        -- a worker that was stopped lets the tick pass
        cases hrun : s.running with
        | false =>
            simp only [hrun, Bool.false_eq_true, if_false, ← h.1] at hstep
            cases hstep
            exact .control
        | true =>
            simp only [hrun, if_true] at hstep
            cases hstep
            rw [← hrun]
            exact .tick h.1
      · cases hstep
  | setSequenceID =>
      simp only [step, setSequenceID] at hstep
      split at hstep
      · rename_i block hpc
        split at hstep
        · rename_i p hp
          cases hstep
          exact .setSequenceID hpc (Pbft.Node.setSequenceID_round hp).1.oneConsensusDone
        · cases hstep
      · cases hstep
  | propose now =>
      simp only [step, propose] at hstep
      split at hstep
      · rename_i block hpc
        split at hstep
        · rename_i p out hp
          cases hstep
          exact .propose hpc (propose_channel hp)
        · cases hstep
      · cases hstep
  | consensusDone =>
      simp only [step, consensusDone] at hstep
      split at hstep
      · rename_i block seqID hpc
        split at hstep
        · rename_i hdone
          cases hstep
          exact .consensusDone hpc hdone
        · cases hstep
      · cases hstep
  | consensusExit =>
      simp only [step, consensusExit] at hstep
      split at hstep
      · rename_i block seqID hpc
        split at hstep
        · rename_i hexit
          cases hstep
          exact .consensusExit hpc hexit
        · cases hstep
      · cases hstep
  | addBlock2Shard =>
      simp only [step, addBlock2Shard] at hstep
      split at hstep
      · rename_i hpc
        cases hstep
        exact .addBlock2Shard hpc
      · cases hstep
  | sendTXReceipt2Client =>
      simp only [step, sendTXReceipt2Client] at hstep
      split at hstep
      · rename_i hpc
        cases hstep
        exact .sendTXReceipt2Client hpc
      · cases hstep
  | initMultiSign seed height =>
      simp only [step, initMultiSign] at hstep
      split at hstep
      · rename_i hpc
        obtain ⟨sg, hsign, rfl⟩ := Option.map_eq_some_iff.mp hstep
        exact .initMultiSign hpc hsign
      · cases hstep
  | assign =>
      simp only [step, assign] at hstep
      split at hstep
      · obtain ⟨sg, hsign, rfl⟩ := Option.map_eq_some_iff.mp hstep
        exact .assign hsign
      · cases hstep
  | multiSignDone =>
      simp only [step, multiSignDone] at hstep
      split at hstep
      · rename_i hpc hphase
        obtain ⟨sg, hsign, rfl⟩ := Option.map_eq_some_iff.mp hstep
        exact .multiSignDone hpc hphase hsign
      · cases hstep
  | multiSignExit =>
      simp only [step, multiSignExit] at hstep
      split at hstep
      · rename_i hpc hphase
        split at hstep
        · rename_i hexit
          obtain ⟨sg, -, rfl⟩ := Option.map_eq_some_iff.mp hstep
          exact .multiSignExit hpc hphase hexit
        · cases hstep
      · cases hstep
  | sendTB =>
      simp only [step, sendTB] at hstep
      split at hstep
      · rename_i hpc
        cases hstep
        exact .sendTB hpc
      · cases hstep
  | newBlockGenerated =>
      simp only [step, newBlockGenerated] at hstep
      split at hstep
      · rename_i hpc
        -- with `to_reconfig` a token is put into `exitCh`, if there is room for it
        split at hstep
        · split at hstep
          · cases hstep
          · cases hstep
            exact .newBlockGenerated hpc
        · cases hstep
          exact .newBlockGenerated hpc
      · cases hstep
  | prepareReconfig =>
      cases hstep
      exact .control
  | endReconfig nodeID =>
      simp only [step, endReconfig] at hstep
      split at hstep
      · rename_i hpc
        split at hstep
        · rename_i hlead
          subst hlead
          cases hstep
          exact .becomeLeader hpc
        · cases hstep
          exact .becomeMember hpc
      · cases hstep
  | handlePbftMsg addr msg =>
      simp only [step, handlePbftMsg] at hstep
      split at hstep
      · rename_i p out hp
        cases hstep
        exact handlePbftMsg_taken hp
      · cases hstep
  | handleMultiSignReply rep =>
      obtain ⟨sg, hsign, rfl⟩ := Option.map_eq_some_iff.mp hstep
      exact .handleMultiSignReply hsign

/-! ## Closing -/

/-- `exitCh` is empty on the way of a block. -/
def ExitOk (s : State) : Prop := s.pc ≠ .select → s.pc ≠ .closed → s.exitCh = false

theorem exitOk_step {ev : Event} (h : ExitOk s) (hok : calm s ev)
    (hstep : Taken crypto required s ev s') : ExitOk s' := by
  -- tokens come from `close` and `newBlockGenerated`, which leave the worker in the `select`
  cases hstep with
  | control => exact h
  | close => exact fun hsel => absurd hok hsel
  | takeExit hpc => exact fun _ hclosed => absurd rfl hclosed
  | tick hpc => exact fun _ _ => hok
  | newBlockGenerated hpc => exact fun hsel => absurd rfl hsel
  | becomeMember hpc => exact fun _ hclosed => absurd hpc hclosed
  | becomeLeader hpc => exact fun hsel => absurd rfl hsel
  | assign hsign => exact h
  | message hdone hgot => exact h
  | counted hcounts hdone hgot => exact h
  | signalled hcounts hgot => exact h
  | handleMultiSignReply hsign => exact h
  | setSequenceID hpc hdone => exact fun _ _ => h (by simp [hpc]) (by simp [hpc])
  | propose hpc hdone => exact fun _ _ => h (by simp [hpc]) (by simp [hpc])
  | consensusDone hpc hdone => exact fun _ _ => h (by simp [hpc]) (by simp [hpc])
  | consensusExit hpc hexit => exact fun _ _ => h (by simp [hpc]) (by simp [hpc])
  | addBlock2Shard hpc => exact fun _ _ => h (by simp [hpc]) (by simp [hpc])
  | sendTXReceipt2Client hpc => exact fun _ _ => h (by simp [hpc]) (by simp [hpc])
  | initMultiSign hpc hsign => exact fun _ _ => h (by simp [hpc]) (by simp [hpc])
  | multiSignDone hpc hphase hsign => exact fun _ _ => h (by simp [hpc]) (by simp [hpc])
  | multiSignExit hpc hphase hexit => exact fun _ _ => h (by simp [hpc]) (by simp [hpc])
  | sendTB hpc => exact fun _ _ => h (by simp [hpc]) (by simp [hpc])

/-! ## Consensus -/

/-- The worker went on because the end of this very round was signalled, for replies to
this very sequence ID. -/
def Agreed (p : Published) : Prop :=
  ∃ sg, p.signal = some sg ∧ sg.round = p.round ∧ ∀ id ∈ sg.messageIDs, id = p.seqID

/-- What the worker is about to publish is agreed. -/
def Pc.Ready (round : ℕ) : Pc → Prop
  | .addBlock2Shard block seqID signal => Agreed ⟨block, seqID, round, signal⟩
  | .sendTXReceipt2Client block seqID signal => Agreed ⟨block, seqID, round, signal⟩
  | _ => True

structure ConsensusOk (s : State) : Prop where
  token : s.pbft.oneConsensusDone = true → ∃ block seqID sg, s.pc = .consensus block seqID ∧
    s.signal = some sg ∧ sg.round = s.round ∧ (∀ id ∈ sg.messageIDs, id = seqID) ∧
    s.counted = [] ∧ s.pbft.gotEnoughReply seqID = true
  counted : ∀ id ∈ s.counted, s.pc.awaits id
  ready : s.pc.Ready s.round
  blocks : ∀ p ∈ s.blocks, Agreed p
  receipts : ∀ p ∈ s.receipts, Agreed p

/-- Outside the wait there is neither a token nor a counted reply. -/
theorem ConsensusOk.settled (h : ConsensusOk s) (hpc : ∀ block seqID, s.pc ≠ .consensus block seqID) :
    s.pbft.oneConsensusDone = false ∧ s.counted = [] := by
  constructor
  · cases hdone : s.pbft.oneConsensusDone with
    | false => rfl
    | true =>
        obtain ⟨block, seqID, -, hwait, -⟩ := h.token hdone
        exact absurd hwait (hpc block seqID)
  · rw [List.eq_nil_iff_forall_not_mem]
    intro id hid
    have hwait := h.counted id hid
    cases hp : s.pc with
    | consensus block seqID => exact hpc block seqID hp
    | _ =>
        rw [hp] at hwait
        exact hwait

/-- The worker moves on outside the wait. -/
theorem ConsensusOk.of_settled (hdone : s.pbft.oneConsensusDone = false) (hcounted : s.counted = [])
    (hready : s.pc.Ready s.round) (hblocks : ∀ p ∈ s.blocks, Agreed p)
    (hreceipts : ∀ p ∈ s.receipts, Agreed p) : ConsensusOk s := by
  refine ⟨fun htrue => ?_, ?_, hready, hblocks, hreceipts⟩
  · rw [hdone] at htrue
    cases htrue
  · rw [hcounted]
    nofun

/-- The same, from a place where it did not wait either. -/
theorem ConsensusOk.moves (h : ConsensusOk s) (hpc : ∀ block seqID, s.pc ≠ .consensus block seqID)
    (hdone : s'.pbft.oneConsensusDone = s.pbft.oneConsensusDone) (hcounted : s'.counted = s.counted)
    (hready : s'.pc.Ready s'.round) (hblocks : s'.blocks = s.blocks)
    (hreceipts : s'.receipts = s.receipts) : ConsensusOk s' := by
  rcases h.settled hpc with ⟨hfalse, hnil⟩
  apply ConsensusOk.of_settled (hdone.trans hfalse) (hcounted.trans hnil) hready
  · rw [hblocks]
    exact h.blocks
  · rw [hreceipts]
    exact h.receipts

theorem Pc.exists_of_awaits {pc : Pc} {seqID : ℕ} (h : pc.awaits seqID) :
    ∃ block, pc = .consensus block seqID := by
  cases pc with
  | consensus block q =>
      rw [show q = seqID from h]
      exact ⟨block, rfl⟩
  | _ => exact absurd h id

/-- A counted reply is one the worker waits for. -/
theorem ConsensusOk.count (h : ConsensusOk s) {rmsg : Pbft.Reply Pbft.NodeInfo} {p : Pbft.Node}
    (hcounts : s.pbft.Counts rmsg.messageID) (hwait : s.pc.awaits rmsg.messageID)
    (hdone : p.oneConsensusDone = s.pbft.oneConsensusDone) :
    ConsensusOk { s with pbft := p, counted := rmsg.messageID :: s.counted } := by
  refine ⟨fun htrue => ?_, ?_, h.ready, h.blocks, h.receipts⟩
  · -- after the signal, replies of the round are not counted any more
    obtain ⟨block, seqID, sg, hpc, -, -, -, -, hgot⟩ := h.token (hdone ▸ htrue)
    obtain ⟨block', hpc'⟩ := Pc.exists_of_awaits hwait
    rw [hpc] at hpc'
    cases hpc'
    rw [hcounts.2] at hgot
    cases hgot
  · intro id hid
    rcases List.mem_cons.mp hid with hid | hid
    · rw [hid]
      exact hwait
    · exact h.counted id hid

/-- The signal is for the round the worker waits for. -/
theorem ConsensusOk.signal (h : ConsensusOk s) {rmsg : Pbft.Reply Pbft.NodeInfo} {p : Pbft.Node}
    (hwait : s.pc.awaits rmsg.messageID) (hgot : p.gotEnoughReply rmsg.messageID = true) :
    ConsensusOk { s with
      pbft := p
      counted := []
      signal := some ⟨s.round, rmsg.messageID :: s.counted⟩ } := by
  obtain ⟨block, hpc⟩ := Pc.exists_of_awaits hwait
  refine ⟨fun _ => ⟨block, rmsg.messageID, _, hpc, rfl, rfl, ?_, rfl, hgot⟩, nofun, h.ready,
    h.blocks, h.receipts⟩
  intro id hid
  rcases List.mem_cons.mp hid with hid | hid
  · exact hid
  · have hwait' := h.counted id hid
    rw [hpc] at hwait'
    exact Eq.symm hwait'

theorem consensusOk_step {ev : Event} (h : ConsensusOk s) (hexit : ExitOk s) (hok : calm s ev)
    (hstep : Taken crypto required s ev s') : ConsensusOk s' := by
  cases hstep with
  | control => exact ⟨h.token, h.counted, h.ready, h.blocks, h.receipts⟩
  | close => exact ⟨h.token, h.counted, h.ready, h.blocks, h.receipts⟩
  | assign hsign => exact ⟨h.token, h.counted, h.ready, h.blocks, h.receipts⟩
  | handleMultiSignReply hsign => exact ⟨h.token, h.counted, h.ready, h.blocks, h.receipts⟩
  | takeExit hpc => exact h.moves (by simp [hpc]) rfl rfl trivial rfl rfl
  | tick hpc => exact h.moves (by simp [hpc]) rfl rfl trivial rfl rfl
  | setSequenceID hpc hsame => exact h.moves (by simp [hpc]) hsame rfl trivial rfl rfl
  | propose hpc hsame => exact h.moves (by simp [hpc]) hsame rfl trivial rfl rfl
  | @consensusDone block seqID hpc htoken =>
      -- the token says for which round and because of which replies it was sent
      obtain ⟨block', seqID', sg, hpc', hsignal, hround, hids, hcounted, -⟩ := h.token htoken
      rw [hpc] at hpc'
      cases hpc'
      exact .of_settled rfl hcounted ⟨sg, hsignal, hround, hids⟩ h.blocks h.receipts
  | consensusExit hpc htoken =>
      -- in a calm run nobody closes the worker here
      rw [hexit (by simp [hpc]) (by simp [hpc])] at htoken
      cases htoken
  | @addBlock2Shard block seqID signal hpc =>
      obtain ⟨hdone, hcounted⟩ := h.settled (by simp [hpc])
      have hready := h.ready
      rw [hpc] at hready
      exact .of_settled hdone hcounted hready (List.forall_mem_cons.mpr ⟨hready, h.blocks⟩)
        h.receipts
  | @sendTXReceipt2Client block seqID signal hpc =>
      obtain ⟨hdone, hcounted⟩ := h.settled (by simp [hpc])
      have hready := h.ready
      rw [hpc] at hready
      exact .of_settled hdone hcounted trivial h.blocks
        (List.forall_mem_cons.mpr ⟨hready, h.receipts⟩)
  | initMultiSign hpc hsign => exact h.moves (by simp [hpc]) rfl rfl trivial rfl rfl
  | multiSignDone hpc hphase hsign => exact h.moves (by simp [hpc]) rfl rfl trivial rfl rfl
  | multiSignExit hpc hphase htoken => exact h.moves (by simp [hpc]) rfl rfl trivial rfl rfl
  | sendTB hpc => exact h.moves (by simp [hpc]) rfl rfl trivial rfl rfl
  | newBlockGenerated hpc => exact h.moves (by simp [hpc]) rfl rfl trivial rfl rfl
  | becomeMember hpc => exact ⟨h.token, h.counted, h.ready, h.blocks, h.receipts⟩
  | becomeLeader hpc =>
      obtain ⟨hdone, -⟩ := h.settled (by simp [hpc])
      exact .of_settled hdone rfl trivial h.blocks h.receipts
  | message hdone hgot =>
      -- messages other than replies leave the channel and the flags alone
      refine ⟨fun htrue => ?_, h.counted, h.ready, h.blocks, h.receipts⟩
      obtain ⟨block, seqID, sg, hpc, hsignal, hround, hids, hcounted, hseq⟩ :=
        h.token (hdone ▸ htrue)
      exact ⟨block, seqID, sg, hpc, hsignal, hround, hids, hcounted, by rw [hgot]; exact hseq⟩
  | counted hcounts hdone hgot => exact h.count hcounts (hok hcounts) hdone
  | signalled hcounts hgot => exact h.signal (hok hcounts) hgot

/-! ## Signatures -/

/-- Whatever replies come in: once the old signatures are gone there are at least as many
signers as signatures, and the new channel fires with the required number. -/
structure SignOk (required : ℕ) (m : MultiSign.State) : Prop where
  lengths : (∀ r, m.phase ≠ .resetSigs r) → m.data.sigs.length ≤ m.data.signers.length
  token : ∀ r, m.phase = .waiting r → m.data.multiSignDone = some true →
    m.data.sigs.length = required

theorem SignOk.initMultiSign {m m' : MultiSign.State} {r : MultiSign.Request}
    (h : MultiSign.initMultiSign m r = some m') : SignOk required m' := by
  unfold MultiSign.initMultiSign at h
  split at h
  · cases h
    exact ⟨fun hphase => absurd rfl (hphase r), nofun⟩
  · cases h

theorem SignOk.assign {m m' : MultiSign.State} (h : SignOk required m)
    (hstep : MultiSign.assign m = some m') : SignOk required m' := by
  unfold MultiSign.assign at hstep
  split at hstep
  · cases hstep
    exact ⟨fun _ => Nat.zero_le _, nofun⟩
  · rename_i r hphase
    cases hstep
    exact ⟨fun _ => h.lengths (by simp [hphase]), nofun⟩
  · rename_i r hphase
    cases hstep
    exact ⟨fun _ => h.lengths (by simp [hphase]), nofun⟩
  · cases hstep

theorem SignOk.reply {m m' : MultiSign.State} {rep : MultiSignReply} (h : SignOk required m)
    (hstep : MultiSign.reply crypto required m rep = some m') : SignOk required m' := by
  obtain ⟨d, hd, rfl⟩ := Option.map_eq_some_iff.mp hstep
  rcases MultiSign.handleMultiSignReply_cases hd with hsame | ⟨hopen, -, -, hcollect⟩
  · exact ⟨by rw [hsame]; exact h.lengths, by rw [hsame]; exact h.token⟩
  · obtain ⟨hsigners, hsigs, -, hdone⟩ := MultiSign.collect_spec hcollect
    constructor
    · intro hphase
      rw [hsigners, hsigs, List.length_append, List.length_append]
      exact Nat.add_le_add_right (h.lengths hphase) 1
    · intro r hphase htoken
      have hlengths := h.lengths (by simp only at hphase; simp [hphase])
      rw [hsigs, List.length_append, List.length_singleton]
      rcases hdone with ⟨hfull, -, -⟩ | ⟨-, hkept⟩
      · exact hfull
      · -- the channel had fired, so the lists were full
        have := h.token r hphase (hkept ▸ htoken)
        omega

theorem SignOk.returnDone {m m' : MultiSign.State} (h : SignOk required m)
    (hstep : MultiSign.returnDone m = some m') : SignOk required m' := by
  unfold MultiSign.returnDone at hstep
  split at hstep
  · rename_i r hphase htoken
    cases hstep
    exact ⟨fun _ => h.lengths (by simp [hphase]), nofun⟩
  · cases hstep

/-- The beacon the worker is about to send has enough signatures. -/
def Pc.Signed (required : ℕ) : Pc → Prop
  | .sendTB tb => required ≤ tb.sigs.length
  | _ => True

structure SignaturesOk (required : ℕ) (s : State) : Prop where
  sign : SignOk required s.sign
  signed : s.pc.Signed required
  tbs : ∀ tb ∈ s.tbs, required ≤ tb.sigs.length

/-- `MultiSignDone` is there only with the required number of signatures. -/
theorem SignOk.length_of_returnDone {m m' : MultiSign.State} {r : MultiSign.Request}
    (h : SignOk required m) (hphase : m.phase = .waiting r)
    (hstep : MultiSign.returnDone m = some m') : m.data.sigs.length = required := by
  unfold MultiSign.returnDone at hstep
  split at hstep
  · rename_i htoken
    exact h.token r hphase htoken
  · cases hstep

theorem signaturesOk_step {ev : Event} (h : SignaturesOk required s) (hexit : ExitOk s)
    (hstep : Taken crypto required s ev s') : SignaturesOk required s' := by
  cases hstep with
  | control => exact ⟨h.sign, h.signed, h.tbs⟩
  | close => exact ⟨h.sign, h.signed, h.tbs⟩
  | takeExit hpc => exact ⟨h.sign, trivial, h.tbs⟩
  | tick hpc => exact ⟨h.sign, trivial, h.tbs⟩
  | setSequenceID hpc hdone => exact ⟨h.sign, trivial, h.tbs⟩
  | propose hpc hdone => exact ⟨h.sign, trivial, h.tbs⟩
  | consensusDone hpc hdone => exact ⟨h.sign, trivial, h.tbs⟩
  | consensusExit hpc htoken => exact ⟨h.sign, trivial, h.tbs⟩
  | addBlock2Shard hpc => exact ⟨h.sign, trivial, h.tbs⟩
  | sendTXReceipt2Client hpc => exact ⟨h.sign, trivial, h.tbs⟩
  | initMultiSign hpc hsign => exact ⟨.initMultiSign hsign, trivial, h.tbs⟩
  | assign hsign => exact ⟨h.sign.assign hsign, h.signed, h.tbs⟩
  | multiSignDone hpc hphase hsign =>
      exact ⟨h.sign.returnDone hsign, (h.sign.length_of_returnDone hphase hsign).ge, h.tbs⟩
  | multiSignExit hpc hphase htoken =>
      -- the signatures would be incomplete, but `exitCh` is empty
      rw [hexit (by simp [hpc]) (by simp [hpc])] at htoken
      cases htoken
  | sendTB hpc =>
      have hsigned := h.signed
      rw [hpc] at hsigned
      exact ⟨h.sign, trivial, List.forall_mem_cons.mpr ⟨hsigned, h.tbs⟩⟩
  | newBlockGenerated hpc => exact ⟨h.sign, trivial, h.tbs⟩
  | becomeMember hpc => exact ⟨h.sign, h.signed, h.tbs⟩
  | becomeLeader hpc => exact ⟨h.sign, trivial, h.tbs⟩
  | message hdone hgot => exact ⟨h.sign, h.signed, h.tbs⟩
  | counted hcounts hdone hgot => exact ⟨h.sign, h.signed, h.tbs⟩
  | signalled hcounts hgot => exact ⟨h.sign, h.signed, h.tbs⟩
  | handleMultiSignReply hsign => exact ⟨h.sign.reply hsign, h.signed, h.tbs⟩

/-! ## Publication -/

/-- In calm runs, blocks and receipts are sent only after the end of consensus on them was
signalled, and beacons only with enough signatures. -/
theorem published_after_consensus {node_nums : ℕ}
    (h : (machine getDigest crypto required node_nums).ReachableBy calm s) :
    (∀ p ∈ s.blocks, Agreed p) ∧ (∀ p ∈ s.receipts, Agreed p) ∧
      ∀ tb ∈ s.tbs, required ≤ tb.sigs.length := by
  have hinv : ExitOk s ∧ ConsensusOk s ∧ SignaturesOk required s := by
    refine Sys.Machine.invariant_by
      (fun s => ExitOk s ∧ ConsensusOk s ∧ SignaturesOk required s) ?_ ?_ h
    · intro s hs
      rw [show s = initial node_nums from hs]
      refine ⟨fun hsel => absurd rfl hsel, ?_, ?_⟩
      · exact .of_settled rfl rfl trivial nofun nofun
      · exact ⟨⟨fun _ => le_rfl, nofun⟩, trivial, nofun⟩
    · intro s ev s' hok hstep hinv
      obtain ⟨hexit, hconsensus, hsign⟩ := hinv
      have htaken := step_taken hstep
      exact ⟨exitOk_step hexit hok htaken, consensusOk_step hconsensus hexit hok htaken,
        signaturesOk_step hsign hexit htaken⟩
  exact ⟨hinv.2.1.blocks, hinv.2.1.receipts, hinv.2.2.tbs⟩

end

/-! ## A worker that is closed at the wrong moment -/

def exampleBlock : Block := ⟨1, [1], MultiSign.requestOne.tb⟩

/-- The work up to the wait for consensus. -/
def proposed : List Event := [.start, .takeStart, .tick exampleBlock, .setSequenceID, .propose 1]

/-- The work from there to the wait for signatures. -/
def sent : List Event :=
  [.addBlock2Shard, .sendTXReceipt2Client, .initMultiSign MultiSign.requestOne.seed 5, .assign,
    .assign, .assign]

/-- Nobody has answered the proposal when the worker is closed. -/
def closedInConsensus : List Event :=
  proposed ++ [.close, .consensusExit] ++ sent ++ [.multiSignExit, .sendTB]

theorem published_without_consensus :
    ∃ s, (machine Pbft.Network.exampleDigest MultiSign.exampleCrypto 2 4).Reachable s ∧
      (∃ p ∈ s.blocks, p.block = exampleBlock ∧ p.signal = none) ∧
      (∃ p ∈ s.receipts, p.block = exampleBlock ∧ p.signal = none) ∧
      ∃ tb ∈ s.tbs, tb.timeBeacon = exampleBlock.tb ∧ tb.sigs = [] :=
  Sys.Machine.exists_reachableBy _ rfl closedInConsensus (by decide +kernel)

/-- Two backups reply and two members sign. -/
def agreedAndSigned : List Event :=
  proposed ++ [.handlePbftMsg 0 (.reply ⟨1, ⟨1⟩, true⟩), .handlePbftMsg 1 (.reply ⟨1, ⟨2⟩, true⟩),
    .consensusDone] ++ sent ++
    [.handleMultiSignReply MultiSign.replyOne, .handleMultiSignReply MultiSign.replyTwo,
      .multiSignDone, .sendTB]

theorem published_after_agreedAndSigned :
    ∃ s, (machine Pbft.Network.exampleDigest MultiSign.exampleCrypto 2 4).ReachableBy calm s ∧
      s.blocks ≠ [] ∧ s.receipts ≠ [] ∧ s.tbs ≠ [] ∧
      (∀ p ∈ s.blocks, Agreed p) ∧ (∀ p ∈ s.receipts, Agreed p) ∧
      ∀ tb ∈ s.tbs, 2 ≤ tb.sigs.length := by
  obtain ⟨s, hreach, hblocks, hreceipts, htbs⟩ :
      ∃ s, (machine Pbft.Network.exampleDigest MultiSign.exampleCrypto 2 4).ReachableBy calm s ∧
        s.blocks ≠ [] ∧ s.receipts ≠ [] ∧ s.tbs ≠ [] :=
    Sys.Machine.exists_reachableBy _ rfl agreedAndSigned (by decide +kernel)
  exact ⟨s, hreach, hblocks, hreceipts, htbs, published_after_consensus hreach⟩

end WorkLoop

end LessChain
