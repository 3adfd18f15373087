import LessChain.System.CrossShard

/-!
# Cross-shard atomicity under timely receipts

The invariant rests on two facts about a cross-shard transaction `i`.

* There is one token for it in the system (`tokens`): it is not injected yet, its first
  half is in a message or a pool, its cross1 receipt is in a message or with the client, or
  its cross2 half has been made. So there is one cross2 half at most, with one last height.
* Once the client gives it up, it is `Doomed`: the recipient shard is past that last height
  and has not committed the cross2 half, and the timeout test of the pool keeps it so.
-/

namespace LessChain

namespace CrossShard

/-- First halves of transaction `i`. -/
def firstHalf (i : ℕ) (tx : Transaction) : Bool :=
  (tx.txType = .intraTXType ∨ tx.txType = .crossTXType1) ∧ tx.id = i

/-- Where transaction `i` can be before its cross2 half exists, and the cross2 halves. -/
def State.tokens (s : State) (i : ℕ) : ℕ :=
  (s.client.txs.drop s.client.injectCnt).countP (·.id = i) +
  (s.txMsgs.map fun m => m.2.countP (firstHalf i)).sum +
  (∑ sid ∈ Finset.range s.client.shardNum, (s.pools sid).txs.countP (firstHalf i)) +
  (s.receiptMsgs.map fun m => m.2.countP (TXReceipt.isCross1 i)).sum +
  s.client.txReply.countP (TXReceipt.isCross1 i) +
  s.enqueued.countP (·.id = i)

/-- The client gave `i` up: the recipient shard is past the last height of its cross2 half,
and no shard has committed that half. -/
def State.Doomed (s : State) (i : ℕ) : Prop :=
  (∃ e ∈ s.enqueued, e.id = i ∧ e.lastHeight < (s.chains e.recipientSid).height) ∧
  ∀ sid, ¬ s.Committed .crossTXType2 i sid

/-- Committee `sid` has been sent `tx`: it is under way, in the pool or in a block. -/
def State.Holds (s : State) (sid : ℕ) (tx : Transaction) : Prop :=
  (∃ m ∈ s.txMsgs, m.1 = sid ∧ tx ∈ m.2) ∨ tx ∈ (s.pools sid).txs ∨
    ∃ b ∈ (s.chains sid).blocks, tx ∈ b.transactions

/-- What is known about a transaction a committee holds. -/
structure State.Legit (s : State) (sid : ℕ) (tx : Transaction) : Prop where
  home : sid < s.client.shardNum
  cross2 : tx.txType = .crossTXType2 → tx.recipientSid = sid ∧
    ∃ e ∈ s.enqueued, e.id = tx.id ∧ e.recipientSid = sid ∧ e.lastHeight = tx.lastHeight
  rollback : tx.txType = .rollbackTXType → s.Doomed tx.id

structure Inv (s : State) : Prop where
  heights : ∀ sid, (s.chains sid).height < 2 ^ 64
  submitted : ∀ p ∈ s.submitted, p.2 ≤ (s.chains p.1).height
  view : ∀ sid, s.client.shardCurHeights sid ≤ (s.chains sid).height
  injected : s.client.injectCnt ≤ s.client.txs.length
  tokens : ∀ i, s.tokens i ≤ 1
  addressed : ∀ m ∈ s.txMsgs, m.1 < s.client.shardNum
  origin : ∀ e ∈ s.enqueued, ∃ tx, s.client.txsMap e.id = some tx ∧
    tx.recipientSid = e.recipientSid ∧ tx.rollbackHeight = e.rollbackHeight
  waiting : ∀ i h, s.client.cross1ConfirmHeightMap.lookup i = some h →
    ∃ e ∈ s.enqueued, e.id = i ∧ e.cross1ConfirmHeight = h
  queued : ∀ tx ∈ s.client.cross2Txs, tx.txType = .crossTXType2 ∧ tx ∈ s.enqueued
  rollbackQueue : ∀ sid, ∀ tx ∈ (s.pools sid).pendingRollback, tx.txType = .rollbackTXType
  expired : ∀ i ∈ s.client.crossTxExpired, s.Doomed i
  legit : ∀ sid tx, s.Holds sid tx → s.Legit sid tx

variable {cfg : Config} {s s' : State}

/-! ## Uniqueness from the token -/

variable {states : ExecState} {root : Hash} {tbblock : TBBlock} {e : Transaction} {comID : ℕ}

theorem Inv.enqueued_unique (h : Inv s) {e' : Transaction} (he : e ∈ s.enqueued)
    (he' : e' ∈ s.enqueued) (hid : e.id = e'.id) : e = e' := by
  have hcount : s.enqueued.countP (·.id = e'.id) ≤ 1 := by
    have := h.tokens e'.id
    unfold State.tokens at this
    omega
  exact Sys.eq_of_countP_le_one hcount he he' (by simpa using hid) (by simp)

/-- While a cross2 half of `i` exists, nothing of `i` is left that could make another. -/
theorem Inv.spent (h : Inv s) (he : e ∈ s.enqueued) :
    s.client.txReply.countP (TXReceipt.isCross1 e.id) = 0 ∧
    ∀ sid < s.client.shardNum, (s.pools sid).txs.countP (firstHalf e.id) = 0 := by
  have hpos : 0 < s.enqueued.countP (·.id = e.id) :=
    List.countP_pos_iff.mpr ⟨e, he, by simp⟩
  have htok := h.tokens e.id
  unfold State.tokens at htok
  refine ⟨by omega, fun sid hsid => ?_⟩
  have hsum : ∑ j ∈ Finset.range s.client.shardNum,
      (s.pools j).txs.countP (firstHalf e.id) = 0 := by omega
  exact Finset.sum_eq_zero_iff.mp hsum sid (Finset.mem_range.mpr hsid)

/-! ## Steps that commit nothing -/

theorem State.Doomed.mono {i : ℕ} (h : s.Doomed i) (hchains : s'.chains = s.chains)
    (henq : ∀ e ∈ s.enqueued, e ∈ s'.enqueued) : s'.Doomed i := by
  rcases h with ⟨⟨e, he, hid, hlt⟩, hnot⟩
  refine ⟨⟨e, henq e he, hid, hchains ▸ hlt⟩, ?_⟩
  intro sid hcommitted
  apply hnot sid
  unfold State.Committed at hcommitted ⊢
  rw [← hchains]
  exact hcommitted

theorem State.Legit.mono {sid : ℕ} {tx : Transaction} (h : s.Legit sid tx)
    (hnum : s'.client.shardNum = s.client.shardNum) (hchains : s'.chains = s.chains)
    (henq : ∀ e ∈ s.enqueued, e ∈ s'.enqueued) : s'.Legit sid tx := by
  refine ⟨hnum ▸ h.home, ?_, fun htype => (h.rollback htype).mono hchains henq⟩
  intro htype
  rcases h.cross2 htype with ⟨hsid, e, he, hrest⟩
  exact ⟨hsid, e, henq e he, hrest⟩

theorem inv_addTXReceipts {k : ℕ} (h : Inv s) (hstep : addTXReceipts s k = some s') : Inv s' := by
  simp only [addTXReceipts, Option.bind_eq_bind, Option.bind_eq_some_iff, Option.some.injEq,
    Prod.exists] at hstep
  rcases hstep with ⟨cid, receipts, hk, rfl⟩
  rcases List.getElem?_eq_some_iff.mp hk with ⟨hlt, hget⟩
  have hsame : ∃ reply, (if cid = s.client.cid then s.client.addTXReceipts receipts else s.client) =
      { s.client with txReply := reply } ∧ ∀ i, reply.countP (TXReceipt.isCross1 i) ≤
        s.client.txReply.countP (TXReceipt.isCross1 i) + receipts.countP (TXReceipt.isCross1 i) := by
    split
    · refine ⟨s.client.txReply ++ receipts, rfl, fun i => ?_⟩
      rw [List.countP_append]
    · exact ⟨s.client.txReply, rfl, fun i => Nat.le_add_right _ _⟩
  rcases hsame with ⟨reply, hreply, hcount⟩
  rw [hreply]
  refine
    { heights := h.heights, submitted := h.submitted, view := h.view, injected := h.injected,
      addressed := h.addressed, origin := h.origin, waiting := h.waiting, queued := h.queued,
      rollbackQueue := h.rollbackQueue, expired := h.expired,
      legit := fun sid tx htx => (h.legit sid tx htx).mono rfl rfl fun _ he => he,
      tokens := ?_ }
  intro i
  have htok := h.tokens i
  have hmsg := Sys.sum_eraseIdx (fun m : ℕ × List TXReceipt => m.2.countP (TXReceipt.isCross1 i))
    s.receiptMsgs k hlt
  rw [show s.receiptMsgs.get ⟨k, hlt⟩ = (cid, receipts) from hget] at hmsg
  have := hcount i
  simp only [State.tokens] at htok hmsg ⊢
  omega

theorem inv_clientSendTx {k : ℕ} (h : Inv s) (hstep : clientSendTx s k = some s') : Inv s' := by
  simp only [clientSendTx, Option.bind_eq_bind, Option.bind_eq_some_iff, Option.some.injEq,
    Prod.exists] at hstep
  rcases hstep with ⟨comID, txs, hk, rfl⟩
  rcases List.getElem?_eq_some_iff.mp hk with ⟨hlt, hget⟩
  have hmem : (comID, txs) ∈ s.txMsgs := hget ▸ List.getElem_mem hlt
  have hcom : comID < s.client.shardNum := h.addressed _ hmem
  -- the transactions move from the message to the pool of the committee it names
  refine
    { heights := h.heights, submitted := h.submitted, view := h.view, injected := h.injected,
      addressed := fun m hm => h.addressed m (List.mem_of_mem_eraseIdx hm), origin := h.origin,
      waiting := h.waiting, queued := h.queued, expired := h.expired,
      tokens := ?_, rollbackQueue := ?_, legit := ?_ }
  · intro i
    have htok := h.tokens i
    have hmsg := Sys.sum_eraseIdx (fun m : ℕ × List Transaction => m.2.countP (firstHalf i))
      s.txMsgs k hlt
    rw [show s.txMsgs.get ⟨k, hlt⟩ = (comID, txs) from hget] at hmsg
    have hpool := Sys.sum_range_update (fun pool : TxPool => pool.txs.countP (firstHalf i)) s.pools
      hcom ((s.pools comID).addTxs txs)
    have hadd := TxPool.countP_addTxs (firstHalf i) (s.pools comID) txs
    simp only [State.tokens] at htok hmsg ⊢
    omega
  · intro sid tx htx
    by_cases hsid : sid = comID
    · subst hsid
      simp only [Function.update_self] at htx
      exact TxPool.rollbackQueue_addTxs (h.rollbackQueue sid) txs tx htx
    · simp only [Function.update_of_ne hsid] at htx
      exact h.rollbackQueue sid tx htx
  · intro sid tx htx
    refine (h.legit sid tx ?_).mono rfl rfl fun _ he => he
    rcases htx with ⟨m, hm, hrest⟩ | hpool | hblock
    · exact Or.inl ⟨m, List.mem_of_mem_eraseIdx hm, hrest⟩
    · by_cases hsid : sid = comID
      · subst hsid
        simp only [Function.update_self] at hpool
        rcases TxPool.mem_addTxs.mp hpool with hpool | hnew
        · exact Or.inr (Or.inl hpool)
        · exact Or.inl ⟨_, hmem, rfl, hnew⟩
      · simp only [Function.update_of_ne hsid] at hpool
        exact Or.inr (Or.inl hpool)
    · exact Or.inr (Or.inr hblock)

theorem sum_firstHalf_eq_zero {i : ℕ} {msgs : List (ℕ × List Transaction)}
    (h : ∀ m ∈ msgs, ∀ tx ∈ m.2, tx.txType ≠ .intraTXType ∧ tx.txType ≠ .crossTXType1) :
    (msgs.map fun m => m.2.countP (firstHalf i)).sum = 0 := by
  apply List.sum_eq_zero
  intro n hn
  rcases List.mem_map.mp hn with ⟨m, hm, rfl⟩
  rw [List.countP_eq_zero]
  intro tx htx hfirst
  simp only [firstHalf, decide_eq_true_eq] at hfirst
  rcases hfirst.1 with htype | htype
  · exact (h m hm tx htx).1 htype
  · exact (h m hm tx htx).2 htype

/-- A sender keeps the invariant if it keeps the client's share of it, what it sends is
legitimate, and it sends no more first halves than it takes from the queue. -/
theorem inv_send {c : Client} {msgs : List (ℕ × List Transaction)} (h : Inv s)
    (hframe : c.shardNum = s.client.shardNum ∧ c.shardCurHeights = s.client.shardCurHeights ∧
      c.txReply = s.client.txReply ∧
      c.cross1ConfirmHeightMap = s.client.cross1ConfirmHeightMap)
    (hinjected : c.injectCnt ≤ c.txs.length)
    (htxs : List.Forall₂ Client.SameTransfer s.client.txs c.txs)
    (hcross2 : ∀ tx ∈ c.cross2Txs, tx ∈ s.client.cross2Txs)
    (hexpired : ∀ i ∈ c.crossTxExpired, i ∈ s.client.crossTxExpired)
    (hmsgs : ∀ m ∈ msgs, m.1 < s.client.shardNum ∧ ∀ tx ∈ m.2, s.Legit m.1 tx)
    (hcount : ∀ i, (msgs.map fun m => m.2.countP (firstHalf i)).sum +
        (c.txs.drop c.injectCnt).countP (·.id = i) ≤
      (s.client.txs.drop s.client.injectCnt).countP (·.id = i)) :
    Inv { s with client := c, txMsgs := s.txMsgs ++ msgs } := by
  rcases hframe with ⟨hnum, hview, hreply, hmap⟩
  refine
    { heights := h.heights, submitted := h.submitted, view := fun sid => ?_,
      injected := hinjected, tokens := fun i => ?_, addressed := fun m hm => ?_,
      origin := fun e he => ?_, waiting := fun i ht hlook => h.waiting i ht (hmap ▸ hlook),
      queued := fun tx htx => h.queued tx (hcross2 tx htx), rollbackQueue := h.rollbackQueue,
      expired := fun i hi => (h.expired i (hexpired i hi)).mono rfl fun _ he => he,
      legit := fun sid tx htx => ?_ }
  · show c.shardCurHeights sid ≤ _
    rw [hview]
    exact h.view sid
  · have htok := h.tokens i
    have := hcount i
    simp only [State.tokens, List.map_append, List.sum_append, hnum, hreply] at htok ⊢
    omega
  · show m.1 < c.shardNum
    rw [hnum]
    rcases List.mem_append.mp hm with hm | hm
    · exact h.addressed m hm
    · exact (hmsgs m hm).1
  · -- injecting stamps type, time and client, not where a transaction goes
    rcases h.origin e he with ⟨tx, htx, hrecipient, hrollback⟩
    rcases Client.txsMap_of_forall₂ htxs htx with ⟨tx', htx', hsame⟩
    refine ⟨tx', htx', ?_, ?_⟩
    · rw [hsame]
      exact hrecipient
    · rw [hsame]
      exact hrollback
  · have hlegit : s.Legit sid tx := by
      rcases htx with ⟨m, hm, rfl, htx⟩ | hrest
      · rcases List.mem_append.mp hm with hm | hm
        · exact h.legit m.1 tx (Or.inl ⟨m, hm, rfl, htx⟩)
        · exact (hmsgs m hm).2 tx htx
      · exact h.legit sid tx (Or.inr hrest)
    exact hlegit.mono hnum rfl fun _ he => he

theorem inv_sendRollbackTxs {n : ℕ} (h : Inv s)
    (hstep : send s (·.sendRollbackTxs n) = some s') : Inv s' := by
  simp only [send, Option.bind_eq_bind, Option.bind_eq_some_iff, Option.some.injEq,
    Prod.exists] at hstep
  rcases hstep with ⟨c, msgs, hc, rfl⟩
  rcases Client.sendRollbackTxs_spec hc with ⟨hframe, hexp, hmsgs⟩
  have htype : ∀ m ∈ msgs, ∀ tx ∈ m.2, tx.txType = .rollbackTXType :=
    fun m hm tx htx => ((hmsgs m hm).2 tx htx).1
  refine inv_send h ?_ ?_ ?_ ?_ hexp ?_ ?_
  · rw [hframe]
    exact ⟨rfl, rfl, rfl, rfl⟩
  · rw [hframe]
    exact h.injected
  · rw [hframe]
    exact List.forall₂_same.mpr fun _ _ => rfl
  · rw [hframe]
    exact fun _ htx => htx
  · intro m hm
    refine ⟨(hmsgs m hm).1, fun tx htx => ⟨(hmsgs m hm).1, ?_, ?_⟩⟩
    · intro hcross2
      rw [htype m hm tx htx] at hcross2
      cases hcross2
    · intro _
      exact h.expired _ ((hmsgs m hm).2 tx htx).2
  · intro i
    have hzero : (msgs.map fun m => m.2.countP (firstHalf i)).sum = 0 :=
      sum_firstHalf_eq_zero fun m hm tx htx => by simp [htype m hm tx htx]
    rw [hframe, hzero, Nat.zero_add]

theorem inv_sendCross2Txs {n : ℕ} (h : Inv s)
    (hstep : send s (·.sendCross2Txs n) = some s') : Inv s' := by
  simp only [send, Option.bind_eq_bind, Option.bind_eq_some_iff, Option.some.injEq,
    Prod.exists] at hstep
  rcases hstep with ⟨c, msgs, hc, rfl⟩
  rcases Client.sendCross2Txs_spec hc with ⟨hframe, hcross2, hmsgs⟩
  have htype : ∀ m ∈ msgs, ∀ tx ∈ m.2, tx.txType = .crossTXType2 :=
    fun m hm tx htx => (h.queued tx ((hmsgs m hm).2 tx htx).1).1
  refine inv_send h ?_ ?_ ?_ hcross2 ?_ ?_ ?_
  · rw [hframe]
    exact ⟨rfl, rfl, rfl, rfl⟩
  · rw [hframe]
    exact h.injected
  · rw [hframe]
    exact List.forall₂_same.mpr fun _ _ => rfl
  · rw [hframe]
    exact fun _ hi => hi
  · intro m hm
    refine ⟨(hmsgs m hm).1, fun tx htx => ⟨(hmsgs m hm).1, ?_, ?_⟩⟩
    · intro _
      rcases (hmsgs m hm).2 tx htx with ⟨hq, hsid⟩
      exact ⟨hsid, tx, (h.queued tx hq).2, rfl, hsid, rfl⟩
    · intro hrollback
      rw [htype m hm tx htx] at hrollback
      cases hrollback
  · intro i
    have hzero : (msgs.map fun m => m.2.countP (firstHalf i)).sum = 0 :=
      sum_firstHalf_eq_zero fun m hm tx htx => by simp [htype m hm tx htx]
    rw [hframe, hzero, Nat.zero_add]

theorem inv_sendPendingTxs {n now : ℕ} (h : Inv s)
    (hstep : send s (·.sendPendingTxs n now) = some s') : Inv s' := by
  simp only [send, Option.bind_eq_bind, Option.bind_eq_some_iff, Option.some.injEq,
    Prod.exists] at hstep
  rcases hstep with ⟨c, msgs, hc, rfl⟩
  rcases Client.sendPendingTxs_spec hc h.injected with ⟨hframe, hinj, htxs, hmsgs, hcount⟩
  refine inv_send h ?_ hinj htxs ?_ ?_ ?_ ?_
  · rw [hframe]
    exact ⟨rfl, rfl, rfl, rfl⟩
  · rw [hframe]
    exact fun _ htx => htx
  · rw [hframe]
    exact fun _ hi => hi
  · intro m hm
    refine ⟨(hmsgs m hm).1, fun tx htx => ⟨(hmsgs m hm).1, ?_, ?_⟩⟩
    · intro hcross2
      rcases (hmsgs m hm).2 tx htx with ht | ht <;> simp [hcross2] at ht
    · intro hrollback
      rcases (hmsgs m hm).2 tx htx with ht | ht <;> simp [hrollback] at ht
  · intro i
    have hle : (msgs.map fun m => m.2.countP (firstHalf i)).sum ≤
        (msgs.map fun m => m.2.countP (·.id = i)).sum := by
      apply List.sum_le_sum
      intro m _
      apply List.countP_mono_left
      intro tx _ hfirst
      simp only [firstHalf, decide_eq_true_eq] at hfirst ⊢
      exact hfirst.2
    exact (Nat.add_le_add_right hle _).trans (hcount i)

/-! ## Producing a block -/

/-- What a block step does. -/
theorem commit_cases (hstep : commit cfg s comID states root = some s') :
    comID < s.client.shardNum ∧ ∃ txs addrs pool msgs,
      (s.pools comID).Pending cfg.maxBlockSize (s.chains comID).height =
        some (txs, addrs, pool) ∧
      (∀ tx ∈ txs, tx.Known) ∧
      Worker.sendTXReceipt2Client comID ((s.chains comID).height + 1)
        (txs.map Transaction.executed) = some msgs ∧
      s' = { s with
        pools := Function.update s.pools comID pool
        chains := Function.update s.chains comID ((s.chains comID).writeBlock
          ⟨⟨(s.chains comID).height + 1, root, comID⟩, txs.map Transaction.executed⟩)
        receiptMsgs := s.receiptMsgs ++ msgs
        submitted := s.submitted ++ [(comID, u64 ((s.chains comID).height + 1))] } := by
  unfold commit at hstep
  split at hstep
  · rename_i hcom
    simp only [Option.bind_eq_bind, Option.bind_eq_some_iff, Option.some.injEq,
      Prod.exists] at hstep
    rcases hstep with ⟨txs, addrs, pool, hpend, txs', st', hexec, msgs, hmsgs, hs'⟩
    rcases Worker.executeTransactions_txs hexec with ⟨rfl, hknown⟩
    exact ⟨hcom, txs, addrs, pool, msgs, hpend, hknown, hmsgs, hs'.symm⟩
  · cases hstep

/-- A block step moves transactions from the pool into a block of the same committee. -/
theorem holds_of_commit (hstep : commit cfg s comID states root = some s') {sid : ℕ}
    {tx : Transaction} (h : s'.Holds sid tx) : ∃ tx₀, s.Holds sid tx₀ ∧ (tx = tx₀ ∨ tx = tx₀.executed) := by
  rcases commit_cases hstep with ⟨-, txs, addrs, pool, msgs, hpend, -, -, rfl⟩
  rcases h with hmsg | hin | ⟨b, hb, htx⟩
  · exact ⟨tx, Or.inl hmsg, Or.inl rfl⟩
  · by_cases hsid : sid = comID
    · subst hsid
      simp only [Function.update_self] at hin
      exact ⟨tx, Or.inr (Or.inl ((TxPool.mem_of_mem_Pending hpend).2 hin)), Or.inl rfl⟩
    · simp only [Function.update_of_ne hsid] at hin
      exact ⟨tx, Or.inr (Or.inl hin), Or.inl rfl⟩
  · by_cases hsid : sid = comID
    · subst hsid
      simp only [Function.update_self, mem_writeBlock] at hb
      rcases hb with hb | rfl
      · exact ⟨tx, Or.inr (Or.inr ⟨b, hb, htx⟩), Or.inl rfl⟩
      · rcases List.mem_map.mp htx with ⟨tx₀, htx₀, rfl⟩
        exact ⟨tx₀, Or.inr (Or.inl ((TxPool.mem_of_mem_Pending hpend).1 htx₀)), Or.inr rfl⟩
    · simp only [Function.update_of_ne hsid] at hb
      exact ⟨tx, Or.inr (Or.inr ⟨b, hb, htx⟩), Or.inl rfl⟩

/-- Heights never go down. -/
theorem height_le_of_commit (hstep : commit cfg s comID states root = some s') (sid : ℕ) :
    (s.chains sid).height ≤ (s'.chains sid).height := by
  rcases commit_cases hstep with ⟨-, txs, addrs, pool, msgs, -, -, -, rfl⟩
  by_cases hsid : sid = comID
  · subst hsid
    simp
  · simp [hsid]

/-- The timeout test of the pool keeps a given up transaction out of the block. -/
theorem doomed_of_commit {i : ℕ} (h : Inv s)
    (hok : (s.chains comID).height + 1 < 2 ^ 64)
    (hstep : commit cfg s comID states root = some s') (hdoomed : s.Doomed i) : s'.Doomed i := by
  have hheight := height_le_of_commit hstep
  rcases commit_cases hstep with ⟨-, txs, addrs, pool, msgs, hpend, -, -, rfl⟩
  rcases hdoomed with ⟨⟨e, he, hid, hlt⟩, hnot⟩
  refine ⟨⟨e, he, hid, hlt.trans_le (hheight _)⟩, ?_⟩
  rintro sid ⟨b, hb, tx, htx, htype, htid⟩
  by_cases hsid : sid = comID
  · subst hsid
    simp only [Function.update_self, mem_writeBlock] at hb
    rcases hb with hb | rfl
    · exact hnot sid ⟨b, hb, tx, htx, htype, htid⟩
    · -- the new block holds the cross2 half: it is the half `e`, whose time is over
      rcases List.mem_map.mp htx with ⟨tx₀, htx₀, rfl⟩
      have hhold : s.Holds sid tx₀ := Or.inr (Or.inl ((TxPool.mem_of_mem_Pending hpend).1 htx₀))
      rcases (h.legit sid tx₀ hhold).cross2 htype with ⟨-, e', he', hid', hsid', hlast⟩
      obtain rfl : e = e' := h.enqueued_unique he he' (hid.trans (htid.symm.trans hid'.symm))
      have hle := TxPool.height_le_of_mem_Pending hpend (h.rollbackQueue sid) htx₀ htype
      rw [← hlast] at hle
      rw [hsid'] at hlt
      rw [addU64, u64_of_lt (h.heights sid), u64_of_lt hok] at hle
      omega
  · simp only [Function.update_of_ne hsid] at hb
    exact hnot sid ⟨b, hb, tx, htx, htype, htid⟩

/-- A block turns first halves into cross1 receipts, one for one at most. -/
theorem tokens_of_commit (h : Inv s)
    (hstep : commit cfg s comID states root = some s') (i : ℕ) : s'.tokens i ≤ 1 := by
  rcases commit_cases hstep with ⟨hcom, txs, addrs, pool, msgs, hpend, hknown, hmsgs, rfl⟩
  have htok := h.tokens i
  have hpool := Sys.sum_range_update (fun pool : TxPool => pool.txs.countP (firstHalf i)) s.pools
    hcom pool
  have hcut := TxPool.countP_Pending_le (firstHalf i) hpend
  have hreceipts := Worker.countP_sendTXReceipt2Client hmsgs i
  have hle : (msgs.map fun m => m.2.countP (TXReceipt.isCross1 i)).sum ≤
      txs.countP (firstHalf i) := by
    split at hreceipts
    · -- the cross1 half is in the block, so nothing else of `i` is
      rename_i hex
      refine hreceipts.trans ?_
      rw [List.countP_map]
      apply List.countP_mono_left
      intro tx htx hid
      have htid : tx.id = i := of_decide_eq_true hid
      have hfirst : ∃ tx₁ ∈ (s.pools comID).txs, firstHalf i tx₁ = true := by
        rcases hex with ⟨tx', htx', hstatus, hid'⟩
        rcases List.mem_map.mp htx' with ⟨tx₁, htx₁, rfl⟩
        refine ⟨tx₁, (TxPool.mem_of_mem_Pending hpend).1 htx₁, ?_⟩
        cases htype : tx₁.txType <;>
          simp_all [Transaction.executed, TXType.successStatus, firstHalf]
      have hspent : ∀ e ∈ s.enqueued, e.id ≠ i := by
        rintro e he rfl
        rcases hfirst with ⟨tx₁, htx₁, hp⟩
        exact List.countP_eq_zero.mp ((h.spent he).2 comID hcom) tx₁ htx₁ hp
      have hlegit := h.legit comID tx (Or.inr (Or.inl ((TxPool.mem_of_mem_Pending hpend).1 htx)))
      cases htype : tx.txType with
      | intraTXType => simp [firstHalf, htype, htid]
      | crossTXType1 => simp [firstHalf, htype, htid]
      | crossTXType2 =>
          rcases hlegit.cross2 htype with ⟨-, e, he, hide, -⟩
          exact absurd (hide.trans htid) (hspent e he)
      | rollbackTXType =>
          rcases (hlegit.rollback htype).1 with ⟨e, he, hide, -⟩
          exact absurd (hide.trans htid) (hspent e he)
      | undefinedTXType => exact absurd htype (hknown tx htx)
    · omega
  simp only [State.tokens, List.map_append, List.sum_append] at htok ⊢
  omega

theorem inv_commit (h : Inv s)
    (hok : (s.chains comID).height + 1 < 2 ^ 64)
    (hstep : commit cfg s comID states root = some s') : Inv s' := by
  have htokens := tokens_of_commit h hstep
  have hheight := height_le_of_commit hstep
  have hdoomed (i : ℕ) := doomed_of_commit (i := i) h hok hstep
  have hholds {sid : ℕ} {tx : Transaction} (htx : s'.Holds sid tx) := holds_of_commit hstep htx
  rcases commit_cases hstep with ⟨hcom, txs, addrs, pool, msgs, hpend, -, -, rfl⟩
  refine
    { heights := fun sid => ?_, submitted := fun p hp => ?_,
      view := fun sid => (h.view sid).trans (hheight sid), injected := h.injected,
      tokens := htokens, addressed := h.addressed, origin := h.origin, waiting := h.waiting,
      queued := h.queued, rollbackQueue := fun sid tx htx => ?_,
      expired := fun i hi => hdoomed i (h.expired i hi), legit := fun sid tx htx => ?_ }
  · by_cases hsid : sid = comID
    · subst hsid
      simpa using hok
    · simpa [hsid] using h.heights sid
  · rcases List.mem_append.mp hp with hp | hp
    · exact (h.submitted p hp).trans (hheight _)
    · rw [List.mem_singleton.mp hp]
      simp [u64_of_lt hok]
  · by_cases hsid : sid = comID
    · subst hsid
      simp only [Function.update_self] at htx
      rcases TxPool.Pending_cases hpend with ⟨-, scanned, hroll, -, -⟩
      apply h.rollbackQueue sid
      rw [hroll]
      exact List.mem_append_right _ htx
    · simp only [Function.update_of_ne hsid] at htx
      exact h.rollbackQueue sid tx htx
  · -- execution only sets the status
    rcases hholds htx with ⟨tx₀, htx₀, rfl | rfl⟩
    · have hlegit := h.legit sid tx htx₀
      exact ⟨hlegit.home, hlegit.cross2, fun ht => hdoomed _ (hlegit.rollback ht)⟩
    · have hlegit := h.legit sid tx₀ htx₀
      exact ⟨hlegit.home, hlegit.cross2, fun ht => hdoomed _ (hlegit.rollback ht)⟩

/-! ## Confirmed beacons reach the client -/

/-- The client never believes a shard to be higher than it is. -/
theorem Inv.not_seesPast (h : Inv s)
    (hsubmitted : ∀ p ∈ tbblock.beacons, (p.1, p.2.height) ∈ s.submitted) (sid : ℕ) :
    ¬ s.client.SeesPast tbblock sid (s.chains sid).height := by
  rintro (hlt | ⟨p, hp, rfl, hlt⟩)
  · exact absurd (h.view sid) (Nat.not_le.mpr hlt)
  · exact absurd (h.submitted _ (hsubmitted p hp)) (Nat.not_le.mpr hlt)

/-- Timely receipts: what the client gives up while it processes `tbblock` has not been
committed. `e` is the cross2 half, which may be one the client has just made. -/
theorem not_committed_of_expired (h : Inv s) (hok : s.TimelyReceipts tbblock)
    {new : List Transaction} {i : ℕ}
    (hcount : new.countP (·.id = i) ≤ s.client.txReply.countP (TXReceipt.isCross1 i))
    (hunique : ∀ e' ∈ s.enqueued, e'.id = i → e' = e)
    (hid : e.id = i) (hpast : s.client.SeesPast tbblock e.recipientSid e.lastHeight)
    (hwait : (i ∈ s.client.cross1ConfirmHeightMap ∧
        ∀ r ∈ s.client.txReply, r.txStatus = .crossTXType2Success → r.txID = i →
          ¬ s.client.Sees tbblock r.shardID r.blockHeight) ∨ ∃ e' ∈ new, e'.id = i) (sid : ℕ) :
    ¬ s.Committed .crossTXType2 i sid := by
  rintro ⟨b, hb, tx, htx, htype, htid⟩
  have hlegit := h.legit sid tx (Or.inr (Or.inr ⟨b, hb, htx⟩))
  rcases hlegit.cross2 htype with ⟨hsid, e', he', hid', hsid', hlast⟩
  obtain rfl : e' = e := hunique e' he' (hid'.trans htid)
  rcases hwait with ⟨hin, hnone⟩ | ⟨e'', he'', hid''⟩
  · -- still waited for: the receipt is there and its beacon is known
    have hgives : s.GivesUp tbblock tx := by
      refine ⟨htype, htid ▸ hin, ?_⟩
      rw [hsid, ← hsid', ← hlast]
      exact hpast
    rcases hok sid hlegit.home b hb tx htx hgives with ⟨r, hr, hstatus, hrid, hsees⟩
    exact hnone r hr hstatus (hrid.trans htid) hsees
  · -- just made: then there was no cross2 half before
    have hspent := (h.spent he').1
    rw [hid] at hspent
    have hzero : new.countP (·.id = i) = 0 := by omega
    exact List.countP_eq_zero.mp hzero e'' he'' (by simpa using hid'')

theorem inv_addTBs {order : List ℕ} (h : Inv s)
    (hok : s.TimelyReceipts tbblock) (hstep : addTBs s tbblock order = some s') : Inv s' := by
  unfold addTBs at hstep
  split at hstep
  swap
  · cases hstep
  rename_i hsubmitted
  simp only [Option.bind_eq_bind, Option.bind_eq_some_iff, Option.some.injEq,
    Prod.exists] at hstep
  rcases hstep with ⟨c, toRecord, hc, rfl⟩
  rcases Client.addTBs_spec hc with ⟨new, exp, hframe, hpast, hcount, hnew, hmap, hexp⟩
  have hdrop : c.cross2Txs.drop s.client.cross2Txs.length = new := by
    rw [hframe]
    exact List.drop_left
  rw [hdrop]
  have hview : ∀ sid, c.shardCurHeights sid ≤ (s.chains sid).height := by
    intro sid
    by_contra hlt
    exact h.not_seesPast hsubmitted sid (hpast sid _ (Nat.not_le.mp hlt))
  have htxs : c.txsMap = s.client.txsMap := by rw [hframe]; rfl
  have hmem : ∀ e ∈ s.enqueued, e ∈ s.enqueued ++ new := fun e he => List.mem_append_left _ he
  have hnum : c.shardNum = s.client.shardNum := by rw [hframe]
  have htokens : ∀ i, State.tokens { s with client := c, enqueued := s.enqueued ++ new } i ≤ 1 := by
    intro i
    have htok := h.tokens i
    have hi := hcount i
    have hqueue : c.txs.drop c.injectCnt = s.client.txs.drop s.client.injectCnt := by rw [hframe]
    simp only [State.tokens, List.countP_append, hnum, hqueue] at htok ⊢
    omega
  have horigin : ∀ e ∈ s.enqueued ++ new, ∃ tx, c.txsMap e.id = some tx ∧
      tx.recipientSid = e.recipientSid ∧ tx.rollbackHeight = e.rollbackHeight := by
    intro e he
    rw [htxs]
    rcases List.mem_append.mp he with he | he
    · exact h.origin e he
    · exact (hnew e he).2
  have hunique : ∀ e ∈ s.enqueued ++ new, ∀ e' ∈ s.enqueued ++ new, e.id = e'.id → e = e' := by
    intro e he e' he' hid
    have hone : (s.enqueued ++ new).countP (·.id = e'.id) ≤ 1 := by
      have := htokens e'.id
      simp only [State.tokens] at this
      omega
    exact Sys.eq_of_countP_le_one hone he he' (by simpa using hid) (by simp)
  refine
    { heights := h.heights, submitted := h.submitted, view := hview,
      injected := by rw [hframe]; exact h.injected, tokens := htokens,
      addressed := fun m hm => hnum ▸ h.addressed m hm, origin := horigin,
      waiting := fun i ht hlook => ?_, queued := fun tx htx => ?_,
      rollbackQueue := h.rollbackQueue, expired := fun i hi => ?_,
      legit := fun sid tx htx => (h.legit sid tx htx).mono hnum rfl hmem }
  · rcases hmap i ht hlook with hold | ⟨e, he, hei⟩
    · rcases h.waiting i ht hold with ⟨e, he, hei⟩
      exact ⟨e, hmem e he, hei⟩
    · exact ⟨e, List.mem_append_right _ he, hei⟩
  · rw [hframe] at htx
    rcases List.mem_append.mp htx with htx | htx
    · exact ⟨(h.queued tx htx).1, hmem tx (h.queued tx htx).2⟩
    · exact ⟨(hnew tx htx).1, List.mem_append_right _ htx⟩
  · rw [hframe] at hi
    rcases List.mem_append.mp hi with hi | hi
    · exact (h.expired i hi).mono rfl hmem
    rcases hexp i hi with ⟨ht, tx, htx, hlt, hwait⟩
    -- the cross2 half the entry of the map was made with
    have hhalf : ∃ e ∈ s.enqueued ++ new, e.id = i ∧ e.cross1ConfirmHeight = ht := by
      rcases hwait with ⟨hold, -⟩ | ⟨e, he, hei⟩
      · rcases h.waiting i ht hold with ⟨e, he, hei⟩
        exact ⟨e, hmem e he, hei⟩
      · exact ⟨e, List.mem_append_right _ he, hei⟩
    rcases hhalf with ⟨e, he, hid, hheight⟩
    have hlast : e.lastHeight < c.shardCurHeights e.recipientSid := by
      rcases horigin e he with ⟨tx', htx', hrecipient, hrollback⟩
      rw [htxs, hid, htx, Option.some.injEq] at htx'
      rw [← hrecipient, Transaction.lastHeight, hheight, ← hrollback, ← htx']
      exact hlt
    refine ⟨⟨e, he, hid, hlast.trans_le (hview _)⟩, fun sid hcommitted => ?_⟩
    have hnewcount : new.countP (·.id = i) ≤ s.client.txReply.countP (TXReceipt.isCross1 i) := by
      have := hcount i
      omega
    refine not_committed_of_expired h hok hnewcount ?_ hid (hpast _ _ hlast) ?_ sid hcommitted
    · intro e' he' hid'
      exact hunique e' (hmem e' he') e he (hid'.trans hid.symm)
    · rcases hwait with ⟨hold, hnone⟩ | ⟨e', he', hid', -⟩
      · exact Or.inl ⟨Finmap.mem_iff.mpr ⟨ht, hold⟩, hnone⟩
      · exact Or.inr ⟨e', he', hid'⟩

/-! ## Whole runs -/

theorem inv_init (hinit : Init s) : Inv s := by
  rcases hinit with ⟨cid, rollbackHeight, shardNum, genesisRoot, txs, hnodup, rfl⟩
  have hheight : ∀ sid, ((start cid rollbackHeight shardNum genesisRoot txs).chains sid).height =
      0 := fun _ => rfl
  refine
    { heights := fun sid => by rw [hheight]; exact Nat.two_pow_pos 64
      submitted := fun p hp => ?_
      view := fun sid => Nat.zero_le _
      injected := Nat.zero_le _
      tokens := fun i => ?_
      addressed := by simp [start]
      origin := by simp [start]
      waiting := by simp [start, newClient, Client.addtxs]
      queued := by simp [start, newClient, Client.addtxs]
      rollbackQueue := by simp [start, newTxPool]
      expired := by simp [start, newClient, Client.addtxs]
      legit := fun sid tx htx => ?_ }
  · rcases List.mem_map.mp hp with ⟨sid, -, rfl⟩
    exact Nat.zero_le _
  · -- each transaction is in the queue of the client, and nowhere else
    have hone : (txs.map Transaction.id).count i ≤ 1 := List.nodup_iff_count_le_one.mp hnodup i
    rw [List.count, List.countP_map] at hone
    have hqueue : (start cid rollbackHeight shardNum genesisRoot txs).tokens i =
        txs.countP ((· == i) ∘ Transaction.id) := by
      simp only [State.tokens, start, newClient, Client.addtxs, newTxPool, TxPool.txs,
        List.nil_append, List.drop_zero, List.countP_map, List.map_nil, List.sum_nil,
        List.countP_nil, Finset.sum_const_zero, Nat.add_zero]
      exact List.countP_congr fun tx _ => by simp
    omega
  · rcases htx with ⟨m, hm, -⟩ | hpool | ⟨b, hb, htx⟩
    · cases hm
    · cases hpool
    · have : b.transactions = [] := by
        have hb' := List.mem_singleton.mp hb
        rw [hb']
      rw [this] at htx
      cases htx

theorem inv_step {e : Event} (hok : timelyReceipts s e) (hstep : step cfg s e = some s')
    (h : Inv s) : Inv s' := by
  cases e with
  | addTXReceipts k => exact inv_addTXReceipts h hstep
  | addTBs tbblock order => exact inv_addTBs h hok hstep
  | sendRollbackTxs n => exact inv_sendRollbackTxs h hstep
  | sendCross2Txs n => exact inv_sendCross2Txs h hstep
  | sendPendingTxs n now => exact inv_sendPendingTxs h hstep
  | clientSendTx k => exact inv_clientSendTx h hstep
  | commit comID states root => exact inv_commit h hok hstep

/-- In every run with timely receipts, no transaction is both completed and rolled back. -/
theorem not_both_halves_committed {s : State}
    (h : (machine cfg).ReachableBy timelyReceipts s) (i r t : ℕ) :
    ¬ (s.Committed .crossTXType2 i r ∧ s.Committed .rollbackTXType i t) := by
  have hinv : Inv s := Sys.Machine.invariant_by Inv (fun _ => inv_init)
    (fun _ _ _ hok hstep => inv_step hok hstep) h
  rintro ⟨hcross2, b, hb, tx, htx, htype, rfl⟩
  have hlegit := hinv.legit t tx (Or.inr (Or.inr ⟨b, hb, htx⟩))
  exact (hlegit.rollback htype).2 r hcross2

/-- The run of `lateReceipt` with the receipt of the cross2 half delivered in time. -/
def receiptInTime : List Event :=
  [.sendPendingTxs 10 0, .clientSendTx 0, .commit 0 exampleStates 0, .addTXReceipts 0,
    .addTBs ⟨0, 1, [[exampleTB 0 1]]⟩ [0], .sendCross2Txs 10, .clientSendTx 2,
    .commit 1 exampleStates 0, .commit 1 exampleStates 0, .addTXReceipts 0,
    .addTBs ⟨0, 2, [[], [exampleTB 1 1, exampleTB 1 2]]⟩ []]

theorem not_both_halves_committed_receiptInTime :
    ∃ s, (machine exampleConfig).ReachableBy timelyReceipts s ∧
      (s.Committed .crossTXType2 0 1 ∧ s.client.shardCurHeights 1 = 2) ∧
      ¬ (s.Committed .crossTXType2 0 1 ∧ s.Committed .rollbackTXType 0 0) := by
  have hinit : (machine exampleConfig).Init exampleStart :=
    ⟨0, 1, 2, 0, [exampleTx], by decide, rfl⟩
  have hrun : ∃ s, (machine exampleConfig).ReachableBy timelyReceipts s ∧
      (s.Committed .crossTXType2 0 1 ∧ s.client.shardCurHeights 1 = 2) :=
    Sys.Machine.exists_reachableBy _ hinit receiptInTime (by decide +kernel)
  rcases hrun with ⟨s, hreach, hs⟩
  exact ⟨s, hreach, hs, not_both_halves_committed hreach 0 1 0⟩

end CrossShard

end LessChain
