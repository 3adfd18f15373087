import LessChain.System.Holdings

/-!
# Settled runs have no faults

A transaction that was injected is never lost: it is with a committee, in a receipt under way,
held by its client, or done (`Inv.conserved`). A cross2 half that the pool drops is no exception,
because the client keeps the transaction in `cross1_confirm_height_map` until it has the receipt
or gives up. So if nothing is out and the queues are empty, everything is done.

Once all clients have injected everything and no cross-shard transaction is open, none is ever
opened again (`Closed`), and no committee is sent a second half or a rollback.
-/

namespace LessChain

namespace Stop

open CrossShard (Config)

/-- The committee has the transaction in its pool or in its block under way. -/
def State.At (s : State) (sid : ℕ) (tx : Transaction) : Prop :=
  tx ∈ (s.pools sid).txs ∨ tx ∈ (s.building sid).getD []

/-- A committee has been sent the transaction, and it is not in a delivered block. -/
def State.Sent (s : State) (tx : Transaction) : Prop :=
  (∃ m ∈ s.txMsgs, tx ∈ m.2) ∨ ∃ sid < s.shardNum, s.At sid tx

/-- Something that can finish the transaction is at a committee, or a receipt of it is under way.
A cross2 half does not count, because the pool may drop it. -/
def State.Under (s : State) (cid i : ℕ) : Prop :=
  (∃ tx, s.Sent tx ∧ tx.cid = cid ∧ tx.id = i ∧ tx.txType ≠ .crossTXType2) ∨
    ∃ m ∈ s.receiptMsgs, m.1 = cid ∧ ∃ r ∈ m.2, r.txID = i

/-- Where the transactions are. -/
structure Inv (s : State) : Prop where
  sound : ∀ cid < s.clientCnt, Sound cid s.shardNum (s.clients cid)
  addressed : ∀ m ∈ s.txMsgs, m.1 < s.shardNum
  sent : ∀ tx, s.Sent tx → tx.cid < s.clientCnt ∧ Has (s.clients tx.cid) tx.id
  receipts : ∀ m ∈ s.receiptMsgs, m.1 < s.clientCnt ∧
    ∀ r ∈ m.2, Has (s.clients m.1) r.txID ∧ Proper r
  conserved : ∀ cid < s.clientCnt, ∀ i, Has (s.clients cid) i →
    s.Under cid i ∨ Waits (s.clients cid) i ∨ s.Done cid i

variable {cfg : Config} {s s' : State}

theorem noneSent_iff {p : Transaction → Prop} : s.NoneSent p ↔ ∀ tx, s.Sent tx → ¬ p tx := by
  constructor
  · rintro ⟨hmsgs, hcoms⟩ tx (⟨m, hm, htx⟩ | ⟨sid, hsid, htx | htx⟩)
    · exact hmsgs m hm tx htx
    · exact (hcoms sid hsid).1 tx htx
    · exact (hcoms sid hsid).2 tx htx
  · intro h
    refine ⟨fun m hm tx htx => h tx (.inl ⟨m, hm, htx⟩), fun sid hsid => ⟨?_, ?_⟩⟩
    · exact fun tx htx => h tx (.inr ⟨sid, hsid, .inl htx⟩)
    · exact fun tx htx => h tx (.inr ⟨sid, hsid, .inr htx⟩)

/-! ## What a step of a committee does -/

/-- A committee has moved transactions on, and has answered those of a block with `new`. -/
structure CommitteeStep (s s' : State) (new : List (ℕ × List TXReceipt)) : Prop where
  frame : s' = { s with
    pools := s'.pools
    copies := s'.copies
    building := s'.building
    chains := s'.chains
    txMsgs := s'.txMsgs
    receiptMsgs := s.receiptMsgs ++ new
    submitted := s'.submitted }
  addressed : ∀ m ∈ s'.txMsgs, m ∈ s.txMsgs
  sent : ∀ tx, s'.Sent tx → s.Sent tx
  kept : ∀ tx, s.Sent tx → tx.txType ≠ .crossTXType2 →
    s'.Sent tx ∨ ∃ m ∈ new, m.1 = tx.cid ∧ ∃ r ∈ m.2, r.txID = tx.id
  answered : ∀ m ∈ new, (∃ tx, s.Sent tx ∧ tx.cid = m.1) ∧
    ∀ r ∈ m.2, (∃ tx, s.Sent tx ∧ tx.cid = m.1 ∧ tx.id = r.txID) ∧
      ∃ tx, s.Sent tx ∧ tx.Known ∧ r.txStatus = tx.txType.successStatus

def State.Elsewhere (s : State) (comID : ℕ) (tx : Transaction) : Prop :=
  ∃ sid < s.shardNum, sid ≠ comID ∧ s.At sid tx

variable {cid comID : ℕ}

/-- The places of a transaction, seen from one committee. -/
theorem sent_iff (hlt : comID < s.shardNum) {tx : Transaction} :
    s.Sent tx ↔ (∃ m ∈ s.txMsgs, tx ∈ m.2) ∨ s.Elsewhere comID tx ∨ s.At comID tx := by
  constructor
  · rintro (hmsg | ⟨sid, hsid, htx⟩)
    · exact .inl hmsg
    · by_cases heq : sid = comID
      · rw [heq] at htx
        exact .inr (.inr htx)
      · exact .inr (.inl ⟨sid, hsid, heq, htx⟩)
  · rintro (hmsg | ⟨sid, hsid, -, htx⟩ | htx)
    · exact .inl hmsg
    · exact .inr ⟨sid, hsid, htx⟩
    · exact .inr ⟨comID, hlt, htx⟩

/-- A step of one committee does not touch the others. -/
theorem elsewhere_congr (hnum : s'.shardNum = s.shardNum)
    (hpools : ∀ sid ≠ comID, s'.pools sid = s.pools sid)
    (hbuilding : ∀ sid ≠ comID, s'.building sid = s.building sid) {tx : Transaction} :
    s'.Elsewhere comID tx ↔ s.Elsewhere comID tx := by
  unfold State.Elsewhere State.At
  rw [hnum]
  constructor
  · rintro ⟨sid, hsid, hne, htx⟩
    rw [hpools sid hne, hbuilding sid hne] at htx
    exact ⟨sid, hsid, hne, htx⟩
  · rintro ⟨sid, hsid, hne, htx⟩
    rw [← hpools sid hne, ← hbuilding sid hne] at htx
    exact ⟨sid, hsid, hne, htx⟩

/-- A step of one committee that sends no receipts is about what it has and what is in messages. -/
theorem committeeStep_of_at (hlt : comID < s.shardNum)
    (hframe : s' = { s with
      pools := s'.pools
      building := s'.building
      txMsgs := s'.txMsgs })
    (hpools : ∀ sid ≠ comID, s'.pools sid = s.pools sid)
    (hbuilding : ∀ sid ≠ comID, s'.building sid = s.building sid)
    (hmsgs : ∀ m ∈ s'.txMsgs, m ∈ s.txMsgs)
    (hsent : ∀ tx, s'.At comID tx → s.At comID tx ∨ ∃ m ∈ s.txMsgs, tx ∈ m.2)
    (hmoved : ∀ m ∈ s.txMsgs, m ∈ s'.txMsgs ∨ ∀ tx ∈ m.2, s'.At comID tx)
    (hkept : ∀ tx, s.At comID tx → tx.txType ≠ .crossTXType2 → s'.At comID tx) :
    CommitteeStep s s' [] := by
  have hnum : s'.shardNum = s.shardNum := by rw [hframe]
  have helse := @elsewhere_congr s s' comID hnum hpools hbuilding
  constructor
  · rw [List.append_nil, hframe]
  · exact hmsgs
  · intro tx htx
    rw [sent_iff (hnum ▸ hlt), helse] at htx
    rw [sent_iff hlt]
    -- in a message, at another committee, or at this one
    rcases htx with ⟨m, hm, htx⟩ | helsewhere | hat
    · exact .inl ⟨m, hmsgs m hm, htx⟩
    · exact .inr (.inl helsewhere)
    · rcases hsent tx hat with hat | hmsg
      · exact .inr (.inr hat)
      · exact .inl hmsg
  · intro tx htx hkind
    left
    rw [sent_iff hlt] at htx
    rw [sent_iff (hnum ▸ hlt), helse]
    rcases htx with ⟨m, hm, htx⟩ | helsewhere | hat
    · rcases hmoved m hm with hm | hat
      · exact .inl ⟨m, hm, htx⟩
      · exact .inr (.inr (hat tx htx))
    · exact .inr (.inl helsewhere)
    · exact .inr (.inr (hkept tx hat hkind))
  · intro m hm
    cases hm

theorem committee_clientSendTx {k : ℕ} (hinv : Inv s) (h : clientSendTx s k = some s') :
    CommitteeStep s s' [] := by
  simp only [clientSendTx, Option.bind_eq_bind, Option.bind_eq_some_iff, Prod.exists,
    Option.some.injEq] at h
  obtain ⟨comID, txs, hk, rfl⟩ := h
  have hperm := Sys.cons_eraseIdx_perm hk
  have hmem : (comID, txs) ∈ s.txMsgs := hperm.subset List.mem_cons_self
  have hat : ∀ tx, State.At { s with
      pools := Function.update s.pools comID ((s.pools comID).addTxs txs)
      txMsgs := s.txMsgs.eraseIdx k } comID tx ↔ s.At comID tx ∨ tx ∈ txs := by
    intro tx
    unfold State.At
    dsimp only
    rw [Function.update_self, TxPool.mem_addTxs]
    tauto
  refine committeeStep_of_at (hinv.addressed _ hmem) rfl ?_ (fun _ _ => rfl) ?_ ?_ ?_ ?_
  · exact fun sid hne => Function.update_of_ne hne _ _
  · exact fun m hm => hperm.subset (List.mem_cons_of_mem _ hm)
  · intro tx htx
    rcases (hat tx).mp htx with hold | hnew
    · exact .inl hold
    · exact .inr ⟨_, hmem, hnew⟩
  · intro m hm
    rcases List.mem_cons.mp (hperm.symm.subset hm) with rfl | hm
    · exact .inr fun tx htx => (hat tx).mpr (.inr htx)
    · exact .inl hm
  · exact fun tx htx _ => (hat tx).mpr (.inl htx)

theorem committee_pending (h : pending cfg s comID = some s') :
    CommitteeStep s s' [] := by
  unfold pending at h
  split at h
  · rename_i hguard
    obtain ⟨hlt, hnone⟩ := hguard
    simp only [Option.bind_eq_bind, Option.bind_eq_some_iff, Prod.exists, Option.some.injEq] at h
    obtain ⟨txs, addrs, pool, hpending, rfl⟩ := h
    have hat : ∀ tx, State.At { s with
        pools := Function.update s.pools comID pool
        building := Function.update s.building comID (some txs) } comID tx ↔
          tx ∈ pool.txs ∨ tx ∈ txs := by
      intro tx
      unfold State.At
      dsimp only
      rw [Function.update_self, Function.update_self, Option.getD_some]
    refine committeeStep_of_at hlt rfl ?_ ?_ (fun _ hm => hm) ?_ (fun _ hm => .inl hm) ?_
    · exact fun sid hne => Function.update_of_ne hne _ _
    · exact fun sid hne => Function.update_of_ne hne _ _
    · intro tx htx
      left
      rcases (hat tx).mp htx with hleft | hpacked
      · exact .inl ((TxPool.mem_of_mem_Pending hpending).2 hleft)
      · exact .inl ((TxPool.mem_of_mem_Pending hpending).1 hpacked)
    · intro tx htx hkind
      rcases htx with hpool | hblock
      · exact (hat tx).mpr (TxPool.mem_Pending hpending hpool hkind)
      · rw [hnone] at hblock
        cases hblock
  · cases h

/-- `Start` throws an empty pool away. -/
theorem committee_start (hempty : (s.pools comID).empty = true)
    (h : start s comID = some s') : CommitteeStep s s' [] := by
  unfold start at h
  split at h
  · rename_i hlt
    cases h
    have hat : ∀ tx, State.At { s with pools := Function.update s.pools comID newTxPool } comID tx ↔
        s.At comID tx := by
      intro tx
      unfold State.At
      dsimp only
      rw [Function.update_self, TxPool.txs_of_empty hempty]
      rfl
    refine committeeStep_of_at hlt rfl ?_ (fun _ _ => rfl) (fun _ hm => hm) ?_
      (fun _ hm => .inl hm) ?_
    · exact fun sid hne => Function.update_of_ne hne _ _
    · exact fun tx htx => .inl ((hat tx).mp htx)
    · exact fun tx htx _ => (hat tx).mpr htx
  · cases h

/-- `SetPoolTx` at another node changes nothing at the leader. -/
theorem committee_setPoolTx {nodeID : ℕ} {poolTx : TxPool}
    (h : setPoolTx s comID nodeID poolTx = some s') : CommitteeStep s s' [] := by
  unfold setPoolTx at h
  split at h
  · cases h
    exact ⟨by simp, fun _ hm => hm, fun _ htx => htx, fun _ htx _ => .inl htx, by simp⟩
  · cases h

theorem committee_deliver {states : ExecState} {root : Hash}
    (h : deliver cfg s comID states root = some s') : ∃ new, CommitteeStep s s' new := by
  unfold deliver at h
  split at h
  · rename_i hlt
    simp only [Option.bind_eq_bind, Option.bind_eq_some_iff, Prod.exists, Option.some.injEq] at h
    obtain ⟨txs, hblock, txs', states', hexec, msgs, hmsgs, rfl⟩ := h
    obtain ⟨rfl, hknown⟩ := Worker.executeTransactions_txs hexec
    have hsent : ∀ tx ∈ txs, s.Sent tx := by
      intro tx htx
      refine .inr ⟨comID, hlt, .inr ?_⟩
      rw [hblock]
      exact htx
    refine ⟨msgs, rfl, fun _ hm => hm, ?_, ?_, ?_⟩
    · rintro tx (hmsg | ⟨sid, hsid, hpool | hbuilding⟩)
      · exact .inl hmsg
      · exact .inr ⟨sid, hsid, .inl hpool⟩
      · dsimp only at hbuilding
        by_cases heq : sid = comID
        · rw [heq, Function.update_self] at hbuilding
          cases hbuilding
        · rw [Function.update_of_ne heq] at hbuilding
          exact .inr ⟨sid, hsid, .inr hbuilding⟩
    · rintro tx (hmsg | ⟨sid, hsid, hpool | hbuilding⟩) -
      · exact .inl (.inl hmsg)
      · exact .inl (.inr ⟨sid, hsid, .inl hpool⟩)
      · by_cases heq : sid = comID
        · -- the block of this committee: its transactions are answered
          rw [heq, hblock] at hbuilding
          have hin : tx.executed ∈ txs.map Transaction.executed := List.mem_map_of_mem hbuilding
          have hanswer := Worker.exists_mem_sendTXReceipt2Client hmsgs hin
          exact .inr hanswer
        · refine .inl (.inr ⟨sid, hsid, .inr ?_⟩)
          dsimp only
          rw [Function.update_of_ne heq]
          exact hbuilding
    · intro m hm
      obtain ⟨⟨tx₁, htx₁, hcid₁⟩, hreceipts⟩ := Worker.of_mem_sendTXReceipt2Client hmsgs hm
      obtain ⟨tx, htx, rfl⟩ := List.mem_map.mp htx₁
      refine ⟨⟨tx, hsent tx htx, hcid₁⟩, fun r hr => ?_⟩
      obtain ⟨⟨tx₂, htx₂, hcid₂, hid₂⟩, tx₃, htx₃, rfl⟩ := hreceipts r hr
      obtain ⟨tx₂', hmem₂, rfl⟩ := List.mem_map.mp htx₂
      obtain ⟨tx₃', hmem₃, rfl⟩ := List.mem_map.mp htx₃
      exact ⟨⟨tx₂', hsent _ hmem₂, hcid₂, hid₂⟩, tx₃', hsent _ hmem₃, hknown _ hmem₃, rfl⟩
  · cases h

/-- A step of a committee keeps the invariant. -/
theorem Inv.committee {new : List (ℕ × List TXReceipt)} (hinv : Inv s)
    (hstep : CommitteeStep s s' new) : Inv s' := by
  have hframe := hstep.frame
  have hnum : s'.shardNum = s.shardNum := by rw [hframe]
  have hcnt : s'.clientCnt = s.clientCnt := by rw [hframe]
  have hclients : s'.clients = s.clients := by rw [hframe]
  have hreceipts : s'.receiptMsgs = s.receiptMsgs ++ new := by rw [hframe]
  have hdone : s'.allTXStatus = s.allTXStatus := by rw [hframe]
  constructor
  · rw [hnum, hcnt, hclients]
    exact hinv.sound
  · rw [hnum]
    exact fun m hm => hinv.addressed m (hstep.addressed m hm)
  · rw [hcnt, hclients]
    exact fun tx htx => hinv.sent tx (hstep.sent tx htx)
  · rw [hcnt, hclients, hreceipts]
    intro m hm
    rcases List.mem_append.mp hm with hm | hm
    · exact hinv.receipts m hm
    · -- a new receipt is for a transaction that was there
      obtain ⟨⟨tx, hsent, hcid⟩, hr⟩ := hstep.answered m hm
      rw [← hcid]
      refine ⟨(hinv.sent tx hsent).1, fun r hmem => ?_⟩
      obtain ⟨⟨tx₁, hsent₁, hcid₁, hid₁⟩, tx₂, -, hknown, hstatus⟩ := hr r hmem
      refine ⟨?_, ?_⟩
      · rw [hcid, ← hcid₁, ← hid₁]
        exact (hinv.sent tx₁ hsent₁).2
      · exact proper_of_successStatus hknown hstatus
  · rw [hcnt, hclients]
    intro cid hcid i hhas
    unfold State.Done
    rw [hdone]
    rcases hinv.conserved cid hcid i hhas with hunder | hheld
    · left
      -- it stays at the committee, or its receipt is now in a message
      rcases hunder with ⟨tx, hsent, hown, hid, hkind⟩ | ⟨m, hm, hto⟩
      · rcases hstep.kept tx hsent hkind with hsent | ⟨m, hm, hto, r, hr, hrid⟩
        · exact .inl ⟨tx, hsent, hown, hid, hkind⟩
        · refine .inr ⟨m, ?_, hto.trans hown, r, hr, hrid.trans hid⟩
          rw [hreceipts]
          exact List.mem_append_right _ hm
      · refine .inr ⟨m, ?_, hto⟩
        rw [hreceipts]
        exact List.mem_append_left _ hm
    · exact .inr hheld

/-! ## What a step of a client does -/

/-- Client `cid` has become `c` in a step and has sent `msgs`. -/
structure ClientStep (s s' : State) (cid : ℕ) (c : Client) (msgs : List (ℕ × List Transaction)) :
    Prop where
  lt : cid < s.clientCnt
  frame : s' = { s with
    clients := Function.update s.clients cid c
    allTXStatus := s'.allTXStatus
    txMsgs := s.txMsgs ++ msgs
    receiptMsgs := s'.receiptMsgs
    faults := s.faults ++ s.sentLater msgs }
  sound : Sound cid s.shardNum c
  addressed : ∀ m ∈ msgs, m.1 < s.shardNum
  own : ∀ m ∈ msgs, ∀ tx ∈ m.2, tx.cid = cid ∧ Has c tx.id
  has : ∀ i, Has (s.clients cid) i → Has c i
  kept : ∀ i, Has c i → Carries msgs i ∨ Has (s.clients cid) i ∧
    (Waits (s.clients cid) i → Waits c i ∨ s'.Done cid i)
  received : ∀ m ∈ s'.receiptMsgs, m ∈ s.receiptMsgs
  consumed : ∀ m ∈ s.receiptMsgs, m ∈ s'.receiptMsgs ∨ m.1 = cid ∧ ∀ r ∈ m.2, Waits c r.txID
  done : ∀ cid' i, s.Done cid' i → s'.Done cid' i
  injected : (s.clients cid).injectCnt = (s.clients cid).txs.length → c.injectCnt = c.txs.length
  idle : s.NoCross → (s.clients cid).injectCnt = (s.clients cid).txs.length →
    Idle c ∧ ∀ m ∈ msgs, m.2 = []

theorem client_addTXReceipts {k : ℕ} (hinv : Inv s) (h : addTXReceipts s k = some s') :
    ∃ cid c, ClientStep s s' cid c [] := by
  simp only [addTXReceipts, Option.bind_eq_bind, Option.bind_eq_some_iff, Prod.exists,
    Option.some.injEq] at h
  obtain ⟨cid, receipts, hk, rfl⟩ := h
  have hperm := Sys.cons_eraseIdx_perm hk
  have hmem : (cid, receipts) ∈ s.receiptMsgs := hperm.subset List.mem_cons_self
  obtain ⟨hlt, hown⟩ := hinv.receipts _ hmem
  refine ⟨cid, (s.clients cid).addTXReceipts receipts, ?_⟩
  constructor
  · exact hlt
  · simp [State.sentLater]
  · exact sound_addTXReceipts (hinv.sound cid hlt) hown
  · simp
  · simp
  · exact fun i hi => hi
  · intro i hi
    refine .inr ⟨hi, ?_⟩
    -- what waited still does: `txReply` has only grown
    rintro (⟨r, hr, hid⟩ | hin)
    · exact .inl (.inl ⟨r, List.mem_append_left _ hr, hid⟩)
    · exact .inl (.inr hin)
  · exact fun m hm => hperm.subset (List.mem_cons_of_mem _ hm)
  · intro m hm
    rcases List.mem_cons.mp (hperm.symm.subset hm) with rfl | hm
    · exact .inr ⟨rfl, fun r hr => .inl ⟨r, List.mem_append_right _ hr, rfl⟩⟩
    · exact .inl hm
  · exact fun _ _ hdone => hdone
  · exact id
  · -- the receipts are not of first halves, so the client stays idle
    rintro ⟨-, hnocross, hidle⟩ -
    obtain ⟨hcross2, hexp, hkeys, hreply⟩ := hidle cid hlt
    refine ⟨⟨hcross2, hexp, hkeys, fun r hr => ?_⟩, by simp⟩
    rcases List.mem_append.mp hr with hr | hr
    · exact hreply r hr
    · exact hnocross _ hmem r hr

theorem client_send {sender : Client → Option (Client × List (ℕ × List Transaction))}
    (hinv : Inv s) (hsender : ∀ c c' msgs, Sound cid s.shardNum c → sender c = some (c', msgs) →
      Sends cid s.shardNum c c' msgs)
    (h : send s cid sender = some s') : ∃ c msgs, ClientStep s s' cid c msgs := by
  unfold send at h
  split at h
  · rename_i hlt
    simp only [Option.bind_eq_bind, Option.bind_eq_some_iff, Prod.exists, Option.some.injEq] at h
    obtain ⟨c, msgs, hsend, rfl⟩ := h
    have hs := hsender _ c msgs (hinv.sound cid hlt) hsend
    refine ⟨c, msgs, hlt, rfl, hs.sound, hs.addressed, hs.own, hs.has, ?_, fun _ hm => hm,
      fun _ hm => .inl hm, fun _ _ hdone => hdone, hs.injected, ?_⟩
    · intro i hi
      exact (hs.kept i hi).imp_right fun hold => ⟨hold.1, fun hwaits => .inl (hold.2 hwaits)⟩
    · exact fun hnocross => hs.idle (hnocross.2.2 cid hlt)
  · cases h

/-- `SetTXReceiptV2` forgets nothing, and notes the final statuses of the table. -/
theorem done_setTXReceiptV2 {old new : ℕ → List TxStatus} {table : Finmap fun _ : ℕ => TXReceipt}
    (h : setTXReceiptV2 old table = some new) {i : ℕ}
    (hi : (∃ status ∈ old i, final status = true) ∨ Records table i) :
    ∃ status ∈ new i, final status = true := by
  unfold setTXReceiptV2 at h
  split at h
  · cases h
  · cases h
    rcases hi with ⟨status, hmem, hfinal⟩ | ⟨r, hlook, hfinal⟩
    · exact ⟨status, List.mem_append_left _ hmem, hfinal⟩
    · refine ⟨r.txStatus, List.mem_append_right _ ?_, hfinal⟩
      simp [hlook]

theorem client_addTBs {b : TBBlock} {order : List ℕ} (hinv : Inv s)
    (h : addTBs s cid b order = some s') : ∃ c, ClientStep s s' cid c [] := by
  unfold addTBs at h
  split at h
  · rename_i hguard
    simp only [Option.bind_eq_bind, Option.bind_eq_some_iff, Prod.exists, Option.some.injEq] at h
    obtain ⟨c, table, hadd, statuses, hstatuses, rfl⟩ := h
    have hs := settles_addTBs (hinv.sound cid hguard.1) hadd
    refine ⟨c, ?_⟩
    constructor
    · exact hguard.1
    · simp [State.sentLater]
    · exact hs.sound
    · simp
    · simp
    · exact fun i hi => hi.congr hs.txs hs.injectCnt
    · intro i hi
      refine .inr ⟨hi.congr hs.txs.symm hs.injectCnt.symm, fun hwaits => ?_⟩
      -- a receipt that was processed is recorded with a final status
      refine (hs.kept i hwaits).imp_right fun hrecords => ?_
      unfold State.Done
      dsimp only
      rw [Function.update_self]
      exact done_setTXReceiptV2 hstatuses (.inr hrecords)
    · exact fun _ hm => hm
    · exact fun _ hm => .inl hm
    · intro cid' i hdone
      unfold State.Done
      dsimp only
      by_cases heq : cid' = cid
      · rw [heq] at hdone ⊢
        rw [Function.update_self]
        exact done_setTXReceiptV2 hstatuses (.inl hdone)
      · rw [Function.update_of_ne heq]
        exact hdone
    · rw [hs.txs, hs.injectCnt]
      exact id
    · exact fun hnocross _ => ⟨idle_addTBs (hnocross.2.2 cid hguard.1) hadd, by simp⟩
  · cases h

section ClientStep

variable {cid : ℕ} {c : Client} {msgs : List (ℕ × List Transaction)}

/-- What committees have been sent after the step of a client. -/
theorem ClientStep.sent_iff (hstep : ClientStep s s' cid c msgs) {tx : Transaction} :
    s'.Sent tx ↔ s.Sent tx ∨ ∃ m ∈ msgs, tx ∈ m.2 := by
  rw [hstep.frame]
  unfold State.Sent
  dsimp only
  constructor
  · rintro (⟨m, hm, htx⟩ | hat)
    · rcases List.mem_append.mp hm with hm | hm
      · exact .inl (.inl ⟨m, hm, htx⟩)
      · exact .inr ⟨m, hm, htx⟩
    · exact .inl (.inr hat)
  · rintro ((⟨m, hm, htx⟩ | hat) | ⟨m, hm, htx⟩)
    · exact .inl ⟨m, List.mem_append_left _ hm, htx⟩
    · exact .inr hat
    · exact .inl ⟨m, List.mem_append_right _ hm, htx⟩

theorem ClientStep.clients_self (hstep : ClientStep s s' cid c msgs) : s'.clients cid = c := by
  rw [hstep.frame]
  exact Function.update_self _ _ _

theorem ClientStep.clients_of_ne (hstep : ClientStep s s' cid c msgs) {cid' : ℕ}
    (hne : cid' ≠ cid) : s'.clients cid' = s.clients cid' := by
  rw [hstep.frame]
  exact Function.update_of_ne hne _ _

theorem ClientStep.has' (hstep : ClientStep s s' cid c msgs) {cid' i : ℕ}
    (hhas : Has (s.clients cid') i) : Has (s'.clients cid') i := by
  by_cases heq : cid' = cid
  · rw [heq] at hhas ⊢
    rw [hstep.clients_self]
    exact hstep.has i hhas
  · rw [hstep.clients_of_ne heq]
    exact hhas

/-- A step of a client keeps the invariant. -/
theorem Inv.client (hinv : Inv s) (hstep : ClientStep s s' cid c msgs) : Inv s' := by
  have hnum : s'.shardNum = s.shardNum := by rw [hstep.frame]
  have hcnt : s'.clientCnt = s.clientCnt := by rw [hstep.frame]
  constructor
  · rw [hnum, hcnt]
    intro cid' hcid'
    by_cases heq : cid' = cid
    · rw [heq, hstep.clients_self]
      exact hstep.sound
    · rw [hstep.clients_of_ne heq]
      exact hinv.sound cid' hcid'
  · have hmsgs : s'.txMsgs = s.txMsgs ++ msgs := by rw [hstep.frame]
    rw [hnum, hmsgs]
    intro m hm
    rcases List.mem_append.mp hm with hm | hm
    · exact hinv.addressed m hm
    · exact hstep.addressed m hm
  · rw [hcnt]
    intro tx htx
    rcases hstep.sent_iff.mp htx with hold | ⟨m, hm, hmem⟩
    · obtain ⟨hlt, hhas⟩ := hinv.sent tx hold
      exact ⟨hlt, hstep.has' hhas⟩
    · obtain ⟨hcid, hhas⟩ := hstep.own m hm tx hmem
      rw [hcid, hstep.clients_self]
      exact ⟨hstep.lt, hhas⟩
  · rw [hcnt]
    intro m hm
    obtain ⟨hlt, hr⟩ := hinv.receipts m (hstep.received m hm)
    exact ⟨hlt, fun r hmem => ⟨hstep.has' (hr r hmem).1, (hr r hmem).2⟩⟩
  · rw [hcnt]
    intro cid' hcid' i hhas
    -- what was under way still is, unless its client has received it
    have hunder : s.Under cid' i → s'.Under cid' i ∨ Waits (s'.clients cid') i := by
      rintro (⟨tx, hsent, hrest⟩ | ⟨m, hm, hto, r, hr, hid⟩)
      · exact .inl (.inl ⟨tx, hstep.sent_iff.mpr (.inl hsent), hrest⟩)
      · rcases hstep.consumed m hm with hm | ⟨hcid, hwaits⟩
        · exact .inl (.inr ⟨m, hm, hto, r, hr, hid⟩)
        · right
          rw [← hto, hcid, hstep.clients_self, ← hid]
          exact hwaits r hr
    have hold : Has (s.clients cid') i →
        (Waits (s.clients cid') i → Waits (s'.clients cid') i ∨ s'.Done cid' i) →
        s'.Under cid' i ∨ Waits (s'.clients cid') i ∨ s'.Done cid' i := by
      intro hhas hwaits
      rcases hinv.conserved cid' hcid' i hhas with hu | hw | hd
      · exact (hunder hu).imp_right .inl
      · exact .inr (hwaits hw)
      · exact .inr (.inr (hstep.done cid' i hd))
    by_cases heq : cid' = cid
    · subst heq
      rw [hstep.clients_self] at hhas
      rcases hstep.kept i hhas with ⟨m, hm, tx, htx, hid, hkind⟩ | ⟨hhas, hwaits⟩
      · refine .inl (.inl ⟨tx, hstep.sent_iff.mpr (.inr ⟨m, hm, htx⟩), ?_, hid, hkind⟩)
        exact (hstep.own m hm tx htx).1
      · apply hold hhas
        rw [hstep.clients_self]
        exact hwaits
    · rw [hstep.clients_of_ne heq] at hhas
      apply hold hhas
      rw [hstep.clients_of_ne heq]
      exact .inl

end ClientStep

/-! ## What a step of the system does -/

/-- What can happen in a settled run. -/
inductive Effect (s : State) : State → Prop
  | client {s' : State} (cid : ℕ) (c : Client) (msgs : List (ℕ × List Transaction))
      (h : ClientStep s s' cid c msgs) : Effect s s'
  | committee {s' : State} (new : List (ℕ × List TXReceipt)) (h : CommitteeStep s s' new) :
      Effect s s'
  | injectDone (cid : ℕ) (hall : (s.clients cid).injectCnt = (s.clients cid).txs.length) :
      Effect s { s with injectDoneMsgSent := Function.update s.injectDoneMsgSent cid true }
  | report (node : ℕ × ℕ) (cid : ℕ) (hlt : cid < s.clientCnt)
      (hsent : s.injectDoneMsgSent cid = true) (hnew : cid ∉ s.reports node) :
      Effect s { s with
        injectNotDone := Function.update s.injectNotDone node (s.injectNotDone node - 1)
        reports := Function.update s.reports node (s.reports node ++ [cid]) }
  | clientStops (cid : ℕ) (hlt : cid < s.clientCnt) (hcan : (s.clients cid).canStopV1 = true)
      (hout : s.NothingOut cid) :
      Effect s { s with faults := s.faults ++ (s.unfinished cid).map (.unfinished cid) }
  | committeeStops (comID : ℕ) (hcan : s.canStopV1 comID 0 = true)
      (hblock : s.building comID = none) (hcross : s.NoCross) :
      Effect s { s with
        stopped := Function.update s.stopped comID true
        faults := s.faults ++ (s.undelivered comID).map (.undelivered comID) ++
          (s.unreported comID 0).map (.unreported comID) }
  | nothing : Effect s s

theorem effect_of_step (hinv : Inv s) {e : Event} (hok : settled s e)
    (hstep : step cfg s e = some s') : Effect s s' := by
  -- what `settled` says of an event is the hypothesis its effect needs
  cases e with
  | addTXReceipts k =>
      obtain ⟨cid, c, h⟩ := client_addTXReceipts hinv hstep
      exact .client cid c [] h
  | addTBs cid tbblock order =>
      obtain ⟨c, h⟩ := client_addTBs hinv hstep
      exact .client cid c [] h
  | sendRollbackTxs cid n =>
      have hsend : send s cid (·.sendRollbackTxs n) = some s' := hstep
      obtain ⟨c, msgs, h⟩ := client_send hinv (fun _ _ _ hc h => sends_rollbackTxs hc h) hsend
      exact .client cid c msgs h
  | sendCross2Txs cid n =>
      have hsend : send s cid (·.sendCross2Txs n) = some s' := hstep
      obtain ⟨c, msgs, h⟩ := client_send hinv (fun _ _ _ hc h => sends_cross2Txs hc h) hsend
      exact .client cid c msgs h
  | sendPendingTxs cid n now =>
      have hsend : send s cid (·.sendPendingTxs n now) = some s' := hstep
      obtain ⟨c, msgs, h⟩ := client_send hinv (fun _ _ _ hc h => sends_pendingTxs hc h) hsend
      exact .client cid c msgs h
  | setInjectDone2Nodes cid =>
      unfold step setInjectDone2Nodes at hstep
      dsimp only at hstep
      split at hstep
      · rename_i hguard
        cases hstep
        exact .injectDone cid (of_decide_eq_true hguard.2.1)
      · cases hstep
  | setInjectTXDone comID nodeID cid =>
      unfold step setInjectTXDone at hstep
      dsimp only at hstep
      split at hstep
      · rename_i hguard
        cases hstep
        exact .report (comID, nodeID) cid hguard.2.1 hguard.2.2 hok
      · cases hstep
  | clientSendTx k => exact .committee [] (committee_clientSendTx hinv hstep)
  | pending comID => exact .committee [] (committee_pending hstep)
  | deliver comID states root =>
      obtain ⟨new, h⟩ := committee_deliver hstep
      exact .committee new h
  | start comID => exact .committee [] (committee_start hok hstep)
  | setPoolTx comID nodeID poolTx => exact .committee [] (committee_setPoolTx hstep)
  | clientCanStop cid =>
      unfold step clientCanStop at hstep
      dsimp only at hstep
      split at hstep
      · rename_i hlt
        split at hstep
        · rename_i hcan
          cases hstep
          exact .clientStops cid hlt hcan hok
        · cases hstep
          exact .nothing
      · cases hstep
  | committeeCanStop comID nodeID =>
      obtain ⟨rfl, hblock, hcross⟩ := hok
      unfold step committeeCanStop at hstep
      dsimp only at hstep
      split at hstep
      · split at hstep
        · rename_i hcan
          cases hstep
          exact .committeeStops comID hcan hblock hcross
        · cases hstep
          exact .nothing
      · cases hstep

theorem Inv.effect (hinv : Inv s) (h : Effect s s') : Inv s' := by
  cases h with
  | client cid c msgs h => exact hinv.client h
  | committee new h => exact hinv.committee h
  | injectDone | report | clientStops | committeeStops =>
      exact ⟨hinv.sound, hinv.addressed, hinv.sent, hinv.receipts, hinv.conserved⟩
  | nothing => exact hinv

/-! ## Reports -/

/-- The counter of a node tells how many clients have not reported. -/
structure Reported (s : State) : Prop where
  bound : s.clientCnt < 2 ^ 31
  done : ∀ cid < s.clientCnt, s.injectDoneMsgSent cid = true →
    (s.clients cid).injectCnt = (s.clients cid).txs.length
  nodup : ∀ node, (s.reports node).Nodup
  mem : ∀ node, ∀ cid ∈ s.reports node, cid < s.clientCnt ∧ s.injectDoneMsgSent cid = true
  counter : ∀ node, s.injectNotDone node =
    BitVec.ofNat 32 s.clientCnt - BitVec.ofNat 32 (s.reports node).length

section Reported

variable (hrep : Reported s)

include hrep

theorem Reported.client {cid : ℕ} {c : Client} {msgs : List (ℕ × List Transaction)}
    (h : ClientStep s s' cid c msgs) : Reported s' := by
  have hcnt : s'.clientCnt = s.clientCnt := by rw [h.frame]
  have hmsg : s'.injectDoneMsgSent = s.injectDoneMsgSent := by rw [h.frame]
  have hreports : s'.reports = s.reports := by rw [h.frame]
  have hcounter : s'.injectNotDone = s.injectNotDone := by rw [h.frame]
  constructor
  · rw [hcnt]
    exact hrep.bound
  · rw [hcnt, hmsg]
    intro cid' hlt hsent
    by_cases heq : cid' = cid
    · rw [heq] at hlt hsent ⊢
      rw [h.clients_self]
      exact h.injected (hrep.done cid hlt hsent)
    · rw [h.clients_of_ne heq]
      exact hrep.done cid' hlt hsent
  · rw [hreports]
    exact hrep.nodup
  · rw [hcnt, hmsg, hreports]
    exact hrep.mem
  · rw [hcnt, hreports, hcounter]
    exact hrep.counter

theorem Reported.injectDone {cid : ℕ}
    (hall : (s.clients cid).injectCnt = (s.clients cid).txs.length) :
    Reported { s with injectDoneMsgSent := Function.update s.injectDoneMsgSent cid true } := by
  refine ⟨hrep.bound, ?_, hrep.nodup, ?_, hrep.counter⟩
  · intro cid' hlt hsent
    by_cases heq : cid' = cid
    · rw [heq]
      exact hall
    · dsimp only at hsent
      rw [Function.update_of_ne heq] at hsent
      exact hrep.done cid' hlt hsent
  · intro node cid' hmem
    obtain ⟨hlt, hsent⟩ := hrep.mem node cid' hmem
    refine ⟨hlt, ?_⟩
    dsimp only
    by_cases heq : cid' = cid
    · rw [heq, Function.update_self]
    · rw [Function.update_of_ne heq]
      exact hsent

theorem Reported.report {node : ℕ × ℕ} {cid : ℕ} (hlt : cid < s.clientCnt)
    (hsent : s.injectDoneMsgSent cid = true) (hnew : cid ∉ s.reports node) :
    Reported { s with
      injectNotDone := Function.update s.injectNotDone node (s.injectNotDone node - 1)
      reports := Function.update s.reports node (s.reports node ++ [cid]) } := by
  refine ⟨hrep.bound, hrep.done, ?_, ?_, ?_⟩
  all_goals
    intro node'
    dsimp only
    by_cases heq : node' = node
  · rw [heq, Function.update_self]
    have hnodup := (hrep.nodup node).concat hnew
    rwa [List.concat_eq_append] at hnodup
  · rw [Function.update_of_ne heq]
    exact hrep.nodup node'
  · rw [heq, Function.update_self]
    intro cid' hmem
    rcases List.mem_append.mp hmem with hmem | hmem
    · exact hrep.mem node cid' hmem
    · rw [List.mem_singleton.mp hmem]
      exact ⟨hlt, hsent⟩
  · rw [Function.update_of_ne heq]
    exact hrep.mem node'
  · rw [heq, Function.update_self, Function.update_self, hrep.counter node, List.length_append,
      List.length_singleton, BitVec.ofNat_add]
    bv_omega
  · rw [Function.update_of_ne heq, Function.update_of_ne heq]
    exact hrep.counter node'

theorem Reported.effect (h : Effect s s') : Reported s' := by
  cases h with
  | client cid c msgs h => exact hrep.client h
  | committee new h =>
      rw [h.frame]
      exact ⟨hrep.bound, hrep.done, hrep.nodup, hrep.mem, hrep.counter⟩
  | injectDone cid hall => exact hrep.injectDone hall
  | report node cid hlt hsent hnew => exact hrep.report hlt hsent hnew
  | clientStops | committeeStops =>
      exact ⟨hrep.bound, hrep.done, hrep.nodup, hrep.mem, hrep.counter⟩
  | nothing => exact hrep

end Reported

/-- A counter at zero: everyone has reported. -/
theorem Reported.all {node : ℕ × ℕ} (hrep : Reported s) (hzero : s.injectNotDone node = 0)
    (hlt : cid < s.clientCnt) : cid ∈ s.reports node := by
  have hsub : (s.reports node).toFinset ⊆ Finset.range s.clientCnt := by
    intro cid' hmem
    exact Finset.mem_range.mpr (hrep.mem node cid' (List.mem_toFinset.mp hmem)).1
  have hcard : (s.reports node).toFinset.card = (s.reports node).length :=
    List.toFinset_card_of_nodup (hrep.nodup node)
  have hle : (s.reports node).length ≤ s.clientCnt := by
    rw [← hcard, ← Finset.card_range s.clientCnt]
    exact Finset.card_le_card hsub
  have hbound := hrep.bound
  have heq : s.clientCnt = (s.reports node).length := by
    have hcounter := hrep.counter node
    rw [hzero] at hcounter
    have hnat := congrArg BitVec.toNat hcounter
    rw [BitVec.toNat_sub, BitVec.toNat_ofNat, BitVec.toNat_ofNat] at hnat
    simp only [BitVec.ofNat_eq_ofNat, BitVec.toNat_ofNat] at hnat
    omega
  have hall : (s.reports node).toFinset = Finset.range s.clientCnt := by
    apply Finset.eq_of_subset_of_card_le hsub
    rw [Finset.card_range, hcard, ← heq]
  rw [← List.mem_toFinset, hall]
  exact Finset.mem_range.mpr hlt

/-! ## Nothing more to come -/

/-- No cross-shard transaction is open, and none will be begun. -/
def Closed (s : State) : Prop :=
  s.NoCross ∧ ∀ cid < s.clientCnt, (s.clients cid).injectCnt = (s.clients cid).txs.length

theorem Closed.client {c : Client} {msgs : List (ℕ × List Transaction)}
    (hclosed : Closed s) (h : ClientStep s s' cid c msgs) : Closed s' := by
  obtain ⟨hcross, hall⟩ := hclosed
  have hcnt : s'.clientCnt = s.clientCnt := by rw [h.frame]
  obtain ⟨hidle, hempty⟩ := h.idle hcross (hall cid h.lt)
  have hclients : ∀ cid' < s'.clientCnt, Idle (s'.clients cid') ∧
      (s'.clients cid').injectCnt = (s'.clients cid').txs.length := by
    rw [hcnt]
    intro cid' hlt
    by_cases heq : cid' = cid
    · rw [heq, h.clients_self]
      exact ⟨hidle, h.injected (hall cid h.lt)⟩
    · rw [h.clients_of_ne heq]
      exact ⟨hcross.2.2 cid' hlt, hall cid' hlt⟩
  refine ⟨⟨?_, ?_, ?_⟩, ?_⟩
  · rw [noneSent_iff]
    intro tx htx
    rcases h.sent_iff.mp htx with hold | ⟨m, hm, hmem⟩
    · exact noneSent_iff.mp hcross.1 tx hold
    · rw [hempty m hm] at hmem
      cases hmem
  · exact fun m hm => hcross.2.1 m (h.received m hm)
  · exact fun cid' hlt => (hclients cid' hlt).1
  · exact fun cid' hlt => (hclients cid' hlt).2

theorem Closed.committee {new : List (ℕ × List TXReceipt)} (hclosed : Closed s)
    (h : CommitteeStep s s' new) : Closed s' := by
  obtain ⟨hcross, hall⟩ := hclosed
  have hsent := noneSent_iff.mp hcross.1
  have hcnt : s'.clientCnt = s.clientCnt := by rw [h.frame]
  have hclients : s'.clients = s.clients := by rw [h.frame]
  have hreceipts : s'.receiptMsgs = s.receiptMsgs ++ new := by rw [h.frame]
  refine ⟨⟨?_, ?_, ?_⟩, ?_⟩
  · rw [noneSent_iff]
    exact fun tx htx => hsent tx (h.sent tx htx)
  · rw [hreceipts]
    intro m hm r hr hstatus
    rcases List.mem_append.mp hm with hm | hm
    · exact hcross.2.1 m hm r hr hstatus
    · obtain ⟨-, tx, htx, -, heq⟩ := (h.answered m hm).2 r hr
      -- only a first half is answered with this status
      rw [heq] at hstatus
      apply hsent tx htx
      cases htype : tx.txType <;> rw [htype] at hstatus <;> cases hstatus
  · rw [hcnt, hclients]
    exact hcross.2.2
  · rw [hcnt, hclients]
    exact hall

theorem Closed.effect (hclosed : Closed s) (h : Effect s s') : Closed s' := by
  cases h with
  | client cid c msgs h => exact hclosed.client h
  | committee new h => exact hclosed.committee h
  | injectDone | report | clientStops | committeeStops | nothing => exact hclosed

/-! ## No faults -/

/-- The test of a client, when nothing of it is out. -/
theorem Inv.unfinished_eq_nil (hinv : Inv s) (hlt : cid < s.clientCnt)
    (hcan : (s.clients cid).canStopV1 = true) (hout : s.NothingOut cid) :
    s.unfinished cid = [] := by
  unfold Client.canStopV1 at hcan
  simp only [decide_eq_true_eq] at hcan
  obtain ⟨hall, hreply, hexp, -, hmap⟩ := hcan
  obtain ⟨hnone, hreceipts⟩ := hout
  rw [noneSent_iff] at hnone
  unfold State.unfinished
  rw [List.filter_eq_nil_iff]
  intro tx htx hnot
  simp only [decide_not, Bool.not_eq_eq_eq_not, Bool.not_true, decide_eq_false_iff_not] at hnot
  have hhas : Has (s.clients cid) tx.id := by
    refine ⟨tx, ?_, rfl⟩
    rw [← hall, List.take_length]
    exact htx
  rcases hinv.conserved cid hlt tx.id hhas with hunder | hwaits | hdone
  · rcases hunder with ⟨tx', hsent, hcid, -⟩ | ⟨m, hm, hto, r, hr, -⟩
    · exact hnone tx' hsent hcid
    · rw [hreceipts m hm hto] at hr
      cases hr
  · rcases hwaits with ⟨r, hr, -⟩ | hin | hin
    · rw [List.eq_nil_of_length_eq_zero hreply] at hr
      cases hr
    · rw [← Finmap.mem_keys, Finset.card_eq_zero.mp hmap] at hin
      simp at hin
    · rw [List.eq_nil_of_length_eq_zero hexp] at hin
      cases hin
  · exact hnot hdone

/-- A client sends nothing more to a committee that has stopped. -/
theorem ClientStep.sentLater_eq_nil {c : Client} {msgs : List (ℕ × List Transaction)}
    (hstep : ClientStep s s' cid c msgs) (hclosed : ∀ comID, s.stopped comID = true → Closed s) :
    s.sentLater msgs = [] := by
  unfold State.sentLater
  rw [List.flatMap_eq_nil_iff]
  intro m hm
  split
  · rename_i hstopped
    obtain ⟨hcross, hall⟩ := hclosed m.1 hstopped
    rw [(hstep.idle hcross (hall cid hstep.lt)).2 m hm]
    rfl
  · rfl

structure Good (s : State) : Prop where
  inv : Inv s
  reported : Reported s
  closed : ∀ comID, s.stopped comID = true → Closed s
  faults : s.faults = []

theorem Good.effect (hgood : Good s) (h : Effect s s') : Good s' := by
  have hinv := hgood.inv.effect h
  have hreported := hgood.reported.effect h
  have hclosed : ∀ comID, s.stopped comID = true → Closed s' :=
    fun comID hstopped => (hgood.closed comID hstopped).effect h
  cases h with
  | client cid c msgs h =>
      refine ⟨hinv, hreported, ?_, ?_⟩
      · have hstopped : s'.stopped = s.stopped := by rw [h.frame]
        rw [hstopped]
        exact hclosed
      · have hfaults : s'.faults = s.faults ++ s.sentLater msgs := by rw [h.frame]
        rw [hfaults, hgood.faults, h.sentLater_eq_nil hgood.closed]
        rfl
  | committee new h =>
      refine ⟨hinv, hreported, ?_, ?_⟩
      · have hstopped : s'.stopped = s.stopped := by rw [h.frame]
        rw [hstopped]
        exact hclosed
      · rw [h.frame]
        exact hgood.faults
  | injectDone | report => exact ⟨hinv, hreported, hclosed, hgood.faults⟩
  | clientStops cid hlt hcan hout =>
      refine ⟨hinv, hreported, hclosed, ?_⟩
      dsimp only
      rw [hgood.faults, hgood.inv.unfinished_eq_nil hlt hcan hout]
      rfl
  | committeeStops comID hcan hblock hcross =>
      unfold State.canStopV1 at hcan
      simp only [decide_eq_true_eq] at hcan
      obtain ⟨hzero, hempty⟩ := hcan
      have hpool : s.txPool comID 0 = s.pools comID := if_pos rfl
      rw [hpool] at hempty
      refine ⟨hinv, hreported, ?_, ?_⟩
      · intro comID' _
        -- everyone has reported, so everything is injected
        refine ⟨hcross, fun cid hlt => hgood.reported.done cid hlt ?_⟩
        exact (hgood.reported.mem (comID, 0) cid (hgood.reported.all hzero hlt)).2
      · have hdelivered : s.undelivered comID = [] := by
          unfold State.undelivered
          rw [TxPool.txs_of_empty hempty, hblock]
          rfl
        have hnone : s.unreported comID 0 = [] := by
          unfold State.unreported
          rw [List.filter_eq_nil_iff]
          intro cid hcid
          simp [hgood.reported.all hzero (List.mem_range.mp hcid)]
        dsimp only
        rw [hgood.faults, hdelivered, hnone]
        rfl
  | nothing => exact hgood

theorem sound_initial {shardNum : ℕ} {rollbackHeight : ℤ} {txs : List Transaction}
    (hnodup : (txs.map Transaction.id).Nodup) :
    Sound cid shardNum ((newClient cid rollbackHeight shardNum).addtxs txs) := by
  constructor
  · rfl
  · rfl
  · unfold Client.addtxs newClient
    dsimp only
    rw [List.nil_append, List.map_map]
    exact hnodup
  · exact Nat.zero_le _
  · intro tx htx
    cases htx
  · rintro i (⟨r, hr, -⟩ | hin | hin)
    · cases hr
    · exact absurd hin Finmap.notMem_empty
    · cases hin
  · intro r hr
    cases hr
  · intro e he
    cases he

theorem good_of_init (hinit : Init s) : Good s := by
  obtain ⟨rollbackHeight, shardNum, clientCnt, genesisRoot, txs, hnodup, hbound, rfl⟩ := hinit
  constructor
  · constructor
    · intro cid _
      exact sound_initial (hnodup.sublist (List.filter_sublist.map _))
    · intro m hm
      cases hm
    · rintro tx (⟨m, hm, -⟩ | ⟨sid, -, hpool | hblock⟩)
      · cases hm
      · cases hpool
      · cases hblock
    · intro m hm
      cases hm
    · rintro cid - i ⟨tx, htx, -⟩
      cases htx
  · constructor
    · exact hbound
    · intro cid _ hsent
      cases hsent
    · exact fun _ => List.nodup_nil
    · intro comID cid hmem
      cases hmem
    · intro comID
      unfold initial
      simp
  · intro comID hstopped
    cases hstopped
  · rfl

/-- In a settled run a client that can stop has a final status for each of its transactions, and
a committee that can stop has delivered all it has, has heard from every client, and is sent no
second half or rollback from then on. -/
theorem no_faults_of_settled (cfg : Config) (s : State)
    (hreach : (machine cfg).ReachableBy settled s) : s.faults = [] := by
  have hgood : Good s := by
    refine Sys.Machine.invariant_by Good ?_ ?_ hreach
    · exact fun s hinit => good_of_init hinit
    · intro s e s' hok hstep hgood
      exact hgood.effect (effect_of_step hgood.inv hok hstep)
  exact hgood.faults

open CrossShard (exampleConfig exampleStates exampleTx exampleTB)

/-- A transfer between shards is carried out, and then the client and both committees can stop. -/
theorem no_faults_of_settled_transfer :
    ∃ s, (machine exampleConfig).ReachableBy settled s ∧ s.stopped 0 = true ∧ s.stopped 1 = true ∧
      (s.clients 0).canStopV1 = true ∧ s.faults = [] := by
  obtain ⟨s, hs, hstopped₀, hstopped₁, hcan⟩ : ∃ s, (machine exampleConfig).ReachableBy settled s ∧
      s.stopped 0 = true ∧ s.stopped 1 = true ∧ (s.clients 0).canStopV1 = true :=
    Sys.Machine.exists_reachableBy _ (init_exampleStart 1 [exampleTx] (by decide) (by decide))
      [.sendPendingTxs 0 10 0, .clientSendTx 0, .pending 0, .deliver 0 exampleStates 0,
        .addTXReceipts 0, .addTBs 0 ⟨0, 1, [[exampleTB 0 1]]⟩ [0], .sendCross2Txs 0 10,
        .clientSendTx 2, .pending 1, .deliver 1 exampleStates 0, .addTXReceipts 0,
        .addTBs 0 ⟨0, 2, [[], [exampleTB 1 1]]⟩ [], .clientCanStop 0, .setInjectDone2Nodes 0,
        .setInjectTXDone 0 0 0, .setInjectTXDone 1 0 0, .committeeCanStop 0 0,
        .committeeCanStop 1 0]
      (by decide +kernel)
  exact ⟨s, hs, hstopped₀, hstopped₁, hcan, no_faults_of_settled exampleConfig s hs⟩

end Stop

end LessChain
