import LessChain.System.Stop

/-!
# What a client holds

A client holds an injected transaction while it has a receipt of it, has it in
`cross1_confirm_height_map`, or has it in `cross_tx_expired`. The senders and `AddTBs` let go of a
transaction only in two ways: it is in a message to a committee, or its final status is recorded.
-/

namespace LessChain

namespace Stop

open CrossShard (Config)

/-! ## What a client holds -/

/-- The client has injected a transaction with this ID. -/
def Has (c : Client) (i : ℕ) : Prop := ∃ tx ∈ c.txs.take c.injectCnt, tx.id = i

/-- The client has something to do for this transaction. -/
def Waits (c : Client) (i : ℕ) : Prop :=
  (∃ r ∈ c.txReply, r.txID = i) ∨ i ∈ c.cross1ConfirmHeightMap ∨ i ∈ c.crossTxExpired

/-- The receipts committees send. -/
def Proper (r : TXReceipt) : Prop :=
  r.txStatus = .crossTXType1Success ∨ final r.txStatus = true

/-- A client with number `cid`, whose queues hold only what it has injected. -/
structure Sound (cid shardNum : ℕ) (c : Client) : Prop where
  number : c.cid = cid
  shards : c.shardNum = shardNum
  nodup : (c.txs.map Transaction.id).Nodup
  injected : c.injectCnt ≤ c.txs.length
  stamped : ∀ tx ∈ c.txs.take c.injectCnt, tx.cid = cid
  waits : ∀ i, Waits c i → Has c i
  proper : ∀ r ∈ c.txReply, Proper r
  cross2 : ∀ e ∈ c.cross2Txs, e.cid = cid ∧ Has c e.id

theorem proper_of_successStatus {r : TXReceipt} {tx : Transaction} (hknown : tx.Known)
    (hstatus : r.txStatus = tx.txType.successStatus) : Proper r := by
  unfold Proper final
  rw [hstatus]
  cases htype : tx.txType with
  | undefinedTXType => exact absurd htype hknown
  | _ => simp [TXType.successStatus]

section Client

variable {cid shardNum : ℕ} {c c' : Client}

/-- What `txs_map` has for an injected transaction was stamped by the client. -/
theorem Sound.cid_of_txsMap (h : Sound cid shardNum c) {i : ℕ} {tx : Transaction}
    (hhas : Has c i) (htx : c.txsMap i = some tx) : tx.cid = cid := by
  obtain ⟨tx', hmem', hid'⟩ := hhas
  have hmem : tx ∈ c.txs := by
    have := List.mem_of_find?_eq_some htx
    exact List.mem_reverse.mp this
  have hid := Client.id_of_txsMap htx
  have heq : tx = tx' :=
    List.inj_on_of_nodup_map h.nodup hmem (List.mem_of_mem_take hmem') (hid.trans hid'.symm)
  rw [heq]
  exact h.stamped tx' hmem'

/-- A client whose list of transactions is the same. -/
theorem Has.congr {i : ℕ} (h : Has c i) (htxs : c'.txs = c.txs)
    (hcnt : c'.injectCnt = c.injectCnt) : Has c' i := by
  unfold Has
  rw [htxs, hcnt]
  exact h

/-- Only the queues have changed, and hold nothing that was not injected. -/
theorem Sound.queues (h : Sound cid shardNum c) (hcid : c'.cid = c.cid)
    (hnum : c'.shardNum = c.shardNum) (htxs : c'.txs = c.txs) (hcnt : c'.injectCnt = c.injectCnt)
    (hwaits : ∀ i, Waits c' i → Has c i) (hreply : ∀ r ∈ c'.txReply, Proper r)
    (hcross2 : ∀ e ∈ c'.cross2Txs, e.cid = cid ∧ Has c e.id) : Sound cid shardNum c' := by
  constructor
  · exact hcid.trans h.number
  · exact hnum.trans h.shards
  · rw [htxs]
    exact h.nodup
  · rw [htxs, hcnt]
    exact h.injected
  · rw [htxs, hcnt]
    exact h.stamped
  · intro i hi
    exact (hwaits i hi).congr htxs hcnt
  · exact hreply
  · intro e he
    obtain ⟨hecid, hhas⟩ := hcross2 e he
    exact ⟨hecid, hhas.congr htxs hcnt⟩

/-- `AddTXReceipts`, when a committee has answered what the client has injected. -/
theorem sound_addTXReceipts (h : Sound cid shardNum c) {receipts : List TXReceipt}
    (hown : ∀ r ∈ receipts, Has c r.txID ∧ Proper r) :
    Sound cid shardNum (c.addTXReceipts receipts) := by
  refine h.queues rfl rfl rfl rfl ?_ ?_ h.cross2
  · rintro i (⟨r, hr, rfl⟩ | hin)
    · rcases List.mem_append.mp hr with hr | hr
      · exact h.waits _ (.inl ⟨r, hr, rfl⟩)
      · exact (hown r hr).1
    · exact h.waits i (.inr hin)
  · intro r hr
    rcases List.mem_append.mp hr with hr | hr
    · exact h.proper r hr
    · exact (hown r hr).2

/-! ## The senders -/

/-- The messages carry something of transaction `i` that can finish it. -/
def Carries (msgs : List (ℕ × List Transaction)) (i : ℕ) : Prop :=
  ∃ m ∈ msgs, ∃ tx ∈ m.2, tx.id = i ∧ tx.txType ≠ .crossTXType2

/-- A sender has made `c'` of `c` and has sent `msgs`. -/
structure Sends (cid shardNum : ℕ) (c c' : Client) (msgs : List (ℕ × List Transaction)) : Prop where
  sound : Sound cid shardNum c'
  addressed : ∀ m ∈ msgs, m.1 < shardNum
  own : ∀ m ∈ msgs, ∀ tx ∈ m.2, tx.cid = cid ∧ Has c' tx.id
  has : ∀ i, Has c i → Has c' i
  kept : ∀ i, Has c' i → Carries msgs i ∨ Has c i ∧ (Waits c i → Waits c' i)
  injected : c.injectCnt = c.txs.length → c'.injectCnt = c'.txs.length
  idle : Idle c → c.injectCnt = c.txs.length → Idle c' ∧ ∀ m ∈ msgs, m.2 = []

variable {msgs : List (ℕ × List Transaction)} {order : List ℕ}

/-- Every transaction is in the message to its shard. -/
theorem exists_mem_shardtxs {sid : Transaction → ℕ} {txs : List Transaction}
    (h : Client.shardtxs shardNum sid txs = some msgs)
    {tx : Transaction} (htx : tx ∈ txs) : ∃ m ∈ msgs, tx ∈ m.2 := by
  unfold Client.shardtxs at h
  split at h
  · rename_i hlt
    cases h
    refine ⟨(sid tx, txs.filter fun t => sid t = sid tx), ?_, ?_⟩
    · exact List.mem_map.mpr ⟨sid tx, List.mem_range.mpr (hlt tx htx), rfl⟩
    · exact List.mem_filter.mpr ⟨htx, by simp⟩
  · cases h

theorem sends_nothing (h : Sound cid shardNum c) : Sends cid shardNum c c [] where
  sound := h
  addressed := by simp
  own := by simp
  has := fun _ hi => hi
  kept := fun _ hi => .inr ⟨hi, id⟩
  injected := id
  idle := fun hidle _ => ⟨hidle, by simp⟩

/-- `sendCross2Txs`: the map still has what is sent. -/
theorem sends_cross2Txs (h : Sound cid shardNum c) {n : ℕ}
    (hsend : c.sendCross2Txs n = some (c', msgs)) : Sends cid shardNum c c' msgs := by
  obtain ⟨hframe, hsub, hmsgs⟩ := Client.sendCross2Txs_spec hsend
  have htxs : c'.txs = c.txs := by rw [hframe]
  have hcnt : c'.injectCnt = c.injectCnt := by rw [hframe]
  have hwaits : ∀ i, Waits c' i ↔ Waits c i := by
    intro i
    rw [hframe]
    rfl
  constructor
  · refine h.queues ?_ ?_ htxs hcnt (fun i hi => h.waits i ((hwaits i).mp hi)) ?_
      (fun e he => h.cross2 e (hsub e he))
    · rw [hframe]
    · rw [hframe]
    · rw [hframe]
      exact h.proper
  · intro m hm
    rw [← h.shards]
    exact (hmsgs m hm).1
  · intro m hm tx htx
    obtain ⟨hcid, hhas⟩ := h.cross2 tx ((hmsgs m hm).2 tx htx).1
    exact ⟨hcid, hhas.congr htxs hcnt⟩
  · exact fun i hi => hi.congr htxs hcnt
  · intro i hi
    exact .inr ⟨hi.congr htxs.symm hcnt.symm, (hwaits i).mpr⟩
  · rw [htxs, hcnt]
    exact id
  · -- an idle client has no second halves to send
    intro hidle _
    have hnone : c.sendCross2Txs n = some (c, []) := by
      unfold Client.sendCross2Txs
      simp [hidle.1]
    rw [hnone, Option.some.injEq, Prod.mk.injEq] at hsend
    obtain ⟨rfl, rfl⟩ := hsend
    exact ⟨hidle, by simp⟩

/-- `sendRollbackTxs`: what leaves the queue is in a message. -/
theorem sends_rollbackTxs (h : Sound cid shardNum c) {n : ℕ}
    (hsend : c.sendRollbackTxs n = some (c', msgs)) : Sends cid shardNum c c' msgs := by
  unfold Client.sendRollbackTxs at hsend
  dsimp only at hsend
  split at hsend
  · cases hsend
    exact sends_nothing h
  · rename_i hsome
    simp only [Option.bind_eq_bind, Option.bind_eq_some_iff, Option.some.injEq,
      Prod.mk.injEq] at hsend
    obtain ⟨txs, htxs, ms, hms, rfl, rfl⟩ := hsend
    generalize min n c.crossTxExpired.length = k at htxs
    have hwaits : ∀ i, Waits { c with crossTxExpired := c.crossTxExpired.drop k } i →
        Waits c i := by
      rintro i (hreply | hmap | hexp)
      · exact .inl hreply
      · exact .inr (.inl hmap)
      · exact .inr (.inr (List.mem_of_mem_drop hexp))
    constructor
    · exact h.queues rfl rfl rfl rfl (fun i hi => h.waits i (hwaits i hi)) h.proper h.cross2
    · intro m hm
      rw [← h.shards]
      exact ((Client.shardtxs_spec hms).1 m hm).1
    · intro m hm tx htx
      -- a rollback is a copy of the transaction that was injected
      obtain ⟨tx₀, htx₀, rfl⟩ := List.mem_map.mp (((Client.shardtxs_spec hms).1 m hm).2 tx htx).1
      obtain ⟨i, hi, hlook⟩ := Sys.exists_of_mem_mapM htxs tx₀ htx₀
      have hhas : Has c i := h.waits i (.inr (.inr (List.mem_of_mem_take hi)))
      refine ⟨(h.cid_of_txsMap hhas hlook : tx₀.cid = cid), ?_⟩
      have hid : tx₀.id = i := Client.id_of_txsMap hlook
      rw [← hid] at hhas
      exact hhas
    · exact fun _ hi => hi
    · intro i hi
      by_cases hout : i ∈ c.crossTxExpired.take k
      · left
        obtain ⟨tx₀, htx₀, hlook⟩ := Sys.exists_mem_of_mapM htxs i hout
        obtain ⟨m, hm, htx⟩ := exists_mem_shardtxs hms (List.mem_map_of_mem htx₀)
        refine ⟨m, hm, _, htx, (Client.id_of_txsMap hlook : tx₀.id = i), ?_⟩
        simp
      · refine .inr ⟨hi, ?_⟩
        rintro (hreply | hmap | hexp)
        · exact .inl hreply
        · exact .inr (.inl hmap)
        · rw [← List.take_append_drop k c.crossTxExpired, List.mem_append] at hexp
          exact .inr (.inr (hexp.resolve_left hout))
    · exact id
    · intro hidle _
      rw [hidle.2.1] at hsome
      exact absurd (Nat.min_zero n) hsome

/-- `sendPendingTxs` has stamped the transactions `mid` and has sent them in `msgs`. -/
structure Injects (c c' : Client) (now : ℕ) (mid : List Transaction)
    (msgs : List (ℕ × List Transaction)) : Prop where
  taken : c'.txs.take c'.injectCnt = c.txs.take c.injectCnt ++ mid.map (c.stamp now)
  ids : c'.txs.map Transaction.id = c.txs.map Transaction.id
  bound : c'.injectCnt ≤ c'.txs.length
  frame : c' = { c with txs := c'.txs, injectCnt := c'.injectCnt }
  sent : ∀ m ∈ msgs, m.1 < c.shardNum ∧ ∀ tx ∈ m.2, tx ∈ mid.map (c.stamp now)
  all : ∀ tx ∈ mid.map (c.stamp now), ∃ m ∈ msgs, tx ∈ m.2

theorem injects_sendPendingTxs {n now : ℕ}
    (hcnt : c.injectCnt ≤ c.txs.length) (hsend : c.sendPendingTxs n now = some (c', msgs)) :
    ∃ mid, Injects c c' now mid msgs := by
  unfold Client.sendPendingTxs at hsend
  split at hsend
  · cases hsend
    exact ⟨[], by simp, rfl, hcnt, rfl, by simp, by simp⟩
  · simp only [Option.bind_eq_bind, Option.bind_eq_some_iff, Option.some.injEq,
      Prod.mk.injEq] at hsend
    obtain ⟨ms, hms, rfl, rfl⟩ := hsend
    generalize hu : min (c.injectCnt + n) c.txs.length = upperBound at hms ⊢
    have hle : c.injectCnt ≤ upperBound ∧ upperBound ≤ c.txs.length := by omega
    generalize hmid : (c.txs.take upperBound).drop c.injectCnt = mid at hms ⊢
    -- the queue in three parts: sent before, sent now, sent later
    have htake : c.txs.take c.injectCnt ++ mid = c.txs.take upperBound := by
      rw [← List.take_append_drop c.injectCnt (c.txs.take upperBound), hmid, List.take_take,
        Nat.min_eq_left hle.1]
    have hlen : (c.txs.take c.injectCnt ++ mid.map (c.stamp now)).length = upperBound := by
      have hboth := congrArg List.length htake
      simp only [List.length_append, List.length_take, List.length_map] at hboth ⊢
      omega
    refine ⟨mid, ?_, ?_, ?_, rfl, ?_, ?_⟩
    · exact List.take_left' hlen
    · have hstamp : (mid.map (c.stamp now)).map Transaction.id = mid.map Transaction.id := by
        rw [List.map_map]
        rfl
      dsimp only
      rw [List.map_append, List.map_append, hstamp, ← List.map_append, htake, ← List.map_append,
        List.take_append_drop]
    · dsimp only
      rw [List.length_append, hlen]
      omega
    · intro m hm
      obtain ⟨hlt, hmem⟩ := (Client.shardtxs_spec hms).1 m hm
      exact ⟨hlt, fun tx htx => (hmem tx htx).1⟩
    · exact fun tx htx => exists_mem_shardtxs hms htx

section Injects

variable {now : ℕ} {mid : List Transaction} {msgs : List (ℕ × List Transaction)}

theorem Injects.has_iff (hi : Injects c c' now mid msgs) (i : ℕ) :
    Has c' i ↔ Has c i ∨ ∃ tx ∈ mid.map (c.stamp now), tx.id = i := by
  unfold Has
  rw [hi.taken]
  simp only [List.mem_append, or_and_right, exists_or]

theorem Injects.waits_iff (hi : Injects c c' now mid msgs) (i : ℕ) : Waits c' i ↔ Waits c i := by
  rw [hi.frame]
  rfl

/-- There is room for `mid` among the transactions that were not injected. -/
theorem Injects.length (hi : Injects c c' now mid msgs) :
    c'.txs.length = c.txs.length ∧
      c'.injectCnt = min c.injectCnt c.txs.length + mid.length := by
  have hids := congrArg List.length hi.ids
  have htaken := congrArg List.length hi.taken
  have hbound := hi.bound
  simp only [List.length_append, List.length_take, List.length_map] at hids htaken
  omega

theorem Sound.cid_of_stamp (h : Sound cid shardNum c) {tx : Transaction}
    (htx : tx ∈ mid.map (c.stamp now)) : tx.cid = cid := by
  obtain ⟨tx₀, -, rfl⟩ := List.mem_map.mp htx
  exact h.number

theorem Injects.sound (hi : Injects c c' now mid msgs) (h : Sound cid shardNum c) :
    Sound cid shardNum c' := by
  constructor
  · rw [hi.frame]
    exact h.number
  · rw [hi.frame]
    exact h.shards
  · rw [hi.ids]
    exact h.nodup
  · exact hi.bound
  · rw [hi.taken]
    intro tx htx
    rcases List.mem_append.mp htx with hold | hnew
    · exact h.stamped tx hold
    · exact h.cid_of_stamp hnew
  · intro i hwaits
    exact (hi.has_iff i).mpr (.inl (h.waits i ((hi.waits_iff i).mp hwaits)))
  · rw [hi.frame]
    exact h.proper
  · have hcross2 : c'.cross2Txs = c.cross2Txs := by rw [hi.frame]
    rw [hcross2]
    intro e he
    obtain ⟨hecid, hold⟩ := h.cross2 e he
    exact ⟨hecid, (hi.has_iff e.id).mpr (.inl hold)⟩

end Injects

theorem sends_pendingTxs (h : Sound cid shardNum c) {n now : ℕ}
    (hsend : c.sendPendingTxs n now = some (c', msgs)) :
    Sends cid shardNum c c' msgs := by
  obtain ⟨mid, hi⟩ := injects_sendPendingTxs h.injected hsend
  obtain ⟨hlen, hcnt⟩ := hi.length
  constructor
  · exact hi.sound h
  · intro m hm
    rw [← h.shards]
    exact (hi.sent m hm).1
  · intro m hm tx htx
    have hnew := (hi.sent m hm).2 tx htx
    exact ⟨h.cid_of_stamp hnew, (hi.has_iff tx.id).mpr (.inr ⟨tx, hnew, rfl⟩)⟩
  · exact fun i hhas => (hi.has_iff i).mpr (.inl hhas)
  · intro i hhas
    rcases (hi.has_iff i).mp hhas with hold | ⟨tx, htx, hid⟩
    · exact .inr ⟨hold, (hi.waits_iff i).mpr⟩
    · -- injected now: it is in one of the messages
      left
      obtain ⟨m, hm, hin⟩ := hi.all tx htx
      refine ⟨m, hm, tx, hin, hid, ?_⟩
      obtain ⟨tx₀, -, rfl⟩ := List.mem_map.mp htx
      unfold Client.stamp
      dsimp only
      split <;> simp
  · have hbound := hi.bound
    omega
  · -- all were injected, so nothing is left to send
    intro hidle hall
    have hbound := hi.bound
    have hmid : mid = [] := List.eq_nil_of_length_eq_zero (by omega)
    constructor
    · rw [hi.frame]
      exact hidle
    · intro m hm
      rw [List.eq_nil_iff_forall_not_mem]
      intro tx htx
      have hnew := (hi.sent m hm).2 tx htx
      rw [hmid] at hnew
      cases hnew

/-! ## `AddTBs` -/

/-- A final status of the transaction is in the table. -/
def Records (table : Finmap fun _ : ℕ => TXReceipt) (i : ℕ) : Prop :=
  ∃ r, table.lookup i = some r ∧ final r.txStatus = true

/-- Where the loop of `processTXReceipts` has transaction `i`. -/
def Held (rest : List TXReceipt) (st : Client.ReceiptLoop) (i : ℕ) : Prop :=
  (∃ r ∈ rest, r.txID = i) ∨ (∃ r ∈ st.kept, r.txID = i) ∨
    i ∈ st.client.cross1ConfirmHeightMap ∨ Records st.toRecord i

theorem receiptRound_held {r : TXReceipt} {rest : List TXReceipt} {st st' : Client.ReceiptLoop}
    (hproper : Proper r) (hstep : Client.receiptRound st r = some st') {i : ℕ}
    (h : Held (r :: rest) st i) : Held rest st' i := by
  unfold Client.receiptRound at hstep
  split at hstep
  · cases hstep
    rcases h with ⟨r', hr', hid⟩ | ⟨r', hr', hid⟩ | hmap | hrec
    · rcases List.mem_cons.mp hr' with rfl | hr'
      · exact .inr (.inl ⟨r', by simp, hid⟩)
      · exact .inl ⟨r', hr', hid⟩
    · exact .inr (.inl ⟨r', List.mem_append_left _ hr', hid⟩)
    · exact .inr (.inr (.inl hmap))
    · exact .inr (.inr (.inr hrec))
  · rename_i tb hsome
    simp only [Option.bind_eq_bind, Option.bind_eq_some_iff, Option.some.injEq] at hstep
    obtain ⟨c₁, hc₁, rfl⟩ := hstep
    by_cases hi : i = r.txID
    · -- the receipt is recorded; only that of a first half puts something into the map
      subst hi
      rcases Client.processConfirmed_cases hc₁ with ⟨-, tx, -, rfl⟩ | ⟨hstatus, -, rfl⟩ |
        ⟨hnot1, -, rfl⟩
      · exact .inr (.inr (.inl (Finmap.mem_insert.mpr (.inl rfl))))
      · refine .inr (.inr (.inr ⟨_, Finmap.lookup_insert _, ?_⟩))
        simp [final, hstatus]
      · exact .inr (.inr (.inr ⟨_, Finmap.lookup_insert _, hproper.resolve_left hnot1⟩))
    · rcases h with ⟨r', hr', hid⟩ | hkept | hmap | ⟨r', hlook, hfinal⟩
      · rcases List.mem_cons.mp hr' with rfl | hr'
        · exact absurd hid.symm hi
        · exact .inl ⟨r', hr', hid⟩
      · exact .inr (.inl hkept)
      · refine .inr (.inr (.inl ?_))
        rcases Client.processConfirmed_cases hc₁ with ⟨-, tx, -, rfl⟩ | ⟨-, -, rfl⟩ | ⟨-, -, rfl⟩
        · exact Finmap.mem_insert.mpr (.inr hmap)
        · exact Finmap.mem_erase.mpr ⟨hi, hmap⟩
        · exact hmap
      · refine .inr (.inr (.inr ⟨r', ?_, hfinal⟩))
        rw [Finmap.lookup_insert_of_ne _ hi]
        exact hlook

/-- The loop of `processTXReceipts` loses nobody: a transaction with a receipt or in the map keeps
one of them, or a final status is recorded. -/
theorem processTXReceipts_waits {toRecord : Finmap fun _ : ℕ => TXReceipt}
    (hproper : ∀ r ∈ c.txReply, Proper r) (h : c.processTXReceipts = some (c', toRecord)) {i : ℕ}
    (hi : (∃ r ∈ c.txReply, r.txID = i) ∨ i ∈ c.cross1ConfirmHeightMap) :
    (∃ r ∈ c'.txReply, r.txID = i) ∨ i ∈ c'.cross1ConfirmHeightMap ∨ Records toRecord i := by
  unfold Client.processTXReceipts at h
  simp only [Option.bind_eq_bind, Option.bind_eq_some_iff, Option.some.injEq,
    Prod.mk.injEq] at h
  obtain ⟨st, hloop, rfl, rfl⟩ := h
  have hend := Sys.foldlM_induction
    (fun rest st => (∀ r ∈ rest, Proper r) ∧ Held rest st i)
    (by
      rintro r rest st st' ⟨hprop, hwhere⟩ hstep
      exact ⟨fun r' hr' => hprop r' (List.mem_cons_of_mem _ hr'),
        receiptRound_held (hprop r List.mem_cons_self) hstep hwhere⟩)
    c.txReply ⟨c, [], ∅⟩ st ⟨hproper, ?_⟩ hloop
  · obtain ⟨-, hrest | hwhere⟩ := hend
    · simp at hrest
    · exact hwhere
  · rcases hi with hreply | hmap
    · exact .inl hreply
    · exact .inr (.inr (.inl hmap))

/-- `c'` is `c` after receipts were processed and `table` was recorded. -/
structure Settles (cid shardNum : ℕ) (c c' : Client) (table : Finmap fun _ : ℕ => TXReceipt) :
    Prop where
  sound : Sound cid shardNum c'
  txs : c'.txs = c.txs
  injectCnt : c'.injectCnt = c.injectCnt
  kept : ∀ i, Waits c i → Waits c' i ∨ Records table i

theorem settles_processTXReceipts (h : Sound cid shardNum c)
    {toRecord : Finmap fun _ : ℕ => TXReceipt} (hp : c.processTXReceipts = some (c', toRecord)) :
    Settles cid shardNum c c' toRecord := by
  -- entries of the map and cross2 transactions come from the map and the receipts before
  obtain ⟨new, hframe, horigin, hmap, hnew⟩ := Client.processTXReceipts_induction
    (fun _ _ new map => (∀ i ∈ map, Waits c i) ∧ ∀ e ∈ new, Waits c e.id)
    ⟨fun i hi => .inr (.inl hi), by simp⟩
    (fun _ _ _ _ _ _ hP => hP)
    (by
      rintro visited r rest new map tx hsplit - - htx ⟨hmap, hnew⟩
      have hr : Waits c r.txID := .inl ⟨r, by rw [hsplit]; simp, rfl⟩
      constructor
      · intro i hi
        rcases Finmap.mem_insert.mp hi with rfl | hi
        · exact hr
        · exact hmap i hi
      · intro e he
        rcases List.mem_append.mp he with he | he
        · exact hnew e he
        · rw [List.mem_singleton.mp he]
          have hid : tx.id = r.txID := Client.id_of_txsMap htx
          rw [← hid] at hr
          exact hr)
    (by
      rintro visited r rest new map - - - ⟨hmap, hnew⟩
      exact ⟨fun i hi => hmap i (Finmap.mem_erase.mp hi).2, hnew⟩)
    (fun _ _ _ _ _ _ _ _ hP => hP) hp
  have hreply : ∀ r ∈ c'.txReply, r ∈ c.txReply := by
    rw [hframe]
    exact fun r hr => List.mem_of_mem_filter hr
  have hexp : c'.crossTxExpired = c.crossTxExpired := by rw [hframe]
  have htxs : c'.txs = c.txs := by rw [hframe]
  have hcnt : c'.injectCnt = c.injectCnt := by rw [hframe]
  refine ⟨h.queues (by rw [hframe]) (by rw [hframe]) htxs hcnt ?_ ?_ ?_, htxs, hcnt, ?_⟩
  · rintro i (⟨r, hr, hid⟩ | hin | hin)
    · exact h.waits i (.inl ⟨r, hreply r hr, hid⟩)
    · exact h.waits i (hmap i hin)
    · rw [hexp] at hin
      exact h.waits i (.inr (.inr hin))
  · exact fun r hr => h.proper r (hreply r hr)
  · rw [hframe]
    intro e he
    rcases List.mem_append.mp he with hold | he
    · exact h.cross2 e hold
    · obtain ⟨tx, htx, heq⟩ := horigin e he
      have hhas := h.waits _ (hnew e he)
      refine ⟨?_, hhas⟩
      have hcid : tx.cid = cid := h.cid_of_txsMap hhas htx
      rw [heq]
      exact hcid
  · rintro i (hr | hin | hin)
    · rcases processTXReceipts_waits h.proper hp (.inl hr) with hr | hin | hrec
      · exact .inl (.inl hr)
      · exact .inl (.inr (.inl hin))
      · exact .inr hrec
    · rcases processTXReceipts_waits h.proper hp (.inr hin) with hr | hin | hrec
      · exact .inl (.inl hr)
      · exact .inl (.inr (.inl hin))
      · exact .inr hrec
    · rw [← hexp] at hin
      exact .inl (.inr (.inr hin))

/-- `checkExpiredTXs` moves transactions from the map to `cross_tx_expired`. -/
theorem waits_checkExpiredTXs (hc : c.checkExpiredTXs order = some c') (i : ℕ) :
    Waits c' i ↔ Waits c i := by
  obtain ⟨expired, hframe, -, -, hmoved⟩ := Client.checkExpiredTXs_induction
    (fun map expired => ∀ i, i ∈ map ∨ i ∈ expired ↔ i ∈ c.cross1ConfirmHeightMap)
    (by simp)
    (by
      intro map expired j hj hP i
      rw [← hP i, Finmap.mem_erase, List.mem_append, List.mem_singleton]
      by_cases hij : i = j
      · subst hij
        simp [hj]
      · simp [hij])
    hc
  have hreply : c'.txReply = c.txReply := by rw [hframe]
  have hexp : c'.crossTxExpired = c.crossTxExpired ++ expired := by rw [hframe]
  unfold Waits
  rw [hreply, hexp, List.mem_append, ← hmoved i, or_assoc, or_comm (a := i ∈ expired)]

theorem settles_addTBs (h : Sound cid shardNum c) {b : TBBlock}
    {toRecord : Finmap fun _ : ℕ => TXReceipt} (hadd : c.addTBs b order = some (c', toRecord)) :
    Settles cid shardNum c c' toRecord := by
  simp only [Client.addTBs, Option.bind_eq_bind, Option.bind_eq_some_iff, Prod.exists] at hadd
  obtain ⟨c₁, hrecord, c₂, table, hprocess, hcheck⟩ := hadd
  split at hcheck
  · simp only [Option.bind_eq_some_iff, Option.some.injEq, Prod.mk.injEq] at hcheck
    obtain ⟨c₃, hexpire, rfl, rfl⟩ := hcheck
    have hsame := (Client.recordTBs_spec hrecord).1
    unfold Client.SameButView at hsame
    have hwaits₁ : ∀ i, Waits c₁ i ↔ Waits c i := by
      intro i
      rw [hsame]
      rfl
    have hsound₁ : Sound cid shardNum c₁ := by
      refine h.queues ?_ ?_ ?_ ?_ (fun i hi => h.waits i ((hwaits₁ i).mp hi)) ?_ ?_
      all_goals rw [hsame]
      · exact h.proper
      · exact h.cross2
    -- the view of the beacons is new; the receipts are settled; then the expired are collected
    have h₂ := settles_processTXReceipts hsound₁ hprocess
    obtain ⟨expired, hframe, -, -⟩ := Client.checkExpiredTXs_spec hexpire
    have htxs : c₃.txs = c₂.txs := by rw [hframe]
    have hcnt : c₃.injectCnt = c₂.injectCnt := by rw [hframe]
    constructor
    · refine h₂.sound.queues ?_ ?_ htxs hcnt ?_ ?_ ?_
      · rw [hframe]
      · rw [hframe]
      · exact fun i hi => h₂.sound.waits i ((waits_checkExpiredTXs hexpire i).mp hi)
      · rw [hframe]
        exact h₂.sound.proper
      · rw [hframe]
        exact h₂.sound.cross2
    · rw [htxs, h₂.txs, hsame]
    · rw [hcnt, h₂.injectCnt, hsame]
    · intro i hi
      rw [waits_checkExpiredTXs hexpire i]
      exact h₂.kept i ((hwaits₁ i).mpr hi)
  · cases hcheck

theorem countP_isCross1_eq_zero {l : List TXReceipt} :
    (∀ i, l.countP (TXReceipt.isCross1 i) = 0) ↔ ∀ r ∈ l, r.txStatus ≠ .crossTXType1Success := by
  simp only [List.countP_eq_zero, TXReceipt.isCross1, decide_eq_true_eq, not_and]
  constructor
  · exact fun h r hr hstatus => h r.txID r hr hstatus rfl
  · exact fun h i r hr hstatus => absurd hstatus (h r hr)

/-- A client that is idle makes no second half and gives nothing up. -/
theorem idle_addTBs (h : Idle c) {b : TBBlock}
    {toRecord : Finmap fun _ : ℕ => TXReceipt} (hadd : c.addTBs b order = some (c', toRecord)) :
    Idle c' := by
  obtain ⟨hcross2, hexpired, hkeys, hreply⟩ := h
  obtain ⟨new, expired, hframe, -, hcount, -, hmap, hexp⟩ := Client.addTBs_spec hadd
  have hzero := countP_isCross1_eq_zero.mpr hreply
  -- only a confirmed first half makes a second one
  have hnew : new = [] := by
    rw [List.eq_nil_iff_forall_not_mem]
    intro e he
    have hle := hcount e.id
    rw [hzero e.id] at hle
    have hpos : 0 < new.countP (·.id = e.id) := List.countP_pos_iff.mpr ⟨e, he, by simp⟩
    omega
  subst hnew
  have hnone : ∀ i ht, c.cross1ConfirmHeightMap.lookup i ≠ some ht := by
    intro i ht hlook
    have hin := Finmap.mem_keys.mpr (Finmap.mem_of_lookup_eq_some hlook)
    rw [hkeys] at hin
    simp at hin
  refine ⟨?_, ?_, ?_, ?_⟩
  · rw [hframe]
    simp [hcross2]
  · have hempty : expired = [] := by
      rw [List.eq_nil_iff_forall_not_mem]
      intro i hi
      obtain ⟨ht, tx, -, -, ⟨hlook, -⟩ | ⟨e, he, -⟩⟩ := hexp i hi
      · exact hnone i ht hlook
      · cases he
    rw [hframe]
    simp [hexpired, hempty]
  · rw [Finset.eq_empty_iff_forall_notMem]
    intro i hi
    obtain ⟨ht, hlook⟩ := Finmap.mem_iff.mp (Finmap.mem_keys.mp hi)
    rcases hmap i ht hlook with hold | ⟨e, he, -⟩
    · exact hnone i ht hold
    · cases he
  · rw [← countP_isCross1_eq_zero]
    intro i
    have hle := hcount i
    rw [hzero i] at hle
    omega

end Client

end Stop

end LessChain
