import LessChain.Core.Types
import LessChain.Lib.Fold

/-!
# Package `result`

A client keeps what became of its transactions in package `result`: when each was broadcast,
the statuses its receipts brought, when it was confirmed, and how much work the shards did.
`SetTXReceiptV2` records a table of receipts, `GetThroughtPutAndLatencyV2` reports the metrics
at the end of a run.

A table is a Go map; here it is the list of its entries, in the order in which the loop visits
them. `Records` says all that recording some entries does, and composes: a sequence of tables
records their concatenation.
-/

namespace LessChain

/-- `result.Result`. -/
structure Result where
  totalnum : ℕ
  allComplished : ℕ
  workLoad : ℕ
  broadcastMap : List ℕ
  confirmMap : List ℕ
  allTXStatus : List (List TxStatus)
  allRollBack : ℕ
  workload4shard : Finmap fun _ : ℕ => ℕ

/-- `NewResult`. -/
def newResult : Result where
  totalnum := 0
  allComplished := 0
  workLoad := 0
  broadcastMap := []
  confirmMap := []
  allTXStatus := []
  allRollBack := 0
  workload4shard := ∅

namespace Result

/-- `SetTotalTXNum`. -/
def setTotalTXNum (res : Result) (totalnum : ℕ) : Result :=
  { res with
    totalnum := totalnum
    workLoad := 0
    allComplished := 0
    broadcastMap := List.replicate totalnum 0
    confirmMap := List.replicate totalnum 0
    allTXStatus := List.replicate totalnum []
    workload4shard := ∅ }

/-- One round of `SetBroadcastMap`; an index out of range panics. -/
def broadcastRound (broadcastMap : List ℕ) (e : ℕ × ℕ) : Option (List ℕ) :=
  if e.1 < broadcastMap.length then some (broadcastMap.set e.1 e.2) else none

/-- `SetBroadcastMap`. -/
def setBroadcastMap (res : Result) (table : List (ℕ × ℕ)) : Option Result := do
  let broadcastMap ← table.foldlM broadcastRound res.broadcastMap
  some { res with broadcastMap := broadcastMap }

/-- `checkTXFinished`. -/
def checkTXFinished (status : TxStatus) : Bool :=
  status = .intraSuccess ∨ status = .crossTXType2Success

/-- `workload4shard[shardID] += 1`. -/
def addWorkload (workload4shard : Finmap fun _ : ℕ => ℕ) (shardID : ℕ) : Finmap fun _ : ℕ => ℕ :=
  workload4shard.insert shardID ((workload4shard.lookup shardID).getD 0 + 1)

/-- One round of the loop of `SetTXReceiptV2`, with the counter `complished`. A receipt without
a status is an error, and `log.Error` exits. -/
def recordRound (st : Result × ℕ) (e : ℕ × TXReceipt) : Option (Result × ℕ) :=
  let (res, complished) := st
  let (k, v) := e
  if v.txStatus = .defaultStatus then none
  else
    match res.allTXStatus[k]? with
    | none => none
    | some statuses =>
        let res := { res with
          allTXStatus := res.allTXStatus.set k (statuses ++ [v.txStatus])
          workload4shard := addWorkload res.workload4shard v.shardID
          allRollBack :=
            if v.txStatus = .rollbackSuccess then res.allRollBack + 1 else res.allRollBack }
        if checkTXFinished v.txStatus then
          if k < res.confirmMap.length then
            some ({ res with confirmMap := res.confirmMap.set k v.confirmTimeStamp },
              complished + 1)
          else none
        else some (res, complished)

/-- The last lines of `SetTXReceiptV2`, after a table of `len` entries. -/
def finishTable (st : Result × ℕ) (len : ℕ) : Result :=
  { st.1 with
    allComplished := st.1.allComplished + st.2
    workLoad := st.1.workLoad + len }

/-- `SetTXReceiptV2`. -/
def setTXReceiptV2 (res : Result) (table : List (ℕ × TXReceipt)) : Option Result := do
  let st ← table.foldlM recordRound (res, 0)
  some (finishTable st table.length)

/-! ## What recording does -/

/-- The statuses that the entries bring for transaction `i`, in their order. -/
def statusesOf (entries : List (ℕ × TXReceipt)) (i : ℕ) : List TxStatus :=
  (entries.filter fun e => e.1 = i).map fun e => e.2.txStatus

/-- The entry finishes its transaction. -/
def finishes (e : ℕ × TXReceipt) : Bool := checkTXFinished e.2.txStatus

/-- The confirm time of transaction `i` after the entries, `t` before them: the last entry that
finishes it counts. -/
def confirmTime (entries : List (ℕ × TXReceipt)) (i t : ℕ) : ℕ :=
  entries.foldl (fun t e => if e.1 = i ∧ finishes e then e.2.confirmTimeStamp else t) t

/-- Sum of `workload4shard`. -/
def totalWorkload (res : Result) : ℕ :=
  ∑ k ∈ res.workload4shard.keys, (res.workload4shard.lookup k).getD 0

/-- What recording some entries does. -/
structure Records (res : Result) (entries : List (ℕ × TXReceipt)) (res' : Result) : Prop where
  status : ∀ e ∈ entries, e.2.txStatus ≠ .defaultStatus
  bound : ∀ e ∈ entries, e.1 < res.allTXStatus.length
  allTXStatus : ∀ i, res'.allTXStatus[i]? =
    res.allTXStatus[i]?.map fun statuses => statuses ++ statusesOf entries i
  confirmMap : ∀ i, res'.confirmMap[i]? = res.confirmMap[i]?.map (confirmTime entries i)
  allComplished : res'.allComplished = res.allComplished + entries.countP finishes
  workLoad : res'.workLoad = res.workLoad + entries.length
  workload : res'.totalWorkload = res.totalWorkload + entries.length
  broadcastMap : res'.broadcastMap = res.broadcastMap
  totalnum : res'.totalnum = res.totalnum

section Records

variable {res res' res'' : Result} {entries entries' : List (ℕ × TXReceipt)}

theorem statusesOf_append (i : ℕ) :
    statusesOf (entries ++ entries') i = statusesOf entries i ++ statusesOf entries' i := by
  simp [statusesOf]

theorem confirmTime_append (i t : ℕ) :
    confirmTime (entries ++ entries') i t = confirmTime entries' i (confirmTime entries i t) :=
  List.foldl_append

theorem Records.refl (res : Result) : Records res [] res where
  status := by simp
  bound := by simp
  allTXStatus i := by simp [statusesOf]
  confirmMap i := by
    rw [show confirmTime [] i = id from rfl, Option.map_id, id]
  allComplished := rfl
  workLoad := rfl
  workload := rfl
  broadcastMap := rfl
  totalnum := rfl

theorem Records.length_allTXStatus (h : Records res entries res') :
    res'.allTXStatus.length = res.allTXStatus.length := by
  apply le_antisymm
  · have hend := h.allTXStatus res.allTXStatus.length
    simpa using hend
  · have hend := h.allTXStatus res'.allTXStatus.length
    simpa using hend.symm

theorem Records.length_confirmMap (h : Records res entries res') :
    res'.confirmMap.length = res.confirmMap.length := by
  apply le_antisymm
  · have hend := h.confirmMap res.confirmMap.length
    simpa using hend
  · have hend := h.confirmMap res'.confirmMap.length
    simpa using hend.symm

theorem Records.trans (h : Records res entries res') (h' : Records res' entries' res'') :
    Records res (entries ++ entries') res'' where
  status e he := by
    rcases List.mem_append.mp he with he | he
    · exact h.status e he
    · exact h'.status e he
  bound e he := by
    rcases List.mem_append.mp he with he | he
    · exact h.bound e he
    · exact h.length_allTXStatus ▸ h'.bound e he
  allTXStatus i := by
    rw [h'.allTXStatus, h.allTXStatus, Option.map_map]
    congr 1
    funext statuses
    simp [statusesOf_append]
  confirmMap i := by
    rw [h'.confirmMap, h.confirmMap, Option.map_map]
    congr 1
    funext t
    simp [confirmTime_append]
  allComplished := by
    rw [h'.allComplished, h.allComplished, List.countP_append]
    omega
  workLoad := by
    rw [h'.workLoad, h.workLoad, List.length_append]
    omega
  workload := by
    rw [h'.workload, h.workload, List.length_append]
    omega
  broadcastMap := h'.broadcastMap.trans h.broadcastMap
  totalnum := h'.totalnum.trans h.totalnum

theorem sum_addWorkload (w : Finmap fun _ : ℕ => ℕ) (shardID : ℕ) :
    ∑ k ∈ (addWorkload w shardID).keys, ((addWorkload w shardID).lookup k).getD 0 =
      ∑ k ∈ w.keys, (w.lookup k).getD 0 + 1 := by
  have hkeys : (addWorkload w shardID).keys = insert shardID w.keys := by
    ext k
    simp [addWorkload, Finmap.mem_keys, Finmap.mem_insert]
  have hsame : ∀ k, k ≠ shardID →
      ((addWorkload w shardID).lookup k).getD 0 = (w.lookup k).getD 0 := by
    intro k hk
    rw [addWorkload, Finmap.lookup_insert_of_ne w hk]
  have hnew : ((addWorkload w shardID).lookup shardID).getD 0 =
      (w.lookup shardID).getD 0 + 1 := by
    rw [addWorkload, Finmap.lookup_insert]
    rfl
  rw [hkeys]
  -- an entry of the shard is there and grows, or is new and was 0
  by_cases hmem : shardID ∈ w.keys
  · rw [Finset.insert_eq_of_mem hmem, ← Finset.add_sum_erase _ _ hmem,
      ← Finset.add_sum_erase w.keys _ hmem, hnew,
      Finset.sum_congr rfl fun k hk => hsame k (Finset.ne_of_mem_erase hk)]
    omega
  · have hnone : w.lookup shardID = none := by
      rwa [Finmap.mem_keys, ← Finmap.lookup_eq_none] at hmem
    rw [Finset.sum_insert hmem, hnew, hnone,
      Finset.sum_congr rfl fun k hk => hsame k fun heq => hmem (heq ▸ hk)]
    simp only [Option.getD_none]
    omega

theorem recordRound_cases {st st' : Result × ℕ} {k : ℕ} {v : TXReceipt}
    (h : recordRound st (k, v) = some st') :
    v.txStatus ≠ .defaultStatus ∧ ∃ statuses, st.1.allTXStatus[k]? = some statuses ∧
      st'.1.allTXStatus = st.1.allTXStatus.set k (statuses ++ [v.txStatus]) ∧
      st'.1.workload4shard = addWorkload st.1.workload4shard v.shardID ∧
      st'.1.confirmMap = (if checkTXFinished v.txStatus
        then st.1.confirmMap.set k v.confirmTimeStamp else st.1.confirmMap) ∧
      st'.2 = (if checkTXFinished v.txStatus then st.2 + 1 else st.2) ∧
      st'.1.totalnum = st.1.totalnum ∧ st'.1.allComplished = st.1.allComplished ∧
      st'.1.workLoad = st.1.workLoad ∧ st'.1.broadcastMap = st.1.broadcastMap := by
  unfold recordRound at h
  simp only at h
  split at h
  case isTrue => cases h
  case isFalse hstatus =>
    refine ⟨hstatus, ?_⟩
    cases hk : st.1.allTXStatus[k]? with
    | none =>
        rw [hk] at h
        cases h
    | some statuses =>
        simp only [hk] at h
        refine ⟨statuses, rfl, ?_⟩
        -- only a final status sets the confirm time
        by_cases hfin : checkTXFinished v.txStatus = true
        · simp only [hfin, if_true] at h ⊢
          split at h
          · cases h
            simp
          · cases h
        · simp only [hfin] at h ⊢
          cases h
          simp

/-- One round of the loop, between what the end of the table would make of the two states. -/
theorem records_of_recordRound {st st' : Result × ℕ} {e : ℕ × TXReceipt}
    (h : recordRound st e = some st') (len : ℕ) :
    Records (finishTable st len) [e] (finishTable st' (len + 1)) := by
  rcases e with ⟨k, v⟩
  rcases recordRound_cases h with ⟨hstatus, statuses, hk, hall, hwork, hconfirm, hcomp, htotal,
    hcomplished, hload, hbroadcast⟩
  obtain ⟨hlt, rfl⟩ := List.getElem?_eq_some_iff.mp hk
  constructor
  case status => simpa using hstatus
  case bound => simpa [finishTable] using hlt
  case allTXStatus =>
    intro i
    simp only [finishTable, hall]
    by_cases hi : k = i
    · subst hi
      simp [hlt, statusesOf]
    · simp [hi, statusesOf]
  case confirmMap =>
    -- only an entry that finishes transaction `i` sets its time
    intro i
    simp only [finishTable, hconfirm]
    by_cases hset : k = i ∧ checkTXFinished v.txStatus = true
    · obtain ⟨rfl, hfin⟩ := hset
      have htime : confirmTime [(k, v)] k = fun _ => v.confirmTimeStamp := by
        funext t
        simp [confirmTime, finishes, hfin]
      rw [if_pos hfin, htime, List.getElem?_set_self']
      rfl
    · have htime : confirmTime [(k, v)] i = id := by
        funext t
        simp [confirmTime, finishes, hset]
      rw [htime, Option.map_id, id]
      split
      case isTrue hfin => rw [List.getElem?_set_ne fun hi => hset ⟨hi, hfin⟩]
      case isFalse => rfl
  case allComplished =>
    simp only [finishTable, hcomp, hcomplished, List.countP_singleton]
    by_cases hfin : checkTXFinished v.txStatus = true
    · simp [hfin, finishes]
      omega
    · simp [hfin, finishes]
  case workLoad =>
    simp only [finishTable, hload, List.length_singleton]
    omega
  case workload =>
    simp only [totalWorkload, finishTable, hwork, List.length_singleton]
    exact sum_addWorkload _ _
  case broadcastMap => exact hbroadcast
  case totalnum => exact htotal

theorem records_of_setTXReceiptV2 (h : res.setTXReceiptV2 entries = some res') :
    Records res entries res' := by
  unfold setTXReceiptV2 at h
  simp only [Option.bind_eq_bind, Option.bind_eq_some_iff, Option.some.injEq] at h
  rcases h with ⟨st, hloop, rfl⟩
  -- the state of the loop, as if the table ended after the entries seen
  have hend := Sys.foldlM_induction
    (fun rest st => ∃ seen, entries = seen ++ rest ∧
      Records res seen (finishTable st seen.length))
    (by
      rintro e rest st st' ⟨seen, hsplit, hseen⟩ hround
      refine ⟨seen ++ [e], by simp [hsplit], ?_⟩
      rw [List.length_append, List.length_singleton]
      exact hseen.trans (records_of_recordRound hround seen.length))
    entries (res, 0) st ⟨[], rfl, Records.refl res⟩ hloop
  rcases hend with ⟨seen, hsplit, hseen⟩
  rw [List.append_nil] at hsplit
  rw [hsplit]
  exact hseen

/-- A sequence of tables records their concatenation. -/
theorem records_of_tables {tables : List (List (ℕ × TXReceipt))}
    (h : tables.foldlM setTXReceiptV2 res = some res') : Records res tables.flatten res' := by
  induction tables generalizing res with
  | nil =>
      cases h
      exact Records.refl _
  | cons table tables ih =>
      rw [List.foldlM_cons, Option.bind_eq_bind, Option.bind_eq_some_iff] at h
      rcases h with ⟨res₁, hfirst, hrest⟩
      exact (records_of_setTXReceiptV2 hfirst).trans (ih hrest)

/-- Entries that have a status and an ID within the tables can be recorded. -/
def Recordable (res : Result) (e : ℕ × TXReceipt) : Prop :=
  e.2.txStatus ≠ .defaultStatus ∧ e.1 < res.allTXStatus.length ∧ e.1 < res.confirmMap.length

theorem exists_recordRound {st : Result × ℕ} {e : ℕ × TXReceipt} (h : Recordable st.1 e) :
    ∃ st', recordRound st e = some st' := by
  rcases h with ⟨hstatus, hall, hconfirm⟩
  simp only [recordRound, if_neg hstatus, List.getElem?_eq_getElem hall, if_pos hconfirm]
  split
  · exact ⟨_, rfl⟩
  · exact ⟨_, rfl⟩

theorem Records.recordable (h : Records res entries res') {e : ℕ × TXReceipt}
    (he : Recordable res e) : Recordable res' e := by
  rw [Recordable, h.length_allTXStatus, h.length_confirmMap]
  exact he

theorem exists_setTXReceiptV2 (h : ∀ e ∈ entries, Recordable res e) :
    ∃ res', res.setTXReceiptV2 entries = some res' := by
  rcases Sys.foldlM_exists (f := recordRound)
    (fun rest st => ∀ e ∈ rest, Recordable st.1 e)
    (by
      intro e rest st hrest
      rcases exists_recordRound (hrest e List.mem_cons_self) with ⟨st', hst'⟩
      refine ⟨st', hst', fun e' he' => ?_⟩
      exact (records_of_recordRound hst' 0).recordable (hrest e' (List.mem_cons_of_mem _ he')))
    entries (res, 0) h with ⟨st, hloop, -⟩
  exact ⟨_, by rw [setTXReceiptV2, hloop]; rfl⟩

theorem exists_tables {tables : List (List (ℕ × TXReceipt))}
    (h : ∀ e ∈ tables.flatten, Recordable res e) :
    ∃ res', tables.foldlM setTXReceiptV2 res = some res' := by
  induction tables generalizing res with
  | nil => exact ⟨res, rfl⟩
  | cons table tables ih =>
      rw [List.flatten_cons] at h
      rcases exists_setTXReceiptV2 fun e he => h e (List.mem_append_left _ he) with
        ⟨res₁, hfirst⟩
      have hrest : ∀ e ∈ tables.flatten, Recordable res₁ e := fun e he =>
        (records_of_setTXReceiptV2 hfirst).recordable (h e (List.mem_append_right _ he))
      rcases ih hrest with ⟨res', hres'⟩
      exact ⟨res', by rw [List.foldlM_cons, hfirst]; exact hres'⟩

end Records

/-! ## Broadcast times -/

/-- The loop of `SetBroadcastMap` with distinct IDs within the table: each gets its time. -/
theorem exists_broadcastMap {table : List (ℕ × ℕ)} {m : List ℕ}
    (hnodup : (table.map Prod.fst).Nodup) (hlt : ∀ e ∈ table, e.1 < m.length) :
    ∃ m', table.foldlM broadcastRound m = some m' ∧ m'.length = m.length ∧
      (∀ e ∈ table, m'[e.1]? = some e.2) ∧
      ∀ i, i ∉ table.map Prod.fst → m'[i]? = m[i]? := by
  induction table generalizing m with
  | nil => exact ⟨m, rfl, rfl, by simp, fun _ _ => rfl⟩
  | cons e table ih =>
      rw [List.map_cons, List.nodup_cons] at hnodup
      have he : e.1 < m.length := hlt e List.mem_cons_self
      have hrest : ∀ e' ∈ table, e'.1 < (m.set e.1 e.2).length := by
        intro e' he'
        rw [List.length_set]
        exact hlt e' (List.mem_cons_of_mem _ he')
      rcases ih hnodup.2 hrest with ⟨m', hm', hlen, hin, hout⟩
      refine ⟨m', ?_, by rw [hlen, List.length_set], ?_, ?_⟩
      · rw [List.foldlM_cons, broadcastRound, if_pos he]
        exact hm'
      · intro e' he'
        rcases List.mem_cons.mp he' with rfl | he'
        -- the later rounds do not touch this ID
        · rw [hout _ hnodup.1, List.getElem?_set_self he]
        · exact hin e' he'
      · intro i hi
        rw [List.map_cons, List.mem_cons, not_or] at hi
        rw [hout i hi.2, List.getElem?_set_ne (Ne.symm hi.1)]

theorem setBroadcastMap_spec {res : Result} {table : List (ℕ × ℕ)}
    (hnodup : (table.map Prod.fst).Nodup) (hlt : ∀ e ∈ table, e.1 < res.broadcastMap.length) :
    ∃ res', res.setBroadcastMap table = some res' ∧
      res' = { res with broadcastMap := res'.broadcastMap } ∧
      res'.broadcastMap.length = res.broadcastMap.length ∧
      (∀ e ∈ table, res'.broadcastMap[e.1]? = some e.2) ∧
      ∀ i, i ∉ table.map Prod.fst → res'.broadcastMap[i]? = res.broadcastMap[i]? := by
  rcases exists_broadcastMap hnodup hlt with ⟨m, hm, hlen, hin, hout⟩
  exact ⟨{ res with broadcastMap := m }, by rw [setBroadcastMap, hm]; rfl, rfl, hlen, hin, hout⟩

end Result

end LessChain
