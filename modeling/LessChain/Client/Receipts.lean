import LessChain.Lib.Machine
import LessChain.Client.Client
import LessChain.Result.Result

/-!
# Receipts are recorded once

Committees send a client receipts, the beacon chain sends it beacons, and the two come in any
order. `AddTXReceipts` puts the receipts into `tx_reply`; `AddTBs` goes through that list, takes
out the receipts whose beacon is there, and hands them to package `result` in a table by
transaction ID (`client/get.go`, `result/result.go`).

The machine has these two calls as its steps, and three histories beside the program's state:
the receipts and the beacons received so far and the receipts handed to `SetTXReceiptV2`. A call
that ends the process is no step.

* After each `AddTBs`, `tx_reply` is what was received and has no beacon yet, in the order of
  arrival.
* Where no two receipts of one call have the same ID, every other receipt was recorded once:
  the table keeps one receipt for an ID.

`receipts_recorded_once` says both.
-/

namespace LessChain.Receipts

/-- A client and the results of its process. `received`, `beacons` and `recorded` are histories,
not in the program. -/
structure State where
  client : Client
  res : Result
  received : List TXReceipt
  beacons : List (ℕ × ConfirmedTB)
  recorded : List TXReceipt

/-- The calls, with the orders in which `AddTBs` walks its two maps. -/
inductive Event where
  | addTXReceipts (receipts : List TXReceipt)
  | addTBs (tbblock : TBBlock) (expireOrder recordOrder : List ℕ)

/-- The entries of a table in the order in which they are visited. -/
def entriesOf (table : Finmap fun _ : ℕ => TXReceipt) (order : List ℕ) : List (ℕ × TXReceipt) :=
  order.filterMap fun k => (table.lookup k).map fun r => (k, r)

/-- A call of the client; `recordTXReceipts` hands the table to `SetTXReceiptV2`. -/
def step (s : State) : Event → Option State
  | .addTXReceipts receipts =>
      some { s with
        client := s.client.addTXReceipts receipts
        received := s.received ++ receipts }
  | .addTBs tbblock expireOrder recordOrder => do
      let (client, toRecord) ← s.client.addTBs tbblock expireOrder
      if recordOrder.Nodup ∧ recordOrder.toFinset = toRecord.keys then
        let res ← s.res.setTXReceiptV2 (entriesOf toRecord recordOrder)
        some {
          client := client
          res := res
          received := s.received
          beacons := s.beacons ++ tbblock.beacons
          recorded := s.recorded ++ (entriesOf toRecord recordOrder).map Prod.snd }
      else none

/-- A new client with its transactions, and empty results for a number of them. -/
def Init (s : State) : Prop :=
  ∃ id rollbackHeight shardNum txs totalnum,
    s = ⟨(newClient id rollbackHeight shardNum).addtxs txs, newResult.setTotalTXNum totalnum,
      [], [], []⟩

def machine : Sys.Machine State Event := ⟨Init, step⟩

/-- The beacon of a block that was received last. -/
def latest (beacons : List (ℕ × ConfirmedTB)) (sid height : ℕ) : Option ConfirmedTB :=
  (beacons.reverse.find? fun p => p.1 = sid ∧ p.2.height = height).map Prod.snd

/-- The beacon of the receipt's block was received. -/
def State.HasBeacon (s : State) (r : TXReceipt) : Prop :=
  ∃ p ∈ s.beacons, p.1 = r.shardID ∧ p.2.height = r.blockHeight

instance (s : State) (r : TXReceipt) : Decidable (s.HasBeacon r) :=
  inferInstanceAs (Decidable (∃ _ ∈ _, _))

/-- A receipt without its confirm time, which the client fills in. -/
def bare (r : TXReceipt) : TXReceipt := { r with confirmTimeStamp := 0 }

/-- No two receipts that a call of `AddTBs` processes have the same ID. -/
def DistinctIDs (s : State) : Event → Prop
  | .addTXReceipts _ => True
  | .addTBs tbblock _ _ =>
      ((s.client.txReply.filter fun r => s.client.Sees tbblock r.shardID r.blockHeight).map
        (·.txID)).Nodup

instance (s : State) (l : Event) : Decidable (DistinctIDs s l) :=
  match l with
  | .addTXReceipts _ => inferInstanceAs (Decidable True)
  | .addTBs _ _ _ => inferInstanceAs (Decidable (List.Nodup _))

/-! ## Beacons -/

section Beacons

theorem latest_append (a b : List (ℕ × ConfirmedTB)) (sid height : ℕ) :
    latest (a ++ b) sid height = (latest b sid height).or (latest a sid height) := by
  simp [latest, List.find?_append, Option.map_or]

theorem isSome_latest {s : State} {r : TXReceipt} :
    (latest s.beacons r.shardID r.blockHeight).isSome ↔ s.HasBeacon r := by
  simp [latest, State.HasBeacon, List.find?_isSome]

/-- Recording beacons: the last one of a block replaces those before. -/
theorem recordTBs_tbs {c c' : Client} {b : TBBlock} (h : c.recordTBs b = some c') (sid ht : ℕ) :
    c'.tbs sid ht = (latest b.beacons sid ht).or (c.tbs sid ht) := by
  unfold Client.recordTBs at h
  simp only [Option.bind_eq_bind, Option.bind_eq_some_iff, Option.some.injEq] at h
  rcases h with ⟨c₁, hloop, rfl⟩
  have hend := Sys.foldlM_induction
    (fun rest c₁ => ∃ seen, b.beacons = seen ++ rest ∧
      c₁.tbs sid ht = (latest seen sid ht).or (c.tbs sid ht))
    (by
      rintro ⟨shardID, tb⟩ rest c₁ c₂ ⟨seen, hsplit, htbs⟩ hround
      refine ⟨seen ++ [(shardID, tb)], by simp [hsplit], ?_⟩
      unfold Client.recordTB at hround
      simp only at hround
      split at hround
      case isFalse => cases hround
      case isTrue =>
        cases hround
        rw [latest_append]
        -- this beacon is for the place, or it leaves the place alone
        by_cases hblock : shardID = sid ∧ tb.height = ht
        · obtain ⟨rfl, rfl⟩ := hblock
          simp [latest]
        · have hnone : latest [(shardID, tb)] sid ht = none := by simp [latest, hblock]
          rw [hnone, Option.none_or, ← htbs]
          by_cases hsid : sid = shardID
          · subst hsid
            have hht : ht ≠ tb.height := fun heq => hblock ⟨rfl, heq.symm⟩
            simp [hht]
          · simp [hsid])
    b.beacons c c₁ ⟨[], rfl, by simp [latest]⟩ hloop
  rcases hend with ⟨seen, hsplit, htbs⟩
  rw [List.append_nil] at hsplit
  rw [hsplit]
  exact htbs

end Beacons

/-! ## The table of a call -/

/-- A receipt with the confirm time of its beacon. -/
def stamped (c : Client) (r : TXReceipt) : TXReceipt :=
  { r with
    confirmTimeStamp :=
      ((c.tbs r.shardID r.blockHeight).map (·.confirmTime)).getD r.confirmTimeStamp }

/-- The table that the loop of `processTXReceipts` makes of the receipts it processes. -/
def tableOf (c : Client) (l : List TXReceipt) : Finmap fun _ : ℕ => TXReceipt :=
  l.foldl (fun table r => table.insert r.txID (stamped c r)) ∅

section Table

variable {c c' : Client} {l : List TXReceipt} {order : List ℕ}

theorem tableOf_concat (c : Client) (l : List TXReceipt) (r : TXReceipt) :
    tableOf c (l ++ [r]) = (tableOf c l).insert r.txID (stamped c r) := by
  simp [tableOf]

theorem mem_keys_tableOf {k : ℕ} : k ∈ (tableOf c l).keys ↔ k ∈ l.map (·.txID) := by
  induction l using List.reverseRecOn with
  | nil => simp [tableOf]
  | append_singleton l r ih =>
      rw [Finmap.mem_keys] at ih ⊢
      rw [tableOf_concat, Finmap.mem_insert, ih]
      simp [or_comm]

theorem exists_of_lookup_tableOf {k : ℕ} {r : TXReceipt} (h : (tableOf c l).lookup k = some r) :
    r.txID = k ∧ ∃ r₀ ∈ l, r = stamped c r₀ := by
  induction l using List.reverseRecOn with
  | nil => simp [tableOf] at h
  | append_singleton l r' ih =>
      rw [tableOf_concat] at h
      by_cases hk : k = r'.txID
      · subst hk
        rw [Finmap.lookup_insert, Option.some.injEq] at h
        subst h
        exact ⟨rfl, r', by simp, rfl⟩
      · rw [Finmap.lookup_insert_of_ne _ hk] at h
        rcases ih h with ⟨hid, r₀, hr₀, heq⟩
        exact ⟨hid, r₀, List.mem_append_left _ hr₀, heq⟩

theorem lookup_tableOf (hnodup : (l.map (·.txID)).Nodup) {r : TXReceipt} (hr : r ∈ l) :
    (tableOf c l).lookup r.txID = some (stamped c r) := by
  induction l using List.reverseRecOn with
  | nil => cases hr
  | append_singleton l r' ih =>
      rw [List.map_append, List.nodup_append] at hnodup
      rw [tableOf_concat]
      rcases List.mem_append.mp hr with hold | hnew
      · have hne : r.txID ≠ r'.txID :=
          hnodup.2.2 _ (List.mem_map_of_mem hold) _ (by simp)
        rw [Finmap.lookup_insert_of_ne _ hne]
        exact ih hnodup.1 hold
      · rw [List.mem_singleton.mp hnew, Finmap.lookup_insert]

/-- Where the IDs differ, the table holds every receipt. -/
theorem entriesOf_tableOf_perm (hnodup : (l.map (·.txID)).Nodup) (horder : order.Nodup)
    (hkeys : order.toFinset = (tableOf c l).keys) :
    (entriesOf (tableOf c l) order).Perm (l.map fun r => (r.txID, stamped c r)) := by
  have hperm : order.Perm (l.map (·.txID)) := by
    refine (List.perm_ext_iff_of_nodup horder hnodup).mpr fun k => ?_
    rw [← List.mem_toFinset, hkeys, mem_keys_tableOf]
  refine (hperm.filterMap _).trans ?_
  have hlookup : ∀ r ∈ l, ((tableOf c l).lookup r.txID).map (fun v => (r.txID, v)) =
      some (r.txID, stamped c r) := by
    intro r hr
    rw [lookup_tableOf hnodup hr, Option.map_some]
  rw [List.filterMap_map]
  exact .of_eq ((List.filterMap_congr hlookup).trans (by rw [List.filterMap_eq_map']))

theorem fst_eq_of_mem_entriesOf {e : ℕ × TXReceipt} (h : e ∈ entriesOf (tableOf c l) order) :
    e.2.txID = e.1 ∧ ∃ r ∈ l, e.2 = stamped c r := by
  rcases List.mem_filterMap.mp h with ⟨k, -, hk⟩
  rcases Option.map_eq_some_iff.mp hk with ⟨r, hr, rfl⟩
  exact exists_of_lookup_tableOf hr

theorem statusesOf_entriesOf (i : ℕ) :
    Result.statusesOf (entriesOf (tableOf c l) order) i =
      (((entriesOf (tableOf c l) order).map Prod.snd).filter fun r => r.txID = i).map
        (·.txStatus) := by
  have hsame : ((entriesOf (tableOf c l) order).filter fun e => e.1 = i) =
      (entriesOf (tableOf c l) order).filter fun e => e.2.txID = i :=
    List.filter_congr fun e he => by rw [(fst_eq_of_mem_entriesOf he).1]
  rw [Result.statusesOf, hsame, List.filter_map, List.map_map]
  rfl

end Table

/-- What `AddTBs` does to the receipts: those without a beacon stay, the others are in the
table. -/
theorem processTXReceipts_table {c c' : Client} {toRecord : Finmap fun _ : ℕ => TXReceipt}
    (h : c.processTXReceipts = some (c', toRecord)) :
    c'.tbs = c.tbs ∧ c'.txReply = (c.txReply.filter fun r => !c.knows r) ∧
      toRecord = tableOf c (c.txReply.filter c.knows) := by
  unfold Client.processTXReceipts at h
  simp only [Option.bind_eq_bind, Option.bind_eq_some_iff, Option.some.injEq,
    Prod.mk.injEq] at h
  rcases h with ⟨st, hloop, rfl, rfl⟩
  have hend := Sys.foldlM_induction
    (fun rest st => ∃ seen, c.txReply = seen ++ rest ∧ st.client.tbs = c.tbs ∧
      st.kept = (seen.filter fun r => !c.knows r) ∧
      st.toRecord = tableOf c (seen.filter c.knows))
    (by
      rintro r rest st st' ⟨seen, hsplit, htbs, hkept, htable⟩ hround
      refine ⟨seen ++ [r], by simp [hsplit], ?_⟩
      unfold Client.receiptRound at hround
      rw [htbs] at hround
      cases htb : c.tbs r.shardID r.blockHeight with
      | none =>
          -- the receipt stays in `tx_reply`
          simp only [htb, Option.some.injEq] at hround
          subst hround
          have hknows : c.knows r = false := by simp [Client.knows, htb]
          exact ⟨htbs, by simp [hkept, hknows], by simp [htable, hknows]⟩
      | some tb =>
          simp only [htb, Option.bind_eq_bind, Option.bind_eq_some_iff,
            Option.some.injEq] at hround
          rcases hround with ⟨c₁, hc₁, rfl⟩
          have hknows : c.knows r = true := by simp [Client.knows, htb]
          have hstamp : ({ r with confirmTimeStamp := tb.confirmTime } : TXReceipt) =
              stamped c r := by simp [stamped, htb]
          refine ⟨?_, by simp [hkept, hknows], ?_⟩
          -- no kind of receipt changes the beacons
          · rcases Client.processConfirmed_cases hc₁ with ⟨-, tx, -, rfl⟩ | ⟨-, -, rfl⟩ |
              ⟨-, -, rfl⟩
            · exact htbs
            · exact htbs
            · exact htbs
          · rw [List.filter_append, List.filter_singleton, hknows, htable, hstamp]
            exact (tableOf_concat c _ r).symm)
    c.txReply ⟨c, [], ∅⟩ st ⟨[], rfl, rfl, rfl, rfl⟩ hloop
  rcases hend with ⟨seen, hsplit, htbs, hkept, htable⟩
  rw [List.append_nil] at hsplit
  rw [hsplit]
  exact ⟨htbs, hkept, htable⟩

theorem addTBs_table {c c' : Client} {b : TBBlock} {order : List ℕ}
    {toRecord : Finmap fun _ : ℕ => TXReceipt} (h : c.addTBs b order = some (c', toRecord)) :
    (∀ sid ht, c'.tbs sid ht = (latest b.beacons sid ht).or (c.tbs sid ht)) ∧
      c'.txReply = (c.txReply.filter fun r => !c'.knows r) ∧
      toRecord = tableOf c' (c.txReply.filter c'.knows) := by
  simp only [Client.addTBs, Option.bind_eq_bind, Option.bind_eq_some_iff, Prod.exists] at h
  rcases h with ⟨c₁, hrecord, c₂, toRecord', hprocess, hcheck⟩
  split at hcheck
  case isFalse => cases hcheck
  case isTrue =>
    simp only [Option.bind_eq_some_iff, Option.some.injEq, Prod.mk.injEq] at hcheck
    rcases hcheck with ⟨c₃, hexpire, rfl, rfl⟩
    rcases Client.recordTBs_spec hrecord with ⟨hsame, -, -⟩
    rcases processTXReceipts_table hprocess with ⟨htbs₂, hreply₂, htable⟩
    rcases Client.checkExpiredTXs_spec hexpire with ⟨expired, hframe, -, -⟩
    have htbs : c₃.tbs = c₁.tbs := by rw [hframe]; exact htbs₂
    have hreply : c₁.txReply = c.txReply := by
      unfold Client.SameButView at hsame
      rw [hsame]
    have hknows : c₁.knows = c₃.knows := by
      funext r
      simp [Client.knows, htbs]
    refine ⟨fun sid ht => ?_, ?_, ?_⟩
    · rw [htbs]
      exact recordTBs_tbs hrecord sid ht
    · rw [← hknows, ← hreply, hframe]
      exact hreply₂
    · rw [← hknows, ← hreply, htable]
      simp [tableOf, stamped, htbs]

/-! ## Runs -/

/-- A call of `AddTBs` on the state: `processed` are the receipts whose beacon is there. -/
structure Adds (s : State) (b : TBBlock) (recordOrder : List ℕ) (processed : List TXReceipt)
    (s' : State) : Prop where
  processed_eq : processed = s.client.txReply.filter s'.client.knows
  order_nodup : recordOrder.Nodup
  order_keys : recordOrder.toFinset = (tableOf s'.client processed).keys
  tbs : ∀ sid ht, s'.client.tbs sid ht = (latest b.beacons sid ht).or (s.client.tbs sid ht)
  txReply : s'.client.txReply = s.client.txReply.filter fun r => !s'.client.knows r
  records : s.res.Records (entriesOf (tableOf s'.client processed) recordOrder) s'.res
  received : s'.received = s.received
  beacons : s'.beacons = s.beacons ++ b.beacons
  recorded : s'.recorded =
    s.recorded ++ (entriesOf (tableOf s'.client processed) recordOrder).map Prod.snd

section Runs

variable {s s' : State} {b : TBBlock} {expireOrder recordOrder : List ℕ}
  {processed : List TXReceipt}

theorem adds_of_step (h : step s (.addTBs b expireOrder recordOrder) = some s') :
    ∃ processed, Adds s b recordOrder processed s' := by
  simp only [step, Option.bind_eq_bind, Option.bind_eq_some_iff, Prod.exists] at h
  rcases h with ⟨c, toRecord, hadd, hrest⟩
  split at hrest
  case isFalse => cases hrest
  case isTrue horder =>
    simp only [Option.bind_eq_some_iff, Option.some.injEq] at hrest
    rcases hrest with ⟨res, hrecord, rfl⟩
    rcases addTBs_table hadd with ⟨htbs, hreply, rfl⟩
    exact ⟨_, {
      processed_eq := rfl
      order_nodup := horder.1
      order_keys := horder.2
      tbs := htbs
      txReply := hreply
      records := Result.records_of_setTXReceiptV2 hrecord
      received := rfl
      beacons := rfl
      recorded := rfl }⟩

/-- What the histories say about the client and the results. -/
structure Inv (s : State) : Prop where
  tbs : ∀ sid ht, s.client.tbs sid ht = latest s.beacons sid ht
  waiting : (s.client.txReply.filter fun r => !s.client.knows r) =
    s.received.filter fun r => !s.client.knows r
  statuses : ∀ i, s.res.allTXStatus.getD i [] =
    (s.recorded.filter fun r => r.txID = i).map (·.txStatus)

theorem Inv.knows_iff (hs : Inv s) (r : TXReceipt) : s.client.knows r = true ↔ s.HasBeacon r := by
  rw [Client.knows, hs.tbs, isSome_latest]

theorem Inv.init (h : Init s) : Inv s := by
  rcases h with ⟨id, rollbackHeight, shardNum, txs, totalnum, rfl⟩
  refine ⟨fun sid ht => rfl, rfl, fun i => ?_⟩
  by_cases hi : i < totalnum
  · simp [Result.setTotalTXNum, hi]
  · simp [Result.setTotalTXNum, hi]

/-- A beacon that is known stays known. -/
theorem Adds.knows_mono (h : Adds s b recordOrder processed s') {r : TXReceipt}
    (hr : s.client.knows r = true) : s'.client.knows r = true := by
  rw [Client.knows, h.tbs]
  cases latest b.beacons r.shardID r.blockHeight with
  | none => exact hr
  | some tb => rfl

/-- What is not known after the call was not known before. -/
theorem Adds.filter_unknown (h : Adds s b recordOrder processed s') (l : List TXReceipt) :
    (l.filter fun r => !s'.client.knows r) =
      (l.filter fun r => !s.client.knows r).filter fun r => !s'.client.knows r := by
  rw [List.filter_filter]
  refine List.filter_congr fun r _ => ?_
  cases hr : s.client.knows r with
  | false => simp
  | true => simp [h.knows_mono hr]

/-- After the call, `tx_reply` is what was received and is not known. -/
theorem Adds.txReply_eq (h : Adds s b recordOrder processed s') (hs : Inv s) :
    s'.client.txReply = s'.received.filter fun r => !s'.client.knows r := by
  rw [h.txReply, h.received, h.filter_unknown, h.filter_unknown s.received, hs.waiting]

theorem Inv.adds (hs : Inv s) (h : Adds s b recordOrder processed s') : Inv s' := by
  constructor
  case tbs =>
    intro sid ht
    rw [h.tbs, hs.tbs, h.beacons, latest_append]
  case waiting =>
    rw [h.txReply_eq hs, List.filter_filter]
    simp
  case statuses =>
    intro i
    rw [h.recorded, List.filter_append, List.map_append, ← statusesOf_entriesOf, ← hs.statuses i,
      List.getD_eq_getElem?_getD, List.getD_eq_getElem?_getD, h.records.allTXStatus]
    cases hi : s.res.allTXStatus[i]? with
    | some statuses => rfl
    | none =>
        -- recording for an ID beyond the table would have ended the process
        have hnone : Result.statusesOf
            (entriesOf (tableOf s'.client processed) recordOrder) i = [] := by
          rw [List.getElem?_eq_none_iff] at hi
          rw [Result.statusesOf, List.map_eq_nil_iff, List.filter_eq_nil_iff]
          intro e he
          have hbound := h.records.bound e he
          simp only [decide_eq_true_eq]
          omega
        rw [hnone]
        rfl

/-- Every receipt received waits in `tx_reply` or was recorded. -/
def Accounted (s : State) : Prop :=
  (s.received.map bare).Perm ((s.client.txReply ++ s.recorded).map bare)

/-- A list of receipts is those without a beacon and those with one. -/
theorem map_bare_split (c : Client) (l : List TXReceipt) :
    (l.map bare).Perm
      ((l.filter fun r => !c.knows r).map bare ++ (l.filter c.knows).map bare) := by
  rw [← List.map_append]
  have hsplit := (List.filter_append_perm c.knows l).symm
  exact (hsplit.trans List.perm_append_comm).map bare

/-- With distinct IDs, what a call records is what it processes. -/
theorem Adds.recorded_perm (h : Adds s b recordOrder processed s')
    (hnodup : (processed.map (·.txID)).Nodup) :
    (((entriesOf (tableOf s'.client processed) recordOrder).map Prod.snd).map bare).Perm
      (processed.map bare) := by
  have hentries := entriesOf_tableOf_perm hnodup h.order_nodup h.order_keys
  have hbare := (hentries.map Prod.snd).map bare
  -- what `stamped` writes is what `bare` forgets
  have hforget : ((processed.map fun r => (r.txID, stamped s'.client r)).map Prod.snd).map bare =
      processed.map bare := by
    rw [List.map_map, List.map_map]
    rfl
  rwa [hforget] at hbare

theorem Accounted.adds (hacc : Accounted s) (h : Adds s b recordOrder processed s')
    (hnodup : (processed.map (·.txID)).Nodup) : Accounted s' := by
  have hsplit : (s.client.txReply.map bare).Perm
      (s'.client.txReply.map bare ++ processed.map bare) := by
    rw [h.txReply, h.processed_eq]
    exact map_bare_split s'.client s.client.txReply
  unfold Accounted at hacc ⊢
  rw [List.map_append] at hacc ⊢
  rw [h.received, h.recorded, List.map_append]
  -- what is taken out of `tx_reply` is what is recorded behind the rest
  refine hacc.trans ?_
  refine ((hsplit.append_right _).trans ?_)
  rw [List.append_assoc]
  refine List.Perm.append_left _ (List.perm_append_comm.trans ?_)
  exact (h.recorded_perm hnodup).symm.append_left _

theorem Adds.knows_iff_sees (h : Adds s b recordOrder processed s') (r : TXReceipt) :
    s'.client.knows r = true ↔ s.client.Sees b r.shardID r.blockHeight := by
  have hbeacon : (latest b.beacons r.shardID r.blockHeight).isSome ↔
      ∃ p ∈ b.beacons, p.1 = r.shardID ∧ p.2.height = r.blockHeight := by
    simp [latest, List.find?_isSome]
  rw [Client.knows, h.tbs, Option.isSome_or, Bool.or_eq_true, hbeacon, Client.Sees, or_comm]

theorem Adds.processed_nodup (h : Adds s b recordOrder processed s')
    (hdistinct : DistinctIDs s (.addTBs b expireOrder recordOrder)) :
    (processed.map (·.txID)).Nodup := by
  have hsame : processed =
      s.client.txReply.filter fun r => s.client.Sees b r.shardID r.blockHeight := by
    rw [h.processed_eq]
    refine List.filter_congr fun r _ => ?_
    rw [Bool.eq_iff_iff, h.knows_iff_sees, decide_eq_true_eq]
  rw [hsame]
  exact hdistinct

theorem inv_of_reachable (h : machine.Reachable s) : Inv s := by
  refine Sys.Machine.invariant_by Inv (fun _ => Inv.init) ?_ h
  intro s l s' _ hstep hs
  cases l with
  | addTXReceipts receipts =>
      have hs' : some _ = some s' := hstep
      cases hs'
      refine ⟨hs.tbs, ?_, hs.statuses⟩
      have hwaiting := hs.waiting
      simp only [Client.addTXReceipts, List.filter_append] at hwaiting ⊢
      exact congrArg (· ++ _) hwaiting
  | addTBs b expireOrder recordOrder =>
      rcases adds_of_step hstep with ⟨processed, hadds⟩
      exact hs.adds hadds

theorem accounted_of_reachable (h : machine.ReachableBy DistinctIDs s) : Accounted s := by
  refine Sys.Machine.invariant_by Accounted ?_ ?_ h
  · rintro s ⟨id, rollbackHeight, shardNum, txs, totalnum, rfl⟩
    exact List.Perm.refl _
  · intro s l s' hok hstep hs
    cases l with
    | addTXReceipts receipts =>
        have hs' : some _ = some s' := hstep
        cases hs'
        unfold Accounted at hs ⊢
        simp only [Client.addTXReceipts, List.map_append, List.append_assoc] at hs ⊢
        refine (hs.append_right _).trans ?_
        rw [List.append_assoc]
        exact List.perm_append_comm.append_left _
    | addTBs b expireOrder recordOrder =>
        rcases adds_of_step hstep with ⟨processed, hadds⟩
        exact hs.adds hadds (hadds.processed_nodup hok)

/-- With a call from `s` to `s'`, every receipt received that has its beacon is recorded, once:
its status in `AllTXStatus`, and what was handed to `SetTXReceiptV2` carries the confirm time of
the beacon. -/
structure RecordedOnce (s s' : State) : Prop where
  statuses : ∀ i, (s'.res.allTXStatus.getD i []).Perm
    ((s'.received.filter fun r => s'.HasBeacon r ∧ r.txID = i).map (·.txStatus))
  recorded : (s'.recorded.map bare).Perm ((s'.received.filter fun r => s'.HasBeacon r).map bare)
  stamps : ∃ new, s'.recorded = s.recorded ++ new ∧ ∀ r ∈ new, ∃ tb,
    latest s'.beacons r.shardID r.blockHeight = some tb ∧ r.confirmTimeStamp = tb.confirmTime

theorem Inv.filter_knows (hs : Inv s) (l : List TXReceipt) :
    l.filter s.client.knows = l.filter fun r => s.HasBeacon r := by
  refine List.filter_congr fun r _ => ?_
  rw [Bool.eq_iff_iff, hs.knows_iff, decide_eq_true_eq]

/-- What was recorded is what was received and has its beacon. -/
theorem Adds.recorded_eq (h : Adds s b recordOrder processed s') (hs : Inv s)
    (hacc : Accounted s') :
    (s'.recorded.map bare).Perm ((s'.received.filter fun r => s'.HasBeacon r).map bare) := by
  have hboth := hacc.symm.trans (map_bare_split s'.client s'.received)
  -- both sides start with what is in `tx_reply`
  rw [List.map_append, h.txReply_eq hs] at hboth
  rw [← (hs.adds h).filter_knows]
  exact (List.perm_append_left_iff _).mp hboth

theorem Adds.stamps (h : Adds s b recordOrder processed s') (hs : Inv s) :
    ∃ new, s'.recorded = s.recorded ++ new ∧ ∀ r ∈ new, ∃ tb,
      latest s'.beacons r.shardID r.blockHeight = some tb ∧
        r.confirmTimeStamp = tb.confirmTime := by
  refine ⟨_, h.recorded, fun r hr => ?_⟩
  rcases List.mem_map.mp hr with ⟨e, he, rfl⟩
  rcases (fst_eq_of_mem_entriesOf he).2 with ⟨r, hprocessed, hstamp⟩
  rw [h.processed_eq] at hprocessed
  have hknows : (s'.client.tbs r.shardID r.blockHeight).isSome := (List.mem_filter.mp hprocessed).2
  rcases Option.isSome_iff_exists.mp hknows with ⟨tb, htb⟩
  refine ⟨tb, ?_, ?_⟩
  · rw [hstamp, ← (hs.adds h).tbs]
    exact htb
  · simp [hstamp, stamped, htb]

end Runs

/-- After every call of `AddTBs`, `tx_reply` is what was received and has no beacon yet, in the
order of arrival; and where the receipts of each call had distinct IDs, all others are recorded
once. -/
theorem receipts_recorded_once {s s' : State} {b : TBBlock} {expireOrder recordOrder : List ℕ}
    (hreach : machine.Reachable s)
    (hstep : machine.step s (.addTBs b expireOrder recordOrder) = some s') :
    s'.client.txReply = (s'.received.filter fun r => ¬ s'.HasBeacon r) ∧
    (machine.ReachableBy DistinctIDs s → DistinctIDs s (.addTBs b expireOrder recordOrder) →
      RecordedOnce s s') := by
  have hs := inv_of_reachable hreach
  rcases adds_of_step hstep with ⟨processed, hadds⟩
  have hs' := hs.adds hadds
  refine ⟨?_, fun hdistinct hok => ?_⟩
  · rw [hadds.txReply_eq hs]
    refine List.filter_congr fun r _ => ?_
    rw [Bool.eq_iff_iff, Bool.not_eq_true', ← Bool.not_eq_true, hs'.knows_iff, decide_eq_true_eq]
  · have hacc : Accounted s' :=
      (accounted_of_reachable hdistinct).adds hadds (hadds.processed_nodup hok)
    have hrecorded := hadds.recorded_eq hs hacc
    refine ⟨fun i => ?_, hrecorded, hadds.stamps hs⟩
    have hid := (hrecorded.filter fun r => r.txID = i).map (·.txStatus)
    rw [hs'.statuses]
    simp only [List.filter_map, List.map_map, List.filter_filter] at hid
    refine hid.trans (.of_eq (congrArg _ (List.filter_congr fun r _ => ?_)))
    rw [Bool.decide_and, Bool.and_comm]
    rfl

/-- A block of the beacon chain that confirms block 1 of shard 0. -/
def exampleBlock : TBBlock := ⟨7, 3, [[⟨⟨0, 1, "", "", ""⟩, 20, 3⟩]]⟩

/-- Two receipts come before the beacon of the first one's block. -/
theorem receipts_recorded_once_two :
    ∃ s s', machine.ReachableBy DistinctIDs s ∧
      machine.step s (.addTBs exampleBlock [] [1]) = some s' ∧
      s'.client.txReply = [⟨2, 0, .intraSuccess, 0, 2⟩] ∧
      (s'.res.allTXStatus.getD 1 []).Perm [.intraSuccess] := by
  have hinit : Init ⟨(newClient 0 5 1).addtxs [], newResult.setTotalTXNum 3, [], [], []⟩ :=
    ⟨0, 5, 1, [], 3, rfl⟩
  have hrun : ∃ s, machine.ReachableBy DistinctIDs s ∧
      (DistinctIDs s (.addTBs exampleBlock [] [1]) ∧
        (machine.step s (.addTBs exampleBlock [] [1])).any (fun s' =>
          s'.received = [⟨1, 0, .intraSuccess, 0, 1⟩, ⟨2, 0, .intraSuccess, 0, 2⟩] ∧
            s'.beacons = exampleBlock.beacons) = true) :=
    Sys.Machine.exists_reachableBy _ hinit
      [.addTXReceipts [⟨1, 0, .intraSuccess, 0, 1⟩, ⟨2, 0, .intraSuccess, 0, 2⟩]]
      (by decide +kernel)
  rcases hrun with ⟨s, hreach, hdistinct, hnext⟩
  cases hstep : machine.step s (.addTBs exampleBlock [] [1]) with
  | none =>
      rw [hstep] at hnext
      cases hnext
  | some s' =>
      rw [hstep] at hnext
      rcases of_decide_eq_true hnext with ⟨hreceived, hbeacons⟩
      rcases receipts_recorded_once (hreach.mono fun _ _ _ => trivial) hstep with
        ⟨hreply, honce⟩
      have hstatuses := (honce hreach hdistinct).statuses 1
      simp only [State.HasBeacon, hreceived, hbeacons] at hreply hstatuses
      exact ⟨s, s', hreach, hstep, hreply.trans (by decide), hstatuses.trans (by decide)⟩

end LessChain.Receipts
