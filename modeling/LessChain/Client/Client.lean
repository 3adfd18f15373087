import LessChain.Core.Types
import LessChain.Lib.Fold

/-!
# Package `client`

The client injects its transactions, keeps the receipts of the committees until the
beacon of their block is confirmed, and turns confirmed cross1 receipts into cross2
transactions or, when the recipient shard has moved on too far, into rollbacks.

* `txs_map` holds pointers to the transactions of `txs`, so it is not a field of its
  own: a lookup reads the current content of `txs`.
* `tbs` and `shard_cur_heights` are only ever read by key and stay functions;
  `cross1_confirm_height_map` is iterated over, and `checkExpiredTXs` takes the order
  in which `range` visits its keys as an argument.
* The three senders return the messages they hand to the hub, one for each shard.
-/

namespace LessChain

/-- `client.Client`. -/
structure Client where
  cid : ℕ
  rollbackHeight : ℤ
  shardNum : ℕ
  txs : List Transaction
  injectCnt : ℕ
  txReply : List TXReceipt
  cross1ConfirmHeightMap : Finmap fun _ : ℕ => ℕ
  cross2Txs : List Transaction
  crossTxExpired : List ℕ
  tbs : ℕ → ℕ → Option ConfirmedTB
  shardCurHeights : ℕ → ℕ
  tbchainHeight : ℕ

/-- `NewClient`. -/
def newClient (id : ℕ) (rollbackHeight : ℤ) (shardNum : ℕ) : Client where
  cid := id
  rollbackHeight := rollbackHeight
  shardNum := shardNum
  txs := []
  injectCnt := 0
  txReply := []
  cross1ConfirmHeightMap := ∅
  cross2Txs := []
  crossTxExpired := []
  tbs := fun _ _ => none
  shardCurHeights := fun _ => 0
  tbchainHeight := 0

namespace Client

/-- `Addtxs`: every transaction gets `uint64(c.rollbackHeight)`. -/
def addtxs (c : Client) (txs : List Transaction) : Client :=
  { c with txs := c.txs ++ txs.map fun tx =>
      { tx with rollbackHeight := (c.rollbackHeight % 2 ^ 64).toNat } }

/-- `txs_map[txid]`: a later transaction with the same ID hides an earlier one. -/
def txsMap (c : Client) (txid : ℕ) : Option Transaction :=
  c.txs.reverse.find? fun tx => tx.id = txid

/-! ## Receipts and beacons -/

/-- `AddTXReceipts`. -/
def addTXReceipts (c : Client) (receipts : List TXReceipt) : Client :=
  { c with txReply := c.txReply ++ receipts }

/-- One beacon of the first loop of `AddTBs`. Beyond `shardNum` the inner map of `tbs`
was never made, and writing to a nil map panics. -/
def recordTB (c : Client) (p : ℕ × ConfirmedTB) : Option Client :=
  let (shardID, tb) := p
  if shardID < c.shardNum then
    some { c with
      tbs := Function.update c.tbs shardID
        (Function.update (c.tbs shardID) tb.height (some tb))
      shardCurHeights := Function.update c.shardCurHeights shardID
        (maxU64 (c.shardCurHeights shardID) tb.height) }
  else none

/-- The first loop of `AddTBs` and the new beacon chain height. -/
def recordTBs (c : Client) (tbblock : TBBlock) : Option Client := do
  let c' ← tbblock.beacons.foldlM recordTB c
  some { c' with tbchainHeight := tbblock.height }

/-- The cross2 half of a transaction whose cross1 half is confirmed. -/
def cross2Of (c : Client) (tx : Transaction) : Transaction :=
  { tx with
    txType := .crossTXType2
    txStatus := .defaultStatus
    confirmHeight := c.tbchainHeight
    cross1ConfirmHeight := c.shardCurHeights tx.recipientSid }

/-- `processTXReceipts` on one receipt whose beacon is confirmed. A cross2 receipt of a
transaction that is no longer in the map is an error, and `log.Error` exits. -/
def processConfirmed (c : Client) (r : TXReceipt) : Option Client :=
  match r.txStatus with
  | .crossTXType1Success => do
      let tx ← c.txsMap r.txID
      some { c with
        cross2Txs := c.cross2Txs ++ [c.cross2Of tx]
        cross1ConfirmHeightMap :=
          c.cross1ConfirmHeightMap.insert r.txID (c.shardCurHeights tx.recipientSid) }
  | .crossTXType2Success =>
      if r.txID ∈ c.cross1ConfirmHeightMap then
        some { c with cross1ConfirmHeightMap := c.cross1ConfirmHeightMap.erase r.txID }
      else none
  | _ => some c

/-- Loop state of `processTXReceipts`: the client, the receipts that stay in
`tx_reply`, and the table `to_record` handed to package `result`. -/
structure ReceiptLoop where
  client : Client
  kept : List TXReceipt
  toRecord : Finmap fun _ : ℕ => TXReceipt

/-- One round of the loop of `processTXReceipts`. -/
def receiptRound (st : ReceiptLoop) (r : TXReceipt) : Option ReceiptLoop :=
  match st.client.tbs r.shardID r.blockHeight with
  | none => some { st with kept := st.kept ++ [r] }
  | some tb => do
      let c ← st.client.processConfirmed r
      some { client := c, kept := st.kept,
             toRecord := st.toRecord.insert r.txID { r with confirmTimeStamp := tb.confirmTime } }

/-- `processTXReceipts`: the client and the table it records. -/
def processTXReceipts (c : Client) : Option (Client × Finmap fun _ : ℕ => TXReceipt) := do
  let st ← c.txReply.foldlM receiptRound ⟨c, [], ∅⟩
  some ({ st.client with txReply := st.kept }, st.toRecord)

/-- One round of the loop of `checkExpiredTXs`. -/
def expireRound (st : Client × List ℕ) (txid : ℕ) : Option (Client × List ℕ) := do
  let confirmHeight ← st.1.cross1ConfirmHeightMap.lookup txid
  let tx ← st.1.txsMap txid
  if st.1.shardCurHeights tx.recipientSid > addU64 confirmHeight tx.rollbackHeight then
    some ({ st.1 with cross1ConfirmHeightMap := st.1.cross1ConfirmHeightMap.erase txid },
      st.2 ++ [txid])
  else some st

/-- `checkExpiredTXs`, visiting the keys of the map in the order `order`. -/
def checkExpiredTXs (c : Client) (order : List ℕ) : Option Client := do
  let st ← order.foldlM expireRound (c, [])
  some { st.1 with crossTxExpired := st.1.crossTxExpired ++ st.2 }

/-- `order` lists the keys of the map, each once. -/
def ListsKeys (c : Client) (order : List ℕ) : Prop :=
  order.Nodup ∧ order.toFinset = c.cross1ConfirmHeightMap.keys

instance (c : Client) (order : List ℕ) : Decidable (c.ListsKeys order) :=
  inferInstanceAs (Decidable (_ ∧ _))

/-! ## Sending -/

/-- The messages of one sender: `shardtxs[i]` collects the transactions with `sid = i`
and each of them is sent, empty or not. A shard ID outside `shardtxs` panics. -/
def shardtxs (shardNum : ℕ) (sid : Transaction → ℕ) (txs : List Transaction) :
    Option (List (ℕ × List Transaction)) :=
  if ∀ tx ∈ txs, sid tx < shardNum then
    some ((List.range shardNum).map fun i => (i, txs.filter fun tx => sid tx = i))
  else none

/-- `sendRollbackTxs`. -/
def sendRollbackTxs (c : Client) (maxTxNum2Pack : ℕ) :
    Option (Client × List (ℕ × List Transaction)) :=
  let rollbackTxSentCnt := min maxTxNum2Pack c.crossTxExpired.length
  if rollbackTxSentCnt = 0 then some (c, [])
  else do
    let txs ← (c.crossTxExpired.take rollbackTxSentCnt).mapM c.txsMap
    let msgs ← shardtxs c.shardNum (·.senderSid)
      (txs.map fun tx => { tx with txType := .rollbackTXType, txStatus := .defaultStatus })
    some ({ c with crossTxExpired := c.crossTxExpired.drop rollbackTxSentCnt }, msgs)

/-- `sendCross2Txs`. -/
def sendCross2Txs (c : Client) (maxTxNum2Pack : ℕ) :
    Option (Client × List (ℕ × List Transaction)) :=
  let cross2TxSentCnt := min maxTxNum2Pack c.cross2Txs.length
  if cross2TxSentCnt = 0 then some (c, [])
  else do
    let msgs ← shardtxs c.shardNum (·.recipientSid) (c.cross2Txs.take cross2TxSentCnt)
    some ({ c with cross2Txs := c.cross2Txs.drop cross2TxSentCnt }, msgs)

/-- What `sendPendingTxs` writes into a transaction before sending it. -/
def stamp (c : Client) (now : ℕ) (tx : Transaction) : Transaction :=
  { tx with
    txType := if tx.senderSid = tx.recipientSid then .intraTXType else .crossTXType1
    timestamp := now
    cid := c.cid }

/-- `sendPendingTxs` with `cnt = c.injectCnt`, which the caller stores its result in.
The transactions are stamped in place. -/
def sendPendingTxs (c : Client) (maxTxNum2Pack now : ℕ) :
    Option (Client × List (ℕ × List Transaction)) :=
  if maxTxNum2Pack = 0 then some (c, [])
  else do
    let upperBound := min (c.injectCnt + maxTxNum2Pack) c.txs.length
    let sent := ((c.txs.take upperBound).drop c.injectCnt).map (c.stamp now)
    let msgs ← shardtxs c.shardNum (·.senderSid) sent
    some ({ c with
        txs := c.txs.take c.injectCnt ++ sent ++ c.txs.drop upperBound
        injectCnt := upperBound }, msgs)

/-- `CanStopV2`: everything is injected. -/
def canStopV2 (c : Client) : Bool := c.injectCnt = c.txs.length

/-- `CanStopV1`: everything is injected, and the queues and the map are empty. -/
def canStopV1 (c : Client) : Bool :=
  c.txs.length = c.injectCnt ∧ c.txReply.length = 0 ∧ c.crossTxExpired.length = 0 ∧
    c.cross2Txs.length = 0 ∧ c.cross1ConfirmHeightMap.keys.card = 0

/-! ## `AddTBs` -/

/-- `AddTBs`. `AddTXReceipts` and the senders may run between its parts, in other
goroutines; each of them commutes with the part it would interrupt, so the call is one
step. -/
def addTBs (c : Client) (tbblock : TBBlock) (order : List ℕ) :
    Option (Client × Finmap fun _ : ℕ => TXReceipt) := do
  let c₁ ← c.recordTBs tbblock
  let (c₂, toRecord) ← c₁.processTXReceipts
  if c₂.ListsKeys order then
    let c₃ ← c₂.checkExpiredTXs order
    some (c₃, toRecord)
  else none

/-! ## What recording the beacons does -/

/-- With the beacons of `b` the client knows the beacon of shard `sid` at height `h`. -/
def Sees (c : Client) (b : TBBlock) (sid h : ℕ) : Prop :=
  (c.tbs sid h).isSome ∨ ∃ p ∈ b.beacons, p.1 = sid ∧ p.2.height = h

/-- With the beacons of `b` the client knows shard `sid` to be past height `h`. -/
def SeesPast (c : Client) (b : TBBlock) (sid h : ℕ) : Prop :=
  h < c.shardCurHeights sid ∨ ∃ p ∈ b.beacons, p.1 = sid ∧ h < p.2.height

instance (c : Client) (b : TBBlock) (sid h : ℕ) : Decidable (c.Sees b sid h) :=
  inferInstanceAs (Decidable (_ ∨ _))

instance (c : Client) (b : TBBlock) (sid h : ℕ) : Decidable (c.SeesPast b sid h) :=
  inferInstanceAs (Decidable (_ ∨ _))

/-- Two clients that differ at most in what they know about the shards. -/
def SameButView (c c' : Client) : Prop :=
  c' = { c with tbs := c'.tbs, shardCurHeights := c'.shardCurHeights,
                tbchainHeight := c'.tbchainHeight }

variable {c c' : Client} {msgs : List (ℕ × List Transaction)} {order : List ℕ} {maxTxNum2Pack : ℕ}

theorem recordTB_cases {p : ℕ × ConfirmedTB} (h : c.recordTB p = some c') :
    c.SameButView c' ∧
    (∀ sid ht, (c'.tbs sid ht).isSome ↔
      (c.tbs sid ht).isSome ∨ p.1 = sid ∧ p.2.height = ht) ∧
    ∀ sid, c'.shardCurHeights sid = c.shardCurHeights sid ∨
      p.1 = sid ∧ c'.shardCurHeights sid = p.2.height := by
  rcases p with ⟨shardID, tb⟩
  unfold recordTB at h
  simp only at h
  split at h
  · cases h
    refine ⟨rfl, ?_, ?_⟩
    · intro sid ht
      by_cases hsid : sid = shardID
      · subst hsid
        by_cases hht : ht = tb.height
        · simp [hht]
        · simp [hht, Ne.symm hht]
      · simp [hsid, Ne.symm hsid]
    · intro sid
      by_cases hsid : sid = shardID
      · subst hsid
        simp only [Function.update_self, maxU64]
        split
        · exact Or.inl rfl
        · exact Or.inr ⟨trivial, rfl⟩
      · simp [hsid]
  · cases h

/-- After recording, the client knows exactly what it knew and what the block holds. -/
theorem recordTBs_spec {b : TBBlock} (h : c.recordTBs b = some c') :
    c.SameButView c' ∧
    (∀ sid ht, (c'.tbs sid ht).isSome ↔ c.Sees b sid ht) ∧
    ∀ sid ht, ht < c'.shardCurHeights sid → c.SeesPast b sid ht := by
  unfold recordTBs at h
  simp only [Option.bind_eq_bind, Option.bind_eq_some_iff] at h
  rcases h with ⟨c₁, hloop, hres⟩
  cases hres
  -- the loop has recorded what `rest` does not hold any more
  have hinv := Sys.foldlM_induction
    (fun rest c₁ => (∀ p ∈ rest, p ∈ b.beacons) ∧ c.SameButView c₁ ∧
      (∀ sid ht, (c₁.tbs sid ht).isSome → c.Sees b sid ht) ∧
      (∀ sid ht, c.Sees b sid ht → (c₁.tbs sid ht).isSome ∨
        ∃ p ∈ rest, p.1 = sid ∧ p.2.height = ht) ∧
      ∀ sid ht, ht < c₁.shardCurHeights sid → c.SeesPast b sid ht)
    (by
      rintro p rest c₁ c₂ ⟨hsub, hsame, hsound, hcompl, hpast⟩ hstep
      rcases recordTB_cases hstep with ⟨hsame', htbs, hheights⟩
      have hp : p ∈ b.beacons := hsub p List.mem_cons_self
      refine ⟨fun q hq => hsub q (List.mem_cons_of_mem _ hq), ?_, ?_, ?_, ?_⟩
      · unfold SameButView at hsame hsame' ⊢
        rw [hsame', hsame]
      · intro sid ht hsome
        rcases (htbs sid ht).mp hsome with hold | hnew
        · exact hsound sid ht hold
        · exact Or.inr ⟨p, hp, hnew⟩
      · intro sid ht hsees
        rcases hcompl sid ht hsees with hold | ⟨q, hq, hqp⟩
        · exact Or.inl ((htbs sid ht).mpr (Or.inl hold))
        · rcases List.mem_cons.mp hq with rfl | hq
          · exact Or.inl ((htbs sid ht).mpr (Or.inr hqp))
          · exact Or.inr ⟨q, hq, hqp⟩
      · intro sid ht hlt
        rcases hheights sid with hold | ⟨hsid, hnew⟩
        · exact hpast sid ht (hold ▸ hlt)
        · exact Or.inr ⟨p, hp, hsid, hnew ▸ hlt⟩)
    b.beacons c c₁
    ⟨fun _ hp => hp, rfl, fun _ _ hsome => Or.inl hsome, fun _ _ hsees => hsees,
      fun _ _ hlt => Or.inl hlt⟩ hloop
  rcases hinv with ⟨-, hsame, hsound, hcompl, hpast⟩
  refine ⟨?_, fun sid ht => ⟨hsound sid ht, ?_⟩, hpast⟩
  · unfold SameButView at hsame ⊢
    rw [hsame]
  · intro hsees
    rcases hcompl sid ht hsees with hsome | ⟨p, hp, -⟩
    · exact hsome
    · cases hp

/-! ## What processing the receipts does -/

theorem id_of_txsMap {i : ℕ} {tx : Transaction} (h : c.txsMap i = some tx) :
    tx.id = i := by
  simpa using List.find?_some h

theorem processConfirmed_cases {r : TXReceipt}
    (h : c.processConfirmed r = some c') :
    (r.txStatus = .crossTXType1Success ∧ ∃ tx, c.txsMap r.txID = some tx ∧
      c' = { c with
        cross2Txs := c.cross2Txs ++ [c.cross2Of tx]
        cross1ConfirmHeightMap :=
          c.cross1ConfirmHeightMap.insert r.txID (c.shardCurHeights tx.recipientSid) }) ∨
    (r.txStatus = .crossTXType2Success ∧ r.txID ∈ c.cross1ConfirmHeightMap ∧
      c' = { c with cross1ConfirmHeightMap := c.cross1ConfirmHeightMap.erase r.txID }) ∨
    (r.txStatus ≠ .crossTXType1Success ∧ r.txStatus ≠ .crossTXType2Success ∧ c' = c) := by
  unfold processConfirmed at h
  split at h
  · rename_i hstatus
    simp only [Option.bind_eq_bind, Option.bind_eq_some_iff, Option.some.injEq] at h
    rcases h with ⟨tx, htx, rfl⟩
    exact Or.inl ⟨hstatus, tx, htx, rfl⟩
  · rename_i hstatus
    split at h
    · rename_i hmem
      cases h
      exact Or.inr (Or.inl ⟨hstatus, hmem, rfl⟩)
    · cases h
  · rename_i h1 h2
    cases h
    exact Or.inr (Or.inr ⟨h1, h2, rfl⟩)

/-- The client knows the beacon of the receipt's block. -/
def knows (c : Client) (r : TXReceipt) : Bool := (c.tbs r.shardID r.blockHeight).isSome

/-- The loop of `processTXReceipts` after the receipts in `visited`: `new` are the cross2
transactions made so far. -/
structure Visited (c : Client) (visited rest : List TXReceipt) (new : List Transaction)
    (st : ReceiptLoop) : Prop where
  split : c.txReply = visited ++ rest
  kept : st.kept = visited.filter fun r => !c.knows r
  frame : st.client = { c with
    cross2Txs := c.cross2Txs ++ new
    cross1ConfirmHeightMap := st.client.cross1ConfirmHeightMap }
  origin : ∀ e ∈ new, ∃ tx, c.txsMap e.id = some tx ∧ e = c.cross2Of tx

/-- Loop rule for `processTXReceipts`, with one case for each kind of receipt. The invariant
is about the receipts visited and still to visit, the cross2 transactions made and the map. -/
theorem processTXReceipts_induction {toRecord : Finmap fun _ : ℕ => TXReceipt}
    (P : List TXReceipt → List TXReceipt → List Transaction → (Finmap fun _ : ℕ => ℕ) → Prop)
    (hstart : P [] c.txReply [] c.cross1ConfirmHeightMap)
    (hunknown : ∀ visited r rest new map, c.knows r = false →
      P visited (r :: rest) new map → P (visited ++ [r]) rest new map)
    (hcross1 : ∀ visited r rest new map tx, c.txReply = visited ++ r :: rest →
      c.knows r = true → r.txStatus = .crossTXType1Success → c.txsMap r.txID = some tx →
      P visited (r :: rest) new map →
      P (visited ++ [r]) rest (new ++ [c.cross2Of tx])
        (map.insert r.txID (c.cross2Of tx).cross1ConfirmHeight))
    (hcross2 : ∀ visited r rest new map, c.knows r = true →
      r.txStatus = .crossTXType2Success → r.txID ∈ map → P visited (r :: rest) new map →
      P (visited ++ [r]) rest new (map.erase r.txID))
    (hother : ∀ visited r rest new map, c.knows r = true →
      r.txStatus ≠ .crossTXType1Success → r.txStatus ≠ .crossTXType2Success →
      P visited (r :: rest) new map → P (visited ++ [r]) rest new map)
    (h : c.processTXReceipts = some (c', toRecord)) :
    ∃ new : List Transaction,
      c' = { c with
        cross2Txs := c.cross2Txs ++ new
        cross1ConfirmHeightMap := c'.cross1ConfirmHeightMap
        txReply := c.txReply.filter fun r => !c.knows r } ∧
      (∀ e ∈ new, ∃ tx, c.txsMap e.id = some tx ∧ e = c.cross2Of tx) ∧
      P c.txReply [] new c'.cross1ConfirmHeightMap := by
  unfold processTXReceipts at h
  simp only [Option.bind_eq_bind, Option.bind_eq_some_iff, Option.some.injEq,
    Prod.mk.injEq] at h
  rcases h with ⟨st, hloop, rfl, rfl⟩
  have hend := Sys.foldlM_induction
    (fun rest st => ∃ visited new, Visited c visited rest new st ∧
      P visited rest new st.client.cross1ConfirmHeightMap)
    (by
      rintro r rest st st' ⟨visited, new, hv, hP⟩ hstep
      have htbs : st.client.tbs = c.tbs := by rw [hv.frame]
      have hsplit : c.txReply = visited ++ [r] ++ rest := by rw [hv.split]; simp
      unfold receiptRound at hstep
      split at hstep
      · -- the beacon is not known yet: the receipt stays
        rename_i hnone
        have hknows : c.knows r = false := by
          rw [htbs] at hnone
          simp [knows, hnone]
        cases hstep
        refine ⟨visited ++ [r], new, ⟨hsplit, ?_, hv.frame, hv.origin⟩,
          hunknown visited r rest new _ hknows hP⟩
        simp [hv.kept, hknows]
      · rename_i tb hsome
        have hknows : c.knows r = true := by
          rw [htbs] at hsome
          simp [knows, hsome]
        have hkept : st.kept = (visited ++ [r]).filter fun r => !c.knows r := by
          simp [hv.kept, hknows]
        simp only [Option.bind_eq_bind, Option.bind_eq_some_iff, Option.some.injEq] at hstep
        rcases hstep with ⟨c', hc', rfl⟩
        rcases processConfirmed_cases hc' with ⟨hstatus, tx, htx, rfl⟩ | ⟨hstatus, hmem, rfl⟩ |
          ⟨hnot1, hnot2, rfl⟩
        · have hmap : st.client.txsMap = c.txsMap := by rw [hv.frame]; rfl
          have hcross2Of : st.client.cross2Of = c.cross2Of := by rw [hv.frame]; rfl
          have hcur : st.client.shardCurHeights tx.recipientSid =
              (c.cross2Of tx).cross1ConfirmHeight := by rw [hv.frame]; rfl
          rw [hmap] at htx
          refine ⟨visited ++ [r], new ++ [c.cross2Of tx], ⟨hsplit, hkept, ?_, ?_⟩, ?_⟩
          · rw [hcross2Of, hv.frame]
            simp
          · intro e he
            rcases List.mem_append.mp he with he | he
            · exact hv.origin e he
            · rw [List.mem_singleton.mp he]
              exact ⟨tx, by rw [← htx, ← id_of_txsMap htx]; rfl, rfl⟩
          · rw [hcur]
            exact hcross1 visited r rest new _ tx hv.split hknows hstatus htx hP
        · refine ⟨visited ++ [r], new, ⟨hsplit, hkept, ?_, hv.origin⟩,
            hcross2 visited r rest new _ hknows hstatus hmem hP⟩
          rw [hv.frame]
        · exact ⟨visited ++ [r], new, ⟨hsplit, hkept, hv.frame, hv.origin⟩,
            hother visited r rest new _ hknows hnot1 hnot2 hP⟩)
    c.txReply ⟨c, [], ∅⟩ st ⟨[], [], ⟨rfl, rfl, by simp, by simp⟩, hstart⟩ hloop
  rcases hend with ⟨visited, new, hv, hP⟩
  have hall : c.txReply = visited := by simpa using hv.split
  refine ⟨new, ?_, hv.origin, hall ▸ hP⟩
  rw [hv.frame, hv.kept, hall]

/-- Cross2 receipts of transaction `i` whose beacon the client knows. -/
def ConfirmsCross2 (c : Client) (i : ℕ) (r : TXReceipt) : Prop :=
  r.txStatus = .crossTXType2Success ∧ r.txID = i ∧ (c.tbs r.shardID r.blockHeight).isSome

/-- Cross1 receipts are used up by the cross2 transactions made of them, and an entry of the
map is an old one without a cross2 receipt among those visited or belongs to a new cross2
transaction. -/
structure Processed (c : Client) (visited rest : List TXReceipt) (new : List Transaction)
    (map : Finmap fun _ : ℕ => ℕ) : Prop where
  count : ∀ i, (visited.filter fun r => !c.knows r).countP (TXReceipt.isCross1 i) +
    new.countP (·.id = i) + rest.countP (TXReceipt.isCross1 i) ≤
      c.txReply.countP (TXReceipt.isCross1 i)
  heights : ∀ i h, map.lookup i = some h →
    (c.cross1ConfirmHeightMap.lookup i = some h ∧ ∀ r ∈ visited, ¬ c.ConfirmsCross2 i r) ∨
    ∃ e ∈ new, e.id = i ∧ e.cross1ConfirmHeight = h

section Processed

variable {c : Client} {visited rest : List TXReceipt} {r : TXReceipt} {new : List Transaction}
  {map : Finmap fun _ : ℕ => ℕ} (hp : Processed c visited (r :: rest) new map)

include hp

/-- Visiting a receipt that is no cross2 receipt to an entry of the map. -/
theorem Processed.visit {i h : ℕ} (hlook : map.lookup i = some h)
    (hnot : ¬ c.ConfirmsCross2 i r) :
    (c.cross1ConfirmHeightMap.lookup i = some h ∧
      ∀ r' ∈ visited ++ [r], ¬ c.ConfirmsCross2 i r') ∨
    ∃ e ∈ new, e.id = i ∧ e.cross1ConfirmHeight = h := by
  rcases hp.heights i h hlook with ⟨hold, hnone⟩ | hnew
  · refine Or.inl ⟨hold, fun r' hr' => ?_⟩
    rcases List.mem_append.mp hr' with hr' | hr'
    · exact hnone r' hr'
    · rw [List.mem_singleton.mp hr']
      exact hnot
  · exact Or.inr hnew

theorem Processed.unknown (hknows : c.knows r = false) :
    Processed c (visited ++ [r]) rest new map := by
  refine ⟨fun i => ?_, fun i ht hlook => hp.visit hlook fun hconf => ?_⟩
  · have := hp.count i
    simp only [List.filter_append, List.filter_singleton, hknows, List.countP_append,
      List.countP_cons, List.countP_nil, Bool.not_false, cond_true] at this ⊢
    omega
  · exact absurd hconf.2.2 (by simpa [knows] using hknows)

/-- A receipt of a known block leaves `tx_reply`. -/
theorem Processed.count_known (hknows : c.knows r = true) (i : ℕ) :
    ((visited ++ [r]).filter fun r => !c.knows r).countP (TXReceipt.isCross1 i) +
        new.countP (·.id = i) + (if r.isCross1 i then 1 else 0) +
        rest.countP (TXReceipt.isCross1 i) ≤
      c.txReply.countP (TXReceipt.isCross1 i) := by
  have := hp.count i
  simp only [List.filter_append, List.filter_singleton, hknows, Bool.not_true, cond_false,
    List.append_nil, List.countP_cons] at this ⊢
  omega

/-- One more cross2 transaction, under the ID of the receipt. -/
theorem Processed.cross1 {tx : Transaction} (hknows : c.knows r = true)
    (hstatus : r.txStatus = .crossTXType1Success) (htx : c.txsMap r.txID = some tx) :
    Processed c (visited ++ [r]) rest (new ++ [c.cross2Of tx])
      (map.insert r.txID (c.cross2Of tx).cross1ConfirmHeight) := by
  have hid : (c.cross2Of tx).id = r.txID := id_of_txsMap htx ▸ rfl
  refine ⟨fun i => ?_, fun i ht hlook => ?_⟩
  · have := hp.count_known hknows i
    simp only [List.countP_append, List.countP_cons, List.countP_nil, TXReceipt.isCross1,
      hstatus, hid, true_and] at this ⊢
    omega
  · by_cases hi : i = r.txID
    · subst hi
      rw [Finmap.lookup_insert, Option.some.injEq] at hlook
      exact Or.inr ⟨c.cross2Of tx, by simp, hid, hlook⟩
    · rw [Finmap.lookup_insert_of_ne _ hi] at hlook
      refine (hp.visit hlook fun hconf => hi hconf.2.1.symm).imp_right ?_
      rintro ⟨e, he, hei⟩
      exact ⟨e, List.mem_append_left _ he, hei⟩

theorem Processed.cross2 (hknows : c.knows r = true) :
    Processed c (visited ++ [r]) rest new (map.erase r.txID) := by
  refine ⟨fun i => ?_, fun i ht hlook => ?_⟩
  · have := hp.count_known hknows i
    omega
  · have hi : i ≠ r.txID := by
      rintro rfl
      simp at hlook
    rw [Finmap.lookup_erase_ne hi] at hlook
    exact hp.visit hlook fun hconf => hi hconf.2.1.symm

theorem Processed.other (hknows : c.knows r = true)
    (hnot2 : r.txStatus ≠ .crossTXType2Success) : Processed c (visited ++ [r]) rest new map := by
  refine ⟨fun i => ?_, fun i ht hlook => hp.visit hlook fun hconf => hnot2 hconf.1⟩
  have := hp.count_known hknows i
  omega

end Processed

/-- What `processTXReceipts` does: it makes the cross2 transactions `new` out of cross1
receipts, and an entry that stays in the map belongs to a transaction without a confirmed
cross2 receipt. -/
theorem processTXReceipts_spec {toRecord : Finmap fun _ : ℕ => TXReceipt}
    (h : c.processTXReceipts = some (c', toRecord)) :
    ∃ new : List Transaction,
      c' = { c with
        cross2Txs := c.cross2Txs ++ new
        cross1ConfirmHeightMap := c'.cross1ConfirmHeightMap
        txReply := c'.txReply } ∧
      (∀ i, c'.txReply.countP (TXReceipt.isCross1 i) + new.countP (·.id = i) ≤
        c.txReply.countP (TXReceipt.isCross1 i)) ∧
      (∀ e ∈ new, ∃ tx, c.txsMap e.id = some tx ∧ e = c.cross2Of tx) ∧
      ∀ i h, c'.cross1ConfirmHeightMap.lookup i = some h →
        (c.cross1ConfirmHeightMap.lookup i = some h ∧ ∀ r ∈ c.txReply, ¬ c.ConfirmsCross2 i r) ∨
        ∃ e ∈ new, e.id = i ∧ e.cross1ConfirmHeight = h := by
  have hstart : Processed c [] c.txReply [] c.cross1ConfirmHeightMap :=
    ⟨by simp, fun i ht hlook => Or.inl ⟨hlook, by simp⟩⟩
  rcases processTXReceipts_induction (Processed c) hstart
    (fun _ _ _ _ _ hknows hp => hp.unknown hknows)
    (fun _ _ _ _ _ _ _ hknows hstatus htx hp => hp.cross1 hknows hstatus htx)
    (fun _ _ _ _ _ hknows _ _ hp => hp.cross2 hknows)
    (fun _ _ _ _ _ hknows _ hnot2 hp => hp.other hknows hnot2) h with
    ⟨new, hframe, horigin, hcount, hheights⟩
  refine ⟨new, ?_, ?_, horigin, hheights⟩
  · rw [hframe]
  · intro i
    rw [hframe]
    simpa using hcount i

/-! ## What the timeout check does -/

/-- Transaction `i` is expired in the view of `c`. -/
def Expired (c : Client) (i : ℕ) : Prop :=
  ∃ h tx, c.cross1ConfirmHeightMap.lookup i = some h ∧ c.txsMap i = some tx ∧
    addU64 h tx.rollbackHeight < c.shardCurHeights tx.recipientSid

/-- Loop rule for `checkExpiredTXs`: the invariant is about the map and the transactions that
were moved from it to `cross_tx_expired`. -/
theorem checkExpiredTXs_induction (P : (Finmap fun _ : ℕ => ℕ) → List ℕ → Prop)
    (hstart : P c.cross1ConfirmHeightMap [])
    (hexpire : ∀ map expired i, i ∈ map → P map expired → P (map.erase i) (expired ++ [i]))
    (h : c.checkExpiredTXs order = some c') :
    ∃ expired : List ℕ,
      c' = { c with
        cross1ConfirmHeightMap := c'.cross1ConfirmHeightMap
        crossTxExpired := c.crossTxExpired ++ expired } ∧
      (∀ i ∈ expired, c.Expired i) ∧
      (∀ i h, c'.cross1ConfirmHeightMap.lookup i = some h →
        c.cross1ConfirmHeightMap.lookup i = some h) ∧
      P c'.cross1ConfirmHeightMap expired := by
  unfold checkExpiredTXs at h
  simp only [Option.bind_eq_bind, Option.bind_eq_some_iff, Option.some.injEq] at h
  rcases h with ⟨st, hloop, rfl⟩
  have hinv := Sys.foldlM_invariant
    (fun st : Client × List ℕ =>
      st.1 = { c with cross1ConfirmHeightMap := st.1.cross1ConfirmHeightMap } ∧
      (∀ i ∈ st.2, c.Expired i) ∧
      (∀ i h, st.1.cross1ConfirmHeightMap.lookup i = some h →
        c.cross1ConfirmHeightMap.lookup i = some h) ∧
      P st.1.cross1ConfirmHeightMap st.2)
    (by
      rintro txid - st st' ⟨hframe, hexp, hsub, hP⟩ hstep
      simp only [expireRound, Option.bind_eq_bind, Option.bind_eq_some_iff] at hstep
      rcases hstep with ⟨confirmHeight, hlook, tx, htx, hres⟩
      -- the loop deletes from the map it ranges over, and from nothing else
      have hmap : st.1.txsMap = c.txsMap := by rw [hframe]; rfl
      have hcur : st.1.shardCurHeights = c.shardCurHeights := by rw [hframe]
      split at hres
      · rename_i hlt
        cases hres
        refine ⟨by rw [hframe], ?_, ?_, ?_⟩
        · intro i hi
          rcases List.mem_append.mp hi with hi | hi
          · exact hexp i hi
          · rw [List.mem_singleton.mp hi]
            exact ⟨confirmHeight, tx, hsub _ _ hlook, hmap ▸ htx, hcur ▸ hlt⟩
        · intro i ht hi
          have hne : i ≠ txid := by
            rintro rfl
            simp at hi
          rw [Finmap.lookup_erase_ne hne] at hi
          exact hsub i ht hi
        · exact hexpire _ _ txid (Finmap.mem_of_lookup_eq_some hlook) hP
      · cases hres
        exact ⟨hframe, hexp, hsub, hP⟩)
    (show c = _ ∧ _ ∧ _ ∧ _ from ⟨rfl, by simp, fun _ _ hlook => hlook, hstart⟩) hloop
  rcases hinv with ⟨hframe, hexp, hsub, hP⟩
  refine ⟨st.2, ?_, hexp, hsub, hP⟩
  show { st.1 with crossTxExpired := st.1.crossTxExpired ++ st.2 } = _
  rw [hframe]

/-- `checkExpiredTXs` moves expired transactions from the map to `cross_tx_expired`. -/
theorem checkExpiredTXs_spec (h : c.checkExpiredTXs order = some c') :
    ∃ expired : List ℕ,
      c' = { c with
        cross1ConfirmHeightMap := c'.cross1ConfirmHeightMap
        crossTxExpired := c.crossTxExpired ++ expired } ∧
      (∀ i ∈ expired, c.Expired i) ∧
      ∀ i h, c'.cross1ConfirmHeightMap.lookup i = some h →
        c.cross1ConfirmHeightMap.lookup i = some h := by
  rcases checkExpiredTXs_induction (fun _ _ => True) trivial (fun _ _ _ _ _ => trivial) h with
    ⟨expired, hframe, hexp, hsub, -⟩
  exact ⟨expired, hframe, hexp, hsub⟩

/-- What `AddTBs` does, seen from the client before it: `new` cross2 transactions are made
out of cross1 receipts, and the IDs in `expired` are given up. -/
theorem addTBs_spec {b : TBBlock}
    {toRecord : Finmap fun _ : ℕ => TXReceipt} (h : c.addTBs b order = some (c', toRecord)) :
    ∃ (new : List Transaction) (expired : List ℕ),
      c' = { c with
        cross2Txs := c.cross2Txs ++ new
        cross1ConfirmHeightMap := c'.cross1ConfirmHeightMap
        crossTxExpired := c.crossTxExpired ++ expired
        txReply := c'.txReply
        tbs := c'.tbs
        shardCurHeights := c'.shardCurHeights
        tbchainHeight := c'.tbchainHeight } ∧
      (∀ sid ht, ht < c'.shardCurHeights sid → c.SeesPast b sid ht) ∧
      (∀ i, c'.txReply.countP (TXReceipt.isCross1 i) + new.countP (·.id = i) ≤
        c.txReply.countP (TXReceipt.isCross1 i)) ∧
      (∀ e ∈ new, e.txType = .crossTXType2 ∧ ∃ tx, c.txsMap e.id = some tx ∧
        tx.recipientSid = e.recipientSid ∧ tx.rollbackHeight = e.rollbackHeight) ∧
      (∀ i h, c'.cross1ConfirmHeightMap.lookup i = some h →
        c.cross1ConfirmHeightMap.lookup i = some h ∨
          ∃ e ∈ new, e.id = i ∧ e.cross1ConfirmHeight = h) ∧
      ∀ i ∈ expired, ∃ h tx, c.txsMap i = some tx ∧
        addU64 h tx.rollbackHeight < c'.shardCurHeights tx.recipientSid ∧
        ((c.cross1ConfirmHeightMap.lookup i = some h ∧
          ∀ r ∈ c.txReply, r.txStatus = .crossTXType2Success → r.txID = i →
            ¬ c.Sees b r.shardID r.blockHeight) ∨
          ∃ e ∈ new, e.id = i ∧ e.cross1ConfirmHeight = h) := by
  simp only [addTBs, Option.bind_eq_bind, Option.bind_eq_some_iff, Prod.exists] at h
  rcases h with ⟨c₁, hrecord, c₂, toRecord', hprocess, hcheck⟩
  split at hcheck
  · simp only [Option.bind_eq_some_iff, Option.some.injEq, Prod.mk.injEq] at hcheck
    rcases hcheck with ⟨c₃, hexpire, rfl, rfl⟩
    rcases recordTBs_spec hrecord with ⟨hsame, htbs, hheights⟩
    rcases processTXReceipts_spec hprocess with ⟨new, hframe₂, hcount, horigin, hmap⟩
    rcases checkExpiredTXs_spec hexpire with ⟨expired, hframe₃, hexp, hsub⟩
    unfold SameButView at hsame
    -- what each of the three parts leaves alone
    have htxs : c₁.txsMap = c.txsMap ∧ c₂.txsMap = c.txsMap := by
      constructor
      · rw [hsame]; rfl
      · rw [hframe₂, hsame]; rfl
    have hold : c₁.cross1ConfirmHeightMap = c.cross1ConfirmHeightMap ∧
        c₁.txReply = c.txReply := by
      rw [hsame]
      exact ⟨rfl, rfl⟩
    have hview : c₃.shardCurHeights = c₁.shardCurHeights ∧
        c₂.shardCurHeights = c₁.shardCurHeights ∧ c₃.txReply = c₂.txReply := by
      rw [hframe₃, hframe₂]
      exact ⟨rfl, rfl, rfl⟩
    rw [hold.2] at hcount
    refine ⟨new, expired, ?_, ?_, ?_, ?_, ?_, ?_⟩
    · rw [hframe₃, hframe₂, hsame]
    · rw [hview.1]
      exact hheights
    · rw [hview.2.2]
      exact hcount
    · intro e he
      rcases horigin e he with ⟨tx, htx, heq⟩
      refine ⟨by rw [heq]; rfl, tx, htxs.1 ▸ htx, ?_, ?_⟩
      · rw [heq]; rfl
      · rw [heq]; rfl
    · intro i ht hlook
      rcases hmap i ht (hsub i ht hlook) with ⟨hin, -⟩ | hnew
      · exact Or.inl (hold.1 ▸ hin)
      · exact Or.inr hnew
    · intro i hi
      rcases hexp i hi with ⟨ht, tx, hlook, htx, hlt⟩
      refine ⟨ht, tx, htxs.2 ▸ htx, by rw [hview.1, ← hview.2.1]; exact hlt, ?_⟩
      -- the height the timeout is measured from: an old entry that no cross2 receipt has
      -- removed before the check, or one of this very call
      rcases hmap i ht hlook with ⟨hin, hnone⟩ | hnew
      · refine Or.inl ⟨hold.1 ▸ hin, fun r hr hstatus hid hsees => ?_⟩
        rw [hold.2] at hnone
        exact hnone r hr ⟨hstatus, hid, (htbs _ _).mpr hsees⟩
      · exact Or.inr hnew
  · cases hcheck

/-! ## What the senders send -/

theorem shardtxs_spec {shardNum : ℕ} {sid : Transaction → ℕ} {txs : List Transaction}
    (h : shardtxs shardNum sid txs = some msgs) :
    (∀ m ∈ msgs, m.1 < shardNum ∧ ∀ tx ∈ m.2, tx ∈ txs ∧ sid tx = m.1) ∧
    ∀ p : Transaction → Bool, (msgs.map fun m => m.2.countP p).sum ≤ txs.countP p := by
  unfold shardtxs at h
  split at h
  · cases h
    constructor
    · intro m hm
      rcases List.mem_map.mp hm with ⟨i, hi, rfl⟩
      refine ⟨List.mem_range.mp hi, ?_⟩
      intro tx htx
      simpa using htx
    · intro p
      rw [List.map_map]
      exact Sys.sum_countP_filter_le p sid txs List.nodup_range
  · cases h

/-- `sendRollbackTxs` sends rollbacks of expired transactions, to their source shards. -/
theorem sendRollbackTxs_spec (h : c.sendRollbackTxs maxTxNum2Pack = some (c', msgs)) :
    c' = { c with crossTxExpired := c'.crossTxExpired } ∧
    (∀ i ∈ c'.crossTxExpired, i ∈ c.crossTxExpired) ∧
    ∀ m ∈ msgs, m.1 < c.shardNum ∧ ∀ tx ∈ m.2, tx.txType = .rollbackTXType ∧
      tx.id ∈ c.crossTxExpired := by
  unfold sendRollbackTxs at h
  simp only at h
  split at h
  · cases h
    exact ⟨rfl, fun _ hi => hi, by simp⟩
  · simp only [Option.bind_eq_bind, Option.bind_eq_some_iff, Option.some.injEq,
      Prod.mk.injEq] at h
    rcases h with ⟨txs, htxs, ms, hms, rfl, rfl⟩
    refine ⟨rfl, fun i hi => List.mem_of_mem_drop hi, ?_⟩
    intro m hm
    rcases (shardtxs_spec hms).1 m hm with ⟨hlt, hmem⟩
    refine ⟨hlt, fun tx htx => ?_⟩
    rcases List.mem_map.mp (hmem tx htx).1 with ⟨tx₀, htx₀, rfl⟩
    rcases Sys.exists_of_mem_mapM htxs tx₀ htx₀ with ⟨i, hi, hlook⟩
    refine ⟨rfl, ?_⟩
    rw [← id_of_txsMap hlook] at hi
    exact List.mem_of_mem_take hi

/-- `sendCross2Txs` sends queued cross2 transactions, to their recipient shards. -/
theorem sendCross2Txs_spec (h : c.sendCross2Txs maxTxNum2Pack = some (c', msgs)) :
    c' = { c with cross2Txs := c'.cross2Txs } ∧
    (∀ tx ∈ c'.cross2Txs, tx ∈ c.cross2Txs) ∧
    ∀ m ∈ msgs, m.1 < c.shardNum ∧ ∀ tx ∈ m.2, tx ∈ c.cross2Txs ∧ tx.recipientSid = m.1 := by
  unfold sendCross2Txs at h
  simp only at h
  split at h
  · cases h
    exact ⟨rfl, fun _ hi => hi, by simp⟩
  · simp only [Option.bind_eq_bind, Option.bind_eq_some_iff, Option.some.injEq,
      Prod.mk.injEq] at h
    rcases h with ⟨ms, hms, rfl, rfl⟩
    refine ⟨rfl, fun i hi => List.mem_of_mem_drop hi, ?_⟩
    intro m hm
    rcases (shardtxs_spec hms).1 m hm with ⟨hlt, hmem⟩
    exact ⟨hlt, fun tx htx => ⟨List.mem_of_mem_take (hmem tx htx).1, (hmem tx htx).2⟩⟩

/-- The same transfer up to what `sendPendingTxs` writes. -/
def SameTransfer (a b : Transaction) : Prop :=
  b = { a with txType := b.txType, timestamp := b.timestamp, cid := b.cid }

/-- Stamping keeps the transfers `txs_map` points to. -/
theorem txsMap_of_forall₂ (h : List.Forall₂ SameTransfer c.txs c'.txs) {i : ℕ}
    {tx : Transaction} (htx : c.txsMap i = some tx) :
    ∃ tx', c'.txsMap i = some tx' ∧ SameTransfer tx tx' := by
  apply Sys.find?_forall₂ _ (List.forall₂_reverse_iff.mpr h) htx
  intro a b hab
  rw [hab]

/-- `sendPendingTxs` sends first halves of the next transactions, each to one shard. -/
theorem sendPendingTxs_spec {now : ℕ}
    (h : c.sendPendingTxs maxTxNum2Pack now = some (c', msgs))
    (hcnt : c.injectCnt ≤ c.txs.length) :
    c' = { c with txs := c'.txs, injectCnt := c'.injectCnt } ∧
    c'.injectCnt ≤ c'.txs.length ∧
    List.Forall₂ SameTransfer c.txs c'.txs ∧
    (∀ m ∈ msgs, m.1 < c.shardNum ∧
      ∀ tx ∈ m.2, tx.txType = .intraTXType ∨ tx.txType = .crossTXType1) ∧
    ∀ i, (msgs.map fun m => m.2.countP (·.id = i)).sum +
        (c'.txs.drop c'.injectCnt).countP (·.id = i) ≤
      (c.txs.drop c.injectCnt).countP (·.id = i) := by
  have hsame : ∀ l : List Transaction, List.Forall₂ SameTransfer l l :=
    fun l => List.forall₂_same.mpr fun _ _ => rfl
  unfold sendPendingTxs at h
  split at h
  · cases h
    exact ⟨rfl, hcnt, hsame _, by simp, by simp⟩
  · simp only [Option.bind_eq_bind, Option.bind_eq_some_iff, Option.some.injEq,
      Prod.mk.injEq] at h
    rcases h with ⟨ms, hms, rfl, rfl⟩
    -- the queue in three parts: sent before, sent now, sent later
    generalize hu : min (c.injectCnt + maxTxNum2Pack) c.txs.length = upperBound at hms ⊢
    have hle : c.injectCnt ≤ upperBound ∧ upperBound ≤ c.txs.length := by omega
    generalize hmid : (c.txs.take upperBound).drop c.injectCnt = mid at hms ⊢
    have htake : c.txs.take c.injectCnt ++ mid = c.txs.take upperBound := by
      rw [← List.take_append_drop c.injectCnt (c.txs.take upperBound), hmid, List.take_take,
        Nat.min_eq_left hle.1]
    have hsplit : c.txs = c.txs.take c.injectCnt ++ (mid ++ c.txs.drop upperBound) := by
      rw [← List.append_assoc, htake, List.take_append_drop]
    have hlen : (c.txs.take c.injectCnt).length = c.injectCnt := by
      rw [List.length_take, Nat.min_eq_left hcnt]
    have hlen' : (c.txs.take c.injectCnt ++ mid.map (c.stamp now)).length = upperBound := by
      have := congrArg List.length htake
      rw [List.length_append, List.length_take, List.length_take] at this
      rw [List.length_append, List.length_map, List.length_take]
      omega
    have hstamp : ∀ p : Transaction → Bool, (∀ tx, p (c.stamp now tx) = p tx) →
        (mid.map (c.stamp now)).countP p = mid.countP p := by
      intro p hp
      rw [List.countP_map]
      exact List.countP_congr fun tx _ => by simp [hp]
    refine ⟨rfl, ?_, ?_, ?_, ?_⟩
    · simp only [List.length_append] at hlen' ⊢
      omega
    · show List.Forall₂ SameTransfer c.txs
        (c.txs.take c.injectCnt ++ mid.map (c.stamp now) ++ c.txs.drop upperBound)
      rw [List.append_assoc]
      nth_rewrite 1 [hsplit]
      refine List.rel_append (hsame _) (List.rel_append ?_ (hsame _))
      exact List.forall₂_map_right_iff.mpr (List.forall₂_same.mpr fun _ _ => rfl)
    · intro m hm
      rcases (shardtxs_spec hms).1 m hm with ⟨hlt, hmem⟩
      refine ⟨hlt, fun tx htx => ?_⟩
      rcases List.mem_map.mp (hmem tx htx).1 with ⟨tx₀, -, rfl⟩
      unfold stamp
      by_cases heq : tx₀.senderSid = tx₀.recipientSid
      · exact Or.inl (by simp [heq])
      · exact Or.inr (by simp [heq])
    · intro i
      have hmsgs := (shardtxs_spec hms).2 (·.id = i)
      rw [hstamp _ fun _ => rfl] at hmsgs
      have hrest : c.txs.drop c.injectCnt = mid ++ c.txs.drop upperBound := by
        nth_rewrite 1 [hsplit]
        exact List.drop_left' hlen
      show _ + List.countP _ ((c.txs.take c.injectCnt ++ mid.map (c.stamp now) ++
        c.txs.drop upperBound).drop upperBound) ≤ _
      rw [List.drop_left' hlen', hrest, List.countP_append]
      omega

end Client

end LessChain
