import LessChain.Lib.Machine
import LessChain.Client.Client

/-!
# The life of a cross-shard transaction at the client

The client over whole runs: receipts and beacon blocks come in, the senders empty the queues.
`Ledger` ties `cross1_confirm_height_map` to the receipts that were processed, the cross2
transactions that were made of them and the transactions given up; it is kept by each round
of the two loops of `AddTBs`.

What a run has done is kept beside the client: the receipts it was `given` and has
`processed`, the beacons it has `received`, and with each transaction that was `enqueued` or
has expired what was known at that time. Heights are compared as `int` and added as `uint64`,
and the claims about heights hold as long as no number is too large for that (`moderate`);
`huge_heights` is a run with numbers that are.
-/

namespace LessChain

namespace Lifecycle

/-- Receipts of the cross2 half of transaction `i`. -/
def isCross2 (i : ℕ) (r : TXReceipt) : Bool :=
  r.txStatus = .crossTXType2Success ∧ r.txID = i

/-- The transactions with a cross1 receipt, in the order of the receipts. -/
def cross1Ids (receipts : List TXReceipt) : List ℕ :=
  (receipts.filter fun r => r.txStatus = .crossTXType1Success).map (·.txID)

/-- The greatest height of a beacon of the shard, and 0 if there is none. -/
def greatestHeight (received : List (ℕ × ConfirmedTB)) (shardID : ℕ) : ℕ :=
  (received.filter fun p => p.1 = shardID).foldl (fun h p => max h p.2.height) 0

/-- A cross2 transaction, and the beacons received when it was put into `cross2_txs`. -/
structure Enqueued where
  tx : Transaction
  received : List (ℕ × ConfirmedTB)

/-- A transaction that was put into `cross_tx_expired`, with the beacons received and the
receipts processed by then. -/
structure Expiry where
  txid : ℕ
  received : List (ℕ × ConfirmedTB)
  processed : List TXReceipt

structure State where
  client : Client
  given : List TXReceipt
  received : List (ℕ × ConfirmedTB)
  processed : List TXReceipt
  enqueued : List Enqueued
  expiries : List Expiry

inductive Event where
  | addTXReceipts (receipts : List TXReceipt)
  | addTBs (tbblock : TBBlock) (order : List ℕ)
  | sendRollbackTxs (maxTxNum2Pack : ℕ)
  | sendCross2Txs (maxTxNum2Pack : ℕ)
  | sendPendingTxs (maxTxNum2Pack now : ℕ)

/-- No transaction has two cross1 receipts. -/
def addTXReceipts (s : State) (receipts : List TXReceipt) : Option State :=
  if (cross1Ids (s.given ++ receipts)).Nodup then
    some { s with
      client := s.client.addTXReceipts receipts
      given := s.given ++ receipts }
  else none

/-- The receipts of `tx_reply` whose beacon is known afterwards are those it processes; it
only appends to the two queues. -/
def addTBs (s : State) (tbblock : TBBlock) (order : List ℕ) : Option State := do
  let (client, _) ← s.client.addTBs tbblock order
  let received := s.received ++ tbblock.beacons
  let processed := s.processed ++
    s.client.txReply.filter fun r => (client.tbs r.shardID r.blockHeight).isSome
  some { s with
    client := client
    received := received
    processed := processed
    enqueued := s.enqueued ++
      (client.cross2Txs.drop s.client.cross2Txs.length).map fun tx => ⟨tx, received⟩
    expiries := s.expiries ++
      (client.crossTxExpired.drop s.client.crossTxExpired.length).map
        fun txid => ⟨txid, received, processed⟩ }

def step (s : State) : Event → Option State
  | .addTXReceipts receipts => addTXReceipts s receipts
  | .addTBs tbblock order => addTBs s tbblock order
  | .sendRollbackTxs k => (s.client.sendRollbackTxs k).map fun x => { s with client := x.1 }
  | .sendCross2Txs k => (s.client.sendCross2Txs k).map fun x => { s with client := x.1 }
  | .sendPendingTxs k now =>
      (s.client.sendPendingTxs k now).map fun x => { s with client := x.1 }

/-- A client that has loaded its transactions. -/
def start (id : ℕ) (rollbackHeight : ℤ) (shardNum : ℕ) (txs : List Transaction) : State where
  client := (newClient id rollbackHeight shardNum).addtxs txs
  given := []
  received := []
  processed := []
  enqueued := []
  expiries := []

def machine : Sys.Machine State Event :=
  ⟨fun s => ∃ id rollbackHeight shardNum txs, s = start id rollbackHeight shardNum txs, step⟩

/-- The queues and the map are consistent with what has come in. -/
structure State.Consistent (s : State) : Prop where
  enqueuedOnce : (s.enqueued.map (·.tx.id)).Nodup
  expiredOnce : (s.expiries.map (·.txid)).Nodup
  mem_map : ∀ i, i ∈ s.client.cross1ConfirmHeightMap ↔
    (∃ r ∈ s.processed, r.isCross1 i = true) ∧ (¬ ∃ r ∈ s.processed, isCross2 i r = true) ∧
      i ∉ s.expiries.map (·.txid)
  recorded : ∀ e ∈ s.enqueued, ∀ h, s.client.cross1ConfirmHeightMap.lookup e.tx.id = some h →
    e.tx.cross1ConfirmHeight = h
  greatest : ∀ e ∈ s.enqueued,
    e.tx.cross1ConfirmHeight = greatestHeight e.received e.tx.recipientSid
  expired : ∀ x ∈ s.expiries, (∃ e ∈ s.enqueued, e.tx.id = x.txid ∧
      ∃ p ∈ x.received, p.1 = e.tx.recipientSid ∧
        e.tx.cross1ConfirmHeight + e.tx.rollbackHeight < p.2.height) ∧
    ¬ ∃ r ∈ x.processed, isCross2 x.txid r = true

/-- The numbers are such that signed comparison and 64-bit addition are the usual ones. -/
def moderate (s : State) : Event → Prop
  | .addTBs tbblock _ =>
      (0 ≤ s.client.rollbackHeight ∧ s.client.rollbackHeight < 2 ^ 63) ∧
        ∀ p ∈ tbblock.beacons, p.2.height < 2 ^ 63
  | _ => True

instance (s : State) (ev : Event) : Decidable (moderate s ev) := by
  unfold moderate
  split <;> infer_instance

/-! ## The ledger -/

/-- `processed` receipts, `enqueued` cross2 transactions and `expired` transactions, and what
the map holds with them. -/
structure Ledger (map : Finmap fun _ : ℕ => ℕ) (processed : List TXReceipt)
    (enqueued : List Transaction) (expired : List ℕ) : Prop where
  enqueued_ids : enqueued.map (·.id) = cross1Ids processed
  mem_map : ∀ i, i ∈ map ↔
    (∃ r ∈ processed, r.isCross1 i = true) ∧ (¬ ∃ r ∈ processed, isCross2 i r = true) ∧
      i ∉ expired
  cross1_first : ∀ i, (∃ r ∈ processed, isCross2 i r = true) ∨ i ∈ expired →
    ∃ r ∈ processed, r.isCross1 i = true
  recorded : ∀ e ∈ enqueued, ∀ h, map.lookup e.id = some h → e.cross1ConfirmHeight = h
  nodup_expired : expired.Nodup

theorem mem_cross1Ids {receipts : List TXReceipt} {i : ℕ} :
    i ∈ cross1Ids receipts ↔ ∃ r ∈ receipts, r.isCross1 i = true := by
  simp [cross1Ids, TXReceipt.isCross1, and_assoc]

theorem cross1Ids_append (l l' : List TXReceipt) :
    cross1Ids (l ++ l') = cross1Ids l ++ cross1Ids l' := by
  simp [cross1Ids]

theorem exists_mem_append_single {α : Type} {p : α → Prop} {l : List α} {a : α} :
    (∃ x ∈ l ++ [a], p x) ↔ (∃ x ∈ l, p x) ∨ p a := by
  simp [or_and_right, exists_or]

section Ledger

variable {map : Finmap fun _ : ℕ => ℕ} {processed : List TXReceipt}
  {enqueued : List Transaction} {expired : List ℕ} {r : TXReceipt}

/-- A transaction without a cross1 receipt has left no trace. -/
theorem Ledger.fresh (h : Ledger map processed enqueued expired) {i : ℕ}
    (hnew : ¬ ∃ r ∈ processed, r.isCross1 i = true) :
    i ∉ map ∧ (¬ ∃ r ∈ processed, isCross2 i r = true) ∧ i ∉ expired := by
  refine ⟨?_, ?_, ?_⟩
  · exact fun hmem => hnew ((h.mem_map i).mp hmem).1
  · exact fun hcross2 => hnew (h.cross1_first i (.inl hcross2))
  · exact fun hexpired => hnew (h.cross1_first i (.inr hexpired))

/-- The first cross1 receipt of a transaction. -/
theorem Ledger.cross1 (h : Ledger map processed enqueued expired) {e : Transaction}
    (hstatus : r.txStatus = .crossTXType1Success)
    (hnew : ¬ ∃ r' ∈ processed, r'.isCross1 r.txID = true) (hid : e.id = r.txID) :
    Ledger (map.insert r.txID e.cross1ConfirmHeight) (processed ++ [r]) (enqueued ++ [e])
      expired := by
  have hcross1 : ∀ i, r.isCross1 i = true ↔ r.txID = i := by
    simp [TXReceipt.isCross1, hstatus]
  have hcross2 : ∀ i, ¬ isCross2 i r = true := by
    simp [isCross2, hstatus]
  obtain ⟨-, hno2, hnoexp⟩ := h.fresh hnew
  constructor
  · rw [List.map_append, cross1Ids_append, h.enqueued_ids]
    simp [cross1Ids, hstatus, hid]
  · intro i
    rw [Finmap.mem_insert, exists_mem_append_single, exists_mem_append_single, hcross1, h.mem_map]
    simp only [hcross2, Bool.false_eq_true, or_false]
    by_cases hi : r.txID = i
    · subst hi
      simp [hno2, hnoexp]
    · simp [hi, Ne.symm hi]
  · intro i hi
    rw [exists_mem_append_single] at hi ⊢
    simp only [hcross2, Bool.false_eq_true, or_false] at hi
    exact .inl (h.cross1_first i hi)
  · intro e' he' ht hlook
    obtain he' | he' := List.mem_append.mp he'
    · -- an earlier cross2 transaction has another ID
      have hne : e'.id ≠ r.txID := by
        intro heq
        have hmem : e'.id ∈ cross1Ids processed := h.enqueued_ids ▸ List.mem_map_of_mem he'
        exact hnew (mem_cross1Ids.mp (heq ▸ hmem))
      rw [Finmap.lookup_insert_of_ne _ hne] at hlook
      exact h.recorded e' he' ht hlook
    · rw [List.mem_singleton.mp he', hid, Finmap.lookup_insert] at hlook
      rw [List.mem_singleton.mp he']
      exact Option.some.inj hlook
  · exact h.nodup_expired

/-- Erasing an entry leaves the heights of the others. -/
theorem Ledger.recorded_erase (h : Ledger map processed enqueued expired) (i : ℕ) :
    ∀ e ∈ enqueued, ∀ ht, (map.erase i).lookup e.id = some ht → e.cross1ConfirmHeight = ht := by
  intro e he ht hlook
  have hne : e.id ≠ i := by
    rintro rfl
    simp at hlook
  rw [Finmap.lookup_erase_ne hne] at hlook
  exact h.recorded e he ht hlook

/-- The cross2 receipt of a transaction in the map. -/
theorem Ledger.cross2 (h : Ledger map processed enqueued expired)
    (hstatus : r.txStatus = .crossTXType2Success) (hmem : r.txID ∈ map) :
    Ledger (map.erase r.txID) (processed ++ [r]) enqueued expired := by
  have hcross1 : ∀ i, ¬ r.isCross1 i = true := by
    simp [TXReceipt.isCross1, hstatus]
  have hcross2 : ∀ i, isCross2 i r = true ↔ r.txID = i := by
    simp [isCross2, hstatus]
  constructor
  · rw [h.enqueued_ids, cross1Ids_append]
    simp [cross1Ids, hstatus]
  · intro i
    rw [Finmap.mem_erase, exists_mem_append_single, exists_mem_append_single, hcross2, h.mem_map]
    simp only [hcross1, Bool.false_eq_true, or_false]
    by_cases hi : r.txID = i
    · simp [hi]
    · simp [hi, Ne.symm hi]
  · intro i hi
    rw [exists_mem_append_single] at hi ⊢
    rw [hcross2] at hi
    left
    obtain (hi | rfl) | hi := hi
    · exact h.cross1_first i (.inl hi)
    · exact ((h.mem_map _).mp hmem).1
    · exact h.cross1_first i (.inr hi)
  · exact h.recorded_erase r.txID
  · exact h.nodup_expired

/-- A receipt of another kind. -/
theorem Ledger.other (h : Ledger map processed enqueued expired)
    (hnot1 : r.txStatus ≠ .crossTXType1Success) (hnot2 : r.txStatus ≠ .crossTXType2Success) :
    Ledger map (processed ++ [r]) enqueued expired := by
  have hcross1 : ∀ i, ¬ r.isCross1 i = true := by
    simp [TXReceipt.isCross1, hnot1]
  have hcross2 : ∀ i, ¬ isCross2 i r = true := by
    simp [isCross2, hnot2]
  constructor
  · rw [h.enqueued_ids, cross1Ids_append]
    simp [cross1Ids, hnot1]
  · intro i
    rw [exists_mem_append_single, exists_mem_append_single, h.mem_map]
    simp only [hcross1, hcross2, Bool.false_eq_true, or_false]
  · intro i hi
    rw [exists_mem_append_single] at hi ⊢
    simp only [hcross2, Bool.false_eq_true, or_false] at hi
    exact .inl (h.cross1_first i hi)
  · exact h.recorded
  · exact h.nodup_expired

/-- A transaction in the map is given up. -/
theorem Ledger.expire (h : Ledger map processed enqueued expired) {i : ℕ} (hmem : i ∈ map) :
    Ledger (map.erase i) processed enqueued (expired ++ [i]) := by
  obtain ⟨hcross1, -, hnot⟩ := (h.mem_map i).mp hmem
  constructor
  · exact h.enqueued_ids
  · intro j
    rw [Finmap.mem_erase, h.mem_map, List.mem_append, List.mem_singleton]
    tauto
  · intro j hj
    rw [List.mem_append, List.mem_singleton] at hj
    obtain hj | hj | rfl := hj
    · exact h.cross1_first j (.inl hj)
    · exact h.cross1_first j (.inr hj)
    · exact hcross1
  · exact h.recorded_erase i
  · rw [← List.concat_eq_append]
    exact h.nodup_expired.concat hnot

end Ledger

/-! ## The loops of `AddTBs` -/

section Loops

variable {c c' : Client} {processed : List TXReceipt} {enqueued : List Transaction}
  {expired : List ℕ}

/-- No other cross1 receipt of the transaction of `r` comes before it. -/
theorem not_isCross1_before {visited rest : List TXReceipt} {r : TXReceipt}
    (hone : (cross1Ids (processed ++ (visited ++ r :: rest))).Nodup)
    (hstatus : r.txStatus = .crossTXType1Success) (p : TXReceipt → Bool) :
    ¬ ∃ r' ∈ processed ++ visited.filter p, r'.isCross1 r.txID = true := by
  rintro ⟨r', hr', hcross1⟩
  have hbefore : r.txID ∈ cross1Ids (processed ++ visited) := by
    refine mem_cross1Ids.mpr ⟨r', ?_, hcross1⟩
    obtain hr' | hr' := List.mem_append.mp hr'
    · exact List.mem_append_left _ hr'
    · exact List.mem_append_right _ (List.mem_of_mem_filter hr')
  have hnow : r.txID ∈ cross1Ids (r :: rest) :=
    mem_cross1Ids.mpr ⟨r, List.mem_cons_self, by simp [TXReceipt.isCross1, hstatus]⟩
  rw [← List.append_assoc, cross1Ids_append] at hone
  exact List.disjoint_of_nodup_append hone hbefore hnow

/-- `processTXReceipts` keeps the ledger. -/
theorem processTXReceipts_ledger {toRecord : Finmap fun _ : ℕ => TXReceipt}
    (hone : (cross1Ids (processed ++ c.txReply)).Nodup)
    (hl : Ledger c.cross1ConfirmHeightMap processed enqueued expired)
    (h : c.processTXReceipts = some (c', toRecord)) :
    ∃ new : List Transaction,
      c' = { c with
        cross2Txs := c.cross2Txs ++ new
        cross1ConfirmHeightMap := c'.cross1ConfirmHeightMap
        txReply := c.txReply.filter fun r => !c.knows r } ∧
      (∀ e ∈ new, ∃ tx, c.txsMap e.id = some tx ∧ e = c.cross2Of tx) ∧
      Ledger c'.cross1ConfirmHeightMap (processed ++ c.txReply.filter c.knows)
        (enqueued ++ new) expired := by
  refine Client.processTXReceipts_induction
    (fun visited _ new map => Ledger map (processed ++ visited.filter c.knows)
      (enqueued ++ new) expired) ?_ ?_ ?_ ?_ ?_ h
  · -- the five cases of a round: start, unknown, first half, second half, other
    simpa using hl
  · intro visited r rest new map hknows hledger
    simpa [hknows] using hledger
  · intro visited r rest new map tx hsplit hknows hstatus htx hledger
    rw [hsplit] at hone
    have hid : (c.cross2Of tx).id = r.txID := by
      rw [← Client.id_of_txsMap htx]
      rfl
    rw [List.filter_append, List.filter_singleton, hknows, ← List.append_assoc,
      ← List.append_assoc]
    exact hledger.cross1 hstatus (not_isCross1_before hone hstatus _) hid
  · intro visited r rest new map hknows hstatus hmem hledger
    rw [List.filter_append, List.filter_singleton, hknows, ← List.append_assoc]
    exact hledger.cross2 hstatus hmem
  · intro visited r rest new map hknows hnot1 hnot2 hledger
    rw [List.filter_append, List.filter_singleton, hknows, ← List.append_assoc]
    exact hledger.other hnot1 hnot2

/-- `checkExpiredTXs` keeps the ledger. -/
theorem checkExpiredTXs_ledger {order : List ℕ}
    (hl : Ledger c.cross1ConfirmHeightMap processed enqueued expired)
    (h : c.checkExpiredTXs order = some c') :
    ∃ gone : List ℕ,
      c' = { c with
        cross1ConfirmHeightMap := c'.cross1ConfirmHeightMap
        crossTxExpired := c.crossTxExpired ++ gone } ∧
      (∀ i ∈ gone, c.Expired i) ∧
      Ledger c'.cross1ConfirmHeightMap processed enqueued (expired ++ gone) := by
  obtain ⟨gone, hframe, hexp, -, hledger⟩ := Client.checkExpiredTXs_induction
    (fun map gone => Ledger map processed enqueued (expired ++ gone)) (by simpa using hl)
    (by
      intro map gone i hmem hledger
      rw [← List.append_assoc]
      exact hledger.expire hmem) h
  exact ⟨gone, hframe, hexp, hledger⟩

end Loops

/-- A transaction in the map has a cross2 transaction, with the height of the map, and no
cross2 receipt. -/
theorem Ledger.of_lookup {map : Finmap fun _ : ℕ => ℕ} {processed : List TXReceipt}
    {enqueued : List Transaction} {expired : List ℕ}
    (h : Ledger map processed enqueued expired) {i ht : ℕ} (hlook : map.lookup i = some ht) :
    (∃ e ∈ enqueued, e.id = i ∧ e.cross1ConfirmHeight = ht) ∧
      ¬ ∃ r ∈ processed, isCross2 i r = true := by
  obtain ⟨hcross1, hcross2, -⟩ := (h.mem_map i).mp (Finmap.mem_of_lookup_eq_some hlook)
  refine ⟨?_, hcross2⟩
  rw [← mem_cross1Ids, ← h.enqueued_ids, List.mem_map] at hcross1
  obtain ⟨e, he, rfl⟩ := hcross1
  exact ⟨e, he, rfl, h.recorded e he ht hlook⟩

variable {c : Client} {s : State} {b : TBBlock}

/-- What `AddTBs` does to a client with a ledger: `new` cross2 transactions are made, and the
transactions in `gone` are given up. -/
theorem addTBs_ledger {c' : Client} {order : List ℕ}
    {toRecord : Finmap fun _ : ℕ => TXReceipt} {processed : List TXReceipt}
    {enqueued : List Transaction} {expired : List ℕ}
    (hone : (cross1Ids (processed ++ c.txReply)).Nodup)
    (hl : Ledger c.cross1ConfirmHeightMap processed enqueued expired)
    (h : c.addTBs b order = some (c', toRecord)) :
    ∃ (c₁ : Client) (new : List Transaction) (gone : List ℕ),
      c.recordTBs b = some c₁ ∧
      c' = { c with
        cross2Txs := c.cross2Txs ++ new
        cross1ConfirmHeightMap := c'.cross1ConfirmHeightMap
        crossTxExpired := c.crossTxExpired ++ gone
        txReply := c.txReply.filter fun r => !c₁.knows r
        tbs := c₁.tbs
        shardCurHeights := c₁.shardCurHeights
        tbchainHeight := c₁.tbchainHeight } ∧
      (∀ e ∈ new, ∃ tx, c.txsMap e.id = some tx ∧ e = c₁.cross2Of tx) ∧
      (∀ i ∈ gone,
        (∃ e ∈ enqueued ++ new, e.id = i ∧ ∃ tx, c.txsMap i = some tx ∧
          addU64 e.cross1ConfirmHeight tx.rollbackHeight < c₁.shardCurHeights tx.recipientSid) ∧
        ¬ ∃ r ∈ processed ++ c.txReply.filter c₁.knows, isCross2 i r = true) ∧
      Ledger c'.cross1ConfirmHeightMap (processed ++ c.txReply.filter c₁.knows)
        (enqueued ++ new) (expired ++ gone) := by
  simp only [Client.addTBs, Option.bind_eq_bind, Option.bind_eq_some_iff, Prod.exists] at h
  obtain ⟨c₁, hrecord, c₂, toRecord', hprocess, hcheck⟩ := h
  split at hcheck
  · simp only [Option.bind_eq_some_iff, Option.some.injEq, Prod.mk.injEq] at hcheck
    obtain ⟨c₃, hexpire, rfl, rfl⟩ := hcheck
    -- recording changes neither the receipts nor the map
    have hsame := (Client.recordTBs_spec hrecord).1
    unfold Client.SameButView at hsame
    have hreply : c₁.txReply = c.txReply := by rw [hsame]
    have hmap : c₁.cross1ConfirmHeightMap = c.cross1ConfirmHeightMap := by rw [hsame]
    have htxs : c₁.txsMap = c.txsMap := by rw [hsame]; rfl
    rw [← hreply] at hone
    rw [← hmap] at hl
    obtain ⟨new, hframe₂, horigin, hledger₂⟩ := processTXReceipts_ledger hone hl hprocess
    obtain ⟨gone, hframe₃, hexp, hledger₃⟩ := checkExpiredTXs_ledger hledger₂ hexpire
    rw [hreply] at hledger₂ hledger₃ hframe₂
    rw [htxs] at horigin
    refine ⟨c₁, new, gone, hrecord, ?_, horigin, ?_, hledger₃⟩
    · rw [hframe₃, hframe₂, hsame]
    · intro i hi
      obtain ⟨ht, tx, hlook, htx, hlt⟩ := hexp i hi
      obtain ⟨⟨e, he, hid, heq⟩, hnot⟩ := hledger₂.of_lookup hlook
      refine ⟨⟨e, he, hid, tx, ?_, ?_⟩, hnot⟩
      · rw [hframe₂, hsame] at htx
        exact htx
      · rw [hframe₂] at hlt
        rw [heq]
        exact hlt
  · cases hcheck

/-! ## Heights -/

theorem greatestHeight_append_single (l : List (ℕ × ConfirmedTB)) (p : ℕ × ConfirmedTB)
    (sid : ℕ) :
    greatestHeight (l ++ [p]) sid =
      if p.1 = sid then max (greatestHeight l sid) p.2.height else greatestHeight l sid := by
  unfold greatestHeight
  rw [List.filter_append, List.foldl_append]
  split <;> rename_i hp <;> simp [hp]

/-- The greatest height is that of a beacon, if it is not 0. -/
theorem exists_of_lt_greatestHeight {l : List (ℕ × ConfirmedTB)} {sid k : ℕ}
    (h : k < greatestHeight l sid) : ∃ p ∈ l, p.1 = sid ∧ k < p.2.height := by
  induction l using List.reverseRecOn with
  | nil => exact absurd h (Nat.not_lt_zero k)
  | append_singleton l p ih =>
      rw [greatestHeight_append_single] at h
      rw [exists_mem_append_single]
      split at h
      · rename_i hsid
        obtain h | h := lt_max_iff.mp h
        · exact .inl (ih h)
        · exact .inr ⟨hsid, h⟩
      · exact .inl (ih h)

theorem greatestHeight_lt {l : List (ℕ × ConfirmedTB)} {bound : ℕ} (hpos : 0 < bound)
    (h : ∀ p ∈ l, p.2.height < bound) (sid : ℕ) : greatestHeight l sid < bound := by
  by_contra hge
  obtain ⟨p, hp, -, hlt⟩ := exists_of_lt_greatestHeight
    (show bound - 1 < greatestHeight l sid by omega)
  have := h p hp
  omega

/-- Recording keeps the greatest heights, as long as `int` can hold them. -/
theorem recordTBs_greatestHeight {c' : Client} {received : List (ℕ × ConfirmedTB)}
    (hcur : ∀ sid, c.shardCurHeights sid = greatestHeight received sid)
    (hbound : ∀ p ∈ received ++ b.beacons, p.2.height < 2 ^ 63)
    (h : c.recordTBs b = some c') (sid : ℕ) :
    c'.shardCurHeights sid = greatestHeight (received ++ b.beacons) sid := by
  obtain ⟨c₁, hloop, hres⟩ := Option.bind_eq_some_iff.mp h
  cases hres
  obtain ⟨pre, hsplit, hpre⟩ := Sys.foldlM_induction
    (fun rest c₁ => ∃ pre, b.beacons = pre ++ rest ∧
      ∀ sid, c₁.shardCurHeights sid = greatestHeight (received ++ pre) sid)
    (by
      rintro ⟨shardID, tb⟩ rest c₁ c₂ ⟨pre, hsplit, hpre⟩ hstep
      refine ⟨pre ++ [(shardID, tb)], by rw [hsplit]; simp, ?_⟩
      intro sid
      rw [← List.append_assoc, greatestHeight_append_single]
      -- `utils.Max` converts to `int`, so both heights have to fit
      have hsmall : greatestHeight (received ++ pre) shardID < 2 ^ 63 := by
        refine greatestHeight_lt (by decide) ?_ shardID
        intro p hp
        refine hbound p ?_
        rw [hsplit, ← List.append_assoc]
        exact List.mem_append_left _ hp
      have htb : tb.height < 2 ^ 63 := hbound (shardID, tb) (by rw [hsplit]; simp)
      simp only [Client.recordTB] at hstep
      split at hstep
      · cases hstep
        dsimp only
        by_cases hsid : shardID = sid
        · subst hsid
          rw [Function.update_self, if_pos rfl, hpre, maxU64_of_lt hsmall htb]
        · rw [Function.update_of_ne (Ne.symm hsid), if_neg hsid]
          exact hpre sid
      · cases hstep)
    b.beacons c c₁ ⟨[], rfl, by simpa using hcur⟩ hloop
  rw [List.append_nil] at hsplit
  rw [hsplit]
  exact hpre sid

/-! ## Runs -/

structure Inv (s : State) : Prop where
  given : s.given.Perm (s.processed ++ s.client.txReply)
  one : (cross1Ids s.given).Nodup
  ledger : Ledger s.client.cross1ConfirmHeightMap s.processed (s.enqueued.map (·.tx))
    (s.expiries.map (·.txid))
  heights : ∀ sid, s.client.shardCurHeights sid = greatestHeight s.received sid
  bounded : ∀ p ∈ s.received, p.2.height < 2 ^ 63
  rollback : ∀ tx ∈ s.client.txs, tx.rollbackHeight = (s.client.rollbackHeight % 2 ^ 64).toNat
  injected : s.client.injectCnt ≤ s.client.txs.length
  origin : ∀ e ∈ s.enqueued, ∃ tx, s.client.txsMap e.tx.id = some tx ∧
    tx.recipientSid = e.tx.recipientSid ∧ tx.rollbackHeight = e.tx.rollbackHeight
  greatest : ∀ e ∈ s.enqueued,
    e.tx.cross1ConfirmHeight = greatestHeight e.received e.tx.recipientSid
  past : ∀ e ∈ s.enqueued, ∀ p ∈ e.received, p ∈ s.received
  expired : ∀ x ∈ s.expiries, (∃ e ∈ s.enqueued, e.tx.id = x.txid ∧
      ∃ p ∈ x.received, p.1 = e.tx.recipientSid ∧
        e.tx.cross1ConfirmHeight + e.tx.rollbackHeight < p.2.height) ∧
    ¬ ∃ r ∈ x.processed, isCross2 x.txid r = true

/-- No transaction has two cross1 receipts among those processed and those to come. -/
theorem Inv.nodup_cross1Ids (h : Inv s) :
    (cross1Ids (s.processed ++ s.client.txReply)).Nodup := by
  have hperm := (h.given.filter fun r => r.txStatus = .crossTXType1Success).map (·.txID)
  exact hperm.nodup_iff.mp h.one

theorem Inv.consistent (h : Inv s) : s.Consistent := by
  constructor
  · have hids := h.ledger.enqueued_ids
    rw [List.map_map] at hids
    have hnodup := h.nodup_cross1Ids
    rw [cross1Ids_append] at hnodup
    exact hids ▸ hnodup.of_append_left
  · exact h.ledger.nodup_expired
  · exact h.ledger.mem_map
  · exact fun e he => h.ledger.recorded e.tx (List.mem_map_of_mem he)
  · exact h.greatest
  · exact h.expired

theorem Inv.init {id : ℕ} {rollbackHeight : ℤ} {shardNum : ℕ} {txs : List Transaction} :
    Inv (start id rollbackHeight shardNum txs) := by
  constructor
  case ledger =>
    constructor <;> simp [start, newClient, Client.addtxs, cross1Ids, Finmap.notMem_empty]
  case rollback =>
    intro tx htx
    obtain ⟨tx₀, -, rfl⟩ := List.mem_map.mp htx
    rfl
  case heights => exact fun sid => rfl
  all_goals simp [start, newClient, Client.addtxs, cross1Ids]

/-- A step that changes only what the invariant does not read. -/
theorem Inv.congr (h : Inv s)
    (hmap : c.cross1ConfirmHeightMap = s.client.cross1ConfirmHeightMap)
    (hreply : c.txReply = s.client.txReply) (hcur : c.shardCurHeights = s.client.shardCurHeights)
    (hrollback : c.rollbackHeight = s.client.rollbackHeight)
    (hinjected : c.injectCnt ≤ c.txs.length)
    (htxs : List.Forall₂ Client.SameTransfer s.client.txs c.txs) :
    Inv { s with client := c } := by
  constructor
  · exact hreply ▸ h.given
  · exact h.one
  · exact hmap ▸ h.ledger
  · exact hcur ▸ h.heights
  · exact h.bounded
  · intro tx htx
    obtain ⟨tx₀, htx₀, hsame⟩ := Sys.exists_left_of_forall₂ htxs htx
    rw [hsame, hrollback]
    exact h.rollback tx₀ htx₀
  · exact hinjected
  · intro e he
    obtain ⟨tx, htx, hsid, hheight⟩ := h.origin e he
    obtain ⟨tx', htx', hsame⟩ := Client.txsMap_of_forall₂ htxs htx
    exact ⟨tx', htx', by rw [hsame]; exact hsid, by rw [hsame]; exact hheight⟩
  · exact h.greatest
  · exact h.past
  · exact h.expired

/-- A sender that takes from a queue. -/
theorem Inv.queue (h : Inv s) (q : List Transaction) (l : List ℕ)
    (hc : c = { s.client with cross2Txs := q, crossTxExpired := l }) :
    Inv { s with client := c } := by
  subst hc
  exact h.congr rfl rfl rfl rfl h.injected (List.forall₂_same.mpr fun _ _ => rfl)

theorem Inv.addTXReceipts {s' : State} {receipts : List TXReceipt} (h : Inv s)
    (hstep : Lifecycle.addTXReceipts s receipts = some s') : Inv s' := by
  unfold Lifecycle.addTXReceipts at hstep
  split at hstep
  · rename_i hone
    cases hstep
    constructor
    · have := h.given.append_right receipts
      rwa [List.append_assoc] at this
    · exact hone
    · exact h.ledger
    · exact h.heights
    · exact h.bounded
    · exact h.rollback
    · exact h.injected
    · exact h.origin
    · exact h.greatest
    · exact h.past
    · exact h.expired
  · cases hstep

/-- What the sum of heights is when it is not too large. -/
theorem addU64_of_lt {a b : ℕ} (ha : a < 2 ^ 63) (hb : b < 2 ^ 63) : addU64 a b = a + b :=
  u64_of_lt (by omega)

/-- The cross2 transactions of `AddTBs` carry the height of the map. -/
theorem Inv.enqueue {c₁ : Client} {new : List Transaction} (h : Inv s)
    (hcur : ∀ sid, c₁.shardCurHeights sid = greatestHeight (s.received ++ b.beacons) sid)
    (hnew : ∀ e ∈ new, ∃ tx, s.client.txsMap e.id = some tx ∧ e = c₁.cross2Of tx) :
    ∀ e ∈ s.enqueued ++ new.map (fun tx => (⟨tx, s.received ++ b.beacons⟩ : Enqueued)),
      (∃ tx, s.client.txsMap e.tx.id = some tx ∧ tx.recipientSid = e.tx.recipientSid ∧
        tx.rollbackHeight = e.tx.rollbackHeight) ∧
      e.tx.cross1ConfirmHeight = greatestHeight e.received e.tx.recipientSid ∧
      ∀ p ∈ e.received, p ∈ s.received ++ b.beacons := by
  intro e he
  obtain he | he := List.mem_append.mp he
  · refine ⟨h.origin e he, h.greatest e he, ?_⟩
    exact fun p hp => List.mem_append_left _ (h.past e he p hp)
  · obtain ⟨tx₂, htx₂, rfl⟩ := List.mem_map.mp he
    obtain ⟨tx, htx, rfl⟩ := hnew tx₂ htx₂
    exact ⟨⟨tx, htx, rfl, rfl⟩, hcur tx.recipientSid, fun p hp => hp⟩

/-- A transaction is given up only after a beacon that is late enough. -/
theorem exists_late_beacon {received received' : List (ℕ × ConfirmedTB)} {e tx : Transaction}
    (hbound : ∀ p ∈ received', p.2.height < 2 ^ 63) (hpast : ∀ p ∈ received, p ∈ received')
    (hheight : e.cross1ConfirmHeight = greatestHeight received e.recipientSid)
    (hsid : tx.recipientSid = e.recipientSid) (hrollback : tx.rollbackHeight = e.rollbackHeight)
    (hsmall : tx.rollbackHeight < 2 ^ 63)
    (hlt : addU64 e.cross1ConfirmHeight tx.rollbackHeight <
      greatestHeight received' tx.recipientSid) :
    ∃ p ∈ received', p.1 = e.recipientSid ∧
      e.cross1ConfirmHeight + e.rollbackHeight < p.2.height := by
  have hconfirm : e.cross1ConfirmHeight < 2 ^ 63 := by
    rw [hheight]
    exact greatestHeight_lt (by decide) (fun p hp => hbound p (hpast p hp)) _
  rw [addU64_of_lt hconfirm hsmall, hrollback, hsid] at hlt
  exact exists_of_lt_greatestHeight hlt

theorem Inv.addTBs {s' : State} {order : List ℕ} (h : Inv s)
    (hok : moderate s (.addTBs b order)) (hstep : Lifecycle.addTBs s b order = some s') :
    Inv s' := by
  obtain ⟨⟨c', toRecord⟩, hadd, hstep⟩ := Option.bind_eq_some_iff.mp hstep
  obtain ⟨hrange, hbeacons⟩ := hok
  obtain ⟨c₁, new, gone, hrecord, hframe, hnew, hgone, hledger⟩ :=
    addTBs_ledger h.nodup_cross1Ids h.ledger hadd
  -- what the history reads off the client
  have hfilter : (fun r : TXReceipt => (c'.tbs r.shardID r.blockHeight).isSome) = c₁.knows := by
    rw [hframe]
    rfl
  have hdrop : c'.cross2Txs.drop s.client.cross2Txs.length = new := by
    rw [hframe]
    simp
  have hdrop' : c'.crossTxExpired.drop s.client.crossTxExpired.length = gone := by
    rw [hframe]
    simp
  dsimp only at hstep
  rw [hfilter, hdrop, hdrop'] at hstep
  cases hstep
  have hbound : ∀ p ∈ s.received ++ b.beacons, p.2.height < 2 ^ 63 := by
    intro p hp
    obtain hp | hp := List.mem_append.mp hp
    · exact h.bounded p hp
    · exact hbeacons p hp
  have hcur := recordTBs_greatestHeight h.heights hbound hrecord
  have henqueue := h.enqueue hcur hnew
  have htxs : c'.txsMap = s.client.txsMap := by
    rw [hframe]
    rfl
  constructor
  · have hreply : c'.txReply = s.client.txReply.filter fun r => !c₁.knows r := by rw [hframe]
    have hperm := List.filter_append_perm c₁.knows s.client.txReply
    dsimp only
    rw [hreply, List.append_assoc]
    exact h.given.trans (hperm.symm.append_left _)
  · exact h.one
  · simpa [Function.comp_def] using hledger
  · intro sid
    have hcur' : c'.shardCurHeights = c₁.shardCurHeights := by rw [hframe]
    dsimp only
    rw [hcur']
    exact hcur sid
  · exact hbound
  · rw [hframe]
    exact h.rollback
  · rw [hframe]
    exact h.injected
  · dsimp only
    rw [htxs]
    exact fun e he => (henqueue e he).1
  · exact fun e he => (henqueue e he).2.1
  · exact fun e he => (henqueue e he).2.2
  · intro x hx
    obtain hx | hx := List.mem_append.mp hx
    · obtain ⟨⟨e, he, hrest⟩, hnot⟩ := h.expired x hx
      exact ⟨⟨e, List.mem_append_left _ he, hrest⟩, hnot⟩
    · obtain ⟨i, hi, rfl⟩ := List.mem_map.mp hx
      obtain ⟨⟨e, he, hid, tx, htx, hlt⟩, hnot⟩ := hgone i hi
      refine ⟨?_, hnot⟩
      have hmem : e ∈ (s.enqueued ++ new.map
          (fun tx => (⟨tx, s.received ++ b.beacons⟩ : Enqueued))).map (·.tx) := by
        simpa [Function.comp_def] using he
      obtain ⟨q, hq, rfl⟩ := List.mem_map.mp hmem
      obtain ⟨⟨tx', htx', hsid, hrollback⟩, hheight, hpast⟩ := henqueue q hq
      -- the transaction is still the one of the client's table
      rw [hid, htx] at htx'
      cases htx'
      have hsmall : tx.rollbackHeight < 2 ^ 63 := by
        rw [h.rollback tx (List.mem_reverse.mp (List.mem_of_find?_eq_some htx))]
        omega
      rw [hcur] at hlt
      exact ⟨q, hq, hid, exists_late_beacon hbound hpast hheight hsid hrollback hsmall hlt⟩

theorem Inv.step {s' : State} {ev : Event} (h : Inv s) (hok : moderate s ev)
    (hstep : Lifecycle.step s ev = some s') : Inv s' := by
  cases ev with
  | addTXReceipts receipts => exact h.addTXReceipts hstep
  | addTBs b order => exact h.addTBs hok hstep
  | sendRollbackTxs k =>
      obtain ⟨⟨c, msgs⟩, hsend, rfl⟩ := Option.map_eq_some_iff.mp hstep
      exact h.queue _ _ (Client.sendRollbackTxs_spec hsend).1
  | sendCross2Txs k =>
      obtain ⟨⟨c, msgs⟩, hsend, rfl⟩ := Option.map_eq_some_iff.mp hstep
      exact h.queue _ _ (Client.sendCross2Txs_spec hsend).1
  | sendPendingTxs k now =>
      obtain ⟨⟨c, msgs⟩, hsend, rfl⟩ := Option.map_eq_some_iff.mp hstep
      obtain ⟨hframe, hinjected, htxs, -⟩ := Client.sendPendingTxs_spec hsend h.injected
      refine h.congr ?_ ?_ ?_ ?_ hinjected htxs
      all_goals
        dsimp only
        rw [hframe]

/-- In every run with moderate numbers the client's queues and its map are consistent. -/
theorem consistent_of_moderate {s : State} (h : machine.ReachableBy moderate s) :
    s.Consistent := by
  refine (Sys.Machine.invariant_by Inv ?_ ?_ h).consistent
  · rintro _ ⟨id, rollbackHeight, shardNum, txs, rfl⟩
    exact .init
  · intro s ev s' hok hstep hs
    exact hs.step hok hstep

/-! ## Transfers from shard 0 to shard 1 -/

def exampleTx (id : ℕ) : Transaction := exampleTransfer id 5 1

def exampleReceipt (id : ℕ) (status : TxStatus) (shardID blockHeight : ℕ) : TXReceipt :=
  ⟨id, 0, status, shardID, blockHeight⟩

/-- A block of the beacon chain with beacons of the given heights, for two shards. -/
def exampleTBBlock (heights₀ heights₁ : List ℕ) : TBBlock where
  time := 0
  height := 1
  tbs := [heights₀.map fun h => ⟨⟨0, h, "", "", ""⟩, 0, 0⟩,
    heights₁.map fun h => ⟨⟨1, h, "", "", ""⟩, 0, 0⟩]

/-- The second half of transfer 0 succeeds, transfer 1 is given up. -/
theorem consistent_exampleRun : ∃ s, machine.ReachableBy moderate s ∧
    (s.enqueued.map (·.tx.id) = [0, 1] ∧ s.expiries.map (·.txid) = [1]) ∧ s.Consistent := by
  have hrun : ∃ s, machine.ReachableBy moderate s ∧
      s.enqueued.map (·.tx.id) = [0, 1] ∧ s.expiries.map (·.txid) = [1] :=
    Sys.Machine.exists_reachableBy _ ⟨0, 2, 2, [exampleTx 0, exampleTx 1], rfl⟩
      [.sendPendingTxs 10 0,
        .addTXReceipts [exampleReceipt 0 .crossTXType1Success 0 1,
          exampleReceipt 1 .crossTXType1Success 0 1],
        .addTBs (exampleTBBlock [1] [1]) [0, 1], .sendCross2Txs 10,
        .addTXReceipts [exampleReceipt 0 .crossTXType2Success 1 2],
        .addTBs (exampleTBBlock [] [2, 3, 4]) [1], .sendRollbackTxs 10]
      (by decide +kernel)
  obtain ⟨s, hs, hids⟩ := hrun
  exact ⟨s, hs, hids, consistent_of_moderate hs⟩

/-- With a rollback height of -1 and a beacon of height `2^63` the recorded height is not the
greatest, and the transaction is given up in the call that enqueues it. -/
theorem huge_heights : ∃ s, machine.Reachable s ∧
    (∃ e ∈ s.enqueued,
      e.tx.cross1ConfirmHeight ≠ greatestHeight e.received e.tx.recipientSid) ∧
    ∃ x ∈ s.expiries, ∀ e ∈ s.enqueued, e.tx.id = x.txid →
      ∀ p ∈ x.received, p.1 = e.tx.recipientSid →
        ¬ e.tx.cross1ConfirmHeight + e.tx.rollbackHeight < p.2.height :=
  Sys.Machine.exists_reachableBy _ ⟨0, -1, 2, [exampleTx 0], rfl⟩
    [.sendPendingTxs 10 0, .addTXReceipts [exampleReceipt 0 .crossTXType1Success 0 1],
      .addTBs (exampleTBBlock [1] [5, 2 ^ 63]) [0]]
    (by decide +kernel)

end Lifecycle

end LessChain
