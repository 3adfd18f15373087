import LessChain.Core.Account
import LessChain.Committee.TxPool
import LessChain.Lib.Fold
import Mathlib.Algebra.Order.BigOperators.Group.List

/-!
# `Worker.executeTransactions` and the receipts

The worker executes a block on the accounts the shard sent. `addr2State` and
`updatedStates` are maps of pointers to the same account records, so the model has a
memory of records and both maps hold references into it: a write through one map is
seen through the other. `hash` is `utils.GetHash` on the bytes of an address.
-/

namespace LessChain

/-- What the worker computes on. Every round of the loop in `analyseStates` declares its
own `state`, so two addresses never share a record: `ptr_inj` holds by construction. -/
structure ExecState where
  memory : ℕ → StateAccount
  addr2State : Address → Option ℕ
  updatedStates : Finmap fun _ : Bytes => ℕ
  ptr_inj : ∀ a b p, addr2State a = some p → addr2State b = some p → a = b

namespace ExecState

/-- A write through a pointer. -/
def write (st : ExecState) (p : ℕ) (f : StateAccount → StateAccount) : ExecState :=
  { st with memory := Function.update st.memory p (f (st.memory p)) }

/-- `updatedStates[key] = p`. -/
def record (st : ExecState) (key : Bytes) (p : ℕ) : ExecState :=
  { st with updatedStates := st.updatedStates.insert key p }

/-- The account `addr2State` shows for an address. -/
def view (st : ExecState) (a : Address) : Option StateAccount :=
  (st.addr2State a).map st.memory

@[simp] theorem addr2State_write (st : ExecState) (p : ℕ) (f : StateAccount → StateAccount) :
    (st.write p f).addr2State = st.addr2State := rfl

@[simp] theorem updatedStates_write (st : ExecState) (p : ℕ) (f : StateAccount → StateAccount) :
    (st.write p f).updatedStates = st.updatedStates := rfl

@[simp] theorem addr2State_record (st : ExecState) (key : Bytes) (p : ℕ) :
    (st.record key p).addr2State = st.addr2State := rfl

@[simp] theorem updatedStates_record (st : ExecState) (key : Bytes) (p : ℕ) :
    (st.record key p).updatedStates = st.updatedStates.insert key p := rfl

/-- Two writes through one pointer are one. -/
@[simp] theorem write_write (st : ExecState) (p : ℕ) (f g : StateAccount → StateAccount) :
    (st.write p f).write p g = st.write p (g ∘ f) := by
  simp [write]

@[simp] theorem view_record (st : ExecState) (key : Bytes) (p : ℕ) :
    (st.record key p).view = st.view := rfl

/-- A write through the pointer of `a` is seen at `a` and nowhere else. -/
theorem view_write {st : ExecState} {a : Address} {p : ℕ} (hp : st.addr2State a = some p)
    (f : StateAccount → StateAccount) (b : Address) :
    (st.write p f).view b = if b = a then (st.view b).map f else st.view b := by
  unfold view
  rw [addr2State_write]
  by_cases hb : b = a
  · subst hb
    simp [hp, write]
  · rw [if_neg hb]
    cases hq : st.addr2State b with
    | none => rfl
    | some q =>
        -- distinct addresses hold distinct pointers
        have hqp : q ≠ p := by
          intro h
          exact hb (st.ptr_inj b a p (h ▸ hq) hp)
        simp [write, hqp]

end ExecState

/-! ## The interpreter -/

/-- `addBalance`. -/
def addBalance (val : ℤ) (state : StateAccount) : StateAccount :=
  { state with balance := state.balance + val }

/-- `subBalance`. -/
def subBalance (val : ℤ) (state : StateAccount) : StateAccount :=
  { state with balance := state.balance - val }

/-- `addNonceByOne`. -/
def addNonceByOne (state : StateAccount) : StateAccount :=
  { state with nonce := state.nonce + 1 }

/-- `subNonceByOne`. -/
def subNonceByOne (state : StateAccount) : StateAccount :=
  { state with nonce := state.nonce - 1 }

namespace Worker

/-- `Worker.executeTransaction`: the transaction with its status, and the accounts. An
address without an entry gives a nil pointer, and an unknown type ends the process. -/
def executeTransaction (hash : Address → Bytes) (tx : Transaction) (st : ExecState) :
    Option (Transaction × ExecState) :=
  match tx.txType with
  | .intraTXType => do
      let senderState ← st.addr2State tx.sender
      let st := st.write senderState addNonceByOne
      let st := st.write senderState (subBalance tx.value)
      let st := st.record (hash tx.sender) senderState
      let receiverState ← st.addr2State tx.recipient
      let st := st.write receiverState (addBalance tx.value)
      let st := st.record (hash tx.recipient) receiverState
      some ({ tx with txStatus := .intraSuccess }, st)
  | .crossTXType1 => do
      let senderState ← st.addr2State tx.sender
      let st := st.write senderState addNonceByOne
      let st := st.write senderState (subBalance tx.value)
      let st := st.record (hash tx.sender) senderState
      some ({ tx with txStatus := .crossTXType1Success }, st)
  | .crossTXType2 => do
      let receiverState ← st.addr2State tx.recipient
      let st := st.write receiverState (addBalance tx.value)
      let st := st.record (hash tx.recipient) receiverState
      some ({ tx with txStatus := .crossTXType2Success }, st)
  | .rollbackTXType => do
      let senderState ← st.addr2State tx.sender
      let st := st.write senderState subNonceByOne
      let st := st.write senderState (addBalance tx.value)
      let st := st.record (hash tx.sender) senderState
      some ({ tx with txStatus := .rollbackSuccess }, st)
  | .undefinedTXType => none

/-- `Worker.executeTransactions`. -/
def executeTransactions (hash : Address → Bytes) :
    List Transaction → ExecState → Option (List Transaction × ExecState)
  | [], st => some ([], st)
  | tx :: txs, st => do
      let (tx', st') ← executeTransaction hash tx st
      let (txs', st'') ← executeTransactions hash txs st'
      some (tx' :: txs', st'')

end Worker

/-! ## Statuses -/

/-- The status execution gives to a transaction of each kind. -/
def TXType.successStatus : TXType → TxStatus
  | .intraTXType => .intraSuccess
  | .crossTXType1 => .crossTXType1Success
  | .crossTXType2 => .crossTXType2Success
  | .rollbackTXType => .rollbackSuccess
  | .undefinedTXType => .defaultStatus

/-- A transaction after it was executed. -/
def Transaction.executed (tx : Transaction) : Transaction :=
  { tx with txStatus := tx.txType.successStatus }

/-! ## What execution does -/

/-- What an execution from `st` to `st'` establishes, for the accounts it touches and the
change `effect` it makes to them. -/
structure Worker.Executed (hash : Address → Bytes) (touched : Address → Prop)
    (effect : Address → StateAccount → StateAccount) (st st' : ExecState) : Prop where
  pointers : st'.addr2State = st.addr2State
  accounts : ∀ a, st'.view a = (st.view a).map (effect a)
  keys : ∀ k, k ∈ st'.updatedStates ↔ k ∈ st.updatedStates ∨ ∃ a, touched a ∧ k = hash a
  entries : ∀ k p, st'.updatedStates.lookup k = some p →
    st.updatedStates.lookup k = some p ∨ ∃ a, touched a ∧ k = hash a ∧ st.addr2State a = some p

namespace Worker

section Executed

variable {hash : Address → Bytes} {T T' : Address → Prop}
  {e e' : Address → StateAccount → StateAccount} {st st' st'' : ExecState}

theorem Executed.refl : Executed hash (fun _ => False) (fun _ acc => acc) st st where
  pointers := rfl
  accounts := by intro a; simp
  keys := by intro k; simp
  entries := fun _ _ => Or.inl

/-- Executions compose. -/
theorem Executed.trans (h : Executed hash T e st st') (h' : Executed hash T' e' st' st'') :
    Executed hash (fun a => T a ∨ T' a) (fun a acc => e' a (e a acc)) st st'' where
  pointers := h'.pointers.trans h.pointers
  accounts := by
    intro a
    rw [h'.accounts, h.accounts, Option.map_map]
    rfl
  keys := by
    intro k
    rw [h'.keys, h.keys]
    constructor
    · rintro ((hk | ⟨a, ha, hka⟩) | ⟨a, ha, hka⟩)
      · exact Or.inl hk
      · exact Or.inr ⟨a, Or.inl ha, hka⟩
      · exact Or.inr ⟨a, Or.inr ha, hka⟩
    · rintro (hk | ⟨a, ha | ha, hka⟩)
      · exact Or.inl (Or.inl hk)
      · exact Or.inl (Or.inr ⟨a, ha, hka⟩)
      · exact Or.inr ⟨a, ha, hka⟩
  entries := by
    intro k p hk
    rcases h'.entries k p hk with hk | ⟨a, ha, hka, hp⟩
    · rcases h.entries k p hk with hk | ⟨a, ha, hka, hp⟩
      · exact Or.inl hk
      · exact Or.inr ⟨a, Or.inl ha, hka, hp⟩
    · rw [h.pointers] at hp
      exact Or.inr ⟨a, Or.inr ha, hka, hp⟩

theorem Executed.congr (h : Executed hash T e st st') (hT : ∀ a, T a ↔ T' a)
    (he : ∀ a acc, e a acc = e' a acc) : Executed hash T' e' st st' := by
  have hT' : T = T' := funext fun a => propext (hT a)
  have he' : e = e' := funext fun a => funext (he a)
  exact hT' ▸ he' ▸ h

variable (hash st) in
/-- The basic action: change one account through its pointer and record the pointer. -/
theorem Executed.touch {a : Address} {p : ℕ} (hp : st.addr2State a = some p)
    (f : StateAccount → StateAccount) :
    Executed hash (fun b => b = a) (fun b acc => if b = a then f acc else acc) st
      ((st.write p f).record (hash a) p) where
  pointers := rfl
  accounts := by
    intro b
    rw [ExecState.view_record, ExecState.view_write hp]
    by_cases hb : b = a
    · simp [hb]
    · simp [hb]
  keys := by
    intro k
    rw [ExecState.updatedStates_record, Finmap.mem_insert, ExecState.updatedStates_write]
    constructor
    · rintro (hk | hk)
      · exact Or.inr ⟨a, rfl, hk⟩
      · exact Or.inl hk
    · rintro (hk | ⟨b, rfl, hk⟩)
      · exact Or.inr hk
      · exact Or.inl hk
  entries := by
    intro k q hk
    rw [ExecState.updatedStates_record] at hk
    by_cases hka : k = hash a
    · subst hka
      rw [Finmap.lookup_insert, Option.some.injEq] at hk
      exact Or.inr ⟨a, rfl, rfl, hk ▸ hp⟩
    · rw [Finmap.lookup_insert_of_ne _ hka] at hk
      exact Or.inl hk

end Executed

variable {hash : Address → Bytes} {tx : Transaction} {st : ExecState}

/-- If the touched addresses have entries, executing a known transaction succeeds. -/
theorem executeTransaction_spec (hash : Address → Bytes) (hknown : tx.Known)
    (hdef : ∀ a, a ∈ tx.touched → (st.addr2State a).isSome) :
    ∃ st', executeTransaction hash tx st = some (tx.executed, st') ∧
      Executed hash (· ∈ tx.touched) tx.effect st st' := by
  cases htype : tx.txType with
  | undefinedTXType => exact absurd htype hknown
  | intraTXType =>
      have htouch : ∀ a, a = tx.sender ∨ a = tx.recipient ↔ a ∈ tx.touched := by
        intro a
        simp [Transaction.touched, htype]
      rcases Option.isSome_iff_exists.mp (hdef _ ((htouch _).mp (Or.inl rfl))) with ⟨p, hp⟩
      rcases Option.isSome_iff_exists.mp (hdef _ ((htouch _).mp (Or.inr rfl))) with ⟨q, hq⟩
      have hs := Executed.touch hash st hp (subBalance tx.value ∘ addNonceByOne)
      rw [← hs.pointers] at hq
      have hr := Executed.touch hash _ hq (addBalance tx.value)
      refine ⟨_, ?_, (hs.trans hr).congr htouch ?_⟩
      · simp only [ExecState.addr2State_record, ExecState.addr2State_write] at hq
        simp [executeTransaction, htype, Transaction.executed, TXType.successStatus, hp, hq]
      · intro a acc
        simp only [Transaction.effect, Transaction.nonceDelta, Transaction.balanceDelta, htype]
        -- sender and recipient may be the same account
        split_ifs <;>
          simp [addBalance, subBalance, addNonceByOne, Int.sub_eq_add_neg]
  | crossTXType1 =>
      have htouch : ∀ a, a = tx.sender ↔ a ∈ tx.touched := by
        intro a
        simp [Transaction.touched, htype]
      rcases Option.isSome_iff_exists.mp (hdef _ ((htouch _).mp rfl)) with ⟨p, hp⟩
      have hs := Executed.touch hash st hp (subBalance tx.value ∘ addNonceByOne)
      refine ⟨_, ?_, hs.congr htouch ?_⟩
      · simp [executeTransaction, htype, Transaction.executed, TXType.successStatus, hp]
      · intro a acc
        simp only [Transaction.effect, Transaction.nonceDelta, Transaction.balanceDelta, htype]
        split_ifs <;> simp [subBalance, addNonceByOne, Int.sub_eq_add_neg]
  | crossTXType2 =>
      have htouch : ∀ a, a = tx.recipient ↔ a ∈ tx.touched := by
        intro a
        simp [Transaction.touched, htype]
      rcases Option.isSome_iff_exists.mp (hdef _ ((htouch _).mp rfl)) with ⟨q, hq⟩
      have hr := Executed.touch hash st hq (addBalance tx.value)
      refine ⟨_, ?_, hr.congr htouch ?_⟩
      · simp [executeTransaction, htype, Transaction.executed, TXType.successStatus, hq]
      · intro a acc
        simp only [Transaction.effect, Transaction.nonceDelta, Transaction.balanceDelta, htype]
        split_ifs <;> simp [addBalance]
  | rollbackTXType =>
      have htouch : ∀ a, a = tx.sender ↔ a ∈ tx.touched := by
        intro a
        simp [Transaction.touched, htype]
      rcases Option.isSome_iff_exists.mp (hdef _ ((htouch _).mp rfl)) with ⟨p, hp⟩
      have hs := Executed.touch hash st hp (addBalance tx.value ∘ subNonceByOne)
      refine ⟨_, ?_, hs.congr htouch ?_⟩
      · simp [executeTransaction, htype, Transaction.executed, TXType.successStatus, hp]
      · intro a acc
        simp only [Transaction.effect, Transaction.nonceDelta, Transaction.balanceDelta, htype]
        split_ifs <;> simp [addBalance, subNonceByOne, UInt64.sub_eq_add_neg]

/-- If the touched addresses have entries, a list of known transactions is executed to its
end: no entry is ever missing. -/
theorem executeTransactions_spec (hash : Address → Bytes) (txs : List Transaction)
    (st : ExecState) (hknown : ∀ tx ∈ txs, tx.Known)
    (hdef : ∀ a, (∃ tx ∈ txs, a ∈ tx.touched) → (st.addr2State a).isSome) :
    ∃ st', executeTransactions hash txs st = some (txs.map Transaction.executed, st') ∧
      Executed hash (fun a => ∃ tx ∈ txs, a ∈ tx.touched) (effects txs) st st' := by
  induction txs generalizing st with
  | nil =>
      refine ⟨st, rfl, Executed.refl.congr ?_ ?_⟩
      · intro a
        simp
      · intro a acc
        rfl
  | cons tx txs ih =>
      have hhead : ∀ a, a ∈ tx.touched → (st.addr2State a).isSome := by
        intro a ha
        exact hdef a ⟨tx, List.mem_cons_self, ha⟩
      rcases executeTransaction_spec hash (hknown tx List.mem_cons_self) hhead with
        ⟨st₁, hrun₁, hex₁⟩
      -- the rest runs on the same pointers
      have htail : ∀ a, (∃ t ∈ txs, a ∈ t.touched) → (st₁.addr2State a).isSome := by
        rintro a ⟨t, ht, hta⟩
        rw [hex₁.pointers]
        exact hdef a ⟨t, List.mem_cons_of_mem _ ht, hta⟩
      rcases ih st₁ (fun t ht => hknown t (List.mem_cons_of_mem _ ht)) htail with
        ⟨st₂, hrun₂, hex₂⟩
      refine ⟨st₂, ?_, (hex₁.trans hex₂).congr ?_ ?_⟩
      · simp [executeTransactions, hrun₁, hrun₂]
      · intro a
        simp
      · intro a acc
        rfl

/-- Whenever a transaction is executed, it is a known one and gets its status. -/
theorem executeTransaction_tx {tx tx' : Transaction} {st st' : ExecState}
    (h : executeTransaction hash tx st = some (tx', st')) : tx' = tx.executed ∧ tx.Known := by
  unfold Transaction.executed Transaction.Known
  cases htype : tx.txType with
  | undefinedTXType => simp [executeTransaction, htype] at h
  | intraTXType =>
      simp only [executeTransaction, htype, Option.bind_eq_bind, Option.bind_eq_some_iff] at h
      rcases h with ⟨_, _, _, _, hres⟩
      cases hres
      exact ⟨rfl, by simp⟩
  | _ =>
      simp only [executeTransaction, htype, Option.bind_eq_bind, Option.bind_eq_some_iff] at h
      rcases h with ⟨_, _, hres⟩
      cases hres
      exact ⟨rfl, by simp⟩

/-- Whenever execution ends, it has only set the statuses. -/
theorem executeTransactions_txs {txs txs' : List Transaction} {st st' : ExecState}
    (h : executeTransactions hash txs st = some (txs', st')) :
    txs' = txs.map Transaction.executed ∧ ∀ tx ∈ txs, tx.Known := by
  induction txs generalizing st txs' st' with
  | nil =>
      cases h
      simp
  | cons tx txs ih =>
      simp only [executeTransactions, Option.bind_eq_bind, Option.bind_eq_some_iff,
        Prod.exists] at h
      rcases h with ⟨tx₁, st₁, hrun₁, txs₁, st₂, hrun₂, hres⟩
      rcases executeTransaction_tx hrun₁ with ⟨rfl, hknown₁⟩
      rcases ih hrun₂ with ⟨rfl, hknown₂⟩
      cases hres
      refine ⟨rfl, ?_⟩
      intro t ht
      rcases List.mem_cons.mp ht with rfl | ht
      · exact hknown₁
      · exact hknown₂ t ht

end Worker

/-! ## Receipts -/

namespace Worker

/-- The receipt of one transaction. -/
def receipt (comID curHeight : ℕ) (tx : Transaction) : TXReceipt where
  txID := tx.id
  confirmTimeStamp := tx.confirmTimestamp
  txStatus := tx.txStatus
  shardID := comID
  blockHeight := u64 curHeight

/-- The loop of `sendTXReceipt2Client`: a later transaction with the same ID replaces the
receipt of an earlier one, and a missing status ends the process. -/
def receiptTable (comID curHeight : ℕ) (txs : List Transaction) :
    Option (Finmap fun _ : ℕ => TXReceipt) :=
  txs.foldlM (fun table tx =>
    if tx.txStatus = .defaultStatus then none
    else some (table.insert tx.id (receipt comID curHeight tx))) ∅

/-- `send2Client`: one message for each client that occurs in the block. -/
def send2Client (receipts : Finmap fun _ : ℕ => TXReceipt) (txs : List Transaction) :
    List (ℕ × List TXReceipt) :=
  (txs.map (·.cid)).dedup.map fun cid =>
    (cid, (txs.filter fun tx => tx.cid = cid).filterMap fun tx => receipts.lookup tx.id)

/-- `sendTXReceipt2Client`. -/
def sendTXReceipt2Client (comID curHeight : ℕ) (txs : List Transaction) :
    Option (List (ℕ × List TXReceipt)) := do
  let table ← receiptTable comID curHeight txs
  some (send2Client table txs)

variable {msgs : List (ℕ × List TXReceipt)} {txs : List Transaction} {comID curHeight : ℕ}

/-- A receipt of the table is the receipt of a transaction of the block. -/
theorem receiptTable_lookup {table : Finmap fun _ : ℕ => TXReceipt}
    (h : receiptTable comID curHeight txs = some table)
    {i : ℕ} {r : TXReceipt} (hr : table.lookup i = some r) :
    ∃ tx ∈ txs, tx.id = i ∧ r = receipt comID curHeight tx := by
  refine Sys.foldlM_invariant (fun table : Finmap fun _ : ℕ => TXReceipt =>
    ∀ i r, table.lookup i = some r → ∃ tx ∈ txs, tx.id = i ∧ r = receipt comID curHeight tx)
    ?_ ?_ h i r hr
  · intro tx htx table table' htable hstep i r hlook
    split at hstep
    · cases hstep
    · cases hstep
      by_cases hi : i = tx.id
      · subst hi
        rw [Finmap.lookup_insert, Option.some.injEq] at hlook
        exact ⟨tx, htx, rfl, hlook.symm⟩
      · rw [Finmap.lookup_insert_of_ne _ hi] at hlook
        exact htable i r hlook
  · intro i r hlook
    simp at hlook

theorem mem_receiptTable {table : Finmap fun _ : ℕ => TXReceipt}
    (h : receiptTable comID curHeight txs = some table)
    {tx : Transaction} (htx : tx ∈ txs) : tx.id ∈ table := by
  have hend := Sys.foldlM_induction
    (fun rest (table : Finmap fun _ : ℕ => TXReceipt) =>
      tx.id ∈ table ∨ ∃ tx' ∈ rest, tx'.id = tx.id)
    (by
      rintro tx₁ rest table table' hwhere hstep
      split at hstep
      · cases hstep
      · cases hstep
        rcases hwhere with hin | ⟨tx', hmem, hid⟩
        · exact Or.inl (Finmap.mem_insert.mpr (Or.inr hin))
        · rcases List.mem_cons.mp hmem with rfl | hmem
          · exact Or.inl (Finmap.mem_insert.mpr (Or.inl hid.symm))
          · exact Or.inr ⟨tx', hmem, hid⟩)
    txs ∅ table (Or.inr ⟨tx, htx, rfl⟩) h
  rcases hend with hin | ⟨tx', hmem, -⟩
  · exact hin
  · cases hmem

/-- A message goes to the client of a transaction of the block, and its receipts are about
transactions of this client. -/
theorem of_mem_sendTXReceipt2Client (h : sendTXReceipt2Client comID curHeight txs = some msgs)
    {m : ℕ × List TXReceipt} (hm : m ∈ msgs) :
    (∃ tx ∈ txs, tx.cid = m.1) ∧
    ∀ r ∈ m.2, (∃ tx ∈ txs, tx.cid = m.1 ∧ tx.id = r.txID) ∧
      ∃ tx ∈ txs, r = receipt comID curHeight tx := by
  simp only [sendTXReceipt2Client, Option.bind_eq_bind, Option.bind_eq_some_iff,
    Option.some.injEq] at h
  rcases h with ⟨table, htable, rfl⟩
  rcases List.mem_map.mp hm with ⟨cid, hcid, rfl⟩
  constructor
  · exact List.mem_map.mp (List.mem_dedup.mp hcid)
  · intro r hr
    rcases List.mem_filterMap.mp hr with ⟨tx, htx, hlook⟩
    rcases List.mem_filter.mp htx with ⟨hmem, hown⟩
    rcases receiptTable_lookup htable hlook with ⟨tx', htx', hid, rfl⟩
    exact ⟨⟨tx, hmem, of_decide_eq_true hown, hid.symm⟩, tx', htx', rfl⟩

/-- Every transaction of the block is answered to its client. -/
theorem exists_mem_sendTXReceipt2Client (h : sendTXReceipt2Client comID curHeight txs = some msgs)
    {tx : Transaction} (htx : tx ∈ txs) :
    ∃ m ∈ msgs, m.1 = tx.cid ∧ ∃ r ∈ m.2, r.txID = tx.id := by
  simp only [sendTXReceipt2Client, Option.bind_eq_bind, Option.bind_eq_some_iff,
    Option.some.injEq] at h
  rcases h with ⟨table, htable, rfl⟩
  rcases Finmap.mem_iff.mp (mem_receiptTable htable htx) with ⟨r, hlook⟩
  rcases receiptTable_lookup htable hlook with ⟨tx', -, hid, rfl⟩
  refine ⟨_, List.mem_map.mpr ⟨tx.cid, ?_, rfl⟩, rfl, receipt comID curHeight tx', ?_, hid⟩
  · exact List.mem_dedup.mpr (List.mem_map_of_mem htx)
  · exact List.mem_filterMap.mpr ⟨tx, List.mem_filter.mpr ⟨htx, by simp⟩, hlook⟩

/-- The messages hold at most one receipt for each transaction of the block with ID `i`,
and a cross1 receipt only if the block holds the cross1 half. -/
theorem countP_sendTXReceipt2Client (h : sendTXReceipt2Client comID curHeight txs = some msgs)
    (i : ℕ) :
    (msgs.map fun m => m.2.countP (TXReceipt.isCross1 i)).sum ≤
      if ∃ tx ∈ txs, tx.txStatus = .crossTXType1Success ∧ tx.id = i then
        txs.countP (·.id = i) else 0 := by
  simp only [sendTXReceipt2Client, Option.bind_eq_bind, Option.bind_eq_some_iff,
    Option.some.injEq] at h
  rcases h with ⟨table, htable, rfl⟩
  -- a cross1 receipt for `i` stems from a transaction of the block with that ID and status
  have hone : ∀ tx : Transaction,
      ((table.lookup tx.id).map (TXReceipt.isCross1 i)).getD false = true →
      tx.id = i ∧ ∃ tx ∈ txs, tx.txStatus = .crossTXType1Success ∧ tx.id = i := by
    intro tx hany
    cases hlook : table.lookup tx.id with
    | none => simp [hlook] at hany
    | some r =>
        rcases receiptTable_lookup htable hlook with ⟨tx', htx', hid, rfl⟩
        have hr : tx'.txStatus = .crossTXType1Success ∧ tx'.id = i := by
          simpa [hlook, TXReceipt.isCross1, receipt] using hany
        exact ⟨hid ▸ hr.2, tx', htx', hr⟩
  rw [send2Client, List.map_map]
  split
  · -- each client gets the receipts of its own transactions
    calc _ ≤ ((txs.map (·.cid)).dedup.map fun cid =>
          (txs.filter fun tx => tx.cid = cid).countP (·.id = i)).sum := by
          apply List.sum_le_sum
          intro cid _
          show List.countP _ (List.filterMap _ _) ≤ _
          rw [List.countP_filterMap]
          exact List.countP_mono_left fun tx _ hany => by simpa using (hone tx hany).1
      _ ≤ txs.countP (·.id = i) :=
          Sys.sum_countP_filter_le _ (·.cid) txs (List.nodup_dedup _)
  · rename_i hnone
    apply Nat.le_of_eq
    apply List.sum_eq_zero
    intro n hn
    rcases List.mem_map.mp hn with ⟨cid, -, rfl⟩
    show List.countP _ (List.filterMap _ _) = 0
    rw [List.countP_filterMap, List.countP_eq_zero]
    intro tx _ hany
    exact hnone (hone tx hany).2

end Worker

end LessChain
