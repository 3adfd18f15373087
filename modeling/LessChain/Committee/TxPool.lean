import LessChain.Core.Account

/-!
# `committee/txpool.go`

The transaction pool of a committee leader: two queues, rollbacks first. `Pending`
cuts a block out of the pool in two loops; the second one scans `pending`, drops the
cross2 transactions whose time is over and makes room for one more entry for each of
them.
-/

namespace LessChain

/-- `TxPool`. -/
structure TxPool where
  pending : List Transaction
  pendingRollback : List Transaction
deriving DecidableEq, Repr

/-- `NewTxPool`. -/
def newTxPool : TxPool := ⟨[], []⟩

namespace TxPool

/-- `SetPending`: the transactions go to the front of the queue. -/
def setPending (pool : TxPool) (txs : List Transaction) : TxPool :=
  { pool with pending := txs ++ pool.pending }

/-- `SetPendingRollback`. -/
def setPendingRollback (pool : TxPool) (txs : List Transaction) : TxPool :=
  { pool with pendingRollback := txs ++ pool.pendingRollback }

/-- `AddTxWithoutLock`. -/
def addTxWithoutLock (pool : TxPool) (tx : Transaction) : TxPool :=
  if tx.txType = .rollbackTXType then
    { pool with pendingRollback := pool.pendingRollback ++ [tx] }
  else
    { pool with pending := pool.pending ++ [tx] }

/-- `AddTxs`. -/
def addTxs (pool : TxPool) (txs : List Transaction) : TxPool :=
  txs.foldl addTxWithoutLock pool

/-- `Empty`. -/
def empty (pool : TxPool) : Bool := pool.pending.length = 0 ∧ pool.pendingRollback.length = 0

/-- All transactions of the pool. -/
def txs (pool : TxPool) : List Transaction := pool.pendingRollback ++ pool.pending

/-! ## `Pending` -/

/-- The timeout test of `Pending`. -/
def expired (parentBlockHeight : ℕ) (tx : Transaction) : Bool :=
  tx.txType = .crossTXType2 ∧ addU64 (u64 parentBlockHeight) 1 > tx.lastHeight

/-- The first loop of `Pending`: take rollbacks until the block is full. -/
def takeRollback (maxBlockSize : ℕ) : ℕ → List Transaction → List Transaction × List Transaction
  | _, [] => ([], [])
  | i, tx :: rest =>
      if i = maxBlockSize then ([], tx :: rest)
      else
        let (txs, left) := takeRollback maxBlockSize (i + 1) rest
        (tx :: txs, left)

/-- The second loop of `Pending`: an expired cross2 advances the cursor `i` and the
bound `maxBlockSize` together, so that it takes no room in the block. A bound that passes the
largest `int` is one the cursor never meets, with or without the overflow. -/
def takePending (parentBlockHeight : ℕ) :
    ℕ → ℕ → List Transaction → List Transaction × List Transaction
  | _, _, [] => ([], [])
  | maxBlockSize, i, tx :: rest =>
      if i = maxBlockSize then ([], tx :: rest)
      else if expired parentBlockHeight tx then
        takePending parentBlockHeight (maxBlockSize + 1) (i + 1) rest
      else
        let (txs, left) := takePending parentBlockHeight maxBlockSize (i + 1) rest
        (tx :: txs, left)

end TxPool

/-- `getTxRelatedAddrs`: the keys of the map it builds, which it then lists in the
order Go's `range` happens to give. An unknown type ends the process. -/
def getTxRelatedAddrs : List Transaction → Option (Finset Address)
  | [] => some ∅
  | tx :: txs => do
      let addrs ← getTxRelatedAddrs txs
      match tx.txType with
      | .crossTXType1 | .rollbackTXType => some (insert tx.sender addrs)
      | .crossTXType2 => some (insert tx.recipient addrs)
      | .intraTXType => some (insert tx.sender (insert tx.recipient addrs))
      | .undefinedTXType => none

/-- `getTxRelatedAddrs` succeeds on known transactions, and collects what they touch. -/
theorem getTxRelatedAddrs_spec {txs : List Transaction} (hknown : ∀ tx ∈ txs, tx.Known) :
    ∃ addrs, getTxRelatedAddrs txs = some addrs ∧
      ∀ a, a ∈ addrs ↔ ∃ tx ∈ txs, a ∈ tx.touched := by
  induction txs with
  | nil => exact ⟨∅, rfl, by simp⟩
  | cons tx txs ih =>
      rcases ih fun t ht => hknown t (List.mem_cons_of_mem _ ht) with ⟨addrs, hrec, hmem⟩
      refine ⟨tx.touched ∪ addrs, ?_, by simp [hmem]⟩
      cases htype : tx.txType with
      | undefinedTXType => exact absurd htype (hknown tx List.mem_cons_self)
      | _ => simp [getTxRelatedAddrs, hrec, Transaction.touched, htype, Finset.insert_union]

namespace TxPool

/-- `Pending`: the packed transactions, the addresses they touch and the pool that
is left. -/
def Pending (pool : TxPool) (maxBlockSize parentBlockHeight : ℕ) :
    Option (List Transaction × Finset Address × TxPool) := do
  let (rollbacks, rollbacksLeft) := takeRollback maxBlockSize 0 pool.pendingRollback
  let (txs, pendingLeft) :=
    takePending parentBlockHeight (maxBlockSize - rollbacks.length) 0 pool.pending
  let addrs ← getTxRelatedAddrs (rollbacks ++ txs)
  some (rollbacks ++ txs, addrs, ⟨pendingLeft, rollbacksLeft⟩)

/-! ## What the operations do to the queues -/

variable {addrs : Finset Address} {txs : List Transaction} {tx : Transaction} {pool pool' : TxPool}
  {parent maxBlockSize : ℕ}

theorem mem_addTxs :
    tx ∈ (pool.addTxs txs).txs ↔ tx ∈ pool.txs ∨ tx ∈ txs := by
  induction txs generalizing pool with
  | nil => simp [addTxs]
  | cons t ts ih =>
      have hcons : pool.addTxs (t :: ts) = (pool.addTxWithoutLock t).addTxs ts := rfl
      rw [hcons, ih]
      unfold addTxWithoutLock
      split <;> simp [TxPool.txs] <;> tauto

/-- The rollback queue only ever takes rollbacks. -/
theorem rollbackQueue_addTxs (h : ∀ tx ∈ pool.pendingRollback, tx.txType = .rollbackTXType)
    (txs : List Transaction) :
    ∀ tx ∈ (pool.addTxs txs).pendingRollback, tx.txType = .rollbackTXType := by
  induction txs generalizing pool with
  | nil => exact h
  | cons t ts ih =>
      apply ih
      unfold addTxWithoutLock
      split
      · rename_i htype
        intro tx htx
        rcases List.mem_append.mp htx with htx | htx
        · exact h tx htx
        · rw [List.mem_singleton.mp htx]
          exact htype
      · exact h

/-- Adding transactions adds exactly their number of `p`-transactions. -/
theorem countP_addTxs (p : Transaction → Bool) (pool : TxPool) (txs : List Transaction) :
    (pool.addTxs txs).txs.countP p = pool.txs.countP p + txs.countP p := by
  induction txs generalizing pool with
  | nil => simp [addTxs]
  | cons t ts ih =>
      have hcons : pool.addTxs (t :: ts) = (pool.addTxWithoutLock t).addTxs ts := rfl
      rw [hcons, ih]
      have hone : (pool.addTxWithoutLock t).txs.countP p = pool.txs.countP p + [t].countP p := by
        unfold addTxWithoutLock
        split <;> simp only [TxPool.txs, List.countP_append] <;> omega
      have htail : (t :: ts).countP p = [t].countP p + ts.countP p :=
        by
        rw [← List.countP_append, List.singleton_append]
      omega

/-- The first loop splits its queue after at most `maxBlockSize - i` entries. -/
theorem takeRollback_spec (maxBlockSize i : ℕ) (q : List Transaction) (hi : i ≤ maxBlockSize) :
    takeRollback maxBlockSize i q = (q.take (maxBlockSize - i), q.drop (maxBlockSize - i)) := by
  induction q generalizing i with
  | nil => simp [takeRollback]
  | cons tx rest ih =>
      unfold takeRollback
      split
      · rename_i heq
        simp [heq]
      · rename_i hne
        have hroom : maxBlockSize - i = (maxBlockSize - (i + 1)) + 1 := by omega
        rw [ih (i + 1) (by omega), hroom]
        rfl

/-- The second loop cuts `pending` after a scanned part, of which it keeps the
transactions that are not expired. -/
theorem takePending_spec (parent maxBlockSize i : ℕ) (q : List Transaction) :
    ∃ scanned, q = scanned ++ (takePending parent maxBlockSize i q).2 ∧
      (takePending parent maxBlockSize i q).1 = scanned.filter fun tx => !expired parent tx := by
  induction q generalizing maxBlockSize i with
  | nil => exact ⟨[], by simp [takePending]⟩
  | cons tx rest ih =>
      unfold takePending
      split
      · exact ⟨[], by simp⟩
      · split
        · rename_i hexp
          obtain ⟨scanned, hq, htxs⟩ := ih (maxBlockSize + 1) (i + 1)
          refine ⟨tx :: scanned, ?_, ?_⟩
          · rw [List.cons_append, ← hq]
          · rw [htxs, List.filter_cons_of_neg (by simpa using hexp)]
        · rename_i hexp
          obtain ⟨scanned, hq, htxs⟩ := ih maxBlockSize (i + 1)
          refine ⟨tx :: scanned, ?_, ?_⟩
          · rw [List.cons_append, ← hq]
          · rw [List.filter_cons_of_pos (by simpa using hexp), ← htxs]

/-- `Pending` with its loops carried out. -/
theorem Pending_eq (pool : TxPool) (maxBlockSize parent : ℕ) :
    let rollbacks := pool.pendingRollback.take maxBlockSize
    let found := takePending parent (maxBlockSize - rollbacks.length) 0 pool.pending
    pool.Pending maxBlockSize parent = (getTxRelatedAddrs (rollbacks ++ found.1)).map fun addrs =>
      (rollbacks ++ found.1, addrs, ⟨found.2, pool.pendingRollback.drop maxBlockSize⟩) := by
  unfold Pending
  rw [takeRollback_spec maxBlockSize 0 pool.pendingRollback (Nat.zero_le _)]
  simp only [Nat.sub_zero, Option.bind_eq_bind]
  cases getTxRelatedAddrs _ <;> rfl

/-- What `Pending` can do: it packs a first part of the rollbacks and the live
transactions of a first part of `pending`, and leaves the rest. -/
theorem Pending_cases (h : pool.Pending maxBlockSize parent = some (txs, addrs, pool')) :
    getTxRelatedAddrs txs = some addrs ∧
    ∃ scanned,
      pool.pendingRollback = pool.pendingRollback.take maxBlockSize ++ pool'.pendingRollback ∧
      pool.pending = scanned ++ pool'.pending ∧
      txs = pool.pendingRollback.take maxBlockSize ++
        scanned.filter fun tx => !expired parent tx := by
  rw [Pending_eq] at h
  obtain ⟨scanned, hq, htxs⟩ := takePending_spec parent
    (maxBlockSize - (pool.pendingRollback.take maxBlockSize).length) 0 pool.pending
  obtain ⟨addrs', haddrs, hres⟩ := Option.map_eq_some_iff.mp h
  cases hres
  refine ⟨haddrs, scanned, ?_, hq, ?_⟩
  · exact (List.take_append_drop _ _).symm
  · rw [htxs]

/-- Packed transactions come out of the pool. -/
theorem countP_Pending_le (p : Transaction → Bool)
    (h : pool.Pending maxBlockSize parent = some (txs, addrs, pool')) :
    txs.countP p + pool'.txs.countP p ≤ pool.txs.countP p := by
  obtain ⟨-, scanned, hroll, hpend, htxs⟩ := Pending_cases h
  have hfilter : (scanned.filter fun tx => !expired parent tx).countP p ≤ scanned.countP p :=
    List.filter_sublist.countP_le
  have hr := congrArg (List.countP p) hroll
  have hp := congrArg (List.countP p) hpend
  rw [List.countP_append] at hr hp
  rw [htxs, TxPool.txs, TxPool.txs]
  simp only [List.countP_append]
  omega

theorem mem_of_mem_Pending (h : pool.Pending maxBlockSize parent = some (txs, addrs, pool')) :
    (tx ∈ txs → tx ∈ pool.txs) ∧ (tx ∈ pool'.txs → tx ∈ pool.txs) := by
  obtain ⟨-, scanned, hroll, hpend, htxs⟩ := Pending_cases h
  rw [htxs, TxPool.txs, TxPool.txs, hpend]
  constructor
  · intro hmem
    rcases List.mem_append.mp hmem with hr | hs
    · exact List.mem_append_left _ (List.mem_of_mem_take hr)
    · exact List.mem_append_right _ (List.mem_append_left _ (List.mem_of_mem_filter hs))
  · intro hmem
    rcases List.mem_append.mp hmem with hr | hs
    · refine List.mem_append_left _ ?_
      rw [hroll]
      exact List.mem_append_right _ hr
    · exact List.mem_append_right _ (List.mem_append_right _ hs)

/-- Only cross2 transactions are dropped. -/
theorem mem_Pending (h : pool.Pending maxBlockSize parent = some (txs, addrs, pool'))
    (htx : tx ∈ pool.txs) (hkind : tx.txType ≠ .crossTXType2) :
    tx ∈ pool'.txs ∨ tx ∈ txs := by
  obtain ⟨-, scanned, hroll, hpend, htxs⟩ := Pending_cases h
  rw [TxPool.txs, hroll, hpend] at htx
  rw [htxs, TxPool.txs]
  rcases List.mem_append.mp htx with hr | hp
  · rcases List.mem_append.mp hr with htaken | hleft
    · exact Or.inr (List.mem_append_left _ htaken)
    · exact Or.inl (List.mem_append_left _ hleft)
  · rcases List.mem_append.mp hp with hscanned | hleft
    · refine Or.inr (List.mem_append_right _ (List.mem_filter.mpr ⟨hscanned, ?_⟩))
      simp [expired, hkind]
    · exact Or.inl (List.mem_append_right _ hleft)

theorem txs_of_empty (h : pool.empty = true) : pool.txs = [] := by
  simpa [empty, txs, and_comm] using h

/-- A packed cross2 transaction stands in a block of height at most its last height,
unless the rollback queue holds it. -/
theorem height_le_of_mem_Pending (h : pool.Pending maxBlockSize parent = some (txs, addrs, pool'))
    (hroll : ∀ tx ∈ pool.pendingRollback, tx.txType = .rollbackTXType)
    (htx : tx ∈ txs) (htype : tx.txType = .crossTXType2) :
    addU64 (u64 parent) 1 ≤ tx.lastHeight := by
  obtain ⟨-, scanned, -, -, htxs⟩ := Pending_cases h
  rw [htxs] at htx
  rcases List.mem_append.mp htx with hr | hs
  · have hrb := hroll tx (List.mem_of_mem_take hr)
    rw [hrb] at htype
    cases htype
  · have hlive := (List.mem_filter.mp hs).2
    simp only [expired, htype, true_and, gt_iff_lt, Bool.not_eq_true', decide_eq_false_iff_not,
      not_lt] at hlive
    exact hlive

/-! ## Which transactions `Pending` selects -/

/-- The block to be made is above the rollback height of a cross2 transaction. -/
def Overdue (parentBlockHeight : ℕ) (tx : Transaction) : Prop :=
  tx.txType = .crossTXType2 ∧ parentBlockHeight + 1 > tx.cross1ConfirmHeight + tx.rollbackHeight

instance (parentBlockHeight : ℕ) (tx : Transaction) : Decidable (Overdue parentBlockHeight tx) :=
  inferInstanceAs (Decidable (_ ∧ _))

/-- The choice of a block: the first rollbacks, and what is not overdue in a first part
`scanned` of `pending`. -/
structure Selected (pool : TxPool) (maxBlockSize parent : ℕ) (scanned txs : List Transaction)
    (pool' : TxPool) : Prop where
  packed : txs = pool.pendingRollback.take (min maxBlockSize pool.pendingRollback.length) ++
    scanned.filter fun tx => ¬ Overdue parent tx
  pendingRollback : pool'.pendingRollback =
    pool.pendingRollback.drop (min maxBlockSize pool.pendingRollback.length)
  pending : pool.pending = scanned ++ pool'.pending
  length_le : txs.length ≤ maxBlockSize
  exhausted : txs.length < maxBlockSize → pool'.pendingRollback = [] ∧ pool'.pending = []
  /-- Every transaction is returned, retained or overdue, and only one of these. -/
  perm : pool.txs.Perm (txs ++ pool'.txs ++ scanned.filter fun tx => Overdue parent tx)

/-- Without overflow the timeout test is the one on unbounded heights. -/
theorem expired_eq_overdue (hparent : parent < 2 ^ 63)
    (hlast : tx.cross1ConfirmHeight + tx.rollbackHeight < 2 ^ 64) :
    expired parent tx = decide (Overdue parent tx) := by
  have hnext : addU64 (u64 parent) 1 = parent + 1 := by
    rw [u64_of_lt (by omega), addU64, u64_of_lt (by omega)]
  have hsum : tx.lastHeight = tx.cross1ConfirmHeight + tx.rollbackHeight := u64_of_lt hlast
  rw [expired, hnext, hsum]
  exact decide_eq_decide.mpr Iff.rfl

/-- The second loop fills the room that is left, and stops early only at the end of the
queue. -/
theorem length_takePending (parent : ℕ) {i : ℕ} (q : List Transaction)
    (hi : i ≤ maxBlockSize) :
    (takePending parent maxBlockSize i q).1.length ≤ maxBlockSize - i ∧
      ((takePending parent maxBlockSize i q).1.length < maxBlockSize - i →
        (takePending parent maxBlockSize i q).2 = []) := by
  induction q generalizing maxBlockSize i with
  | nil => simp [takePending]
  | cons tx rest ih =>
      unfold takePending
      split
      · rename_i hfull
        simp [hfull]
      · rename_i hroom
        split
        · -- cursor and bound move together: the room stays
          have h := ih (show i + 1 ≤ maxBlockSize + 1 by omega)
          rwa [Nat.add_sub_add_right] at h
        · obtain ⟨hle, hend⟩ := ih (show i + 1 ≤ maxBlockSize by omega)
          simp only [List.length_cons]
          constructor
          · omega
          · intro hlt
            exact hend (by omega)

/-- `Pending` selects the right transactions for every pool: its loops end with a `Selected`
block, and it returns that block unless a transaction of an unknown type is in it. -/
theorem Pending_selected (pool : TxPool) (maxBlockSize parent : ℕ) (hparent : parent < 2 ^ 63)
    (hlast : ∀ tx ∈ pool.pending, tx.cross1ConfirmHeight + tx.rollbackHeight < 2 ^ 64) :
    ∃ scanned txs pool', Selected pool maxBlockSize parent scanned txs pool' ∧
      pool.Pending maxBlockSize parent =
        (getTxRelatedAddrs txs).map (fun addrs => (txs, addrs, pool')) ∧
      ((∀ tx ∈ txs, tx.Known) → (pool.Pending maxBlockSize parent).isSome) := by
  have htake : pool.pendingRollback.take (min maxBlockSize pool.pendingRollback.length) =
      pool.pendingRollback.take maxBlockSize := by
    rw [← List.take_take, List.take_length]
  have hdrop : pool.pendingRollback.drop (min maxBlockSize pool.pendingRollback.length) =
      pool.pendingRollback.drop maxBlockSize := by
    rw [List.drop_eq_drop_iff]
    omega
  have heq := Pending_eq pool maxBlockSize parent
  dsimp only at heq
  generalize hroom : maxBlockSize - (pool.pendingRollback.take maxBlockSize).length = room at heq
  obtain ⟨scanned, hpending, htxs⟩ := takePending_spec parent room 0 pool.pending
  obtain ⟨hle, hend⟩ := length_takePending parent pool.pending (Nat.zero_le room)
  generalize takePending parent room 0 pool.pending = found at heq hpending htxs hle hend
  obtain ⟨live, left⟩ := found
  dsimp only at heq hpending htxs hle hend
  -- on the scanned part the test of the code is the one of the specification
  have hlive : live = scanned.filter fun tx => ¬ Overdue parent tx := by
    rw [htxs]
    apply List.filter_congr
    intro tx htx
    rw [expired_eq_overdue hparent (hlast tx (hpending ▸ List.mem_append_left _ htx)), decide_not]
  refine ⟨scanned, _, _, ⟨?_, ?_, hpending, ?_, ?_, ?_⟩, heq, ?_⟩
  · rw [hlive, htake]
  · exact hdrop.symm
  · have := pool.pendingRollback.length_take_le maxBlockSize
    rw [List.length_append]
    omega
  · intro hlt
    rw [List.length_append] at hlt
    -- there was room left: the first loop came to the end of its queue, and so did the second
    refine ⟨?_, hend (by omega)⟩
    rw [List.drop_eq_nil_iff]
    rw [List.length_take] at hlt hroom
    omega
  · have hscanned := List.filter_append_perm (fun tx => decide (Overdue parent tx)) scanned
    rw [List.perm_iff_count]
    intro tx
    have hrollbacks := congrArg (List.count tx)
      (List.take_append_drop maxBlockSize pool.pendingRollback)
    have hsplit := hscanned.count_eq tx
    simp only [TxPool.txs, hpending, hlive, decide_not, List.count_append] at hrollbacks hsplit ⊢
    omega
  · intro hknown
    obtain ⟨addrs, haddrs, -⟩ := getTxRelatedAddrs_spec hknown
    rw [heq, haddrs]
    rfl

def queuedTx (txType : TXType) (id cross1ConfirmHeight : ℕ) : Transaction :=
  ⟨txType, id, 1, 2, 5, 0, 0, 0, cross1ConfirmHeight, 0, 1, .defaultStatus, 0, 20⟩

/-- A rollback, and a live cross2 transaction between two that are overdue at height 31. -/
def queuedPool : TxPool where
  pendingRollback := [queuedTx .rollbackTXType 1 0]
  pending := [queuedTx .crossTXType2 2 10, queuedTx .crossTXType2 3 11,
    queuedTx .crossTXType2 4 9, queuedTx .intraTXType 5 0, queuedTx .intraTXType 6 0]

theorem Pending_selected_queuedPool :
    ∃ scanned txs pool', Selected queuedPool 3 30 scanned txs pool' ∧
      queuedPool.Pending 3 30 = (getTxRelatedAddrs txs).map (fun addrs => (txs, addrs, pool')) ∧
      ((∀ tx ∈ txs, tx.Known) → (queuedPool.Pending 3 30).isSome) :=
  Pending_selected queuedPool 3 30 (by decide) (by decide)

example : (queuedPool.Pending 3 30).map (fun r => (r.1.map (·.id), r.2.2.txs.map (·.id))) =
    some ([1, 3, 5], [6]) := by decide

end TxPool

end LessChain
