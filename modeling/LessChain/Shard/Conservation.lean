import LessChain.Shard.Execute
import Mathlib.Algebra.BigOperators.Finprod
import Mathlib.Data.BitVec

/-!
# Execution adds up

A transaction shifts nonces and balances by amounts that do not depend on the state. So the
state after a block is the sum of what its transactions do, in whatever order they stand; a
rollback takes back what its cross1 transaction did; and of the money of a shard, only the
cross-shard halves come or go.
-/

namespace LessChain

namespace Transaction

/-- What a transaction pays to account `a`. -/
def credit (tx : Transaction) (a : Address) : ℤ :=
  match tx.txType with
  | .intraTXType | .crossTXType2 => if a = tx.recipient then tx.value else 0
  | .rollbackTXType => if a = tx.sender then tx.value else 0
  | .crossTXType1 | .undefinedTXType => 0

/-- What a transaction takes from account `a`. -/
def debit (tx : Transaction) (a : Address) : ℤ :=
  match tx.txType with
  | .intraTXType | .crossTXType1 => if a = tx.sender then tx.value else 0
  | .crossTXType2 | .rollbackTXType | .undefinedTXType => 0

/-- An intra or cross1 transaction that `a` has sent. -/
def sentBy (a : Address) (tx : Transaction) : Bool :=
  (tx.txType = .intraTXType ∨ tx.txType = .crossTXType1) ∧ a = tx.sender

/-- A rollback for `a`. -/
def rolledBackFor (a : Address) (tx : Transaction) : Bool :=
  tx.txType = .rollbackTXType ∧ a = tx.sender

/-- A rollback of this cross1 transaction. -/
structure RolledBackBy (cross1 rollback : Transaction) : Prop where
  isCross1 : cross1.txType = .crossTXType1
  isRollback : rollback.txType = .rollbackTXType
  sender : rollback.sender = cross1.sender
  value : rollback.value = cross1.value

/-- What a transaction adds to the money of the shard. -/
def inflow (tx : Transaction) : ℤ :=
  match tx.txType with
  | .crossTXType1 => -tx.value
  | .crossTXType2 | .rollbackTXType => tx.value
  | .intraTXType | .undefinedTXType => 0

end Transaction

/-- The values of the transactions of one kind. -/
def sumOf (txType : TXType) (txs : List Transaction) : ℤ :=
  ((txs.filter fun tx => tx.txType = txType).map (·.value)).sum

/-- The sum of all balances. -/
noncomputable def StateDB.total (db : StateDB) : ℤ := finsum fun a => db.getBalance a

/-! ## One account -/

theorem Transaction.balanceDelta_eq (tx : Transaction) (a : Address) :
    tx.balanceDelta a = tx.credit a - tx.debit a := by
  unfold balanceDelta credit debit
  cases tx.txType <;> grind

theorem effects_balance (txs : List Transaction) (a : Address) (acc : StateAccount) :
    (effects txs a acc).balance =
      acc.balance + (txs.map (·.credit a)).sum - (txs.map (·.debit a)).sum := by
  induction txs generalizing acc with
  | nil => simp
  | cons tx txs ih =>
      have hstep : (tx.effect a acc).balance = acc.balance + tx.credit a - tx.debit a := by
        rw [Transaction.effect, tx.balanceDelta_eq]
        ring
      rw [effects_cons, ih, hstep, List.map_cons, List.map_cons, List.sum_cons, List.sum_cons]
      ring

theorem Transaction.nonceDelta_eq (tx : Transaction) (a : Address) :
    tx.nonceDelta a = UInt64.ofNat (if sentBy a tx then 1 else 0) -
      UInt64.ofNat (if rolledBackFor a tx then 1 else 0) := by
  unfold nonceDelta sentBy rolledBackFor
  cases tx.txType <;> by_cases ha : a = tx.sender <;> simp [ha]

theorem effects_nonce (txs : List Transaction) (a : Address) (acc : StateAccount) :
    (effects txs a acc).nonce = acc.nonce + UInt64.ofNat (txs.countP (Transaction.sentBy a)) -
      UInt64.ofNat (txs.countP (Transaction.rolledBackFor a)) := by
  induction txs generalizing acc with
  | nil => simp
  | cons tx txs ih =>
      rw [effects_cons, ih, List.countP_cons, List.countP_cons, Transaction.effect,
        tx.nonceDelta_eq, UInt64.ofNat_add, UInt64.ofNat_add]
      grind

theorem Transaction.effect_comm (tx tx' : Transaction) (a : Address) (acc : StateAccount) :
    tx.effect a (tx'.effect a acc) = tx'.effect a (tx.effect a acc) := by
  unfold effect
  dsimp only
  rw [add_right_comm acc.balance, UInt64.add_assoc, UInt64.add_comm (tx'.nonceDelta a),
    ← UInt64.add_assoc]

theorem effects_perm {txs txs' : List Transaction} (h : txs.Perm txs') (a : Address)
    (acc : StateAccount) : effects txs a acc = effects txs' a acc := by
  have : RightCommutative fun (acc : StateAccount) (tx : Transaction) => tx.effect a acc :=
    ⟨fun acc tx tx' => tx'.effect_comm tx a acc⟩
  exact h.foldl_eq acc

theorem Transaction.RolledBackBy.effect_effect {cross1 rollback : Transaction}
    (h : cross1.RolledBackBy rollback) (a : Address) (acc : StateAccount) :
    rollback.effect a (cross1.effect a acc) = acc := by
  have hnonce : rollback.nonceDelta a = -cross1.nonceDelta a := by
    unfold nonceDelta
    rw [h.isCross1, h.isRollback, h.sender]
    split_ifs <;> rfl
  have hbalance : rollback.balanceDelta a = -cross1.balanceDelta a := by
    unfold balanceDelta
    rw [h.isCross1, h.isRollback, h.sender, h.value]
    split_ifs <;> simp
  unfold effect
  dsimp only
  rw [hnonce, hbalance, ← UInt64.sub_eq_add_neg, UInt64.add_sub_cancel, add_neg_cancel_right]

/-! ## The money of a shard -/

instance : Finite Address := .of_equiv _ BitVec.equivFin.symm.toEquiv

theorem Transaction.finsum_balanceDelta (tx : Transaction) :
    (finsum fun a => tx.balanceDelta a) = tx.inflow := by
  have hsingle : ∀ (b : Address) (v : ℤ), (finsum fun a => if a = b then v else 0) = v := by
    intro b v
    rw [finsum_eq_single _ b (fun a ha => if_neg ha), if_pos rfl]
  unfold balanceDelta inflow
  cases tx.txType
  all_goals
    dsimp only
  · exact finsum_zero
  · rw [finsum_add_distrib (Set.toFinite _) (Set.toFinite _), hsingle, hsingle]
    simp
  all_goals exact hsingle _ _

/-- The sum over the accounts of what a list of transactions does. -/
theorem finsum_effects (txs : List Transaction) (accs : Address → StateAccount) :
    (finsum fun a => (effects txs a (accs a)).balance) =
      (finsum fun a => (accs a).balance) + (txs.map (·.inflow)).sum := by
  induction txs generalizing accs with
  | nil => simp
  | cons tx txs ih =>
      have hone : (finsum fun a => (tx.effect a (accs a)).balance) =
          (finsum fun a => (accs a).balance) + tx.inflow := by
        unfold Transaction.effect
        rw [finsum_add_distrib (Set.toFinite _) (Set.toFinite _), tx.finsum_balanceDelta]
      simp only [effects_cons]
      rw [ih fun a => tx.effect a (accs a), hone, List.map_cons, List.sum_cons, add_assoc]

theorem sum_inflow (txs : List Transaction) :
    (txs.map (·.inflow)).sum =
      -sumOf .crossTXType1 txs + sumOf .crossTXType2 txs + sumOf .rollbackTXType txs := by
  unfold sumOf
  induction txs with
  | nil => rfl
  | cons tx txs ih =>
      rw [List.map_cons, List.sum_cons, ih, Transaction.inflow]
      cases htype : tx.txType <;> simp [htype] <;> ring

/-! ## The state after a block -/

/-- Two states with the same accounts, as the getters see them, and the same ones missing. -/
theorem StateDB.ext_account {db db' : StateDB}
    (hacc : ∀ a, db.account a = db'.account a) (hnone : ∀ a, db a = none ↔ db' a = none) :
    db = db' := by
  funext a
  have hview := hacc a
  have hmissing := hnone a
  unfold StateDB.account at hview
  cases hdb : db a <;> cases hdb' : db' a <;> simp_all

namespace Shard

variable (intermediateRoot : StateDB → Hash)

/-- The accounts after a block. An account exists afterwards if it did before or if a
transaction touches it. -/
theorem executeTransactions_account (s : Shard) {txs : List Transaction}
    (hknown : ∀ tx ∈ txs, tx.Known) :
    ∃ s', s.executeTransactions intermediateRoot txs = some (intermediateRoot s'.stateDB, s') ∧
      (∀ a, s'.stateDB.account a = effects txs a (s.stateDB.account a)) ∧
      ∀ a, s'.stateDB a = none ↔ s.stateDB a = none ∧ ∀ tx ∈ txs, a ∉ tx.touched := by
  obtain ⟨s', hrun, -, hstate⟩ := s.executeTransactions_spec intermediateRoot hknown
  refine ⟨s', hrun, ?_, ?_⟩
  · intro a
    rw [StateDB.account, hstate]
    split
    · rfl
    · rename_i hnone
      rw [effects_of_not_mem fun tx htx ha => hnone ⟨tx, htx, ha⟩]
      rfl
  · intro a
    rw [hstate]
    split
    · rename_i htouched
      obtain ⟨tx, htx, ha⟩ := htouched
      simp only [reduceCtorEq, false_iff, not_and]
      exact fun _ hnone => hnone tx htx ha
    · rename_i hnone
      constructor
      · exact fun h => ⟨h, fun tx htx ha => hnone ⟨tx, htx, ha⟩⟩
      · exact fun h => h.1

/-- The block `txs` adds up to the difference of the two states. -/
structure AddsUp (db db' : StateDB) (txs : List Transaction) : Prop where
  balance : ∀ a, db'.getBalance a =
    db.getBalance a + (txs.map (·.credit a)).sum - (txs.map (·.debit a)).sum
  nonce : ∀ a, db'.getNonce a = db.getNonce a +
    UInt64.ofNat (txs.countP (Transaction.sentBy a)) -
    UInt64.ofNat (txs.countP (Transaction.rolledBackFor a))
  total : db'.total = db.total - sumOf .crossTXType1 txs + sumOf .crossTXType2 txs +
    sumOf .rollbackTXType txs

theorem addsUp_of_effects {db db' : StateDB} {txs : List Transaction}
    (h : ∀ a, db'.account a = effects txs a (db.account a)) : AddsUp db db' txs where
  balance := by
    intro a
    rw [StateDB.getBalance, h, effects_balance]
    rfl
  nonce := by
    intro a
    rw [StateDB.getNonce, h, effects_nonce]
    rfl
  total := by
    have hsum := finsum_effects txs db.account
    unfold StateDB.total StateDB.getBalance
    simp only [h]
    rw [hsum, sum_inflow]
    ring

/-- Execution adds up, in any order of the block, and without a cross1 transaction and its
rollback the accounts come out the same. A sender that did not exist before is left as an empty
account by the two, and stays missing without them. -/
theorem executeTransactions_addsUp (s : Shard) (txs : List Transaction)
    (hknown : ∀ tx ∈ txs, tx.Known) :
    ∃ s', s.executeTransactions intermediateRoot txs = some (intermediateRoot s'.stateDB, s') ∧
      AddsUp s.stateDB s'.stateDB txs ∧
      (∀ txs', txs'.Perm txs → ∃ s'', s''.stateDB = s'.stateDB ∧
        s.executeTransactions intermediateRoot txs' = some (intermediateRoot s'.stateDB, s'')) ∧
      ∀ cross1 rollback rest, cross1.RolledBackBy rollback →
        txs.Perm (cross1 :: rollback :: rest) →
        ∃ s'', s.executeTransactions intermediateRoot rest =
            some (intermediateRoot s''.stateDB, s'') ∧
          (∀ a, s''.stateDB.account a = s'.stateDB.account a) ∧
          ((s.stateDB cross1.sender).isSome → s''.stateDB = s'.stateDB) := by
  obtain ⟨s', hrun, hacc, hnone⟩ := s.executeTransactions_account intermediateRoot hknown
  refine ⟨s', hrun, addsUp_of_effects hacc, ?_, ?_⟩
  · intro txs' hperm
    obtain ⟨s'', hrun', hacc', hnone'⟩ := s.executeTransactions_account intermediateRoot
      fun tx htx => hknown tx (hperm.mem_iff.mp htx)
    have hsame : s''.stateDB = s'.stateDB := by
      apply StateDB.ext_account
      · intro a
        rw [hacc, hacc', effects_perm hperm]
      · intro a
        simp only [hnone, hnone', hperm.mem_iff]
    exact ⟨s'', hsame, hsame ▸ hrun'⟩
  · intro cross1 rollback rest hpair hperm
    have hrest : ∀ tx ∈ rest, tx.Known := by
      intro tx htx
      exact hknown tx (hperm.mem_iff.mpr (by simp [htx]))
    obtain ⟨s'', hrun', hacc', hnone'⟩ := s.executeTransactions_account intermediateRoot hrest
    have hview : ∀ a, s''.stateDB.account a = s'.stateDB.account a := by
      intro a
      rw [hacc, hacc', effects_perm hperm, effects_cons, effects_cons, hpair.effect_effect]
    refine ⟨s'', hrun', hview, ?_⟩
    intro hexists
    refine StateDB.ext_account hview fun a => ?_
    -- the two touch the sender only, and it existed
    have htouched : ∀ tx, tx = cross1 ∨ tx = rollback → tx.touched = {cross1.sender} := by
      rintro tx (rfl | rfl)
      · rw [Transaction.touched, hpair.isCross1]
      · rw [Transaction.touched, hpair.isRollback, ← hpair.sender]
    simp only [hnone, hnone', hperm.mem_iff, List.forall_mem_cons,
      htouched cross1 (.inl rfl), htouched rollback (.inr rfl), Finset.mem_singleton]
    constructor
    · rintro ⟨ha, hrest⟩
      have hne : a ≠ cross1.sender := by
        rintro rfl
        simp [ha] at hexists
      exact ⟨ha, hne, hne, hrest⟩
    · rintro ⟨ha, -, -, hrest⟩
      exact ⟨ha, hrest⟩

/-- The sample block has a cross1 transaction with its rollback. -/
theorem executeTransactions_addsUp_sample :
    ∃ s', sampleShard.executeTransactions sampleRoot sampleTxs =
        some (sampleRoot s'.stateDB, s') ∧
      AddsUp sampleShard.stateDB s'.stateDB sampleTxs ∧
      ∃ s'', sampleShard.executeTransactions sampleRoot
          [sampleTx .intraTXType 1 1 2 5, sampleTx .intraTXType 2 2 2 2,
            sampleTx .crossTXType2 5 3 2 4] = some (sampleRoot s''.stateDB, s'') ∧
        s''.stateDB = s'.stateDB := by
  obtain ⟨s', hrun, hadds, -, hdelete⟩ := executeTransactions_addsUp sampleRoot sampleShard
    sampleTxs (by unfold Transaction.Known; decide)
  obtain ⟨s'', hrun', -, hsame⟩ := hdelete (sampleTx .crossTXType1 3 1 3 10)
    (sampleTx .rollbackTXType 4 1 3 10) [sampleTx .intraTXType 1 1 2 5,
      sampleTx .intraTXType 2 2 2 2, sampleTx .crossTXType2 5 3 2 4] ⟨rfl, rfl, rfl, rfl⟩
    (by decide)
  exact ⟨s', hrun, hadds, s'', hrun', hsame (by decide)⟩

end Shard

end LessChain
