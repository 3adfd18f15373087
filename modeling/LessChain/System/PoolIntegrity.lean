import LessChain.Lib.Fold
import LessChain.System.Handover

/-!
# Orderly handovers lose and duplicate nothing

Three invariants. `Protocol` says where a node stands and which pool it serves: as long as
the new leader of a committee has no answer, the old leader serves the pool it led with.
`Once` says that a transaction is taken into one pool only. `Counts` compares what a leader
pool holds with what it took from clients and what was handed to it, for the transactions
that have not been packed or dropped.
-/

namespace LessChain

namespace Handover

section

variable {NodeId ComId : Type} {plan : Plan NodeId ComId} {s s' : State NodeId}

/-! ## What a step can do -/

section

variable [DecidableEq NodeId] [DecidableEq ComId] [Fintype NodeId] [Fintype ComId]

variable (plan) in
/-- The steps, with what their guards guarantee. -/
inductive Taken (s : State NodeId) : Event NodeId → State NodeId → Prop
  | clientSendTx {n : NodeId} {txs : List Transaction} (hnodup : (s.sent ++ txs).Nodup) :
      Taken s (.clientSendTx n txs) { s with
        adding := s.adding ++ [((n, (s.coms n).txPool), txs)]
        sent := s.sent ++ txs }
  | addTxs {k : ℕ} {p : PoolRef NodeId} {txs : List Transaction}
      (hk : s.adding[k]? = some (p, txs)) :
      Taken s (.addTxs k) { s with
        pools := Function.update s.pools p ((s.pools p).addTxs txs)
        adding := s.adding.eraseIdx k
        accepted := s.accepted ++ txs.map fun tx => (p, tx) }
  | pending {n : NodeId} {maxBlockSize parentHeight : ℕ} {txs : List Transaction}
      {addrs : Finset Address} {pool : TxPool}
      (hpending : (s.pools (n, (s.coms n).txPool)).Pending maxBlockSize parentHeight =
        some (txs, addrs, pool)) :
      Taken s (.pending n maxBlockSize parentHeight) { s with
        pools := Function.update s.pools (n, (s.coms n).txPool) pool
        packed := s.packed ++ txs
        dropped := s.dropped ++
          droppedBy (s.pools (n, (s.coms n).txPool)) pool parentHeight }
  | initReconfig {n : NodeId} (hlead : n = plan.leader (s.epoch n) (plan.comID (s.epoch n) n))
      (hdone : s.stage (n, s.epoch n) = .done) :
      Taken s (.initReconfig n) { s with
        coms := Function.update s.coms n (s.coms n).setOldTxPool
        initiated := Function.update s.initiated (n, s.epoch n) true }
  | endReconfig {n : NodeId}
      (hall : ∀ c, s.initiated (plan.leader (s.epoch n) c, s.epoch n) = true) :
      Taken s (.endReconfig n) { s with
        epoch := Function.update s.epoch n (s.epoch n + 1)
        coms := Function.update s.coms n (s.coms n).setOldTxPool
        stage := Function.update s.stage (n, s.epoch n + 1) .restarting }
  | start {n : NodeId} {e : ℕ} (hstage : s.stage (n, e) = .restarting) :
      Taken s (.start n e) { s with
        coms := Function.update s.coms n ((s.coms n).start e)
        stage := Function.update s.stage (n, e) .syncing
        pools := Function.update s.pools (n, e) newTxPool }
  | handleGetPoolTx {n : NodeId} {e old : ℕ} (hstage : s.stage (n, e) = .syncing)
      (hold : (s.coms (plan.leader (e - 1) (plan.comID e n))).oldTxPool = some old) :
      Taken s (.handleGetPoolTx n e) { s with
        stage := Function.update s.stage (n, e)
          (.answered (s.pools (plan.leader (e - 1) (plan.comID e n), old))) }
  | setPoolTx {n : NodeId} {e : ℕ} {poolTx : TxPool} (hstage : s.stage (n, e) = .answered poolTx) :
      Taken s (.setPoolTx n e) { s with
        stage := Function.update s.stage (n, e) .done
        pools := Function.update s.pools (n, (s.coms n).txPool)
          (setPoolTx (s.pools (n, (s.coms n).txPool)) poolTx) }

theorem step_taken {ev : Event NodeId} (hstep : step plan s ev = some s') : Taken plan s ev s' := by
  cases ev with
  | clientSendTx n txs =>
      simp only [step, clientSendTx, Option.ite_none_right_eq_some, Option.some.injEq] at hstep
      rcases hstep with ⟨hnodup, rfl⟩
      exact .clientSendTx hnodup
  | addTxs k =>
      simp only [step, addTxs, Option.bind_eq_bind, Option.bind_eq_some_iff, Option.some.injEq]
        at hstep
      rcases hstep with ⟨⟨p, txs⟩, hk, rfl⟩
      exact .addTxs hk
  | pending n maxBlockSize parentHeight =>
      simp only [step, pending, Option.bind_eq_bind, Option.bind_eq_some_iff, Option.some.injEq]
        at hstep
      rcases hstep with ⟨⟨txs, addrs, pool⟩, hpending, rfl⟩
      exact .pending hpending
  | initReconfig n =>
      simp only [step, initReconfig, Option.ite_none_right_eq_some, Option.some.injEq] at hstep
      rcases hstep with ⟨⟨hlead, hdone⟩, rfl⟩
      exact .initReconfig hlead hdone
  | endReconfig n =>
      simp only [step, endReconfig, Option.ite_none_right_eq_some, Option.some.injEq] at hstep
      rcases hstep with ⟨⟨hall, -⟩, rfl⟩
      exact .endReconfig hall
  | start n e =>
      simp only [step, start, Option.ite_none_right_eq_some, Option.some.injEq] at hstep
      rcases hstep with ⟨hstage, rfl⟩
      exact .start hstage
  | handleGetPoolTx n e =>
      simp only [step, handleGetPoolTx, Option.ite_none_right_eq_some, Option.bind_eq_bind,
        Option.bind_eq_some_iff, Option.some.injEq] at hstep
      rcases hstep with ⟨hstage, old, hold, rfl⟩
      exact .handleGetPoolTx hstage hold
  | setPoolTx n e =>
      simp only [step, setPoolTxStep] at hstep
      split at hstep
      · rename_i poolTx hstage
        cases hstep
        exact .setPoolTx hstage
      · cases hstep

end

/-! ## Where the nodes stand -/

variable (plan) in
structure Protocol (s : State NodeId) : Prop where
  above : ∀ n e, s.epoch n < e → s.stage (n, e) = .idle
  below : ∀ n e, e < s.epoch n → s.stage (n, e) = .done
  txPool : ∀ n, (s.coms n).txPool =
    if s.stage (n, s.epoch n) = .restarting then s.epoch n - 1 else s.epoch n
  zero : ∀ n, s.stage (n, 0) = .done
  initiated : ∀ n e, s.initiated (n, e) = true → s.stage (n, e) = .done
  begun : ∀ n e, e < s.epoch n → ∀ c, s.initiated (plan.leader e c, e) = true
  old : ∀ e c, s.initiated (plan.leader e c, e) = true →
    (s.stage (plan.leader (e + 1) c, e + 1)).isAnswered = false →
    (s.coms (plan.leader e c)).oldTxPool = some e

variable {txs : List Transaction} {n : NodeId} {p : PoolRef NodeId} {tx : Transaction} {e : ℕ}

/-- `EndReconfig` is under way in the epoch a node is in. -/
theorem Protocol.epoch_eq (h : Protocol plan s)
    (hidle : s.stage (n, e) ≠ .idle) (hdone : s.stage (n, e) ≠ .done) : e = s.epoch n := by
  rcases lt_trichotomy e (s.epoch n) with hlt | heq | hgt
  · exact absurd (h.below n e hlt) hdone
  · exact heq
  · exact absurd (h.above n e hgt) hidle

/-- Once restarted, a node points to the pool of its epoch. -/
theorem Protocol.txPool_eq (h : Protocol plan s)
    (hidle : s.stage (n, e) ≠ .idle) (hdone : s.stage (n, e) ≠ .done)
    (hres : s.stage (n, e) ≠ .restarting) : (s.coms n).txPool = e := by
  have he := h.epoch_eq hidle hdone
  rw [h.txPool n, ← he, if_neg hres]

/-- Nor has a node left its pool when `EndReconfig` is over. -/
theorem Protocol.txPool_of_done (h : Protocol plan s)
    (hdone : s.stage (n, s.epoch n) = .done) : (s.coms n).txPool = s.epoch n := by
  rw [h.txPool n, hdone]
  simp

/-- A leader that began a reconfiguration is at least in that epoch. -/
theorem Protocol.le_epoch (h : Protocol plan s)
    (hinit : s.initiated (n, e) = true) : e ≤ s.epoch n := by
  by_contra hlt
  have hidle := h.above n e (by omega)
  rw [h.initiated n e hinit] at hidle
  cases hidle

/-- All leaders of the epochs before that of a node have their pools. -/
theorem Protocol.done_of_lt (h : Protocol plan s) (hlt : e < s.epoch n)
    (c : ComId) : s.stage (plan.leader e c, e) = .done :=
  h.initiated _ _ (h.begun n e hlt c)

/-- The successors of the leaders before the epoch of a node have been answered, if those
that lead in this epoch have. -/
theorem Protocol.answered_of_lt (h : Protocol plan s) {c : ComId}
    (hlt : e < s.epoch n)
    (hlast : e + 1 = s.epoch n → (s.stage (plan.leader (e + 1) c, e + 1)).isAnswered = true) :
    (s.stage (plan.leader (e + 1) c, e + 1)).isAnswered = true := by
  rcases Nat.lt_or_eq_of_le (show e + 1 ≤ s.epoch n from hlt) with hlt' | heq
  · rw [h.done_of_lt hlt' c]
    rfl
  · exact hlast heq

/-- A leader that has begun to take over comes after one that has its pool. -/
theorem Protocol.done_of_not_idle (h : Protocol plan s) {c : ComId}
    (hstage : s.stage (plan.leader (e + 1) c, e + 1) ≠ .idle) :
    s.stage (plan.leader e c, e) = .done := by
  have hle : e + 1 ≤ s.epoch (plan.leader (e + 1) c) := by
    by_contra hlt
    exact hstage (h.above _ _ (by omega))
  exact h.done_of_lt (show e < s.epoch (plan.leader (e + 1) c) by omega) c

theorem protocol_initial : Protocol plan (initial : State NodeId) := by
  refine ⟨?_, ?_, ?_, ?_, ?_, ?_, ?_⟩
  · intro n e he
    have hne : e ≠ 0 := Nat.ne_of_gt he
    simp [initial, hne]
  · intro n e he
    exact absurd he (Nat.not_lt_zero e)
  · intro n
    simp [initial]
  · intro n
    rfl
  · intro n e hinit
    cases hinit
  · intro n e he
    exact absurd he (Nat.not_lt_zero e)
  · intro e c hinit
    cases hinit

/-- Steps that leave the nodes alone. -/
theorem Protocol.congr (h : Protocol plan s) (hepoch : s'.epoch = s.epoch)
    (hcoms : s'.coms = s.coms) (hinit : s'.initiated = s.initiated) (hstage : s'.stage = s.stage) :
    Protocol plan s' := by
  rcases s' with ⟨epoch, coms, initiated, stage, pools, adding, sent, accepted, packed, dropped⟩
  cases hepoch
  cases hcoms
  cases hinit
  cases hstage
  exact ⟨h.above, h.below, h.txPool, h.zero, h.initiated, h.begun, h.old⟩

variable [DecidableEq NodeId]

/-- A node goes on within `EndReconfig`. -/
theorem Protocol.advance (h : Protocol plan s) (n : NodeId) (e : ℕ) (st : Stage) (com : Com)
    (hidle : s.stage (n, e) ≠ .idle) (hdone : s.stage (n, e) ≠ .done) (hst : st ≠ .restarting)
    (hmono : (s.stage (n, e)).isAnswered = true → st.isAnswered = true)
    (hpool : com.txPool = e) (hold : com.oldTxPool = (s.coms n).oldTxPool)
    (hepoch : s'.epoch = s.epoch) (hcoms : s'.coms = Function.update s.coms n com)
    (hinit : s'.initiated = s.initiated) (hstage : s'.stage = Function.update s.stage (n, e) st) :
    Protocol plan s' := by
  have he := h.epoch_eq hidle hdone
  have hother : ∀ {m e'}, (m, e') ≠ (n, e) → s'.stage (m, e') = s.stage (m, e') := by
    intro m e' hne
    rw [hstage, Function.update_of_ne hne]
  -- the stage that changes is neither above nor below the node's epoch, nor `done`
  refine ⟨?_, ?_, ?_, ?_, ?_, ?_, ?_⟩
  · intro m e' hlt
    rw [hepoch] at hlt
    rw [hother (by rintro ⟨⟩; omega)]
    exact h.above m e' hlt
  · intro m e' hlt
    rw [hepoch] at hlt
    rw [hother (by rintro ⟨⟩; omega)]
    exact h.below m e' hlt
  · intro m
    rw [hepoch, hcoms]
    by_cases hm : m = n
    · subst hm
      rw [Function.update_self, hstage, ← he, Function.update_self, if_neg hst, hpool]
    · rw [Function.update_of_ne hm, hother fun heq => hm (congrArg Prod.fst heq)]
      exact h.txPool m
  · intro m
    rw [hother ?_]
    · exact h.zero m
    · rintro ⟨⟩
      exact hdone (h.zero n)
  · intro m e' hi
    rw [hinit] at hi
    have hd := h.initiated m e' hi
    rw [hother ?_]
    · exact hd
    · rintro ⟨⟩
      exact hdone hd
  · intro m e' hlt c
    rw [hepoch] at hlt
    rw [hinit]
    exact h.begun m e' hlt c
  · intro e' c hi hnot
    rw [hinit] at hi
    have hcom : (s'.coms (plan.leader e' c)).oldTxPool = (s.coms (plan.leader e' c)).oldTxPool := by
      rw [hcoms]
      by_cases hm : plan.leader e' c = n
      · rw [hm, Function.update_self, hold]
      · rw [Function.update_of_ne hm]
    rw [hcom]
    apply h.old e' c hi
    -- when the step is that of the successor, it may only have been unanswered before too
    by_cases hp : (plan.leader (e' + 1) c, e' + 1) = (n, e)
    · rw [hp] at hnot ⊢
      rw [hstage, Function.update_self] at hnot
      by_contra hans
      rw [hmono (by simpa using hans)] at hnot
      cases hnot
    · rwa [hother hp] at hnot

/-- A leader begins a reconfiguration. -/
theorem Protocol.initReconfig (h : Protocol plan s)
    (hok : orderly plan s (.initReconfig n)) (hdone : s.stage (n, s.epoch n) = .done) :
    Protocol plan { s with
      coms := Function.update s.coms n (s.coms n).setOldTxPool
      initiated := Function.update s.initiated (n, s.epoch n) true } := by
  have hpool := h.txPool_of_done hdone
  have hinit : ∀ {m e}, Function.update s.initiated (n, s.epoch n) true (m, e) = true →
      (m, e) ≠ (n, s.epoch n) → s.initiated (m, e) = true := by
    intro m e hi hne
    rwa [Function.update_of_ne hne] at hi
  refine ⟨h.above, h.below, ?_, h.zero, ?_, ?_, ?_⟩
  · intro m
    show (Function.update s.coms n _ m).txPool = _
    by_cases hm : m = n
    · subst hm
      rw [Function.update_self]
      exact h.txPool m
    · rw [Function.update_of_ne hm]
      exact h.txPool m
  · intro m e hi
    by_cases hp : (m, e) = (n, s.epoch n)
    · cases hp
      exact hdone
    · exact h.initiated m e (hinit hi hp)
  · intro m e hlt c
    show Function.update s.initiated (n, s.epoch n) true _ = true
    rw [Function.update_apply, h.begun m e hlt c]
    simp
  · intro e c hi hnot
    show (Function.update s.coms n _ (plan.leader e c)).oldTxPool = some e
    by_cases hp : (plan.leader e c, e) = (n, s.epoch n)
    · rcases Prod.mk.inj hp with ⟨hm, he⟩
      rw [hm, Function.update_self, he]
      exact congrArg some hpool
    · have hi' := hinit hi hp
      by_cases hm : plan.leader e c = n
      · -- the leader of an earlier epoch: its successor has been answered
        exfalso
        have hle := h.le_epoch hi'
        rw [hm] at hle
        have hlt : e < s.epoch n := by
          rcases Nat.lt_or_eq_of_le hle with hlt | heq
          · exact hlt
          · exact absurd (by rw [hm, heq]) hp
        have hanswered := h.answered_of_lt (c := c) hlt fun heq => by
          have hpred : s.epoch n - 1 = e := by omega
          have hcom : plan.comID e n = c := by rw [← hm, plan.comID_leader]
          have hsucc := hok (by omega)
          rw [hpred] at hsucc
          have hsucc := hsucc (by rw [IsLeaderPool, hcom, hm])
          rwa [successor, hcom] at hsucc
        rw [hanswered] at hnot
        cases hnot
      · rw [Function.update_of_ne hm]
        exact h.old e c hi' hnot

/-- A node begins to leave its committee. -/
theorem Protocol.endReconfig (h : Protocol plan s)
    (hdone : s.stage (n, s.epoch n) = .done)
    (hall : ∀ c, s.initiated (plan.leader (s.epoch n) c, s.epoch n) = true) :
    Protocol plan { s with
      epoch := Function.update s.epoch n (s.epoch n + 1)
      coms := Function.update s.coms n (s.coms n).setOldTxPool
      stage := Function.update s.stage (n, s.epoch n + 1) .restarting } := by
  have hpool := h.txPool_of_done hdone
  have hidle := h.above n (s.epoch n + 1) (Nat.lt_succ_self _)
  have hother : ∀ {m e}, (m, e) ≠ (n, s.epoch n + 1) →
      Function.update s.stage (n, s.epoch n + 1) .restarting (m, e) = s.stage (m, e) :=
    fun hne => Function.update_of_ne hne ..
  -- what holds for a node in its new epoch, and for the others
  have hsplit : ∀ m, (m = n ∧ Function.update s.epoch n (s.epoch n + 1) m = s.epoch n + 1) ∨
      (m ≠ n ∧ Function.update s.epoch n (s.epoch n + 1) m = s.epoch m) := by
    intro m
    by_cases hm : m = n
    · exact .inl ⟨hm, by rw [hm, Function.update_self]⟩
    · exact .inr ⟨hm, Function.update_of_ne hm ..⟩
  refine ⟨?_, ?_, ?_, ?_, ?_, ?_, ?_⟩
  · intro m e hlt
    show Function.update s.stage _ _ (m, e) = _
    rcases hsplit m with ⟨rfl, hm⟩ | ⟨hne, hm⟩
    · have hlt : s.epoch m + 1 < e := hm ▸ hlt
      rw [hother (by rintro ⟨⟩; omega)]
      exact h.above m e (by omega)
    · rw [hother fun heq => hne (congrArg Prod.fst heq)]
      exact h.above m e (hm ▸ hlt)
  · intro m e hlt
    show Function.update s.stage _ _ (m, e) = _
    rcases hsplit m with ⟨rfl, hm⟩ | ⟨hne, hm⟩
    · have hlt : e < s.epoch m + 1 := hm ▸ hlt
      rw [hother (by rintro ⟨⟩; omega)]
      rcases Nat.lt_succ_iff_lt_or_eq.mp hlt with hlt | rfl
      · exact h.below m e hlt
      · exact hdone
    · rw [hother fun heq => hne (congrArg Prod.fst heq)]
      exact h.below m e (hm ▸ hlt)
  · intro m
    show (Function.update s.coms n _ m).txPool = if Function.update s.stage _ _
      (m, Function.update s.epoch n _ m) = _ then Function.update s.epoch n _ m - 1
      else Function.update s.epoch n _ m
    rcases hsplit m with ⟨rfl, hm⟩ | ⟨hne, hm⟩
    · rw [hm, Function.update_self, Function.update_self]
      simpa [Com.setOldTxPool] using hpool
    · rw [hm, Function.update_of_ne hne, hother fun heq => hne (congrArg Prod.fst heq)]
      exact h.txPool m
  · intro m
    show Function.update s.stage _ _ (m, 0) = _
    rw [hother (by rintro ⟨⟩)]
    exact h.zero m
  · intro m e hi
    show Function.update s.stage _ _ (m, e) = _
    have hd := h.initiated m e hi
    rw [hother ?_]
    · exact hd
    · rintro ⟨⟩
      rw [hidle] at hd
      cases hd
  · intro m e hlt c
    show s.initiated (plan.leader e c, e) = true
    rcases hsplit m with ⟨rfl, hm⟩ | ⟨hne, hm⟩
    · have hlt : e < s.epoch m + 1 := hm ▸ hlt
      rcases Nat.lt_succ_iff_lt_or_eq.mp hlt with hlt | rfl
      · exact h.begun m e hlt c
      · exact hall c
    · exact h.begun m e (hm ▸ hlt) c
  · intro e c hi hnot
    show (Function.update s.coms n _ (plan.leader e c)).oldTxPool = some e
    have hnot' : (s.stage (plan.leader (e + 1) c, e + 1)).isAnswered = false := by
      by_cases hp : (plan.leader (e + 1) c, e + 1) = (n, s.epoch n + 1)
      · rw [hp, hidle]
        rfl
      · rw [← hother hp]
        exact hnot
    by_cases hm : plan.leader e c = n
    · rw [hm, Function.update_self]
      have hle := h.le_epoch hi
      rw [hm] at hle
      rcases Nat.lt_or_eq_of_le hle with hlt | heq
      · -- the successor had to be ready for this reconfiguration
        have hanswered := h.answered_of_lt (c := c) hlt fun heq => by
          rw [heq, h.initiated _ _ (hall c)]
          rfl
        rw [hanswered] at hnot'
        cases hnot'
      · rw [heq]
        exact congrArg some hpool
    · rw [Function.update_of_ne hm]
      exact h.old e c hi hnot'

/-! ## One pool for each transaction -/

/-- What clients sent has been taken into one pool or is about to be. -/
def Once (s : State NodeId) : Prop :=
  (s.accepted.map Prod.snd ++ s.adding.flatMap Prod.snd).Perm s.sent ∧ s.sent.Nodup

/-! ## What the pools of the leaders hold -/

/-- Packed, or dropped as expired. -/
def State.Gone (s : State NodeId) (tx : Transaction) : Prop := tx ∈ s.packed ∨ tx ∈ s.dropped

/-- How often pool `p` holds the transaction. -/
def State.holds (s : State NodeId) (p : PoolRef NodeId) (tx : Transaction) : ℕ :=
  (s.pools p).txs.count tx

variable (plan) in
structure Counts (s : State NodeId) : Prop where
  fresh : ∀ n e, (s.coms n).txPool < e →
    (∀ tx, ((n, e), tx) ∉ s.accepted) ∧ s.pools (n, e) = newTxPool
  adding : ∀ x ∈ s.adding, x.1.2 ≤ (s.coms x.1.1).txPool
  own : ∀ c e tx, e = 0 ∨ s.stage (plan.leader e c, e) ≠ .done → ¬ s.Gone tx →
    s.holds (plan.leader e c, e) tx = s.accepted.count ((plan.leader e c, e), tx)
  answered : ∀ c e poolTx tx, s.stage (plan.leader (e + 1) c, e + 1) = .answered poolTx →
    ¬ s.Gone tx → poolTx.txs.count tx = s.holds (plan.leader e c, e) tx
  handed : ∀ c e tx, s.stage (plan.leader (e + 1) c, e + 1) = .done → ¬ s.Gone tx →
    s.holds (plan.leader (e + 1) c, e + 1) tx =
      s.accepted.count ((plan.leader (e + 1) c, e + 1), tx) + s.holds (plan.leader e c, e) tx

theorem count_addTxs (pool : TxPool) (txs : List Transaction) (tx : Transaction) :
    (pool.addTxs txs).txs.count tx = pool.txs.count tx + txs.count tx :=
  TxPool.countP_addTxs _ pool txs

theorem count_setPoolTx (pool poolTx : TxPool) (tx : Transaction) :
    (setPoolTx pool poolTx).txs.count tx = poolTx.txs.count tx + pool.txs.count tx := by
  simp only [setPoolTx, TxPool.setPending, TxPool.setPendingRollback, TxPool.txs,
    List.count_append]
  omega

/-- `Pending` takes out what it packs and what it drops. -/
theorem count_Pending {pool pool' : TxPool} {maxBlockSize parent : ℕ}
    {addrs : Finset Address} (h : pool.Pending maxBlockSize parent = some (txs, addrs, pool'))
    (hpacked : tx ∉ txs) (hdropped : tx ∉ droppedBy pool pool' parent) :
    pool'.txs.count tx = pool.txs.count tx := by
  rcases TxPool.Pending_cases h with ⟨-, scanned, hroll, hpend, rfl⟩
  have htake : pool.pending.take (pool.pending.length - pool'.pending.length) = scanned := by
    rw [hpend, List.length_append, Nat.add_sub_cancel, List.take_left]
  rw [droppedBy, htake] at hdropped
  rw [List.mem_append, not_or] at hpacked
  -- what was scanned is packed, or dropped as expired
  have hscanned : tx ∉ scanned := by
    intro hmem
    by_cases hexp : TxPool.expired parent tx = true
    · exact hdropped (List.mem_filter.mpr ⟨hmem, hexp⟩)
    · exact hpacked.2 (List.mem_filter.mpr ⟨hmem, by simpa using hexp⟩)
  have hr := congrArg (List.count tx) hroll
  have hp := congrArg (List.count tx) hpend
  rw [List.count_append, List.count_eq_zero_of_not_mem hpacked.1] at hr
  rw [List.count_append, List.count_eq_zero_of_not_mem hscanned] at hp
  rw [TxPool.txs, TxPool.txs, List.count_append, List.count_append]
  omega

theorem count_pairs (p q : PoolRef NodeId) (txs : List Transaction) (tx : Transaction) :
    (txs.map fun t => (p, t)).count (q, tx) = if p = q then txs.count tx else 0 := by
  by_cases hpq : p = q
  · subst hpq
    rw [if_pos rfl]
    exact List.count_map_of_injective txs (fun t => (p, t)) (fun _ _ h => (Prod.mk.inj h).2) tx
  · rw [if_neg hpq]
    apply List.count_eq_zero_of_not_mem
    intro hmem
    rcases List.mem_map.mp hmem with ⟨t, -, heq⟩
    exact hpq (Prod.mk.inj heq).1

theorem txPool_setOldTxPool (n m : NodeId) :
    (Function.update s.coms n (s.coms n).setOldTxPool m).txPool = (s.coms m).txPool := by
  by_cases hm : m = n
  · rw [hm, Function.update_self]
    rfl
  · rw [Function.update_of_ne hm]

theorem counts_initial : Counts plan (initial : State NodeId) := by
  refine ⟨fun _ _ _ => ⟨fun _ h => (nomatch h), rfl⟩, fun _ h => (nomatch h), ?_, ?_, ?_⟩
  · intro c e tx _ _
    rfl
  · intro c e poolTx tx hstage
    simp [initial] at hstage
  · intro c e tx hstage
    simp [initial] at hstage

/-- A handler adds to a pool from which no new leader has been answered. -/
theorem Counts.addTxs (h : Counts plan s) {k : ℕ}
    (hk : s.adding[k]? = some (p, txs)) (hok : orderly plan s (.addTxs k)) :
    Counts plan { s with
      pools := Function.update s.pools p ((s.pools p).addTxs txs)
      adding := s.adding.eraseIdx k
      accepted := s.accepted ++ txs.map fun tx => (p, tx) } := by
  have hp : p.2 ≤ (s.coms p.1).txPool := h.adding _ (List.mem_of_getElem? hk)
  -- so the pools that `answered` and `handed` copy from do not change
  have hopen : ∀ c e, (s.stage (plan.leader (e + 1) c, e + 1)).isAnswered = true →
      p ≠ (plan.leader e c, e) := by
    rintro c e hans rfl
    have hnot := hok _ hk (by simp [IsLeaderPool, plan.comID_leader])
    rw [successor, plan.comID_leader, hans] at hnot
    cases hnot
  have hholds : ∀ q tx, (Function.update s.pools p ((s.pools p).addTxs txs) q).txs.count tx =
      s.holds q tx + if p = q then txs.count tx else 0 := by
    intro q tx
    by_cases hpq : p = q
    · subst hpq
      rw [Function.update_self, if_pos rfl, count_addTxs]
      rfl
    · rw [Function.update_of_ne (Ne.symm hpq), if_neg hpq]
      rfl
  have hacc : ∀ q tx, (s.accepted ++ txs.map fun tx => (p, tx)).count (q, tx) =
      s.accepted.count (q, tx) + if p = q then txs.count tx else 0 := by
    intro q tx
    rw [List.count_append, count_pairs]
  refine ⟨?_, ?_, ?_, ?_, ?_⟩
  · intro n e hlt
    have hne : (n, e) ≠ p := by
      rintro rfl
      exact absurd hlt (Nat.not_lt.mpr hp)
    refine ⟨fun tx hmem => ?_, ?_⟩
    · rcases List.mem_append.mp hmem with hmem | hmem
      · exact (h.fresh n e hlt).1 tx hmem
      · rcases List.mem_map.mp hmem with ⟨t, -, heq⟩
        exact hne (Prod.mk.inj heq).1.symm
    · show Function.update s.pools p _ (n, e) = _
      rw [Function.update_of_ne hne]
      exact (h.fresh n e hlt).2
  · intro x hx
    exact h.adding x (List.mem_of_mem_eraseIdx hx)
  · intro c e tx hstage hgone
    show (Function.update s.pools p _ _).txs.count tx = _
    rw [hholds, hacc, h.own c e tx hstage hgone]
  · intro c e poolTx tx hstage hgone
    show _ = (Function.update s.pools p _ _).txs.count tx
    have hne := hopen c e (by rw [show s.stage _ = _ from hstage]; rfl)
    rw [hholds, if_neg hne]
    exact h.answered c e poolTx tx hstage hgone
  · intro c e tx hstage hgone
    show (Function.update s.pools p _ _).txs.count tx =
      _ + (Function.update s.pools p _ _).txs.count tx
    have hne := hopen c e (by rw [show s.stage _ = _ from hstage]; rfl)
    rw [hholds, hholds, hacc, if_neg hne, h.handed c e tx hstage hgone]
    omega

/-- A worker packs a block. -/
theorem Counts.pending (h : Counts plan s) (hp : p.2 = (s.coms p.1).txPool)
    {maxBlockSize parentHeight : ℕ} {addrs : Finset Address}
    {pool : TxPool}
    (hpending : (s.pools p).Pending maxBlockSize parentHeight = some (txs, addrs, pool)) :
    Counts plan { s with
      pools := Function.update s.pools p pool
      packed := s.packed ++ txs
      dropped := s.dropped ++ droppedBy (s.pools p) pool parentHeight } := by
  have hholds : ∀ q tx, tx ∉ s.packed ++ txs →
      tx ∉ s.dropped ++ droppedBy (s.pools p) pool parentHeight →
      (Function.update s.pools p pool q).txs.count tx = s.holds q tx := by
    intro q tx hpacked hdropped
    rw [List.mem_append, not_or] at hpacked hdropped
    by_cases hq : q = p
    · subst hq
      rw [Function.update_self, count_Pending hpending hpacked.2 hdropped.2]
      rfl
    · rw [Function.update_of_ne hq]
      rfl
  have hgone : ∀ {tx}, ¬ (tx ∈ s.packed ++ txs ∨
      tx ∈ s.dropped ++ droppedBy (s.pools p) pool parentHeight) → ¬ s.Gone tx := by
    intro tx hnot hgone
    rcases hgone with hmem | hmem
    · exact hnot (.inl (List.mem_append_left _ hmem))
    · exact hnot (.inr (List.mem_append_left _ hmem))
  refine ⟨?_, h.adding, ?_, ?_, ?_⟩
  · intro n e hlt
    have hne : (n, e) ≠ p := by
      rintro rfl
      exact absurd hlt (Nat.not_lt.mpr hp.le)
    refine ⟨(h.fresh n e hlt).1, ?_⟩
    show Function.update s.pools p pool (n, e) = _
    rw [Function.update_of_ne hne]
    exact (h.fresh n e hlt).2
  · intro c e tx hstage hnot
    show (Function.update s.pools p pool _).txs.count tx = _
    rw [hholds _ _ (not_or.mp hnot).1 (not_or.mp hnot).2]
    exact h.own c e tx hstage (hgone hnot)
  · intro c e poolTx tx hstage hnot
    show _ = (Function.update s.pools p pool _).txs.count tx
    -- a copy in an answer keeps what is packed meanwhile, which is then gone
    rw [hholds _ _ (not_or.mp hnot).1 (not_or.mp hnot).2]
    exact h.answered c e poolTx tx hstage (hgone hnot)
  · intro c e tx hstage hnot
    show (Function.update s.pools p pool _).txs.count tx =
      _ + (Function.update s.pools p pool _).txs.count tx
    rw [hholds _ _ (not_or.mp hnot).1 (not_or.mp hnot).2,
      hholds _ _ (not_or.mp hnot).1 (not_or.mp hnot).2]
    exact h.handed c e tx hstage (hgone hnot)

/-- Steps that touch no pool and answer nobody. -/
theorem Counts.congr (h : Counts plan s) (hpools : s'.pools = s.pools)
    (hacc : s'.accepted = s.accepted) (hgone : s'.Gone = s.Gone)
    (hadding : ∀ x ∈ s'.adding, x.1.2 ≤ (s'.coms x.1.1).txPool)
    (hcoms : ∀ n, (s.coms n).txPool ≤ (s'.coms n).txPool)
    (hstage : ∀ p, s'.stage p = s.stage p ∨
      (s.stage p).isAnswered = false ∧ (s'.stage p).isAnswered = false) : Counts plan s' := by
  have hholds : s'.holds = s.holds := by
    funext p tx
    rw [State.holds, State.holds, hpools]
  -- a stage that has changed was not an answer and is none
  have hdone : ∀ p, s'.stage p = .done ↔ s.stage p = .done := by
    intro p
    rcases hstage p with heq | ⟨hs, hs'⟩
    · rw [heq]
    · constructor
      · intro hd
        rw [hd] at hs'
        cases hs'
      · intro hd
        rw [hd] at hs
        cases hs
  refine ⟨?_, hadding, ?_, ?_, ?_⟩
  · intro n e hlt
    rw [hacc, hpools]
    exact h.fresh n e (Nat.lt_of_le_of_lt (hcoms n) hlt)
  · intro c e tx hst hnot
    rw [hgone] at hnot
    rw [hholds, hacc]
    refine h.own c e tx ?_ hnot
    rcases hst with hzero | hne
    · exact .inl hzero
    · exact .inr fun hd => hne ((hdone _).mpr hd)
  · intro c e poolTx tx hst hnot
    rw [hgone] at hnot
    rw [hholds]
    rcases hstage (plan.leader (e + 1) c, e + 1) with heq | ⟨-, hs'⟩
    · exact h.answered c e poolTx tx (heq ▸ hst) hnot
    · rw [hst] at hs'
      cases hs'
  · intro c e tx hst hnot
    rw [hgone] at hnot
    rw [hholds, hacc]
    exact h.handed c e tx ((hdone _).mp hst) hnot

/-- The old leader answers. -/
theorem Counts.handleGetPoolTx (h : Counts plan s) (hp : Protocol plan s) {old : ℕ}
    (hstage : s.stage (n, e) = .syncing)
    (hold : (s.coms (plan.leader (e - 1) (plan.comID e n))).oldTxPool = some old) :
    Counts plan { s with
      stage := Function.update s.stage (n, e)
        (.answered (s.pools (plan.leader (e - 1) (plan.comID e n), old))) } := by
  have hepoch := hp.epoch_eq (n := n) (e := e) (by simp [hstage]) (by simp [hstage])
  refine ⟨h.fresh, h.adding, ?_, ?_, ?_⟩
  · intro c e' tx hst hnot
    refine h.own c e' tx ?_ hnot
    rcases hst with hzero | hne
    · exact .inl hzero
    · right
      intro hd
      by_cases heq : (plan.leader e' c, e') = (n, e)
      · rw [heq, hstage] at hd
        cases hd
      · exact hne (by rw [← hd]; exact Function.update_of_ne heq ..)
  · intro c e' poolTx tx hst hnot
    by_cases heq : (plan.leader (e' + 1) c, e' + 1) = (n, e)
    · rcases Prod.mk.inj heq with ⟨hn, he⟩
      -- the old leader serves the pool it led with
      have hserver : plan.leader (e - 1) (plan.comID e n) = plan.leader e' c := by
        rw [← hn, ← he, plan.comID_leader]
        rfl
      have hserved := hp.old e' c (hp.begun n e' (by omega) c) (by rw [heq, hstage]; rfl)
      rw [hserver, hserved] at hold
      cases hold
      have hval : Stage.answered (s.pools (plan.leader (e - 1) (plan.comID e n), old)) =
          .answered poolTx := by
        rw [← show Function.update s.stage (n, e) _ _ = Stage.answered poolTx from hst, heq,
          Function.update_self]
      cases hval
      rw [hserver]
      rfl
    · refine h.answered c e' poolTx tx ?_ hnot
      rw [← show Function.update s.stage (n, e) _ _ = Stage.answered poolTx from hst,
        Function.update_of_ne heq]
  · intro c e' tx hst hnot
    refine h.handed c e' tx ?_ hnot
    by_cases heq : (plan.leader (e' + 1) c, e' + 1) = (n, e)
    · have := show Function.update s.stage (n, e) _ _ = Stage.done from hst
      rw [heq, Function.update_self] at this
      cases this
    · rw [← show Function.update s.stage (n, e) _ _ = Stage.done from hst,
        Function.update_of_ne heq]

/-- The new leader puts the answer into its pool. -/
theorem Counts.setPoolTx (h : Counts plan s) (hp : Protocol plan s)
    {poolTx : TxPool} (hstage : s.stage (n, e) = .answered poolTx) :
    Counts plan { s with
      stage := Function.update s.stage (n, e) .done
      pools := Function.update s.pools (n, (s.coms n).txPool)
        (setPoolTx (s.pools (n, (s.coms n).txPool)) poolTx) } := by
  have hpool : (s.coms n).txPool = e :=
    hp.txPool_eq (by simp [hstage]) (by simp [hstage]) (by simp [hstage])
  rw [hpool]
  have hholds : ∀ q tx, q ≠ (n, e) → (Function.update s.pools (n, e)
      (Handover.setPoolTx (s.pools (n, e)) poolTx) q).txs.count tx = s.holds q tx := by
    intro q tx hne
    rw [Function.update_of_ne hne]
    rfl
  -- a leader whose successor has moved has its pool already
  have hbefore : ∀ c e', s.stage (plan.leader (e' + 1) c, e' + 1) ≠ .idle →
      (plan.leader e' c, e') ≠ (n, e) := by
    intro c e' hidle heq
    have hd := hp.done_of_not_idle hidle
    rw [heq, hstage] at hd
    cases hd
  refine ⟨?_, h.adding, ?_, ?_, ?_⟩
  · intro m e' hlt
    refine ⟨(h.fresh m e' hlt).1, ?_⟩
    show Function.update s.pools (n, e) _ (m, e') = _
    have hne : (m, e') ≠ (n, e) := by
      rintro ⟨⟩
      exact absurd hlt (Nat.not_lt.mpr hpool.ge)
    rw [Function.update_of_ne hne]
    exact (h.fresh m e' hlt).2
  · intro c e' tx hst hnot
    show (Function.update s.pools (n, e) _ _).txs.count tx = _
    have hne : (plan.leader e' c, e') ≠ (n, e) := by
      intro heq
      rcases hst with hzero | hst
      · have hd := hp.zero n
        rw [← hzero, (Prod.mk.inj heq).2, hstage] at hd
        cases hd
      · exact hst (by rw [heq]; exact Function.update_self ..)
    rw [hholds _ _ hne]
    refine h.own c e' tx ?_ hnot
    rcases hst with hzero | hst
    · exact .inl hzero
    · exact .inr fun hd => hst (by rw [← hd]; exact Function.update_of_ne hne ..)
  · intro c e' poolTx' tx hst hnot
    show _ = (Function.update s.pools (n, e) _ _).txs.count tx
    have hst : Function.update s.stage (n, e) .done _ = Stage.answered poolTx' := hst
    have hne : (plan.leader (e' + 1) c, e' + 1) ≠ (n, e) := by
      intro heq
      rw [heq, Function.update_self] at hst
      cases hst
    rw [Function.update_of_ne hne] at hst
    rw [hholds _ _ (hbefore c e' (by rw [hst]; simp))]
    exact h.answered c e' poolTx' tx hst hnot
  · intro c e' tx hst hnot
    show (Function.update s.pools (n, e) _ _).txs.count tx =
      _ + (Function.update s.pools (n, e) _ _).txs.count tx
    by_cases heq : (plan.leader (e' + 1) c, e' + 1) = (n, e)
    · -- the copy in the answer is still what the old leader's pool holds
      have hans : s.stage (plan.leader (e' + 1) c, e' + 1) = .answered poolTx := heq ▸ hstage
      have hown := h.own c (e' + 1) tx (.inr (by rw [hans]; simp)) hnot
      have hanswer := h.answered c e' poolTx tx hans hnot
      rw [hholds _ _ (hbefore c e' (by rw [hans]; simp)), heq, Function.update_self,
        count_setPoolTx, hanswer]
      rw [heq] at hown
      rw [← hown, State.holds, State.holds, Nat.add_comm]
    · have hst : Function.update s.stage (n, e) .done _ = Stage.done := hst
      rw [Function.update_of_ne heq] at hst
      rw [hholds _ _ heq, hholds _ _ (hbefore c e' (by rw [hst]; simp))]
      exact h.handed c e' tx hst hnot

/-! ## Runs -/

/-- A node moves between stages before the answer. -/
theorem stage_update {st : Stage} (hp : (s.stage p).isAnswered = false)
    (hst : st.isAnswered = false) (q : PoolRef NodeId) :
    Function.update s.stage p st q = s.stage q ∨
      (s.stage q).isAnswered = false ∧ (Function.update s.stage p st q).isAnswered = false := by
  by_cases hq : q = p
  · right
    rw [hq, Function.update_self]
    exact ⟨hp, hst⟩
  · exact .inl (Function.update_of_ne hq ..)

variable (plan) in
structure Inv (s : State NodeId) : Prop where
  protocol : Protocol plan s
  once : Once s
  counts : Counts plan s

/-- A transaction that one pool accepted counts there once, and nowhere else. -/
theorem Once.count_eq (h : Once s)
    (hmem : (p, tx) ∈ s.accepted) (q : PoolRef NodeId) :
    s.accepted.count (q, tx) = if q = p then 1 else 0 := by
  have hnodup : (s.accepted.map Prod.snd).Nodup :=
    (List.nodup_append.mp (h.1.nodup_iff.mpr h.2)).1
  by_cases hq : q = p
  · rw [if_pos hq, hq]
    exact List.count_eq_one_of_mem hnodup.of_map hmem
  · rw [if_neg hq]
    apply List.count_eq_zero_of_not_mem
    intro hmem'
    exact hq (Prod.mk.inj (List.inj_on_of_nodup_map hnodup hmem' hmem rfl)).1

/-- The pools of the successive leaders of a committee: a transaction is in none of them
before the one that accepted it, and once in that one and in every later one. -/
theorem Inv.holds_eq (h : Inv plan s) {c : ComId} {e' : ℕ}
    (hmem : ((plan.leader e' c, e'), tx) ∈ s.accepted) (hgone : ¬ s.Gone tx) (e : ℕ)
    (hdone : s.stage (plan.leader e c, e) = .done) :
    s.holds (plan.leader e c, e) tx = if e' ≤ e then 1 else 0 := by
  -- along the epochs: each pool starts with what the one before holds
  induction e with
  | zero =>
      rw [h.counts.own c 0 tx (.inl rfl) hgone, h.once.count_eq hmem]
      by_cases he : e' = 0
      · simp [he]
      · have hne : (plan.leader 0 c, 0) ≠ (plan.leader e' c, e') :=
          fun heq => he (Prod.mk.inj heq).2.symm
        rw [if_neg hne, if_neg (by omega)]
  | succ e ih =>
      have hprev := ih (h.protocol.done_of_not_idle (by rw [hdone]; simp))
      rw [h.counts.handed c e tx hdone hgone, h.once.count_eq hmem, hprev]
      by_cases he : e' = e + 1
      · subst he
        simp
      · have hne : (plan.leader (e + 1) c, e + 1) ≠ (plan.leader e' c, e') :=
          fun heq => he (Prod.mk.inj heq).2.symm
        rw [if_neg hne, Nat.zero_add]
        by_cases hle : e' ≤ e
        · rw [if_pos hle, if_pos (by omega)]
        · rw [if_neg hle, if_neg (by omega)]

section

variable [DecidableEq ComId] [Fintype NodeId] [Fintype ComId] {ev : Event NodeId}

theorem protocol_step (h : Protocol plan s) (hok : orderly plan s ev)
    (hstep : step plan s ev = some s') : Protocol plan s' := by
  cases step_taken hstep with
  | clientSendTx hnodup => exact h.congr rfl rfl rfl rfl
  | addTxs hk => exact h.congr rfl rfl rfl rfl
  | pending hpending => exact h.congr rfl rfl rfl rfl
  | initReconfig hlead hdone => exact h.initReconfig hok hdone
  | endReconfig hall => exact h.endReconfig hok hall
  | @start n e hstage =>
      exact h.advance n e .syncing ((s.coms n).start e) (by simp [hstage]) (by simp [hstage])
        (by simp) (by simp [hstage, Stage.isAnswered]) rfl rfl rfl rfl rfl rfl
  | @handleGetPoolTx n e old hstage hold =>
      have hpool : (s.coms n).txPool = e :=
        h.txPool_eq (by simp [hstage]) (by simp [hstage]) (by simp [hstage])
      exact h.advance n e (.answered _) (s.coms n) (by simp [hstage]) (by simp [hstage]) (by simp)
        (by simp [Stage.isAnswered]) hpool rfl rfl (Function.update_eq_self ..).symm rfl rfl
  | @setPoolTx n e poolTx hstage =>
      have hpool : (s.coms n).txPool = e :=
        h.txPool_eq (by simp [hstage]) (by simp [hstage]) (by simp [hstage])
      exact h.advance n e .done (s.coms n) (by simp [hstage]) (by simp [hstage]) (by simp)
        (fun _ => rfl) hpool rfl rfl (Function.update_eq_self ..).symm rfl rfl

theorem once_step (h : Once s) (hstep : step plan s ev = some s') :
    Once s' := by
  cases step_taken hstep with
  | @clientSendTx n txs hnodup =>
      refine ⟨?_, hnodup⟩
      show (_ ++ (s.adding ++ [_]).flatMap Prod.snd).Perm (s.sent ++ txs)
      rw [List.flatMap_append, ← List.append_assoc]
      simpa using h.1.append_right txs
  | @addTxs k p txs hk =>
      refine ⟨List.Perm.trans ?_ h.1, h.2⟩
      -- the handler's transactions move from one list to the other
      have hflat := (Sys.cons_eraseIdx_perm hk).flatMap_right Prod.snd
      rw [List.flatMap_cons] at hflat
      show ((s.accepted ++ _).map Prod.snd ++ _).Perm _
      rw [List.map_append, List.append_assoc, List.map_map]
      simpa [Function.comp_def] using hflat.append_left (s.accepted.map Prod.snd)
  | pending hpending => exact h
  | initReconfig hlead hdone => exact h
  | endReconfig hall => exact h
  | start hstage => exact h
  | handleGetPoolTx hstage hold => exact h
  | setPoolTx hstage => exact h

theorem counts_step (h : Counts plan s) (hp : Protocol plan s)
    (hok : orderly plan s ev) (hstep : step plan s ev = some s') : Counts plan s' := by
  cases step_taken hstep with
  | @clientSendTx n txs hnodup =>
      refine h.congr rfl rfl rfl ?_ (fun _ => le_rfl) fun _ => .inl rfl
      intro x hx
      rcases List.mem_append.mp hx with hx | hx
      · exact h.adding x hx
      · rw [List.mem_singleton.mp hx]
  | addTxs hk => exact h.addTxs hk hok
  | pending hpending => exact h.pending rfl hpending
  | @initReconfig n hlead hdone =>
      refine h.congr rfl rfl rfl ?_ (fun m => (txPool_setOldTxPool n m).ge) fun _ => .inl rfl
      intro x hx
      exact (h.adding x hx).trans (txPool_setOldTxPool n _).ge
  | @endReconfig n hall =>
      refine h.congr rfl rfl rfl ?_ (fun m => (txPool_setOldTxPool n m).ge) ?_
      · intro x hx
        exact (h.adding x hx).trans (txPool_setOldTxPool n _).ge
      · have hidle := hp.above n (s.epoch n + 1) (Nat.lt_succ_self _)
        exact stage_update (by rw [hidle]; rfl) rfl
  | @start n e hstage =>
      have hepoch := hp.epoch_eq (n := n) (e := e) (by simp [hstage]) (by simp [hstage])
      have hpos : 0 < e := by
        rcases Nat.eq_zero_or_pos e with rfl | hpos
        · rw [hp.zero n] at hstage
          cases hstage
        · exact hpos
      have hpool : (s.coms n).txPool < e := by
        rw [hp.txPool n, ← hepoch, if_pos hstage]
        omega
      have hcoms : ∀ m, (s.coms m).txPool ≤
          (Function.update s.coms n ((s.coms n).start e) m).txPool := by
        intro m
        by_cases hm : m = n
        · rw [hm, Function.update_self]
          exact hpool.le
        · rw [Function.update_of_ne hm]
      refine h.congr ?_ rfl rfl ?_ hcoms ?_
      · -- nobody has touched the new pool
        show Function.update s.pools (n, e) newTxPool = s.pools
        rw [← (h.fresh n e hpool).2, Function.update_eq_self]
      · intro x hx
        exact (h.adding x hx).trans (hcoms _)
      · exact stage_update (by rw [hstage]; rfl) rfl
  | handleGetPoolTx hstage hold => exact h.handleGetPoolTx hp hstage hold
  | setPoolTx hstage => exact h.setPoolTx hp hstage

theorem inv_of_reachable (h : (machine plan).ReachableBy (orderly plan) s) : Inv plan s := by
  refine Sys.Machine.invariant_by (Inv plan) ?_ ?_ h
  · rintro s rfl
    exact ⟨protocol_initial, ⟨List.Perm.nil, List.nodup_nil⟩, counts_initial⟩
  · intro s ev s' hok hstep hinv
    exact ⟨protocol_step hinv.protocol hok hstep, once_step hinv.once hstep,
      counts_step hinv.counts hinv.protocol hok hstep⟩

/-- In orderly runs, a transaction that a leader of a committee accepted, and that has been
neither packed nor dropped, is exactly once in the pool of every later leader of the
committee that has finished `SetPoolTx`. -/
theorem handed_over_exactly_once (h : (machine plan).ReachableBy (orderly plan) s) (c : ComId)
    (e' e : ℕ) (tx : Transaction) : ¬ s.Mishandled plan c e' e tx := by
  rintro ⟨hle, hmem, hpacked, hdropped, hdone, hcount⟩
  have hgone : ¬ s.Gone tx := not_or.mpr ⟨hpacked, hdropped⟩
  have hholds := (inv_of_reachable h).holds_eq hmem hgone e hdone
  rw [if_pos hle] at hholds
  exact hcount hholds

end

end

/-- The first node takes two transactions and packs one before the second follows it. -/
def takenOver : List (Event Member) :=
  [.clientSendTx .first [exampleTx 6, exampleTx 7], .addTxs 0, .pending .first 1 0,
    .initReconfig .first, .endReconfig .second, .start .second 1, .handleGetPoolTx .second 1,
    .setPoolTx .second 1]

theorem handed_over_takenOver :
    ∃ s, (machine examplePlan).ReachableBy (orderly examplePlan) s ∧
      ((.first, 0), exampleTx 7) ∈ s.accepted ∧ exampleTx 6 ∈ s.packed ∧
      s.stage (.second, 1) = .done ∧ ¬ s.Mishandled examplePlan 0 0 1 (exampleTx 7) := by
  obtain ⟨s, hreach, hacc, hpacked, hstage⟩ :
      ∃ s, (machine examplePlan).ReachableBy (orderly examplePlan) s ∧
        ((.first, 0), exampleTx 7) ∈ s.accepted ∧ exampleTx 6 ∈ s.packed ∧
        s.stage (.second, 1) = .done :=
    Sys.Machine.exists_reachableBy _ rfl takenOver (by decide +kernel)
  exact ⟨s, hreach, hacc, hpacked, hstage, handed_over_exactly_once hreach 0 0 1 (exampleTx 7)⟩

end Handover

end LessChain
