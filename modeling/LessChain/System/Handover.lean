import LessChain.Lib.Machine
import LessChain.Committee.TxPool
import Mathlib.Data.Fintype.Basic
import Mathlib.Data.Fintype.Card

/-!
# Handing a transaction pool over

At a reconfiguration every node changes its committee, and the new leader of a committee
asks the old one for its pool. The steps are those of `committee/committee.go` and of
`EndReconfig`: each node takes them at its own time, clients send transactions to whatever
node their table names, and a handler that has looked up `com.txPool` may add to that pool
after the node has gone on to another.

Pool objects are named by the node and the epoch in which `Start` made them; epoch 0 is the
one before the first reconfiguration. The comment in `EndReconfig` says that the old pool is
set a second time because transactions may arrive in between. The old leader may answer
before that: `transaction_lost` is such a run. `orderly` is what the protocol needs.
-/

namespace LessChain

namespace Handover

/-- Who belongs to which committee in which epoch. The reconfiguration results that every
node works out from the VRF values are an input here. -/
structure Plan (NodeId ComId : Type) where
  comID : ℕ → NodeId → ComId
  leader : ℕ → ComId → NodeId
  comID_leader : ∀ e c, comID e (leader e c) = c

/-- Eight nodes in two committees that change places: node 0 leads committee 0 and then
committee 1, and node 4 the other way round. -/
def exchangePlan : Plan (Fin 8) (Fin 2) where
  comID := fun e n => if n < 4 ↔ e = 0 then 0 else 1
  leader := fun e c => if c = 0 ↔ e = 0 then 0 else 4
  comID_leader := by
    intro e c
    by_cases he : e = 0
    · simp only [he, iff_true]
      revert c
      decide
    · simp only [he, iff_false]
      revert c
      decide

/-- The leader of committee 0 in the first epoch. -/
def node0 : Fin 8 := 0

/-- The leader of committee 1. -/
def node4 : Fin 8 := 4

/-- A pool object: the node and the epoch of the `Start` that made it. -/
abbrev PoolRef (NodeId : Type) := NodeId × ℕ

/-- The pools a `Committee` points to, by their epochs. -/
structure Com where
  txPool : ℕ
  oldTxPool : Option ℕ
deriving DecidableEq

/-- `SetOldTxPool`. -/
def Com.setOldTxPool (com : Com) : Com := { com with oldTxPool := some com.txPool }

/-- `Start`: a new pool. -/
def Com.start (com : Com) (epoch : ℕ) : Com := { com with txPool := epoch }

/-- `SetPoolTx` on the pool. -/
def setPoolTx (pool poolTx : TxPool) : TxPool :=
  (pool.setPending poolTx.pending).setPendingRollback poolTx.pendingRollback

/-- How far a node is in the `EndReconfig` of an epoch. -/
inductive Stage where
  | idle
  | restarting
  | syncing
  | answered (poolTx : TxPool)
  | done
deriving DecidableEq

/-- The answer has been made. -/
def Stage.isAnswered : Stage → Bool
  | .answered _ | .done => true
  | _ => false

/-- The nodes, the pool objects and the handlers about to add to one of them. The last four
fields are history: what clients sent, which pool took which transaction from a client, and
what was packed and dropped. No step but the clients' reads them. -/
structure State (NodeId : Type) where
  epoch : NodeId → ℕ
  coms : NodeId → Com
  initiated : NodeId × ℕ → Bool
  stage : NodeId × ℕ → Stage
  pools : PoolRef NodeId → TxPool
  adding : List (PoolRef NodeId × List Transaction)
  sent : List Transaction
  accepted : List (PoolRef NodeId × Transaction)
  packed : List Transaction
  dropped : List Transaction

inductive Event (NodeId : Type) where
  | clientSendTx (n : NodeId) (txs : List Transaction)
  | addTxs (k : ℕ)
  | pending (n : NodeId) (maxBlockSize parentHeight : ℕ)
  | initReconfig (n : NodeId)
  | endReconfig (n : NodeId)
  | start (n : NodeId) (epoch : ℕ)
  | handleGetPoolTx (n : NodeId) (epoch : ℕ)
  | setPoolTx (n : NodeId) (epoch : ℕ)

section Model

variable {NodeId ComId : Type} [DecidableEq NodeId] [DecidableEq ComId] [Fintype NodeId]
  [Fintype ComId] (plan : Plan NodeId ComId)

/-- `HandleClientSendtx` at `n` looks up the pool. A client sends a transaction once. -/
def clientSendTx (s : State NodeId) (n : NodeId) (txs : List Transaction) :
    Option (State NodeId) :=
  if (s.sent ++ txs).Nodup then
    some { s with
      adding := s.adding ++ [((n, (s.coms n).txPool), txs)]
      sent := s.sent ++ txs }
  else none

/-- `AddTxs` of the `k`-th handler. -/
def addTxs (s : State NodeId) (k : ℕ) : Option (State NodeId) := do
  let (p, txs) ← s.adding[k]?
  some { s with
    pools := Function.update s.pools p ((s.pools p).addTxs txs)
    adding := s.adding.eraseIdx k
    accepted := s.accepted ++ txs.map fun tx => (p, tx) }

/-- The expired transactions `Pending` leaves out. -/
def droppedBy (pool pool' : TxPool) (parentHeight : ℕ) : List Transaction :=
  (pool.pending.take (pool.pending.length - pool'.pending.length)).filter
    fun tx => TxPool.expired parentHeight tx

/-- The worker of `n` packs a block. A worker of an earlier epoch may still be at it. -/
def pending (s : State NodeId) (n : NodeId) (maxBlockSize parentHeight : ℕ) :
    Option (State NodeId) := do
  let p := (n, (s.coms n).txPool)
  let (txs, _, pool) ← (s.pools p).Pending maxBlockSize parentHeight
  some { s with
    pools := Function.update s.pools p pool
    packed := s.packed ++ txs
    dropped := s.dropped ++ droppedBy (s.pools p) pool parentHeight }

/-- `InitReconfig` is called by the worker of a leader, which runs once the leader has its
pool. -/
def initReconfig (s : State NodeId) (n : NodeId) : Option (State NodeId) :=
  let e := s.epoch n
  if n = plan.leader e (plan.comID e n) ∧ s.stage (n, e) = .done then
    some { s with
      coms := Function.update s.coms n (s.coms n).setOldTxPool
      initiated := Function.update s.initiated (n, e) true }
  else none

/-- The beginning of `EndReconfig`, up to the second `SetOldTxPool`. A node gets there with
results of all committees, which their leaders collect after `InitReconfig`. A committee of
less than four nodes ends the process. -/
def endReconfig (s : State NodeId) (n : NodeId) : Option (State NodeId) :=
  let e := s.epoch n
  let comAllNodeNum := Fintype.card { m // plan.comID (e + 1) m = plan.comID (e + 1) n }
  if (∀ c, s.initiated (plan.leader e c, e) = true) ∧ ¬ comAllNodeNum < 4 then
    some { s with
      epoch := Function.update s.epoch n (e + 1)
      coms := Function.update s.coms n (s.coms n).setOldTxPool
      stage := Function.update s.stage (n, e + 1) .restarting }
  else none

/-- `Start` within `EndReconfig`, and the request to the old leader. -/
def start (s : State NodeId) (n : NodeId) (e : ℕ) : Option (State NodeId) :=
  if s.stage (n, e) = .restarting then
    some { s with
      coms := Function.update s.coms n ((s.coms n).start e)
      stage := Function.update s.stage (n, e) .syncing
      pools := Function.update s.pools (n, e) newTxPool }
  else none

/-- `HandleGetPoolTx`: the old leader of the committee `n` has joined answers it, or `n`
itself if it was the old leader. -/
def handleGetPoolTx (s : State NodeId) (n : NodeId) (e : ℕ) : Option (State NodeId) :=
  if s.stage (n, e) = .syncing then do
    let server := plan.leader (e - 1) (plan.comID e n)
    let old ← (s.coms server).oldTxPool
    some { s with stage := Function.update s.stage (n, e) (.answered (s.pools (server, old))) }
  else none

/-- `SetPoolTx`: the answer goes to the front of whatever pool `n` has by now. -/
def setPoolTxStep (s : State NodeId) (n : NodeId) (e : ℕ) : Option (State NodeId) :=
  match s.stage (n, e) with
  | .answered poolTx =>
      let p := (n, (s.coms n).txPool)
      some { s with
        stage := Function.update s.stage (n, e) .done
        pools := Function.update s.pools p (setPoolTx (s.pools p) poolTx) }
  | _ => none

def step (s : State NodeId) : Event NodeId → Option (State NodeId)
  | .clientSendTx n txs => clientSendTx s n txs
  | .addTxs k => addTxs s k
  | .pending n maxBlockSize parentHeight => pending s n maxBlockSize parentHeight
  | .initReconfig n => initReconfig plan s n
  | .endReconfig n => endReconfig plan s n
  | .start n e => start s n e
  | .handleGetPoolTx n e => handleGetPoolTx plan s n e
  | .setPoolTx n e => setPoolTxStep s n e

/-- Before the first reconfiguration every node has an empty pool. -/
def initial : State NodeId where
  epoch := fun _ => 0
  coms := fun _ => ⟨0, none⟩
  initiated := fun _ => false
  stage := fun p => if p.2 = 0 then .done else .idle
  pools := fun _ => newTxPool
  adding := []
  sent := []
  accepted := []
  packed := []
  dropped := []

def machine : Sys.Machine (State NodeId) (Event NodeId) := ⟨(· = initial), step plan⟩

/-! ## The assumption -/

/-- The new leader that takes over from the leader of pool `p`. -/
def successor (p : PoolRef NodeId) : NodeId × ℕ :=
  (plan.leader (p.2 + 1) (plan.comID p.2 p.1), p.2 + 1)

/-- The pool is that of a leader. -/
def IsLeaderPool (p : PoolRef NodeId) : Prop := p.1 = plan.leader p.2 (plan.comID p.2 p.1)

instance (p : PoolRef NodeId) : Decidable (IsLeaderPool plan p) :=
  inferInstanceAs (Decidable (_ = _))

/-- No transaction comes into the pool of a leader after the new leader was answered; a
leader does not begin another reconfiguration before the leader that followed it in its old
committee was answered; a node does not begin to leave a committee before it has the pool
of that committee. -/
def orderly (s : State NodeId) : Event NodeId → Prop
  | .addTxs k => ∀ x ∈ s.adding[k]?, IsLeaderPool plan x.1 →
      (s.stage (successor plan x.1)).isAnswered = false
  | .initReconfig n => 0 < s.epoch n → IsLeaderPool plan (n, s.epoch n - 1) →
      (s.stage (successor plan (n, s.epoch n - 1))).isAnswered = true
  | .endReconfig n => s.stage (n, s.epoch n) = .done
  | _ => True

instance (s : State NodeId) (ev : Event NodeId) : Decidable (orderly plan s ev) := by
  unfold orderly
  split <;> infer_instance

/-- The transaction was accepted by a leader of committee `c`, it is still to be packed, a
later leader of `c` has finished `SetPoolTx`, and its pool does not hold the transaction
exactly once. -/
def State.Mishandled (s : State NodeId) (c : ComId) (e' e : ℕ) (tx : Transaction) : Prop :=
  e' ≤ e ∧ ((plan.leader e' c, e'), tx) ∈ s.accepted ∧ tx ∉ s.packed ∧ tx ∉ s.dropped ∧
    s.stage (plan.leader e c, e) = .done ∧ (s.pools (plan.leader e c, e)).txs.count tx ≠ 1

instance (s : State NodeId) (c : ComId) (e' e : ℕ) (tx : Transaction) :
    Decidable (s.Mishandled plan c e' e tx) :=
  inferInstanceAs (Decidable (_ ∧ _ ∧ _ ∧ _ ∧ _ ∧ _))

end Model

/-! ## A run that loses a transaction -/

/-- Four nodes in one committee. -/
inductive Member where
  | first | second | third | fourth
deriving DecidableEq

instance : Fintype Member where
  elems := {.first, .second, .third, .fourth}
  complete := by
    intro n
    cases n <;> decide

/-- The first node leads the committee, and then the second. -/
def examplePlan : Plan Member (Fin 1) where
  comID := fun _ _ => 0
  leader := fun e _ => if e = 0 then .first else .second
  comID_leader := fun _ c => (Fin.fin_one_eq_zero c).symm

def exampleTx (id : ℕ) : Transaction := { exampleTransfer id 5 0 with txType := .intraTXType }

/-- The second node ends the reconfiguration before the first and gets its answer while the
first, which has not yet called `SetOldTxPool` again, still takes a transaction. -/
def answeredTooEarly : List (Event Member) :=
  [.initReconfig .first, .endReconfig .second, .start .second 1, .handleGetPoolTx .second 1,
    .clientSendTx .first [exampleTx 7], .addTxs 0, .setPoolTx .second 1]

theorem transaction_lost :
    ∃ s, (machine examplePlan).Reachable s ∧ s.Mishandled examplePlan 0 0 1 (exampleTx 7) :=
  Sys.Machine.exists_reachableBy _ rfl answeredTooEarly (by decide +kernel)

end Handover

end LessChain
