import LessChain.Lib.Machine
import LessChain.Client.Client

/-!
# The injection loop

`InjectTXs` (`client/send.go`) wakes up once a second and hands out at most `inject_speed`
transactions: first rollbacks, then second halves, then first halves of its own transactions,
each sender with what the ones before have left of the budget. In the meantime `AddTBs` adds to
the queues of the first two.

The machine has one step for each sender and each check of the loop, and one for each part of
`AddTBs` that holds the lock of a queue, so that the parts come in between in any order.
Histories beside the program's state keep what was handed to the hub and what was ever put into
a queue.

`injectCnt` is an `int` here. `sendPendingTxs` adds the budget to it, and the sum wraps; the
other two senders compare the budget with the length of the queue and form no sum. As long as
`inject_speed + len(txs)` fits an `int` the sender is the one of `Client`
(`sendPendingTxs_eq`), and the loop hands out what it should (`accounted`).
-/

namespace LessChain.Injection

/-! ## The sender of first halves -/

/-- The value of an `int` operation. -/
def int64 (x : ℤ) : ℤ := Int.bmod x (2 ^ 64)

/-- The capacity `maxTxNum2Pack*2/c.shard_num+1`. -/
def capacity (maxTxNum2Pack : ℤ) (shardNum : ℕ) : ℤ :=
  int64 ((int64 (maxTxNum2Pack * 2)).tdiv shardNum + 1)

/-- `make` panics for a negative capacity, and for one that needs more than `2^48` bytes; a
pointer has 8. -/
def CanMake (cap : ℤ) : Prop := 0 ≤ cap ∧ cap ≤ 2 ^ 45

instance (cap : ℤ) : Decidable (CanMake cap) := inferInstanceAs (Decidable (_ ∧ _))

/-- What `sendPendingTxs` leaves: the client, its result, the broadcast times and the messages. -/
structure Pending where
  client : Client
  cnt : ℤ
  resBroadcastMap : Finmap fun _ : ℕ => ℕ
  msgs : List (ℕ × List Transaction)

/-- `sendPendingTxs`. The loop runs from `cnt` to `upperBound`; a negative index panics. -/
def sendPendingTxs (c : Client) (cnt maxTxNum2Pack : ℤ) (now : ℕ)
    (resBroadcastMap : Finmap fun _ : ℕ => ℕ) : Option Pending :=
  if maxTxNum2Pack = 0 then some ⟨c, cnt, resBroadcastMap, []⟩
  else
    -- the sum wraps, and then `upperBound` is below `cnt`
    let upperBound := min (int64 (cnt + maxTxNum2Pack)) c.txs.length
    if 0 < c.shardNum ∧ ¬ CanMake (capacity maxTxNum2Pack c.shardNum) then none
    else if cnt < upperBound ∧ cnt < 0 then none
    else do
      let sent := ((c.txs.drop cnt.toNat).take (upperBound - cnt).toNat).map (c.stamp now)
      let msgs ← Client.shardtxs c.shardNum (·.senderSid) sent
      some {
        client := { c with
          txs := c.txs.take cnt.toNat ++ sent ++ c.txs.drop (cnt.toNat + sent.length)
          injectCnt := upperBound.toNat }
        cnt := upperBound
        resBroadcastMap := sent.foldl (fun m tx => m.insert tx.id tx.timestamp) resBroadcastMap
        msgs := msgs }

/-! ## The machine -/

/-- Where the loop of `InjectTXs` is, with its local variables. -/
inductive Pc where
  | sleep
  | rollbackSent (rollbackTxSentCnt : ℤ)
  | cross2Sent (rollbackTxSentCnt cross2TxSentCnt : ℤ)
  | pendingSent
  | notified
  | stopped
deriving DecidableEq, Repr

/-- A client and its injection loop. `injectCnt` is the counter of the program; that of `client`
is the natural number. The last six fields are histories, not in the program: the messages of
each sender, what was put into the two queues, and how many transactions this tick has handed
out. -/
structure State where
  client : Client
  injectCnt : ℤ
  injectSpeed : ℕ
  exitMode : ℤ
  injectDoneMsgSent : Bool
  resBroadcastMap : Finmap fun _ : ℕ => ℕ
  pc : Pc
  firstHalves : List (ℕ × List Transaction)
  cross2 : List (ℕ × List Transaction)
  rollbacks : List (ℕ × List Transaction)
  cross2Enqueued : List Transaction
  expiredEnqueued : List ℕ
  handed : ℕ

inductive Label where
  | sendRollbackTxs
  | sendCross2Txs
  | sendPendingTxs (now : ℕ)
  | canStopV2
  | canStopV1
  | recordTBs (tbblock : TBBlock)
  | processTXReceipts
  | checkExpiredTXs (order : List ℕ)
  | addTXReceipts (receipts : List TXReceipt)

namespace State

variable (s : State)

/-- `CanStopV2`. -/
def canStopV2 : Bool := s.injectCnt = s.client.txs.length

/-- `CanStopV1`. -/
def canStopV1 : Bool :=
  (s.client.txs.length : ℤ) = s.injectCnt ∧ s.client.txReply.length = 0 ∧
    s.client.crossTxExpired.length = 0 ∧ s.client.cross2Txs.length = 0 ∧
    s.client.cross1ConfirmHeightMap.keys.card = 0

/-- The tick begins with `sendRollbackTxs(inject_speed)`. -/
def sendRollback : Option State := do
  let (client, msgs) ← s.client.sendRollbackTxs s.injectSpeed
  some { s with
    client := client
    pc := .rollbackSent (min s.injectSpeed s.client.crossTxExpired.length)
    rollbacks := s.rollbacks ++ msgs
    handed := Sys.carried msgs }

/-- `sendCross2Txs` with a budget; a negative one would be a slice bound. -/
def sendCross2 (rollbackTxSentCnt : ℤ) : Option State :=
  let maxTxNum2Pack := s.injectSpeed - rollbackTxSentCnt
  if maxTxNum2Pack < 0 then none
  else do
    let (client, msgs) ← s.client.sendCross2Txs maxTxNum2Pack.toNat
    some { s with
      client := client
      pc := .cross2Sent rollbackTxSentCnt (min maxTxNum2Pack s.client.cross2Txs.length)
      cross2 := s.cross2 ++ msgs
      handed := s.handed + Sys.carried msgs }

/-- `sendPendingTxs` with what is left of the budget. -/
def sendPending (rollbackTxSentCnt cross2TxSentCnt : ℤ) (now : ℕ) : Option State := do
  let p ← sendPendingTxs s.client s.injectCnt
    (s.injectSpeed - rollbackTxSentCnt - cross2TxSentCnt) now s.resBroadcastMap
  some { s with
    client := p.client
    injectCnt := p.cnt
    resBroadcastMap := p.resBroadcastMap
    pc := .pendingSent
    firstHalves := s.firstHalves ++ p.msgs
    handed := s.handed + Sys.carried p.msgs }

/-- The nodes are told once that everything is injected; in exit mode 1 the loop ends there. -/
def notify : State :=
  if s.canStopV2 ∧ ¬ s.injectDoneMsgSent then
    { s with injectDoneMsgSent := true, pc := if s.exitMode = 1 then .stopped else .notified }
  else { s with pc := .notified }

/-- A change of the client by a part of `AddTBs`: what is behind the end of a queue was put into
it. -/
def observe (client : Client) : State :=
  { s with
    client := client
    cross2Enqueued := s.cross2Enqueued ++ client.cross2Txs.drop s.client.cross2Txs.length
    expiredEnqueued :=
      s.expiredEnqueued ++ client.crossTxExpired.drop s.client.crossTxExpired.length }

end State

/-- A step of the loop where it is, a part of `AddTBs`, or `AddTXReceipts`. -/
def step (s : State) : Label → Option State
  | .sendRollbackTxs => if s.pc = .sleep then s.sendRollback else none
  | .sendCross2Txs =>
      match s.pc with
      | .rollbackSent rollbackTxSentCnt => s.sendCross2 rollbackTxSentCnt
      | _ => none
  | .sendPendingTxs now =>
      match s.pc with
      | .cross2Sent rollbackTxSentCnt cross2TxSentCnt =>
          s.sendPending rollbackTxSentCnt cross2TxSentCnt now
      | _ => none
  | .canStopV2 => if s.pc = .pendingSent then some s.notify else none
  | .canStopV1 =>
      if s.pc = .notified then some { s with pc := if s.canStopV1 then .stopped else .sleep }
      else none
  | .recordTBs tbblock => do
      let client ← s.client.recordTBs tbblock
      some (s.observe client)
  | .processTXReceipts => do
      let (client, _) ← s.client.processTXReceipts
      some (s.observe client)
  | .checkExpiredTXs order =>
      if s.client.ListsKeys order then do
        let client ← s.client.checkExpiredTXs order
        some (s.observe client)
      else none
  | .addTXReceipts receipts => some (s.observe (s.client.addTXReceipts receipts))

/-- A new client with its transactions before the first tick. -/
def start (id : ℕ) (rollbackHeight : ℤ) (shardNum : ℕ) (txs : List Transaction)
    (injectSpeed : ℕ) (exitMode : ℤ) : State where
  client := (newClient id rollbackHeight shardNum).addtxs txs
  injectCnt := 0
  injectSpeed := injectSpeed
  exitMode := exitMode
  injectDoneMsgSent := false
  resBroadcastMap := ∅
  pc := .sleep
  firstHalves := []
  cross2 := []
  rollbacks := []
  cross2Enqueued := []
  expiredEnqueued := []
  handed := 0

/-- Any transactions and any speed of type `int`. -/
def Init (s : State) : Prop :=
  ∃ id rollbackHeight shardNum txs injectSpeed exitMode, injectSpeed < 2 ^ 63 ∧
    s = start id rollbackHeight shardNum txs injectSpeed exitMode

def machine : Sys.Machine State Label := ⟨Init, step⟩

/-! ## Accounts -/

/-- What was handed out and what is still to be handed out. -/
structure Accounted (s : State) : Prop where
  /-- The counter is the length of a part of the transactions. -/
  cnt : 0 ≤ s.injectCnt ∧ s.injectCnt ≤ s.client.txs.length
  first : Sys.Deals (·.senderSid) s.firstHalves (s.client.txs.take s.injectCnt.toNat)
  typed : ∀ tx ∈ s.client.txs.take s.injectCnt.toNat,
    tx.txType = if tx.senderSid = tx.recipientSid then .intraTXType else .crossTXType1
  cross2 : ∃ out, out ++ s.client.cross2Txs = s.cross2Enqueued ∧
    Sys.Deals (·.recipientSid) s.cross2 out
  rollbacks : ∃ out, out.map (·.id) ++ s.client.crossTxExpired = s.expiredEnqueued ∧
    Sys.Deals (·.senderSid) s.rollbacks out ∧ ∀ tx ∈ out, tx.txType = .rollbackTXType
  handed : s.handed ≤ s.injectSpeed
  budget : match s.pc with
    | .rollbackSent rollbackTxSentCnt => 0 ≤ s.injectSpeed - rollbackTxSentCnt
    | .cross2Sent rollbackTxSentCnt cross2TxSentCnt =>
        0 ≤ s.injectSpeed - rollbackTxSentCnt - cross2TxSentCnt
    | _ => True

/-! ## What the senders hand out -/

section Senders

variable {c c' : Client} {msgs : List (ℕ × List Transaction)}

theorem deals_of_shardtxs {shardNum : ℕ} {sid : Transaction → ℕ} {txs : List Transaction}
    (h : Client.shardtxs shardNum sid txs = some msgs) : Sys.Deals sid msgs txs := by
  unfold Client.shardtxs at h
  split at h
  case isTrue hlt =>
    cases h
    exact Sys.deals_range hlt
  case isFalse => cases h

theorem sendRollbackTxs_deals {maxTxNum2Pack : ℕ}
    (h : c.sendRollbackTxs maxTxNum2Pack = some (c', msgs)) :
    c' = { c with crossTxExpired :=
      c.crossTxExpired.drop (min maxTxNum2Pack c.crossTxExpired.length) } ∧
    ∃ out : List Transaction,
      out.map (·.id) = c.crossTxExpired.take (min maxTxNum2Pack c.crossTxExpired.length) ∧
      Sys.Deals (·.senderSid) msgs out ∧ ∀ tx ∈ out, tx.txType = .rollbackTXType := by
  unfold Client.sendRollbackTxs at h
  generalize min maxTxNum2Pack c.crossTxExpired.length = cnt at h ⊢
  simp only at h
  split at h
  case isTrue hzero =>
    cases h
    subst hzero
    exact ⟨rfl, [], rfl, Sys.Deals.nil, by simp⟩
  case isFalse =>
    simp only [Option.bind_eq_bind, Option.bind_eq_some_iff, Option.some.injEq,
      Prod.mk.injEq] at h
    rcases h with ⟨txs, htxs, ms, hms, rfl, rfl⟩
    refine ⟨rfl, _, ?_, deals_of_shardtxs hms, ?_⟩
    · rw [List.map_map]
      exact Sys.map_of_mapM (fun _ _ hlook => Client.id_of_txsMap hlook) htxs
    · intro tx htx
      rcases List.mem_map.mp htx with ⟨tx₀, -, rfl⟩
      rfl

theorem sendCross2Txs_deals {maxTxNum2Pack : ℕ}
    (h : c.sendCross2Txs maxTxNum2Pack = some (c', msgs)) :
    c' = { c with cross2Txs := c.cross2Txs.drop (min maxTxNum2Pack c.cross2Txs.length) } ∧
    Sys.Deals (·.recipientSid) msgs
      (c.cross2Txs.take (min maxTxNum2Pack c.cross2Txs.length)) := by
  unfold Client.sendCross2Txs at h
  generalize min maxTxNum2Pack c.cross2Txs.length = cnt at h ⊢
  simp only at h
  split at h
  case isTrue hzero =>
    cases h
    subst hzero
    exact ⟨rfl, Sys.Deals.nil⟩
  case isFalse =>
    simp only [Option.bind_eq_bind, Option.bind_eq_some_iff, Option.some.injEq,
      Prod.mk.injEq] at h
    rcases h with ⟨ms, hms, rfl, rfl⟩
    exact ⟨rfl, deals_of_shardtxs hms⟩

/-- `sendPendingTxs` of `Client` hands out the transactions after the first `injectCnt`. -/
theorem sendPendingTxs_deals {maxTxNum2Pack now : ℕ}
    (h : c.sendPendingTxs maxTxNum2Pack now = some (c', msgs))
    (hcnt : c.injectCnt ≤ c.txs.length) :
    c' = { c with txs := c'.txs, injectCnt := c'.injectCnt } ∧
    c'.txs.length = c.txs.length ∧ c'.injectCnt ≤ c'.txs.length ∧
    ∃ sent : List Transaction,
      c'.txs.take c'.injectCnt = c.txs.take c.injectCnt ++ sent ∧ sent.length ≤ maxTxNum2Pack ∧
      Sys.Deals (·.senderSid) msgs sent ∧ ∀ tx ∈ sent,
        tx.txType = if tx.senderSid = tx.recipientSid then .intraTXType else .crossTXType1 := by
  unfold Client.sendPendingTxs at h
  split at h
  case isTrue =>
    cases h
    exact ⟨rfl, rfl, hcnt, [], by simp, by simp, Sys.Deals.nil, by simp⟩
  case isFalse =>
    simp only [Option.bind_eq_bind, Option.bind_eq_some_iff, Option.some.injEq,
      Prod.mk.injEq] at h
    rcases h with ⟨ms, hms, rfl, rfl⟩
    -- the transactions in three parts: injected before, now, and later
    generalize hu : min (c.injectCnt + maxTxNum2Pack) c.txs.length = upperBound at hms ⊢
    have hle : c.injectCnt ≤ upperBound ∧ upperBound ≤ c.txs.length ∧
        upperBound ≤ c.injectCnt + maxTxNum2Pack := by omega
    generalize hsent : ((c.txs.take upperBound).drop c.injectCnt).map (c.stamp now) = sent
      at hms ⊢
    have hlen : sent.length = upperBound - c.injectCnt := by
      rw [← hsent, List.length_map, List.length_drop, List.length_take, Nat.min_eq_left hle.2.1]
    have hfirst : (c.txs.take c.injectCnt ++ sent).length = upperBound := by
      rw [List.length_append, List.length_take, Nat.min_eq_left hcnt, hlen]
      omega
    refine ⟨rfl, ?_, ?_, sent, ?_, ?_, deals_of_shardtxs hms, ?_⟩
    · rw [List.length_append, hfirst, List.length_drop]
      omega
    · simp only [List.length_append] at hfirst ⊢
      omega
    · exact List.take_left' hfirst
    · omega
    · intro tx htx
      rw [← hsent] at htx
      rcases List.mem_map.mp htx with ⟨tx₀, -, rfl⟩
      rfl

theorem int64_of_lt {x : ℤ} (h : 0 ≤ x) (hlt : x < 2 ^ 63) : int64 x = x := by
  simp only [int64, Int.bmod]
  split <;> omega

/-- Without overflow the sender is that of `Client`. -/
theorem sendPendingTxs_eq {maxTxNum2Pack : ℤ} {now : ℕ} {m : Finmap fun _ : ℕ => ℕ} {p : Pending}
    (hcnt : c.injectCnt ≤ c.txs.length) (hmax : 0 ≤ maxTxNum2Pack)
    (hlt : c.injectCnt + maxTxNum2Pack < 2 ^ 63)
    (h : sendPendingTxs c c.injectCnt maxTxNum2Pack now m = some p) :
    c.sendPendingTxs maxTxNum2Pack.toNat now = some (p.client, p.msgs) ∧
      p.cnt = p.client.injectCnt := by
  unfold sendPendingTxs at h
  unfold Client.sendPendingTxs
  split at h
  case isTrue hzero =>
    cases h
    rw [if_pos (by omega)]
    exact ⟨rfl, rfl⟩
  case isFalse hzero =>
    generalize hu : min (c.injectCnt + maxTxNum2Pack.toNat) c.txs.length = upperBound
    -- the `int` bounds are those of the naturals
    have hint : min (c.injectCnt + maxTxNum2Pack) c.txs.length = (upperBound : ℤ) := by omega
    have hslice : (c.txs.drop c.injectCnt).take (upperBound - c.injectCnt) =
        (c.txs.take upperBound).drop c.injectCnt := List.drop_take.symm
    have hdiff : ((upperBound : ℤ) - c.injectCnt).toNat = upperBound - c.injectCnt := by omega
    have hend : c.injectCnt + (((c.txs.take upperBound).drop c.injectCnt).map
        (c.stamp now)).length = upperBound := by
      rw [List.length_map, List.length_drop, List.length_take]
      omega
    simp only [int64_of_lt (by omega) hlt, hint, hdiff, Int.toNat_natCast, hslice, hend] at h
    rw [if_neg (by omega)]
    split at h
    · cases h
    split at h
    · cases h
    simp only [Option.bind_eq_bind, Option.bind_eq_some_iff, Option.some.injEq] at h
    rcases h with ⟨msgs, hmsgs, rfl⟩
    simp only [hmsgs, Option.bind_eq_bind, Option.bind_some]
    exact ⟨trivial, trivial⟩

end Senders

/-! ## What the parts of `AddTBs` do -/

/-- They add to the ends of the queues and leave the transactions. -/
structure Adds (c c' : Client) : Prop where
  txs : c'.txs = c.txs
  injectCnt : c'.injectCnt = c.injectCnt
  cross2 : c.cross2Txs <+: c'.cross2Txs
  expired : c.crossTxExpired <+: c'.crossTxExpired

section Adds

variable {c c' : Client}

theorem adds_of_recordTBs {tbblock : TBBlock} (h : c.recordTBs tbblock = some c') :
    Adds c c' := by
  have hsame : c.SameButView c' := (Client.recordTBs_spec h).1
  unfold Client.SameButView at hsame
  rw [hsame]
  exact ⟨rfl, rfl, List.prefix_refl _, List.prefix_refl _⟩

theorem adds_of_processTXReceipts {toRecord : Finmap fun _ : ℕ => TXReceipt}
    (h : c.processTXReceipts = some (c', toRecord)) : Adds c c' := by
  rcases Client.processTXReceipts_spec h with ⟨new, hframe, -⟩
  rw [hframe]
  exact ⟨rfl, rfl, List.prefix_append _ _, List.prefix_refl _⟩

theorem adds_of_checkExpiredTXs {order : List ℕ} (h : c.checkExpiredTXs order = some c') :
    Adds c c' := by
  rcases Client.checkExpiredTXs_spec h with ⟨expired, hframe, -⟩
  rw [hframe]
  exact ⟨rfl, rfl, List.prefix_refl _, List.prefix_append _ _⟩

end Adds

/-! ## Runs -/

/-- The accounts, the counter of `client`, and the local variables as parts of the count. -/
structure Inv (s : State) : Prop extends Accounted s where
  cnt_eq : s.injectCnt = s.client.injectCnt
  counted : match s.pc with
    | .rollbackSent rollbackTxSentCnt => s.handed = rollbackTxSentCnt
    | .cross2Sent rollbackTxSentCnt cross2TxSentCnt =>
        s.handed = rollbackTxSentCnt + cross2TxSentCnt
    | _ => True

section Steps

variable {s s' : State}

theorem Inv.sendRollback (hs : Inv s) (h : s.sendRollback = some s') : Inv s' := by
  simp only [State.sendRollback, Option.bind_eq_bind, Option.bind_eq_some_iff,
    Option.some.injEq, Prod.exists] at h
  rcases h with ⟨client, msgs, hsend, rfl⟩
  rcases sendRollbackTxs_deals hsend with ⟨rfl, out, hids, hdeals, htype⟩
  have hhanded : Sys.carried msgs = min s.injectSpeed s.client.crossTxExpired.length := by
    have hlen := congrArg List.length hids
    rw [List.length_map, List.length_take] at hlen
    rw [hdeals.carried_eq, hlen]
    omega
  rcases hs.rollbacks with ⟨before, hbefore, hdeals₀, htype₀⟩
  -- what is sent now goes from the head of the queue to the end of what was handed out
  constructor
  case cnt_eq => exact hs.cnt_eq
  case counted =>
    simp only [hhanded]
    omega
  case toAccounted =>
    refine { hs.toAccounted with rollbacks := ?_, handed := ?_, budget := ?_ }
    · refine ⟨before ++ out, ?_, hdeals₀.append hdeals, ?_⟩
      · rw [List.map_append, hids, List.append_assoc, List.take_append_drop]
        exact hbefore
      · intro tx htx
        rcases List.mem_append.mp htx with htx | htx
        · exact htype₀ tx htx
        · exact htype tx htx
    · simp only [hhanded]
      omega
    · simp only
      omega

theorem Inv.sendCross2 {rollbackTxSentCnt : ℤ} (hs : Inv s)
    (hpc : s.pc = .rollbackSent rollbackTxSentCnt)
    (h : s.sendCross2 rollbackTxSentCnt = some s') : Inv s' := by
  unfold State.sendCross2 at h
  simp only at h
  split at h
  case isTrue => cases h
  case isFalse hbudget =>
    simp only [Option.bind_eq_bind, Option.bind_eq_some_iff, Option.some.injEq,
      Prod.exists] at h
    rcases h with ⟨client, msgs, hsend, rfl⟩
    rcases sendCross2Txs_deals hsend with ⟨rfl, hdeals⟩
    have hcounted := hs.counted
    simp only [hpc] at hcounted
    -- what is left of the speed bounds what is handed out
    have hhanded : (Sys.carried msgs : ℤ) =
        min (s.injectSpeed - rollbackTxSentCnt) s.client.cross2Txs.length := by
      rw [hdeals.carried_eq, List.length_take]
      omega
    rcases hs.cross2 with ⟨before, hbefore, hdeals₀⟩
    constructor
    case cnt_eq => exact hs.cnt_eq
    case counted =>
      simp only
      omega
    case toAccounted =>
      refine { hs.toAccounted with cross2 := ?_, handed := ?_, budget := ?_ }
      · refine ⟨_, ?_, hdeals₀.append hdeals⟩
        rw [List.append_assoc, List.take_append_drop]
        exact hbefore
      · simp only
        omega
      · simp only
        omega

theorem Inv.sendPending {rollbackTxSentCnt cross2TxSentCnt : ℤ} {now : ℕ} (hs : Inv s)
    (hfits : s.injectSpeed + s.client.txs.length < 2 ^ 63)
    (hpc : s.pc = .cross2Sent rollbackTxSentCnt cross2TxSentCnt)
    (h : s.sendPending rollbackTxSentCnt cross2TxSentCnt now = some s') :
    Inv s' := by
  simp only [State.sendPending, Option.bind_eq_bind, Option.bind_eq_some_iff,
    Option.some.injEq] at h
  rcases h with ⟨p, hsend, rfl⟩
  have hcnt := hs.cnt
  have hbudget := hs.budget
  have hcounted := hs.counted
  simp only [hpc] at hbudget hcounted
  rw [hs.cnt_eq] at hsend hcnt
  -- the budget is at most the speed and the counter at most the length, so the sum is an `int`
  rcases sendPendingTxs_eq (by omega) hbudget (by omega) hsend with ⟨hclient, hp⟩
  rcases sendPendingTxs_deals hclient (by omega) with
    ⟨hframe, -, hle, sent, htake, hsent, hdeals, htyped⟩
  have hfirst : p.client.txs.take p.cnt.toNat =
      s.client.txs.take s.injectCnt.toNat ++ sent := by
    rw [hp, hs.cnt_eq, Int.toNat_natCast, Int.toNat_natCast, htake]
  constructor
  case cnt_eq => exact hp
  case counted => trivial
  case toAccounted =>
    constructor
    case cnt =>
      simp only
      omega
    case first =>
      rw [hfirst]
      exact hs.first.append hdeals
    case typed =>
      intro tx htx
      simp only [hfirst] at htx
      rcases List.mem_append.mp htx with htx | htx
      · exact hs.typed tx htx
      · exact htyped tx htx
    case cross2 =>
      rw [hframe]
      exact hs.cross2
    case rollbacks =>
      rw [hframe]
      exact hs.rollbacks
    case handed =>
      have hcarried := hdeals.carried_eq
      simp only
      omega
    case budget => trivial

theorem Inv.observe {client : Client} (hs : Inv s) (hadds : Adds s.client client) :
    Inv (s.observe client) := by
  rcases hadds with ⟨htxs, hcnt, ⟨new, hnew⟩, ⟨expired, hexpired⟩⟩
  constructor
  case cnt_eq =>
    simp only [State.observe, hcnt]
    exact hs.cnt_eq
  case counted => exact hs.counted
  case toAccounted =>
    constructor
    case cnt => simpa only [State.observe, htxs] using hs.cnt
    case first => simpa only [State.observe, htxs] using hs.first
    case typed => simpa only [State.observe, htxs] using hs.typed
    case cross2 =>
      rcases hs.cross2 with ⟨out, hout, hdeals⟩
      refine ⟨out, ?_, hdeals⟩
      simp only [State.observe, ← hnew, ← hout, List.drop_left, List.append_assoc]
    case rollbacks =>
      rcases hs.rollbacks with ⟨out, hout, hdeals⟩
      refine ⟨out, ?_, hdeals⟩
      simp only [State.observe, ← hexpired, ← hout, List.drop_left, List.append_assoc]
    case handed => exact hs.handed
    case budget => exact hs.budget

/-- Moving on in the loop without sending. -/
theorem Inv.moveOn {pc : Pc} (hs : Inv s) (hpc : pc ∈ [Pc.stopped, .notified, .sleep])
    (sent : Bool) : Inv { s with pc := pc, injectDoneMsgSent := sent } := by
  simp only [List.mem_cons, List.not_mem_nil, or_false] at hpc
  constructor
  case cnt_eq => exact hs.cnt_eq
  case counted => rcases hpc with rfl | rfl | rfl <;> trivial
  case toAccounted =>
    refine { hs.toAccounted with budget := ?_ }
    rcases hpc with rfl | rfl | rfl <;> trivial

/-- Stamping in place keeps the number of transactions. -/
theorem length_sendPendingTxs {c : Client} {cnt maxTxNum2Pack : ℤ} {now : ℕ}
    {m : Finmap fun _ : ℕ => ℕ} {p : Pending}
    (h : sendPendingTxs c cnt maxTxNum2Pack now m = some p) :
    p.client.txs.length = c.txs.length := by
  unfold sendPendingTxs at h
  split at h
  · cases h
    rfl
  simp only at h
  split at h
  · cases h
  split at h
  · cases h
  simp only [Option.bind_eq_bind, Option.bind_eq_some_iff, Option.some.injEq] at h
  rcases h with ⟨msgs, -, rfl⟩
  simp only [List.length_append, List.length_take, List.length_map, List.length_drop]
  omega

/-- What a step can do: run one of the senders, move on in the loop, or run a part of `AddTBs` or
`AddTXReceipts`. -/
theorem step_cases {l : Label} (h : step s l = some s') :
    s.sendRollback = some s' ∨
    (∃ rollbackTxSentCnt, s.pc = .rollbackSent rollbackTxSentCnt ∧
      s.sendCross2 rollbackTxSentCnt = some s') ∨
    (∃ rollbackTxSentCnt cross2TxSentCnt now,
      s.pc = .cross2Sent rollbackTxSentCnt cross2TxSentCnt ∧
      s.sendPending rollbackTxSentCnt cross2TxSentCnt now = some s') ∨
    (∃ pc sent, pc ∈ [Pc.stopped, .notified, .sleep] ∧
      s' = { s with pc := pc, injectDoneMsgSent := sent }) ∨
    ∃ client, Adds s.client client ∧ s' = s.observe client := by
  cases l with
  | sendRollbackTxs =>
      simp only [step, Option.ite_none_right_eq_some] at h
      exact .inl h.2
  | sendCross2Txs =>
      simp only [step] at h
      split at h
      case h_1 rollbackTxSentCnt hpc => exact .inr (.inl ⟨rollbackTxSentCnt, hpc, h⟩)
      case h_2 => cases h
  | sendPendingTxs now =>
      simp only [step] at h
      split at h
      case h_1 rollbackTxSentCnt cross2TxSentCnt hpc =>
        exact .inr (.inr (.inl ⟨rollbackTxSentCnt, cross2TxSentCnt, now, hpc, h⟩))
      case h_2 => cases h
  | canStopV2 =>
      simp only [step, Option.ite_none_right_eq_some, Option.some.injEq] at h
      rcases h with ⟨-, rfl⟩
      unfold State.notify
      split
      · refine .inr (.inr (.inr (.inl ⟨_, true, ?_, rfl⟩)))
        split <;> simp
      · exact .inr (.inr (.inr (.inl ⟨.notified, s.injectDoneMsgSent, by simp, rfl⟩)))
  | canStopV1 =>
      simp only [step, Option.ite_none_right_eq_some, Option.some.injEq] at h
      rcases h with ⟨-, rfl⟩
      refine .inr (.inr (.inr (.inl ⟨_, s.injectDoneMsgSent, ?_, rfl⟩)))
      split <;> simp
  -- the parts of `AddTBs`, which another goroutine runs
  | recordTBs tbblock =>
      simp only [step, Option.bind_eq_bind, Option.bind_eq_some_iff, Option.some.injEq] at h
      rcases h with ⟨client, hrecord, rfl⟩
      exact .inr (.inr (.inr (.inr ⟨client, adds_of_recordTBs hrecord, rfl⟩)))
  | processTXReceipts =>
      simp only [step, Option.bind_eq_bind, Option.bind_eq_some_iff, Option.some.injEq,
        Prod.exists] at h
      rcases h with ⟨client, toRecord, hprocess, rfl⟩
      exact .inr (.inr (.inr (.inr ⟨client, adds_of_processTXReceipts hprocess, rfl⟩)))
  | checkExpiredTXs order =>
      simp only [step, Option.ite_none_right_eq_some, Option.bind_eq_bind,
        Option.bind_eq_some_iff, Option.some.injEq] at h
      rcases h with ⟨-, client, hcheck, rfl⟩
      exact .inr (.inr (.inr (.inr ⟨client, adds_of_checkExpiredTXs hcheck, rfl⟩)))
  | addTXReceipts receipts =>
      simp only [step, Option.some.injEq] at h
      refine .inr (.inr (.inr (.inr ⟨_, ?_, h.symm⟩)))
      exact ⟨rfl, rfl, List.prefix_refl _, List.prefix_refl _⟩

/-- The speed and the number of transactions do not change. -/
theorem load_of_step {l : Label} (h : step s l = some s') :
    s'.injectSpeed = s.injectSpeed ∧ s'.client.txs.length = s.client.txs.length := by
  rcases step_cases h with hsend | ⟨_, -, hsend⟩ | ⟨_, _, _, -, hsend⟩ | ⟨_, _, -, rfl⟩ |
    ⟨client, hadds, rfl⟩
  · simp only [State.sendRollback, Option.bind_eq_bind, Option.bind_eq_some_iff,
      Option.some.injEq, Prod.exists] at hsend
    rcases hsend with ⟨client, msgs, hsend, rfl⟩
    exact ⟨rfl, by rw [(sendRollbackTxs_deals hsend).1]⟩
  · simp only [State.sendCross2, Option.ite_none_left_eq_some, Option.bind_eq_bind,
      Option.bind_eq_some_iff, Option.some.injEq, Prod.exists] at hsend
    rcases hsend with ⟨-, client, msgs, hsend, rfl⟩
    exact ⟨rfl, by rw [(sendCross2Txs_deals hsend).1]⟩
  · simp only [State.sendPending, Option.bind_eq_bind, Option.bind_eq_some_iff,
      Option.some.injEq] at hsend
    rcases hsend with ⟨p, hsend, rfl⟩
    exact ⟨rfl, length_sendPendingTxs hsend⟩
  · exact ⟨rfl, rfl⟩
  · exact ⟨rfl, by rw [State.observe, hadds.txs]⟩

theorem Inv.step {l : Label} (hs : Inv s)
    (hfits : s.injectSpeed + s.client.txs.length < 2 ^ 63) (h : step s l = some s') : Inv s' := by
  rcases step_cases h with hsend | ⟨_, hpc, hsend⟩ | ⟨_, _, _, hpc, hsend⟩ | ⟨_, sent, hpc, rfl⟩ |
    ⟨client, hadds, rfl⟩
  · exact hs.sendRollback hsend
  · exact hs.sendCross2 hpc hsend
  · exact hs.sendPending hfits hpc hsend
  · exact hs.moveOn hpc sent
  · exact hs.observe hadds

theorem Inv.start (id : ℕ) (rollbackHeight : ℤ) (shardNum : ℕ) (txs : List Transaction)
    (injectSpeed : ℕ) (exitMode : ℤ) :
    Inv (start id rollbackHeight shardNum txs injectSpeed exitMode) where
  cnt := ⟨le_rfl, Int.natCast_nonneg _⟩
  first := Sys.Deals.nil
  typed := by simp [Injection.start]
  cross2 := ⟨[], rfl, Sys.Deals.nil⟩
  rollbacks := ⟨[], rfl, Sys.Deals.nil, by simp⟩
  handed := Nat.zero_le _
  budget := trivial
  cnt_eq := rfl
  counted := trivial

end Steps

/-- As long as `inject_speed + len(txs)` is an `int`, the accounts are right in every state. -/
theorem accounted {s : State} (h : machine.Reachable s)
    (hfits : s.injectSpeed + s.client.txs.length < 2 ^ 63) : Accounted s := by
  have hinv : s.injectSpeed + s.client.txs.length < 2 ^ 63 → Inv s :=
    Sys.Machine.invariant_by
      (fun s => s.injectSpeed + s.client.txs.length < 2 ^ 63 → Inv s)
      (by
        rintro s ⟨id, rollbackHeight, shardNum, txs, injectSpeed, exitMode, -, rfl⟩ -
        exact Inv.start ..)
      (by
        intro s l s' _ hstep ih hfits
        rcases load_of_step hstep with ⟨hspeed, hlen⟩
        rw [hspeed, hlen] at hfits
        exact (ih hfits).step hfits hstep) h
  exact (hinv hfits).toAccounted

/-- A transfer from shard 0 to shard 1. -/
def exampleTx (id : ℕ) : Transaction := exampleTransfer id 1 1

/-- A block of the beacon chain with beacons of shard 0 and shard 1. -/
def exampleBlock (heights₀ heights₁ : List ℕ) : TBBlock :=
  ⟨0, 0, [heights₀.map fun h => ⟨⟨0, h, "", "", ""⟩, 0, 0⟩,
    heights₁.map fun h => ⟨⟨1, h, "", "", ""⟩, 0, 0⟩]⟩

/-- Three ticks at speed 2: two first halves; then two second halves, which were queued after the
tick had begun; then the rollback of one of them and the third first half. -/
theorem accounted_three_ticks : ∃ s, machine.Reachable s ∧
    (s.injectCnt = 3 ∧ s.cross2Enqueued.map (·.id) = [0, 1] ∧ s.expiredEnqueued = [1] ∧
      s.client.crossTxExpired = []) ∧ Accounted s := by
  have hrun : ∃ s, machine.Reachable s ∧
      (s.injectCnt = 3 ∧ s.cross2Enqueued.map (·.id) = [0, 1] ∧ s.expiredEnqueued = [1] ∧
        s.client.crossTxExpired = []) ∧ s.injectSpeed + s.client.txs.length < 2 ^ 63 :=
    Sys.Machine.exists_reachableBy _
      ⟨0, 2, 2, [exampleTx 0, exampleTx 1, exampleTx 2], 2, 0, by decide, rfl⟩
      [.sendRollbackTxs, .sendCross2Txs, .sendPendingTxs 10, .canStopV2, .canStopV1,
        .addTXReceipts [⟨0, 0, .crossTXType1Success, 0, 1⟩, ⟨1, 0, .crossTXType1Success, 0, 1⟩],
        .sendRollbackTxs, .recordTBs (exampleBlock [1] [1]), .processTXReceipts,
        .checkExpiredTXs [0, 1], .sendCross2Txs, .sendPendingTxs 11, .canStopV2, .canStopV1,
        .addTXReceipts [⟨0, 0, .crossTXType2Success, 1, 2⟩],
        .recordTBs (exampleBlock [] [2, 3, 4]), .processTXReceipts, .checkExpiredTXs [1],
        .sendRollbackTxs, .sendCross2Txs, .sendPendingTxs 12]
      (by decide +kernel)
  rcases hrun with ⟨s, hreach, hcounts, hfits⟩
  exact ⟨s, hreach, hcounts, accounted hreach hfits⟩

/-- With the largest speed the second tick adds it to a counter of 1. -/
theorem not_accounted_overflow : ∃ s, machine.Reachable s ∧ s.injectSpeed = 2 ^ 63 - 1 ∧
    s.pc = .sleep ∧ s.firstHalves.map (fun m => m.2.map (·.id)) = [[0], [], [], []] ∧
    s.injectCnt = -2 ^ 63 ∧ ¬ Accounted s := by
  have hrun : ∃ s, machine.Reachable s ∧ s.injectSpeed = 2 ^ 63 - 1 ∧
      s.pc = .sleep ∧ s.firstHalves.map (fun m => m.2.map (·.id)) = [[0], [], [], []] ∧
      s.injectCnt = -2 ^ 63 :=
    Sys.Machine.exists_reachableBy _ ⟨0, 2, 2, [exampleTx 0], 2 ^ 63 - 1, 0, by decide, rfl⟩
      [.sendRollbackTxs, .sendCross2Txs, .sendPendingTxs 10,
        .addTXReceipts [⟨0, 0, .crossTXType1Success, 0, 1⟩], .canStopV2, .canStopV1,
        .sendRollbackTxs, .sendCross2Txs, .sendPendingTxs 11, .canStopV2, .canStopV1]
      (by decide +kernel)
  rcases hrun with ⟨s, hreach, hspeed, hpc, hsent, hcnt⟩
  refine ⟨s, hreach, hspeed, hpc, hsent, hcnt, fun hacc => ?_⟩
  have hnonneg := hacc.cnt.1
  omega

end LessChain.Injection
