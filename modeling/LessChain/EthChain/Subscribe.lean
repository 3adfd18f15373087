import LessChain.BeaconChain.Observers
import LessChain.Contract.Authority
import LessChain.Core.TimeBeacon

/-!
# From the contract to the blocks of the observers

The contract reports what it does in `LogMessage` events. Every node subscribes to them
(`SubscribeEvents`), passes on those that say that a beacon was stored and ends the process at
the first one that says that a signer was refused. What is passed on goes into the blocks of
`generateEthChainBlock`.

* `foldl_read_logsOf`: the channel holds the beacons that were stored before the first call that
  reported a refusal, in their order, and the process is alive if there was none.
* `observers_follow_contract`: the blocks of every node are the first of the blocks of the
  beacons that the contract has stored.

The web socket delivers the events in the order of the chain; its JSON and the hexadecimal
text of the data are left out.
-/

namespace LessChain

namespace EthChain

open Contract (Evm TBStorage LogMessage Written)

/-! ## Events -/

/-- The data of a `LogMessage` event. -/
def encodeLog (log : LogMessage) : Bytes :=
  Sys.Abi.pack [.bytes (goBytes log.message), .uint log.shardID, .uint log.height,
    .uint log.addr.toNat]

/-- What a node is told about an event: its data and the number of its block. -/
structure Log where
  data : Bytes
  blockNumber : ℕ
deriving DecidableEq

/-- `eth_chain.Event`, before its height is set. -/
structure Message where
  msg : Bytes
  shardID : ℕ
  height : ℕ
deriving DecidableEq, Repr

/-- `handleMessage`. Data that is no `LogMessage` ends the process: if it is no
`VerifyMessage` either, an error is logged, and if it is one, the type assertion on its
`msgHash` panics. -/
def handleMessage (data : Bytes) : Option Message :=
  match Sys.Abi.unpack [.bytes, .uint 32, .uint 64, .uint 160] data with
  | some [.bytes message, .uint shardID, .uint height, .uint _] => some ⟨message, shardID, height⟩
  | _ => none

/-- `strings.Contains`. -/
def containsBytes (s substr : Bytes) : Bool := decide (substr <:+: s)

/-- What has been put into `eventChannel`, and whether the process is still there. -/
structure Subscription where
  channel : List BeaconChain.Event
  running : Bool
deriving DecidableEq

/-- One round of the loop of `SubscribeEvents`. -/
def Subscription.read (s : Subscription) (log : Log) : Subscription :=
  if s.running = false then s
  else
    match handleMessage log.data with
    | none => { s with running := false }
    | some event =>
        if event.msg = goBytes "addTB" then
          { s with channel := s.channel ++ [⟨event.shardID, event.height, log.blockNumber⟩] }
        else if containsBytes event.msg (goBytes "addTB...") ||
            containsBytes event.msg (goBytes "adjustAddr") then
          { s with running := false }
        else s

/-- `SubscribeEvents`, on the events of a run of the chain. -/
def subscribeEvents (logs : List Log) : Subscription := logs.foldl Subscription.read ⟨[], true⟩

/-! ## Runs of the contract -/

section Run

variable (evm : Evm)

/-- What a call changes and reports. A reverted call does neither. -/
def exec (st : TBStorage) : Contract.Call → TBStorage × List LogMessage
  | .addTB call => (Contract.addTB evm st call).getD (st, [])
  | .adjustRecordedAddrs addrs vrfs seedHeight blockhash =>
      (Contract.adjustRecordedAddrs evm st addrs vrfs seedHeight blockhash).getD (st, [])
  | .getTB shardID height => (st, (Contract.getTB st shardID height).2)

/-- A call and the number of the block it is mined in. -/
abbrev Mined := ℕ × Contract.Call

/-- The events of a run, as the nodes are told of them. -/
def logsOf : TBStorage → List Mined → List Log
  | _, [] => []
  | st, (blockNumber, call) :: run =>
      ((exec evm st call).2.map fun log => ⟨encodeLog log, blockNumber⟩) ++
        logsOf (exec evm st call).1 run

/-- The beacon a call stores: enough positions of its arrays are valid. -/
def accepted (st : TBStorage) (blockNumber : ℕ) : Contract.Call → List BeaconChain.Event
  | .addTB call =>
      if st.minSigCnt ≤ Contract.validPositions evm st call then
        [⟨call.tb.shardID, call.tb.height, blockNumber⟩]
      else []
  | _ => []

/-- The beacons that a run stores. -/
def storedBy : TBStorage → List Mined → List BeaconChain.Event
  | _, [] => []
  | st, (blockNumber, call) :: run =>
      accepted evm st blockNumber call ++ storedBy (exec evm st call).1 run

/-- The call reports that it refuses something. -/
def Refuses (st : TBStorage) (call : Contract.Call) : Prop :=
  ∃ log ∈ (exec evm st call).2, log.message ≠ "addTB" ∧ log.message ≠ "getTB"

/-- Some call of the run does. -/
def RefusesIn : TBStorage → List Mined → Prop
  | _, [] => False
  | st, (_, call) :: run => Refuses evm st call ∨ RefusesIn (exec evm st call).1 run

end Run

/-- The numbers of a call fit their types. -/
def CallFits : Contract.Call → Prop
  | .addTB call => call.tb.shardID < 2 ^ 32 ∧ call.tb.height < 2 ^ 64
  | .adjustRecordedAddrs _ _ _ _ => True
  | .getTB shardID height => shardID < 2 ^ 32 ∧ height < 2 ^ 64

/-! ## What the contract reports -/

/-- The texts of a refusal. -/
def refusals : List String :=
  ["addTB... address not recorded", "addTB... signer not in this shard",
    "addTB... vrf verification not passed", "addTB... vrf not qualified",
    "addTB... signature verification not passed", "addTB... insufficient valid signatures",
    "adjustAddr... address not recorded", "adjustAddr... vrf verification not passed"]

variable {evm : Evm} {call : Contract.Call} {run : List Mined} {log : LogMessage}
  {s : Subscription} {st : TBStorage} {shardNum blockNumber : ℕ}

theorem mem_refusals_of_countSigs {call : Contract.AddTBCall}
    {sigs : List Contract.MemBytes} {i cnt cnt' : ℕ} {logs : List LogMessage}
    (h : Contract.countSigs evm st call sigs i cnt = some (cnt', logs)) :
    ∀ log ∈ logs, log.message ∈ refusals ∧ log.shardID = call.tb.shardID ∧
      log.height = call.tb.height := by
  induction sigs generalizing i cnt logs with
  | nil =>
      cases h
      simp
  | cons sig sigs ih =>
      rw [Contract.countSigs] at h
      rcases Option.bind_eq_some_iff.mp h with ⟨⟨v, signer⟩, -, h⟩
      dsimp only at h
      -- a valid signature is not reported
      by_cases hv : v = .valid
      · rw [if_pos hv] at h
        split at h
        · cases h
          simp
        · split at h
          · cases h
          · exact ih h
      · rw [if_neg hv] at h
        split at h
        · cases h
        · rcases Option.map_eq_some_iff.mp h with ⟨⟨cnt₁, logs₁⟩, hrest, heq⟩
          cases heq
          intro log hlog
          rcases List.mem_cons.mp hlog with hlog | hlog
          · rw [hlog]
            refine ⟨?_, rfl, rfl⟩
            cases v <;> first | exact absurd rfl hv | simp [Contract.Verdict.message, refusals]
          · exact ih hrest log hlog

theorem mem_refusals_of_adjustLoop {seed : Hash} {vrfs : List Contract.MemBytes}
    {addrs : List Address} {j : ℕ} {st' : TBStorage} {logs : List LogMessage}
    (h : Contract.adjustLoop evm seed vrfs addrs j st = some (st', logs)) :
    ∀ log ∈ logs, log.message ∈ refusals ∧ log.shardID = 0 ∧ log.height = 0 := by
  induction addrs generalizing j st logs with
  | nil =>
      cases h
      simp
  | cons addr addrs ih =>
      -- the report of one entry, in front of those of the others
      have hcons : ∀ {logs₁ : List LogMessage} {m : String}, m ∈ refusals →
          (∀ log ∈ logs₁, log.message ∈ refusals ∧ log.shardID = 0 ∧ log.height = 0) →
          ∀ log ∈ (⟨m, 0, 0, addr⟩ : LogMessage) :: logs₁,
            log.message ∈ refusals ∧ log.shardID = 0 ∧ log.height = 0 := by
        intro logs₁ m hm hlogs log hlog
        rcases List.mem_cons.mp hlog with hlog | hlog
        · rw [hlog]
          exact ⟨hm, rfl, rfl⟩
        · exact hlogs log hlog
      rw [Contract.adjustLoop] at h
      rcases Option.bind_eq_some_iff.mp h with ⟨vrfValue, -, h⟩
      split at h
      · split at h
        · cases h
        · rcases Option.map_eq_some_iff.mp h with ⟨⟨st₁, logs₁⟩, hrest, heq⟩
          cases heq
          exact hcons (by simp [refusals]) (ih hrest)
      · split at h
        · split at h
          · cases h
          · rcases Option.map_eq_some_iff.mp h with ⟨⟨st₁, logs₁⟩, hrest, heq⟩
            cases heq
            exact hcons (by simp [refusals]) (ih hrest)
        · rcases Option.bind_eq_some_iff.mp h with ⟨newShardID, -, h⟩
          split at h
          · cases h
          · have hrest := ih h
            exact hrest

/-- What a call reports at its end: nothing, that it was a query, or that it stored its
beacon. -/
def Closes (evm : Evm) (st : TBStorage) (blockNumber : ℕ) (call : Contract.Call)
    (fin : List LogMessage) : Prop :=
  (fin = [] ∧ accepted evm st blockNumber call = []) ∨
    (∃ log, fin = [log] ∧ log.message = "getTB" ∧ accepted evm st blockNumber call = []) ∨
    ∃ log, fin = [log] ∧ log.message = "addTB" ∧
      accepted evm st blockNumber call = [⟨log.shardID, log.height, blockNumber⟩]

/-- The reports of a call: refusals, and the end. -/
structure Reports (evm : Evm) (st : TBStorage) (blockNumber : ℕ) (call : Contract.Call)
    (pre fin : List LogMessage) : Prop where
  logs : (exec evm st call).2 = pre ++ fin
  fits : ∀ log ∈ pre ++ fin, log.shardID < 2 ^ 32 ∧ log.height < 2 ^ 64
  refusals : ∀ log ∈ pre, log.message ∈ refusals
  closes : Closes evm st blockNumber call fin

theorem reports_addTB {call : Contract.AddTBCall} (hmin : 0 < st.minSigCnt)
    (hfits : CallFits (.addTB call)) (blockNumber : ℕ) :
    ∃ pre fin, Reports evm st blockNumber (.addTB call) pre fin := by
  have hwritten := @Contract.written_iff_validPositions evm st call hmin
  rw [Contract.written_iff] at hwritten
  cases hcount : Contract.countSigs evm st call call.sigs 0 0 with
  | none =>
      have hnone : Contract.addTB evm st call = none := by rw [Contract.addTB, hcount]; rfl
      have hnot : ¬ st.minSigCnt ≤ Contract.validPositions evm st call := by
        rw [← hwritten, hcount]
        rintro ⟨cnt, logs, heq, -⟩
        cases heq
      refine ⟨[], [], by simp [exec, hnone], by simp, by simp, .inl ⟨rfl, ?_⟩⟩
      rw [accepted, if_neg hnot]
  | some res =>
      rcases res with ⟨cnt, logs⟩
      have hlogs := mem_refusals_of_countSigs hcount
      have hlogsFit : ∀ log ∈ logs, log.shardID < 2 ^ 32 ∧ log.height < 2 ^ 64 := by
        intro log hlog
        rw [(hlogs log hlog).2.1, (hlogs log hlog).2.2]
        exact hfits
      have hiff : st.minSigCnt ≤ Contract.validPositions evm st call ↔ st.minSigCnt ≤ cnt := by
        rw [← hwritten, hcount]
        constructor
        · rintro ⟨cnt', logs', heq, hle⟩
          cases heq
          exact hle
        · exact fun hle => ⟨cnt, logs, rfl, hle⟩
      by_cases hlt : cnt < st.minSigCnt
      · -- one refusal more
        have hadd : Contract.addTB evm st call = some (st, logs ++
            [⟨"addTB... insufficient valid signatures", call.tb.shardID, call.tb.height, 0⟩]) := by
          rw [Contract.addTB, hcount]
          simp [hlt]
        refine ⟨_, [], by rw [exec, hadd, List.append_nil, Option.getD_some], ?_, ?_,
          .inl ⟨rfl, ?_⟩⟩
        · intro log hlog
          rw [List.append_nil] at hlog
          rcases List.mem_append.mp hlog with hlog | hlog
          · exact hlogsFit log hlog
          · rw [List.mem_singleton.mp hlog]
            exact hfits
        · intro log hlog
          rcases List.mem_append.mp hlog with hlog | hlog
          · exact (hlogs log hlog).1
          · rw [List.mem_singleton.mp hlog]
            simp [refusals]
        · rw [accepted, if_neg (by rw [hiff]; omega)]
      · have hadd : Contract.addTB evm st call = some
            (st.putTB call.tb.shardID call.tb.height call.tb,
              logs ++ [⟨"addTB", call.tb.shardID, call.tb.height, 0⟩]) := by
          rw [Contract.addTB, hcount]
          simp [hlt]
        refine ⟨logs, [⟨"addTB", call.tb.shardID, call.tb.height, 0⟩],
          by rw [exec, hadd, Option.getD_some], ?_, fun log hlog => (hlogs log hlog).1,
          .inr (.inr ⟨_, rfl, rfl, ?_⟩)⟩
        · intro log hlog
          rcases List.mem_append.mp hlog with hlog | hlog
          · exact hlogsFit log hlog
          · rw [List.mem_singleton.mp hlog]
            exact hfits
        · rw [accepted, if_pos (by rw [hiff]; omega)]

theorem reports_exec (hmin : 0 < st.minSigCnt)
    (hfits : CallFits call) (blockNumber : ℕ) :
    ∃ pre fin, Reports evm st blockNumber call pre fin := by
  cases call with
  | addTB call => exact reports_addTB hmin hfits blockNumber
  | adjustRecordedAddrs addrs vrfs seedHeight blockhash =>
      cases hadj : Contract.adjustRecordedAddrs evm st addrs vrfs seedHeight blockhash with
      | none =>
          exact ⟨[], [], by simp [exec, hadj], by simp, by simp, .inl ⟨rfl, rfl⟩⟩
      | some res =>
          rcases res with ⟨st', logs⟩
          have hlogs := mem_refusals_of_adjustLoop hadj
          refine ⟨logs, [], by simp [exec, hadj], ?_, fun log hlog => (hlogs log hlog).1,
            .inl ⟨rfl, rfl⟩⟩
          intro log hlog
          rw [List.append_nil] at hlog
          rw [(hlogs log hlog).2.1, (hlogs log hlog).2.2]
          exact ⟨by decide, by decide⟩
  | getTB shardID height =>
      refine ⟨[], [⟨"getTB", shardID, height, 0⟩], rfl, ?_, by simp,
        .inr (.inl ⟨_, rfl, rfl, rfl⟩)⟩
      intro log hlog
      rw [List.mem_singleton.mp hlog]
      exact hfits

/-! ## What a node makes of it -/

theorem handleMessage_encodeLog (hmsg : log.message ∈ "addTB" :: "getTB" :: refusals)
    (hfits : log.shardID < 2 ^ 32 ∧ log.height < 2 ^ 64) :
    handleMessage (encodeLog log) = some ⟨goBytes log.message, log.shardID, log.height⟩ := by
  have hshort : ∀ m ∈ "addTB" :: "getTB" :: refusals, (goBytes m).length < 64 := by decide +kernel
  have hlen : (encodeLog log).length < 2 ^ 63 := by
    have hm := hshort _ hmsg
    simp only [encodeLog, Sys.Abi.pack, Sys.Abi.packAux, Sys.Abi.tail, List.length_append,
      Sys.Abi.length_word, List.length_replicate, List.length_nil]
    omega
  have hty : List.Forall₂ Sys.Abi.Val.HasTy
      [.bytes (goBytes log.message), .uint log.shardID, .uint log.height, .uint log.addr.toNat]
      [.bytes, .uint 32, .uint 64, .uint 160] :=
    .cons trivial (.cons ⟨hfits.1, by decide⟩ (.cons ⟨hfits.2, by decide⟩
      (.cons ⟨log.addr.isLt, by decide⟩ .nil)))
  rw [handleMessage, encodeLog, Sys.Abi.unpack_pack hty hlen]

/-- A refusal ends the process. -/
theorem read_refusal (hmsg : log.message ∈ refusals)
    (hfits : log.shardID < 2 ^ 32 ∧ log.height < 2 ^ 64) :
    s.read ⟨encodeLog log, blockNumber⟩ = { s with running := false } := by
  have htexts : ∀ m ∈ refusals, goBytes m ≠ goBytes "addTB" ∧
      (containsBytes (goBytes m) (goBytes "addTB...") ||
        containsBytes (goBytes m) (goBytes "adjustAddr")) = true := by decide +kernel
  rcases htexts _ hmsg with ⟨hne, hbad⟩
  have hread := @handleMessage_encodeLog log (by simp [hmsg]) hfits
  by_cases hrun : s.running = false
  · rw [Subscription.read, if_pos hrun, ← hrun]
  · rw [Subscription.read, if_neg hrun]
    simp only [hread, if_neg hne, if_pos hbad]

theorem read_addTB (hmsg : log.message = "addTB")
    (hfits : log.shardID < 2 ^ 32 ∧ log.height < 2 ^ 64)
    (hrun : s.running = true) : s.read ⟨encodeLog log, blockNumber⟩ =
      { s with channel := s.channel ++ [⟨log.shardID, log.height, blockNumber⟩] } := by
  have hread := @handleMessage_encodeLog log (by simp [hmsg]) hfits
  simp [Subscription.read, hrun, hread, hmsg]

theorem read_getTB (hmsg : log.message = "getTB")
    (hfits : log.shardID < 2 ^ 32 ∧ log.height < 2 ^ 64) :
    s.read ⟨encodeLog log, blockNumber⟩ = s := by
  have htext : goBytes "getTB" ≠ goBytes "addTB" ∧
      (containsBytes (goBytes "getTB") (goBytes "addTB...") ||
        containsBytes (goBytes "getTB") (goBytes "adjustAddr")) = false := by decide +kernel
  have hread := @handleMessage_encodeLog log (by simp [hmsg]) hfits
  simp [Subscription.read, hread, hmsg, htext]

theorem foldl_read_stopped (logs : List Log) (h : s.running = false) :
    logs.foldl Subscription.read s = s := by
  induction logs with
  | nil => rfl
  | cons log logs ih => rw [List.foldl_cons, Subscription.read, if_pos h, ih]

/-- The reports of one call: a refusal ends the process, and otherwise the beacon that was
stored is passed on. -/
theorem foldl_read_exec (hmin : 0 < st.minSigCnt) (hfits : CallFits call)
    (hrun : s.running = true) :
    let s' := ((exec evm st call).2.map fun log => (⟨encodeLog log, blockNumber⟩ : Log)).foldl
      Subscription.read s
    (Refuses evm st call → s' = { s with running := false }) ∧
      (¬ Refuses evm st call →
        s' = { s with channel := s.channel ++ accepted evm st blockNumber call }) := by
  rcases reports_exec hmin hfits blockNumber with ⟨pre, fin, h⟩
  dsimp only
  rw [h.logs]
  -- the first report decides: a refusal stops the node before it reads the others
  cases pre with
  | nil =>
      have hnot : ¬ Refuses evm st call := by
        rintro ⟨log, hlog, hne⟩
        rw [h.logs, List.nil_append] at hlog
        rcases h.closes with ⟨rfl, -⟩ | ⟨log', rfl, htext, -⟩ | ⟨log', rfl, htext, -⟩
        · cases hlog
        · rw [List.mem_singleton.mp hlog] at hne
          exact hne.2 htext
        · rw [List.mem_singleton.mp hlog] at hne
          exact hne.1 htext
      refine ⟨fun href => absurd href hnot, fun _ => ?_⟩
      rcases h.closes with ⟨rfl, hacc⟩ | ⟨log, rfl, htext, hacc⟩ | ⟨log, rfl, htext, hacc⟩
      · simp only [hacc, List.append_nil, List.map_nil, List.foldl_nil]
      · simp only [hacc, List.append_nil, List.nil_append, List.map_cons, List.map_nil,
          List.foldl_cons, List.foldl_nil, read_getTB htext (h.fits log (by simp))]
      · simp only [hacc, List.nil_append, List.map_cons, List.map_nil, List.foldl_cons,
          List.foldl_nil, read_addTB htext (h.fits log (by simp)) hrun]
  | cons log pre =>
      have href : Refuses evm st call := by
        have htexts : "addTB" ∉ refusals ∧ "getTB" ∉ refusals := by decide +kernel
        have hmsg := h.refusals log (by simp)
        refine ⟨log, by rw [h.logs]; simp, ?_, ?_⟩
        · intro heq
          exact htexts.1 (heq ▸ hmsg)
        · intro heq
          exact htexts.2 (heq ▸ hmsg)
      refine ⟨fun _ => ?_, fun hnot => absurd href hnot⟩
      rw [List.cons_append, List.map_cons, List.foldl_cons,
        read_refusal (h.refusals log (by simp)) (h.fits log (by simp)), foldl_read_stopped _ rfl]

/-! ## Runs -/

/-- What a call may change, by the rules of the contract. -/
theorem authorised_exec (hshards : ∀ a, st.addr2Shard a < st.shardNum)
    (call : Contract.Call) : Contract.Authorised evm st call (exec evm st call).1 := by
  have hstep : ∃ s, Contract.step evm ⟨st, fun _ _ => false⟩ call = some s ∧
      s.store = (exec evm st call).1 := by
    cases call with
    | addTB call =>
        rw [Contract.step, exec]
        cases Contract.addTB evm st call <;> exact ⟨_, rfl, rfl⟩
    | adjustRecordedAddrs addrs vrfs seedHeight blockhash =>
        rw [Contract.step, exec]
        cases Contract.adjustRecordedAddrs evm st addrs vrfs seedHeight blockhash <;>
          exact ⟨_, rfl, rfl⟩
    | getTB shardID height => exact ⟨_, rfl, rfl⟩
  rcases hstep with ⟨s, hstep, hstore⟩
  rw [← hstore]
  exact Contract.authorised_step (s := ⟨st, fun _ _ => false⟩) hshards hstep

/-- The contract is in use: it asks for signatures, and its members are in its shards. -/
structure InUse (st : TBStorage) (n : ℕ) : Prop where
  minSigCnt : 0 < st.minSigCnt
  shardNum : st.shardNum = n
  addr2Shard : ∀ a, st.addr2Shard a < n

theorem inUse_exec (h : InUse st shardNum)
    (call : Contract.Call) : InUse (exec evm st call).1 shardNum := by
  have hshards : ∀ a, st.addr2Shard a < st.shardNum := by
    rw [h.shardNum]
    exact h.addr2Shard
  have hauth := @authorised_exec evm st hshards call
  have hnum : (exec evm st call).1.shardNum = shardNum := hauth.shardNum.trans h.shardNum
  refine ⟨hauth.minSigCnt ▸ h.minSigCnt, hnum, fun a => ?_⟩
  rw [← hnum]
  exact hauth.addr2Shard_lt hshards a

/-- What is stored is of a shard that exists, and of the block of its call. -/
theorem mem_accepted (h : InUse st shardNum) {e : BeaconChain.Event}
    (he : e ∈ accepted evm st blockNumber call) :
    e.ethHeight = blockNumber ∧ e.shardID < shardNum := by
  cases call with
  | addTB call =>
      rw [accepted] at he
      split at he
      · rename_i hle
        rw [List.mem_singleton.mp he]
        have hwritten := (Contract.written_iff_validPositions h.minSigCnt).mpr hle
        have hcounted := Contract.counted_of_written hwritten
        refine ⟨rfl, ?_⟩
        rw [← h.shardNum]
        exact hcounted.shardID_lt h.minSigCnt (h.shardNum ▸ h.addr2Shard)
      · cases he
  | adjustRecordedAddrs addrs vrfs seedHeight blockhash => cases he
  | getTB shardID height => cases he

theorem mem_storedBy (h : InUse st shardNum)
    {e : BeaconChain.Event} (he : e ∈ storedBy evm st run) :
    e.ethHeight ∈ run.map Prod.fst ∧ e.shardID < shardNum := by
  induction run generalizing st with
  | nil => cases he
  | cons m run ih =>
      rcases List.mem_append.mp he with he | he
      · rcases mem_accepted h he with ⟨hheight, hshard⟩
        exact ⟨by simp [hheight], hshard⟩
      · rcases ih (inUse_exec h m.2) he with ⟨hheight, hshard⟩
        exact ⟨List.mem_cons_of_mem _ hheight, hshard⟩

/-- The beacons are stored in the order of the blocks. -/
theorem inOrder_storedBy (h : InUse st shardNum) (hsorted : (run.map Prod.fst).Pairwise (· ≤ ·))
    (hpos : ∀ m ∈ run, 0 < m.1) : BeaconChain.InOrder shardNum (storedBy evm st run) where
  sorted := by
    induction run generalizing st with
    | nil => exact .nil
    | cons m run ih =>
        rw [List.map_cons, List.pairwise_cons] at hsorted
        rw [storedBy, List.map_append, List.pairwise_append]
        refine ⟨?_, ih (inUse_exec h m.2) hsorted.2 fun m' hm' => hpos m' (by simp [hm']), ?_⟩
        · rcases m with ⟨blockNumber, call⟩
          cases call <;> simp only [accepted, List.map_nil, List.Pairwise.nil]
          split <;> simp
        · intro x hx y hy
          rcases List.mem_map.mp hx with ⟨e, he, rfl⟩
          rcases List.mem_map.mp hy with ⟨e', he', rfl⟩
          rw [(mem_accepted h he).1]
          exact hsorted.1 _ (mem_storedBy (inUse_exec h m.2) he').1
  pos := by
    intro e he
    rcases List.mem_map.mp (mem_storedBy h he).1 with ⟨m, hm, heq⟩
    rw [← heq]
    exact hpos m hm
  shardID := fun e he => (mem_storedBy h he).2

/-- The channel holds what was stored up to the first refusal, and there was none if the
process is alive. -/
theorem foldl_read_logsOf (h : InUse st shardNum) (hfits : ∀ m ∈ run, CallFits m.2)
    (hrun : s.running = true) :
    let s' := (logsOf evm st run).foldl Subscription.read s
    (s'.running = true ↔ ¬ RefusesIn evm st run) ∧
      (s'.running = true → s'.channel = s.channel ++ storedBy evm st run) ∧
      s.channel <+: s'.channel ∧ s'.channel <+: s.channel ++ storedBy evm st run := by
  induction run generalizing st s with
  | nil => simpa [logsOf, RefusesIn, storedBy] using hrun
  | cons m run ih =>
      rcases m with ⟨blockNumber, call⟩
      have hcall := @foldl_read_exec evm call s st blockNumber h.minSigCnt
        (hfits _ (List.mem_cons_self ..)) hrun
      dsimp only at hcall ⊢
      rw [logsOf, List.foldl_append]
      by_cases href : Refuses evm st call
      · rw [hcall.1 href, foldl_read_stopped _ rfl]
        simp [RefusesIn, href]
      · rw [hcall.2 href]
        have hnext : InUse (exec evm st call).1 shardNum := inUse_exec h call
        have hrest := ih hnext (fun m hm => hfits m (List.mem_cons_of_mem _ hm))
          (s := { s with channel := s.channel ++ accepted evm st blockNumber call }) hrun
        simp only [List.append_assoc] at hrest
        rcases hrest with ⟨hiff, hall, hfirst, hpre⟩
        refine ⟨by rw [hiff, RefusesIn]; simp [href], hall, ?_, hpre⟩
        exact (List.prefix_append _ _).trans hfirst

theorem deploy_inUse {genesisTBs : List Contract.ContractTB} {minSigCnt : ℕ}
    {addrs : List (List Address)} (hshards : 0 < genesisTBs.length)
    (hmin : 0 < minSigCnt)
    (h : Contract.deploy genesisTBs minSigCnt genesisTBs.length addrs = some st) :
    InUse st genesisTBs.length := by
  have hfields : st.minSigCnt = minSigCnt ∧ st.shardNum = genesisTBs.length := by
    rcases Option.map_eq_some_iff.mp h with ⟨st₀, -, rfl⟩
    exact ⟨rfl, rfl⟩
  have hfounded : Contract.Founded ⟨st, fun _ _ => false⟩ := ⟨genesisTBs, minSigCnt, addrs, hshards, h⟩
  refine ⟨hfields.1 ▸ hmin, hfields.2, fun a => ?_⟩
  rw [← hfields.2]
  exact hfounded.addr2Shard_lt a

/-- Any run of calls, mined in blocks one after the other: a node is alive as long as no call has
reported a refusal, it is then told of everything that was stored, and however the events are
split between the calls of `generateEthChainBlock`, none of these panics and the blocks are the
first of the blocks of what the contract has stored. -/
theorem observers_follow_contract {genesisTBs : List Contract.ContractTB} {minSigCnt : ℕ}
    {addrs : List (List Address)} {st : TBStorage} {run : List Mined}
    {reads : List BeaconChain.Call} (hshards : 0 < genesisTBs.length) (hmin : 0 < minSigCnt)
    (hdeploy : Contract.deploy genesisTBs minSigCnt genesisTBs.length addrs = some st)
    (hfits : ∀ m ∈ run, CallFits m.2) (hsorted : (run.map Prod.fst).Pairwise (· ≤ ·))
    (hpos : ∀ m ∈ run, 0 < m.1)
    (hreads : reads.flatMap BeaconChain.Call.events <+:
      (subscribeEvents (logsOf evm st run)).channel) :
    ((subscribeEvents (logsOf evm st run)).running = true ↔ ¬ RefusesIn evm st run) ∧
      ((subscribeEvents (logsOf evm st run)).running = true →
        (subscribeEvents (logsOf evm st run)).channel = storedBy evm st run) ∧
      ∃ c blocks,
        BeaconChain.generateBlocks (BeaconChain.newTBChain genesisTBs.length) reads =
          some (c, blocks) ∧
        blocks.map BeaconChain.untimed <+:
          BeaconChain.blocksOf genesisTBs.length (storedBy evm st run) := by
  have huse := deploy_inUse hshards hmin hdeploy
  have hord := @inOrder_storedBy evm run st _ huse hsorted hpos
  rcases @foldl_read_logsOf evm run ⟨[], true⟩ st _ huse hfits rfl with ⟨hiff, hall, -, hpre⟩
  refine ⟨hiff, hall, ?_⟩
  -- what the node has not read yet is read by one call more
  rcases hreads.trans hpre with ⟨rest, hrest⟩
  rw [List.nil_append] at hrest
  rw [← hrest] at hord ⊢
  rcases BeaconChain.inv_generateBlocks reads (BeaconChain.inv_newTBChain genesisTBs.length)
    (by simpa using hord.left) with ⟨c, blocks, hblocks, hinv⟩
  rw [List.nil_append] at hinv
  let last : BeaconChain.Call := ⟨.listed, rest, 0⟩
  rcases hinv.generate (show BeaconChain.InOrder _ (_ ++ last.events) from hord) with
    ⟨c', block, -, hinv'⟩
  have hfirst := hinv'.prefix_blocksOf hord
  rw [List.nil_append, List.map_append] at hfirst
  exact ⟨c, blocks, hblocks, (List.prefix_append _ _).trans hfirst⟩

/-- Two beacons are stored, with a query in between, and a third one lacks its signature. -/
def exampleRun : List Mined :=
  [(3, .addTB (Contract.exampleCall Contract.beaconOne Contract.sigOne 1)), (4, .getTB 0 1),
    (6, .addTB (Contract.exampleCall Contract.beaconTwo Contract.sigTwo 1)),
    (6, .addTB (Contract.exampleCall Contract.beaconOne Contract.sigTwo 1))]

/-- The process ends at the last call, and the first block has been built before. -/
theorem observers_follow_exampleRun :
    (subscribeEvents (logsOf Contract.exampleEvm (Contract.exampleStorage 1) exampleRun)) =
        ⟨[⟨0, 1, 3⟩, ⟨0, 1, 6⟩], false⟩ ∧
      RefusesIn Contract.exampleEvm (Contract.exampleStorage 1) exampleRun ∧
      ∃ c blocks,
        BeaconChain.generateBlocks (BeaconChain.newTBChain 1)
          [⟨.listed, [⟨0, 1, 3⟩], 100⟩, ⟨.listed, [⟨0, 1, 6⟩], 200⟩] = some (c, blocks) ∧
        blocks.map BeaconChain.untimed <+: BeaconChain.blocksOf 1
          (storedBy Contract.exampleEvm (Contract.exampleStorage 1) exampleRun) := by
  have hsub : (subscribeEvents (logsOf Contract.exampleEvm (Contract.exampleStorage 1)
      exampleRun)) = ⟨[⟨0, 1, 3⟩, ⟨0, 1, 6⟩], false⟩ := by
    decide +kernel
  have hreads : ([⟨.listed, [⟨0, 1, 3⟩], 100⟩, ⟨.listed, [⟨0, 1, 6⟩], 200⟩] :
      List BeaconChain.Call).flatMap BeaconChain.Call.events <+:
      (subscribeEvents (logsOf Contract.exampleEvm (Contract.exampleStorage 1)
        exampleRun)).channel := by
    rw [hsub]
    exact List.prefix_rfl
  have hfits : ∀ m ∈ exampleRun, CallFits m.2 := by
    simp [exampleRun, CallFits, Contract.exampleCall, Contract.beaconOne, Contract.beaconTwo]
  have hdeploy : Contract.deploy [Contract.exampleGenesis] 1 [Contract.exampleGenesis].length
      [[Contract.exampleMember]] = some (Contract.exampleStorage 1) := (Option.some_get rfl).symm
  rcases observers_follow_contract (by decide) Nat.one_pos hdeploy hfits (by decide) (by decide)
    hreads with ⟨hiff, -, hblocks⟩
  refine ⟨hsub, ?_, hblocks⟩
  rw [hsub] at hiff
  simpa using hiff

end EthChain

end LessChain
