import Mathlib.Order.Bounds.Basic
import LessChain.Lib.Rlp
import LessChain.Lib.Stream

/-!
# Message framing

All nodes talk over TCP streams. The sender (`messageHub/send.go`, `packMsg`) writes the gob
encoding of a `core.Msg` behind its length, four bytes with the most significant one first.
The receiver (`messageHub/receive.go`, `handleConnection`) reads the length, then as many
bytes, decodes them and dispatches on the type of the message, for ever.

The loop ends in four ways: the stream ends, the handler of a genesis message says that the
booter is done, a handler ends the process, or the type is not one of the known ones, which
ends the process too. So what a stream yields is the list that was written, up to the first
message that ends the loop: `handleConnection_written` says so for every way the bytes are
split into reads and every point at which the stream is cut.

gob itself is a pair of functions of which the second inverts the first.
-/

namespace LessChain.MessageHub

/-- Types of the messages (`messageHub/networkMsgType.go`). -/
inductive MsgType
  | shardSendGenesis
  | booterSendContract
  | comGetHeight
  | comGetState
  | shardSendState
  | clientSendTx
  | clientSetInjectDone
  | comSendTxReceipt
  | comSendBlock
  | leaderInitMultiSign
  | multiSignReply
  | leaderInitReconfig
  | sendReconfigResult2ComLeader
  | sendReconfigResults2AllComLeaders
  | sendReconfigResults2ComNodes
  | getPoolTx
  | getSyncData
  | sendNewNodeTable2Client
  | cPrePrepare
  | cPrepare
  | cCommit
  | cReply
  | cRequestOldrequest
  | cSendOldrequest
  | nodeSendInfo
  | reportError
  | reportAny
deriving DecidableEq, Repr

/-- The text of a type on the wire. -/
def MsgType.text : MsgType → String
  | .shardSendGenesis => "ShardSendGenesis"
  | .booterSendContract => "BooterSendContract"
  | .comGetHeight => "ComGetHeight"
  | .comGetState => "ComGetState"
  | .shardSendState => "ShardSendState"
  | .clientSendTx => "ClientSendTx"
  | .clientSetInjectDone => "ClientSetInjectDone"
  | .comSendTxReceipt => "ComSendTxReceipt"
  | .comSendBlock => "ComSendBlock"
  | .leaderInitMultiSign => "LeaderInitMultiSign"
  | .multiSignReply => "MultiSignReply"
  | .leaderInitReconfig => "LeaderInitReconfig"
  | .sendReconfigResult2ComLeader => "SendReconfigResult2ComLeader"
  | .sendReconfigResults2AllComLeaders => "SendReconfigResults2AllComLeaders"
  | .sendReconfigResults2ComNodes => "SendReconfigResults2ComNodes"
  | .getPoolTx => "GetPoolTx"
  | .getSyncData => "GetSyncData"
  | .sendNewNodeTable2Client => "SendNewNodeTable2Client"
  | .cPrePrepare => "CPrePrepare"
  | .cPrepare => "CPrepare"
  | .cCommit => "CCommit"
  | .cReply => "CReply"
  | .cRequestOldrequest => "CRequestOldrequest"
  | .cSendOldrequest => "CSendOldrequest"
  | .nodeSendInfo => "NodeSendInfo"
  | .reportError => "ReportError"
  | .reportAny => "ReportAny"

/-- The cases of the switch of `handleConnection`, in its order. -/
def MsgType.cases : List MsgType :=
  [.shardSendGenesis, .booterSendContract, .comGetHeight, .comGetState, .shardSendState,
    .clientSendTx, .clientSetInjectDone, .comSendTxReceipt, .comSendBlock, .leaderInitMultiSign,
    .multiSignReply, .leaderInitReconfig, .sendReconfigResult2ComLeader,
    .sendReconfigResults2AllComLeaders, .sendReconfigResults2ComNodes, .getPoolTx, .getSyncData,
    .sendNewNodeTable2Client, .cPrePrepare, .cPrepare, .cCommit, .cReply, .cRequestOldrequest,
    .cSendOldrequest, .nodeSendInfo, .reportError, .reportAny]

/-- The case a text selects, none for the default case. -/
def MsgType.ofText (s : String) : Option MsgType :=
  MsgType.cases.find? fun t => t.text = s

/-- Every type that is sent has its case. -/
theorem MsgType.ofText_text (t : MsgType) : MsgType.ofText t.text = some t := by
  cases t <;> decide

/-- `core.Msg`. -/
structure Msg where
  msgType : String
  data : List UInt8
deriving DecidableEq, Repr

/-- The gob encoder and decoder for `core.Msg`. -/
structure Gob where
  encode : Msg → List UInt8
  decode : List UInt8 → Option Msg
  decode_encode : ∀ m, decode (encode m) = some m

/-- `packMsg`: the length as a `uint32`, then the encoding. -/
def packMsg (gob : Gob) (m : Msg) : List UInt8 :=
  Sys.toBE 4 (gob.encode m).length ++ gob.encode m

/-- What was written for a list of messages, one after the other. -/
def written (gob : Gob) (msgs : List Msg) : List UInt8 :=
  (msgs.map (packMsg gob)).flatten

/-- What the handlers do that the loop of `handleConnection` can notice, given the messages
handled before on the connection. `exit` is the result of `handleShardSendGenesis`. With
`dies` the process ends before the loop comes round again: the handler, or what it started,
meets an error. -/
structure Handlers where
  exit : List Msg → Msg → Bool
  dies : List Msg → Msg → Bool

/-- How the loop goes on after a message. -/
inductive Next
  | again
  | leave
  | exit
deriving DecidableEq, Repr

/-- The switch of `handleConnection`. -/
def dispatch (h : Handlers) (before : List Msg) (m : Msg) : Next :=
  match MsgType.ofText m.msgType with
  | none => .exit
  | some .reportError => .exit
  | some t =>
      if h.dies before m then .exit
      else if t = .shardSendGenesis && h.exit before m then .leave
      else .again

/-- How `handleConnection` ended: the sender closed the connection, it broke off inside a
length, the listener was closed, or the process ended. -/
inductive Ended
  | closed
  | broken
  | left
  | exited
deriving DecidableEq, Repr

/-- What a run of `handleConnection` did: the messages it took off the stream, how it ended,
and what it left unread. -/
structure Served where
  msgs : List Msg
  ended : Ended
  unread : List (List UInt8)
deriving DecidableEq, Repr

/-- `handleConnection`, with at most `fuel` rounds; `before` are the messages of the rounds
made. -/
def handleConnection (gob : Gob) (h : Handlers) :
    ℕ → List Msg → List (List UInt8) → Option Served
  | 0, _, _ => none
  | fuel + 1, before, conn =>
      match Sys.Stream.readFull 4 conn with
      | .error .eof => some ⟨before, .closed, []⟩
      | .error .unexpectedEOF => some ⟨before, .broken, []⟩
      | .ok (lenBuf, conn) =>
          match Sys.Stream.readFull (Sys.fromBE lenBuf) conn with
          -- the process ends here, also when the stream ends between a length and its message
          | .error _ => some ⟨before, .exited, []⟩
          | .ok (packedMsg, conn) =>
              match gob.decode packedMsg with
              | none => some ⟨before, .exited, conn⟩
              | some m =>
                  match dispatch h before m with
                  | .again => handleConnection gob h fuel (before ++ [m]) conn
                  | .leave => some ⟨before ++ [m], .left, conn⟩
                  | .exit => some ⟨before ++ [m], .exited, conn⟩

section Frame

variable (gob : Gob) (h : Handlers)

@[simp] theorem length_packMsg (m : Msg) :
    (packMsg gob m).length = 4 + (gob.encode m).length := by
  simp [packMsg, Sys.length_toBE]

theorem fromBE_length {m : Msg} (hlen : (gob.encode m).length < 2 ^ 32) :
    Sys.fromBE (Sys.toBE 4 (gob.encode m).length) = (gob.encode m).length := by
  rw [Sys.fromBE_toBE, Nat.mod_eq_of_lt (by simpa using hlen)]

/-- A round on a stream that starts with a whole message. -/
theorem handleConnection_packMsg {m : Msg} (hlen : (gob.encode m).length < 2 ^ 32)
    (fuel : ℕ) (before : List Msg) {conn : List (List UInt8)} {bytes : List UInt8}
    (hconn : conn.flatten = packMsg gob m ++ bytes) :
    ∃ conn', conn'.flatten = bytes ∧
      handleConnection gob h (fuel + 1) before conn =
        match dispatch h before m with
        | .again => handleConnection gob h fuel (before ++ [m]) conn'
        | .leave => some ⟨before ++ [m], .left, conn'⟩
        | .exit => some ⟨before ++ [m], .exited, conn'⟩ := by
  have hprefix : (Sys.toBE 4 (gob.encode m).length).length = 4 := Sys.length_toBE _ _
  rw [packMsg, List.append_assoc] at hconn
  -- the length is there, and behind it as many bytes as it says
  have hfour : 4 ≤ conn.flatten.length := by
    rw [hconn, List.length_append, hprefix]
    omega
  rcases Sys.Stream.readFull_of_le hfour with ⟨conn₁, hread₁, hrest₁⟩
  rw [hconn, List.take_left' hprefix] at hread₁
  rw [hconn, List.drop_left' hprefix] at hrest₁
  have hbody : (gob.encode m).length ≤ conn₁.flatten.length := by
    rw [hrest₁, List.length_append]
    omega
  rcases Sys.Stream.readFull_of_le hbody with ⟨conn₂, hread₂, hrest₂⟩
  rw [hrest₁, List.take_left' rfl] at hread₂
  rw [hrest₁, List.drop_left' rfl] at hrest₂
  refine ⟨conn₂, hrest₂, ?_⟩
  rw [handleConnection, hread₁]
  simp only [fromBE_length gob hlen, hread₂, gob.decode_encode]

/-- A round on what is left of a message that was cut: nothing is taken. -/
theorem handleConnection_cut {m : Msg} (hlen : (gob.encode m).length < 2 ^ 32)
    (fuel : ℕ) (before : List Msg) {conn : List (List UInt8)} {cut : ℕ}
    (hcut : cut < (packMsg gob m).length) (hconn : conn.flatten = (packMsg gob m).take cut) :
    handleConnection gob h (fuel + 1) before conn =
      some ⟨before, if cut = 0 then .closed else if cut < 4 then .broken else .exited, []⟩ := by
  have hsize : conn.flatten.length = cut := by
    rw [hconn, List.length_take]
    omega
  by_cases hfour : cut < 4
  · -- inside the length
    have hread := @Sys.Stream.readFull_of_lt _ 4 conn (by omega)
    rw [handleConnection, hread, hsize]
    by_cases hzero : cut = 0
    · simp [hzero]
    · simp [hzero, hfour]
  · -- behind the length, inside the encoding
    have hprefix : (Sys.toBE 4 (gob.encode m).length).length = 4 := Sys.length_toBE _ _
    rcases @Sys.Stream.readFull_of_le _ 4 conn (by omega) with ⟨conn', hread, hrest⟩
    have hhead : conn.flatten.take 4 = Sys.toBE 4 (gob.encode m).length := by
      rw [hconn, List.take_take, min_eq_left (by omega), packMsg, List.take_left' hprefix]
    have hshort : conn'.flatten.length < (gob.encode m).length := by
      rw [hrest, List.length_drop, hsize]
      rw [length_packMsg] at hcut
      omega
    have hread' := Sys.Stream.readFull_of_lt hshort
    have hzero : cut ≠ 0 := by omega
    rw [handleConnection, hread, hhead]
    simp only [fromBE_length gob hlen, hread', if_neg hzero, if_neg hfour]

end Frame

/-- The messages up to the first one that ends the loop, with that one. -/
def upToEnd (h : Handlers) : List Msg → List Msg → List Msg
  | _, [] => []
  | before, m :: msgs =>
      m :: if dispatch h before m = .again then upToEnd h (before ++ [m]) msgs else []

/-- Number of messages that lie whole within the first `cut` bytes of what was written. -/
def complete (gob : Gob) : ℕ → List Msg → ℕ
  | _, [] => 0
  | cut, m :: msgs =>
      if (packMsg gob m).length ≤ cut then complete gob (cut - (packMsg gob m).length) msgs + 1
      else 0

section Stream

variable (gob : Gob) (h : Handlers)

@[simp] theorem written_cons (m : Msg) (msgs : List Msg) :
    written gob (m :: msgs) = packMsg gob m ++ written gob msgs := by
  simp [written]

theorem isGreatest_complete (cut : ℕ) (msgs : List Msg) :
    IsGreatest {k | k ≤ msgs.length ∧ (written gob (msgs.take k)).length ≤ cut}
      (complete gob cut msgs) := by
  induction msgs generalizing cut with
  | nil =>
      refine ⟨⟨le_rfl, Nat.zero_le _⟩, ?_⟩
      rintro k ⟨hk, -⟩
      exact hk
  | cons m msgs ih =>
      unfold complete
      split
      case isTrue hfits =>
        rcases ih (cut - (packMsg gob m).length) with ⟨⟨hle, hsize⟩, hmax⟩
        refine ⟨⟨Nat.succ_le_succ hle, ?_⟩, ?_⟩
        · rw [List.take_succ_cons, written_cons, List.length_append]
          omega
        · rintro (- | k) ⟨hk, hkcut⟩
          · exact Nat.zero_le _
          · rw [List.take_succ_cons, written_cons, List.length_append] at hkcut
            exact Nat.succ_le_succ (hmax ⟨Nat.le_of_succ_le_succ hk, by omega⟩)
      case isFalse hcut =>
        refine ⟨⟨Nat.zero_le _, Nat.zero_le _⟩, ?_⟩
        rintro (- | k) ⟨hk, hkcut⟩
        · exact le_rfl
        · rw [List.take_succ_cons, written_cons, List.length_append] at hkcut
          omega

/-- The loop goes on after each of `msgs`, the messages in `before` having been handled. -/
def GoesOn (before msgs : List Msg) : Prop :=
  ∀ pre m post, msgs = pre ++ m :: post → dispatch h (before ++ pre) m = .again

variable {h}

theorem GoesOn.head {before msgs : List Msg} {m : Msg} (hgo : GoesOn h before (m :: msgs)) :
    dispatch h before m = .again := by
  simpa using hgo [] m msgs rfl

theorem GoesOn.tail {before msgs : List Msg} {m : Msg} (hgo : GoesOn h before (m :: msgs)) :
    GoesOn h (before ++ [m]) msgs := by
  intro pre m' post hsplit
  have := hgo (m :: pre) m' post (by rw [hsplit, List.cons_append])
  simpa using this

theorem upToEnd_of_goesOn {before msgs : List Msg} (hgo : GoesOn h before msgs) :
    upToEnd h before msgs = msgs := by
  induction msgs generalizing before with
  | nil => rfl
  | cons m msgs ih => rw [upToEnd, if_pos hgo.head, ih hgo.tail]

/-- All rounds on a stream that was cut: the messages that are whole, up to the end of the
loop. Where nothing was cut and no message ends the loop, it ends because the stream does. -/
theorem handleConnection_take {msgs : List Msg}
    (hlen : ∀ m ∈ msgs, (gob.encode m).length < 2 ^ 32) (before : List Msg) {cut fuel : ℕ}
    (hfuel : msgs.length < fuel) {conn : List (List UInt8)}
    (hconn : conn.flatten = (written gob msgs).take cut) :
    ∃ ended unread, handleConnection gob h fuel before conn =
        some ⟨before ++ upToEnd h before (msgs.take (complete gob cut msgs)), ended, unread⟩ ∧
      ((written gob msgs).length ≤ cut → GoesOn h before msgs →
        ended = .closed ∧ unread.flatten = []) := by
  induction msgs generalizing before cut fuel conn with
  | nil =>
      obtain ⟨fuel, rfl⟩ : ∃ f, fuel = f + 1 := ⟨fuel - 1, by omega⟩
      have hempty : conn.flatten.length = 0 := by simp [hconn, written]
      have hread := @Sys.Stream.readFull_of_lt _ 4 conn (by omega)
      refine ⟨.closed, [], ?_, fun _ _ => ⟨rfl, rfl⟩⟩
      rw [handleConnection, hread, if_pos hempty]
      simp [upToEnd, complete]
  | cons m msgs ih =>
      obtain ⟨fuel, rfl⟩ : ∃ f, fuel = f + 1 := ⟨fuel - 1, by omega⟩
      have hm := hlen m List.mem_cons_self
      rw [written_cons] at hconn ⊢
      unfold complete
      split
      case isTrue hfits =>
        -- one message is taken off, the rest of the stream is cut that much earlier
        rw [List.take_append, List.take_of_length_le hfits] at hconn
        rcases handleConnection_packMsg gob h hm fuel before hconn with ⟨conn', hconn', hround⟩
        rw [hround, List.take_succ_cons, upToEnd]
        cases hnext : dispatch h before m with
        | again =>
            rcases ih (fun m' hm' => hlen m' (List.mem_cons_of_mem _ hm')) (before ++ [m])
              (by simpa using hfuel) hconn' with ⟨ended, unread, hrest, hend⟩
            refine ⟨ended, unread, by simp [hrest], fun hwhole hgo => hend ?_ hgo.tail⟩
            rw [List.length_append] at hwhole
            omega
        | leave =>
            refine ⟨.left, conn', by simp, fun _ hgo => ?_⟩
            rw [hgo.head] at hnext
            cases hnext
        | exit =>
            refine ⟨.exited, conn', by simp, fun _ hgo => ?_⟩
            rw [hgo.head] at hnext
            cases hnext
      case isFalse hcut =>
        -- the cut lies within this message, and nothing more is taken
        rw [List.take_append_of_le_length (by omega)] at hconn
        have hround := handleConnection_cut gob h hm fuel before (by omega) hconn
        refine ⟨if cut = 0 then .closed else if cut < 4 then .broken else .exited, [], ?_, ?_⟩
        · simpa [upToEnd] using hround
        · intro hwhole _
          rw [List.length_append] at hwhole
          omega

end Stream

/-- What was written for a list of messages, cut after any number of bytes and split into
reads in any way, yields the messages that are whole within the cut, up to and including the
first one that ends the loop. If there is none and nothing was cut, it yields the list, and
the loop ends at the end of the stream with nothing left over. -/
theorem handleConnection_written (gob : Gob) (h : Handlers) (msgs : List Msg)
    (hlen : ∀ m ∈ msgs, (gob.encode m).length < 2 ^ 32) (cut : ℕ) (conn : List (List UInt8))
    (hconn : conn.flatten = (written gob msgs).take cut) (fuel : ℕ)
    (hfuel : msgs.length < fuel) :
    ∃ k ended unread,
      IsGreatest {k | k ≤ msgs.length ∧ (written gob (msgs.take k)).length ≤ cut} k ∧
      handleConnection gob h fuel [] conn =
        some ⟨upToEnd h [] (msgs.take k), ended, unread⟩ ∧
      ((∀ pre m post, msgs = pre ++ m :: post → dispatch h pre m = .again) →
        upToEnd h [] (msgs.take k) = msgs.take k ∧
        ((written gob msgs).length ≤ cut →
          k = msgs.length ∧ ended = .closed ∧ unread.flatten = [])) := by
  rcases handleConnection_take gob hlen [] hfuel hconn (h := h) with
    ⟨ended, unread, hrun, hend⟩
  have hgreatest := isGreatest_complete gob cut msgs
  refine ⟨_, ended, unread, hgreatest, hrun, fun hgo => ⟨?_, fun hwhole => ?_⟩⟩
  · apply upToEnd_of_goesOn
    intro pre m post hsplit
    refine hgo pre m (post ++ msgs.drop (complete gob cut msgs)) ?_
    rw [← List.cons_append, ← List.append_assoc, ← hsplit, List.take_append_drop]
  · have hall : msgs.length ≤ complete gob cut msgs :=
      hgreatest.2 ⟨le_rfl, by rwa [List.take_length]⟩
    exact ⟨le_antisymm hgreatest.1.1 hall, hend hwhole hgo⟩

/-- Reader of `Gob.plain`. -/
def readType : List UInt8 → Option (List Char × List UInt8)
  | 0 :: rest => some ([], rest)
  | _ :: a :: b :: c :: d :: rest =>
      (readType rest).map fun r => (Char.ofNat (Sys.fromBE [a, b, c, d]) :: r.1, r.2)
  | _ => none

theorem readType_append (chars : List Char) (data : List UInt8) :
    readType (chars.flatMap (fun c => 1 :: Sys.toBE 4 c.toNat) ++ 0 :: data) =
      some (chars, data) := by
  induction chars with
  | nil => rfl
  | cons c chars ih =>
      have hlt : c.toNat < 256 ^ 4 := c.val.toNat_lt
      have hvalue : Sys.fromBE (Sys.toBE 4 c.toNat) = c.toNat := by
        rw [Sys.fromBE_toBE, Nat.mod_eq_of_lt hlt]
      simp only [Sys.toBE, List.nil_append, List.cons_append] at hvalue ih ⊢
      simp [readType, ih, hvalue]

/-- A codec to run the model with: each character of the type behind a mark, then the data. -/
def Gob.plain : Gob where
  encode m := m.msgType.toList.flatMap (fun c => 1 :: Sys.toBE 4 c.toNat) ++ 0 :: m.data
  decode b := (readType b).map fun r => ⟨String.ofList r.1, r.2⟩
  decode_encode m := by simp [readType_append]

/-- Handlers that never end anything. -/
def Handlers.quiet : Handlers := ⟨fun _ _ => false, fun _ _ => false⟩

/-- Two messages in three reads, cut inside the second message: the first one is taken. -/
theorem handleConnection_two_cut :
    ∃ ended unread, handleConnection .plain .quiet 3 []
      [(packMsg .plain ⟨MsgType.reportAny.text, [7]⟩).take 3,
        (packMsg .plain ⟨MsgType.reportAny.text, [7]⟩).drop 3,
        (packMsg .plain ⟨MsgType.cReply.text, [1, 2]⟩).take 9] =
      some ⟨[⟨MsgType.reportAny.text, [7]⟩], ended, unread⟩ := by
  have hbound : ∀ m ∈ [Msg.mk MsgType.reportAny.text [7], Msg.mk MsgType.cReply.text [1, 2]],
      (Gob.plain.encode m).length < 2 ^ 32 := by decide +kernel
  rcases handleConnection_written .plain .quiet _ hbound 60
    [(packMsg .plain ⟨MsgType.reportAny.text, [7]⟩).take 3,
      (packMsg .plain ⟨MsgType.reportAny.text, [7]⟩).drop 3,
      (packMsg .plain ⟨MsgType.cReply.text, [1, 2]⟩).take 9] (by decide +kernel) 3 (by decide)
    with ⟨k, ended, unread, hgreatest, hrun, -⟩
  have hone := hgreatest.unique (isGreatest_complete .plain 60 _)
  rw [hone] at hrun
  refine ⟨ended, unread, hrun.trans ?_⟩
  congr 2

/-- An error report ends the process that gets it: what comes behind it is not read. -/
theorem handleConnection_reportError :
    handleConnection .plain .quiet 3 []
      [written .plain [⟨MsgType.reportError.text, []⟩, ⟨MsgType.reportAny.text, [7]⟩]] =
      some ⟨[⟨MsgType.reportError.text, []⟩], .exited,
        [packMsg .plain ⟨MsgType.reportAny.text, [7]⟩]⟩ := by
  decide +kernel

end LessChain.MessageHub
