import Mathlib.Data.Finmap
import LessChain.Lib.Fold
import LessChain.Lib.Machine
import LessChain.MessageHub.Framing

/-!
# The connection cache

All sends of a process share the map `conns2Node` of connections by address
(`messageHub/connMap.go`, `messageHub/send.go`). A send looks its address up, dials and adds the
connection if there is none, and writes.

* `dial` tries twice and returns a nil connection without an error when both attempts fail, so
  the check of its callers does not fire and nil is added to the map.
* The broadcast of `ClientSetInjectDone` closes every connection it has used and leaves it in the
  map. Writers that are buffered ignore errors, so a message that is sent later is lost.
* The booter's broadcast closes the connections it has used, too; it does not add those it dials.
* `clearConnection` closes connections and removes them.

A send function is a list of operations on the hub, and a send is one step of the machine. The
outcomes of the dials and of the writes come with the step. A process that has ended keeps its
last state and takes no step.

`usable_of_safe` is for runs without the two causes above.
-/

namespace LessChain.MessageHub

/-- What the network does during a send: the numbers of the attempts to dial that fail, and of
the writes to a connection that is open here that fail. Attempts and writes are numbered over the
whole run. -/
structure Net where
  dialFails : List ℕ
  writeFails : List ℕ

/-- A write: to which address, over which connection, whether this process had not closed it,
and the bytes. -/
structure Write where
  addr : String
  conn : ℕ
  isOpen : Bool
  bytes : List UInt8
deriving DecidableEq, Repr

/-- The hub of a process. A connection is the number of the attempt that made it; an entry `none`
of the map is a nil connection. `dialed`, `written`, `closed` and `sent` are histories, not in
the program. -/
structure Hub where
  conns2Node : Finmap fun _ : String => Option ℕ
  alive : Bool
  dialed : ℕ
  written : ℕ
  closed : List ℕ
  sent : List Write

namespace Hub

variable (net : Net) (h : Hub)

/-- `log.Error` and panics end the process. -/
def exit : Hub := { h with alive := false }

/-- `conns2Node.Add`. -/
def add (addr : String) (conn : Option ℕ) : Hub :=
  { h with conns2Node := h.conns2Node.insert addr conn }

/-- `conns2Node.Remove`. -/
def remove (addr : String) : Hub := { h with conns2Node := h.conns2Node.erase addr }

/-- `conn.Close()`. -/
def close (conn : ℕ) : Hub := { h with closed := conn :: h.closed }

/-- `dial`: a second attempt if the first one fails, and nil if that fails too. -/
def dial : Hub × Option ℕ :=
  if h.dialed ∉ net.dialFails then ({ h with dialed := h.dialed + 1 }, some h.dialed)
  else if h.dialed + 1 ∉ net.dialFails then
    ({ h with dialed := h.dialed + 2 }, some (h.dialed + 1))
  -- the error of the second attempt is not returned
  else ({ h with dialed := h.dialed + 2 }, none)

/-- `mustDial`: attempts until one succeeds. Among one more attempts than there are failures one
does. -/
def mustDial : Option (Hub × ℕ) := do
  let k ← (List.range (net.dialFails.length + 1)).find? fun k => h.dialed + k ∉ net.dialFails
  some ({ h with dialed := h.dialed + k + 1 }, h.dialed + k)

/-- `conn.Write`: an error if this process has closed the connection, or if the network fails. -/
def write (addr : String) (conn : ℕ) (bytes : List UInt8) : Hub × Bool :=
  ({ h with
      written := h.written + 1
      sent := h.sent ++ [⟨addr, conn, conn ∉ h.closed, bytes⟩] },
    conn ∉ h.closed ∧ h.written ∉ net.writeFails)

/-- The connection of the map, or a new one, which is added. -/
def connect (addr : String) : Hub × Option ℕ :=
  match h.conns2Node.lookup addr with
  | some conn => (h, conn)
  -- the callers check the error of `dial`, which is nil
  | none => ((h.dial net).1.add addr (h.dial net).2, (h.dial net).2)

/-- A write through `bufio`, whose errors are ignored. -/
def sendBuffered (addr : String) (bytes : List UInt8) : Hub :=
  match h.connect net addr with
  | (h, none) => h.exit
  | (h, some conn) => (h.write net addr conn bytes).1

/-- A write on the connection itself; an error may end the process. -/
def sendDirect (fatal : Bool) (addr : String) (bytes : List UInt8) : Hub :=
  match h.connect net addr with
  | (h, none) => h.exit
  | (h, some conn) =>
      match h.write net addr conn bytes with
      | (h, true) => h
      | (h, false) => if fatal then h.exit else h

/-- `sendNodeInfo` dials with `mustDial`. -/
def sendPatient (addr : String) (bytes : List UInt8) : Option Hub :=
  match h.conns2Node.lookup addr with
  | some none => some h.exit
  | some (some conn) => some (h.write net addr conn bytes).1
  | none => do
      let (h, conn) ← h.mustDial net
      some ((h.add addr (some conn)).write net addr conn bytes).1

/-- A write that must succeed, and `conn.Close()`. -/
def sendAndClose (addr : String) (conn : Option ℕ) (bytes : List UInt8) : Hub :=
  match conn with
  | none => h.exit
  | some conn =>
      match h.write net addr conn bytes with
      | (h, true) => h.close conn
      | (h, false) => h.exit

/-- A round of `clientSetInjectDone2Nodes`: after an error it dials, adds and writes again. -/
def sendInjectDone (addr : String) (bytes : List UInt8) : Hub :=
  match h.connect net addr with
  | (h, none) => h.exit
  | (h, some conn) =>
      match h.write net addr conn bytes with
      -- the connection stays in the map
      | (h, true) => h.close conn
      | (h, false) =>
          ((h.dial net).1.add addr (h.dial net).2).sendAndClose net addr (h.dial net).2 bytes

/-- A round of `booterSendContract`: a connection that is dialed is not added. -/
def sendContract (addr : String) (bytes : List UInt8) : Hub :=
  match h.conns2Node.lookup addr with
  | some conn => h.sendAndClose net addr conn bytes
  | none => (h.dial net).1.sendAndClose net addr (h.dial net).2 bytes

/-- `shardSendGenesis` dials once and does not use the map. -/
def sendOnce (addr : String) (bytes : List UInt8) : Hub :=
  if h.dialed ∈ net.dialFails then { h with dialed := h.dialed + 1 }.exit
  else { h with dialed := h.dialed + 1 }.sendAndClose net addr (some h.dialed) bytes

/-- A round of `clearConnection`. -/
def clear (addr : String) : Hub :=
  match h.conns2Node.lookup addr with
  | none => h
  | some none => h.exit
  | some (some conn) => (h.close conn).remove addr

end Hub

/-! ## The send functions -/

/-- An operation of a send function. -/
inductive Op where
  | buffered (addr : String) (t : MsgType)
  | direct (fatal : Bool) (addr : String) (t : MsgType)
  | patient (addr : String) (t : MsgType)
  | readReply (ok : Bool)
  | injectDone (addr : String)
  | contract (addr : String)
  | once (addr : String)
  | clear (addr : String)
  | exit
deriving DecidableEq, Repr

/-- The tables of `cfg` and the sizes; an address that is not in a table is empty. `nodeAddr` is
the address of the node itself. -/
structure Tables where
  nodeTable : ℕ → ℕ → String
  comNodeTable : ℕ → Finmap fun _ : ℕ => String
  clientTable : ℕ → String
  shardNum : ℕ
  shardSize : ℕ
  comAllNodeNum : ℕ
  clientNum : ℕ
  nodeAddr : String

namespace Tables

variable (cfg : Tables)

/-- `cfg.ComNodeTable[comID][nodeID]`. -/
def comNode (comID nodeID : ℕ) : String := ((cfg.comNodeTable comID).lookup nodeID).getD ""

/-- All nodes, shard by shard. -/
def allNodes : List String :=
  (List.range cfg.shardNum).flatMap fun i =>
    (List.range cfg.comAllNodeNum).map fun j => cfg.nodeTable i j

def comGetHeightFromShard (shardID : ℕ) (reply : Bool) : List Op :=
  [.direct true (cfg.nodeTable shardID 0) .comGetHeight, .readReply reply]

def shardSendGenesis (targetNodeAddr : String) : List Op := [.once targetNodeAddr]

def clientInjectTx2Com (comID : ℕ) : List Op := [.buffered (cfg.comNode comID 0) .clientSendTx]

def clientSetInjectDone2Nodes : List Op := cfg.allNodes.map .injectDone

def comGetStateFromShard (shardID : ℕ) : List Op :=
  [.buffered (cfg.nodeTable shardID 0) .comGetState]

def shardSendStateToCom (comID : ℕ) : List Op := [.buffered (cfg.comNode comID 0) .shardSendState]

def comSendBlock2Shard (shardID : ℕ) : List Op :=
  [.buffered (cfg.nodeTable shardID 0) .comSendBlock]

def comSendReply2Client (clientID : ℕ) : List Op :=
  [.buffered (cfg.clientTable clientID) .comSendTxReceipt]

/-- A round of a broadcast to the consensus nodes: the fourth node may be missing. -/
def consensusRound (comID i : ℕ) (op : String → Op) : Option Op :=
  if cfg.comNode comID i = "" then if i = 3 then none else some .exit
  else some (op (cfg.comNode comID i))

def comLeaderInitMultiSign (comID : ℕ) : List Op :=
  (List.range cfg.shardSize).filterMap fun i =>
    cfg.consensusRound comID i fun addr => .direct false addr .leaderInitMultiSign

def sendMultiSignReply (comID : ℕ) : List Op :=
  [.direct true (cfg.comNode comID 0) .multiSignReply]

def booterSendContract : List Op :=
  (cfg.allNodes ++ (List.range cfg.clientNum).map cfg.clientTable).map .contract

/-- `sendOldRequests`. -/
def sendOldRequests (comID nodeID : ℕ) : List Op :=
  [.buffered (cfg.comNode comID nodeID) .cSendOldrequest]

/-- `sendPbftMsg`: replies and requests go to the leader only, nothing goes to the node itself,
and old messages go to the node that has asked for them. -/
def sendPbftMsg (comID : ℕ) (t : MsgType) (receiverComID receiverNodeID : ℕ) : List Op :=
  match t with
  | .cSendOldrequest => cfg.sendOldRequests receiverComID receiverNodeID
  | .cPrePrepare | .cPrepare | .cCommit | .cReply | .cRequestOldrequest =>
      (List.range cfg.shardSize).filterMap fun i =>
        if 0 < i ∧ (t = .cReply ∨ t = .cRequestOldrequest) then none
        else if cfg.comNode comID i = cfg.nodeAddr then none
        else cfg.consensusRound comID i fun addr => .buffered addr t
  | _ => [.exit]

def sendNodeInfo (comID : ℕ) : List Op := [.patient (cfg.comNode comID 0) .nodeSendInfo]

def leaderInitReconfig (comID comNodeNum : ℕ) : List Op :=
  (List.range comNodeNum).map fun i => .buffered (cfg.comNode comID i) .leaderInitReconfig

def sendReconfigResult2Leader (comID : ℕ) : List Op :=
  [.buffered (cfg.comNode comID 0) .sendReconfigResult2ComLeader]

def sendReconfigResults2AllLeaders : List Op :=
  (List.range cfg.shardNum).map fun i =>
    .buffered (cfg.comNode i 0) .sendReconfigResults2AllComLeaders

def sendReconfigResults2ComNodes (comID comNodeNum : ℕ) : List Op :=
  (List.range comNodeNum).map fun i =>
    .buffered (cfg.comNode comID i) .sendReconfigResults2ComNodes

def sendNewNodeTable2Client : List Op :=
  (List.range cfg.clientNum).map fun i => .buffered (cfg.clientTable i) .sendNewNodeTable2Client

def sendGetPoolTx (serverAddr : String) (reply : Bool) : List Op :=
  [.direct true serverAddr .getPoolTx, .readReply reply]

def sendGetSyncData (serverAddr : String) (reply : Bool) : List Op :=
  [.direct true serverAddr .getSyncData, .readReply reply]

/-- `clearConnection` keeps the connections to the nodes of the committee, and those to the
leaders if the node is one itself. -/
def preserved (comID nodeID : ℕ) (addr : String) : Bool :=
  (∃ i ∈ (cfg.comNodeTable comID).keys, (cfg.comNodeTable comID).lookup i = some addr) ∨
    nodeID = 0 ∧ addr ∈ (List.range cfg.shardNum).map fun i => cfg.comNode i 0

/-- `clearConnection`, with the order in which it visits the map. -/
def clearConnection (comID nodeID : ℕ) (order : List String) : List Op :=
  (order.filter fun addr => ¬ cfg.preserved comID nodeID addr).map .clear

def reportError (clientID : ℕ) : List Op := [.buffered (cfg.clientTable clientID) .reportError]

def reportAny (clientID : ℕ) : List Op := [.buffered (cfg.clientTable clientID) .reportAny]

end Tables

/-- The cases of `Send` that use connections. `reply` says whether the reply could be read. -/
inductive Call where
  | comGetHeightFromShard (shardID : ℕ) (reply : Bool)
  | shardSendGenesis (targetNodeAddr : String)
  | clientInjectTx2Com (comID : ℕ)
  | clientSetInjectDone2Nodes
  | comGetStateFromShard (shardID : ℕ)
  | shardSendStateToCom (comID : ℕ)
  | comSendBlock2Shard (shardID : ℕ)
  | comSendReply2Client (clientID : ℕ)
  | comLeaderInitMultiSign (comID : ℕ)
  | sendMultiSignReply (comID : ℕ)
  | booterSendContract
  | sendPbftMsg (comID : ℕ) (t : MsgType) (receiverComID receiverNodeID : ℕ)
  | sendNodeInfo (comID : ℕ)
  | leaderInitReconfig (comID comNodeNum : ℕ)
  | sendReconfigResult2Leader (comID : ℕ)
  | sendReconfigResults2AllLeaders
  | sendReconfigResults2ComNodes (comID comNodeNum : ℕ)
  | sendNewNodeTable2Client
  | sendGetPoolTx (serverAddr : String) (reply : Bool)
  | sendGetSyncData (serverAddr : String) (reply : Bool)
  | clearConnection (comID nodeID : ℕ) (order : List String)
  | reportError (clientID : ℕ)
  | reportAny (clientID : ℕ)
deriving DecidableEq, Repr

def Call.ops (cfg : Tables) : Call → List Op
  | .comGetHeightFromShard shardID reply => cfg.comGetHeightFromShard shardID reply
  | .shardSendGenesis targetNodeAddr => Tables.shardSendGenesis targetNodeAddr
  | .clientInjectTx2Com comID => cfg.clientInjectTx2Com comID
  | .clientSetInjectDone2Nodes => cfg.clientSetInjectDone2Nodes
  | .comGetStateFromShard shardID => cfg.comGetStateFromShard shardID
  | .shardSendStateToCom comID => cfg.shardSendStateToCom comID
  | .comSendBlock2Shard shardID => cfg.comSendBlock2Shard shardID
  | .comSendReply2Client clientID => cfg.comSendReply2Client clientID
  | .comLeaderInitMultiSign comID => cfg.comLeaderInitMultiSign comID
  | .sendMultiSignReply comID => cfg.sendMultiSignReply comID
  | .booterSendContract => cfg.booterSendContract
  | .sendPbftMsg comID t receiverComID receiverNodeID =>
      cfg.sendPbftMsg comID t receiverComID receiverNodeID
  | .sendNodeInfo comID => cfg.sendNodeInfo comID
  | .leaderInitReconfig comID comNodeNum => cfg.leaderInitReconfig comID comNodeNum
  | .sendReconfigResult2Leader comID => cfg.sendReconfigResult2Leader comID
  | .sendReconfigResults2AllLeaders => cfg.sendReconfigResults2AllLeaders
  | .sendReconfigResults2ComNodes comID comNodeNum =>
      cfg.sendReconfigResults2ComNodes comID comNodeNum
  | .sendNewNodeTable2Client => cfg.sendNewNodeTable2Client
  | .sendGetPoolTx serverAddr reply => Tables.sendGetPoolTx serverAddr reply
  | .sendGetSyncData serverAddr reply => Tables.sendGetSyncData serverAddr reply
  | .clearConnection comID nodeID order => cfg.clearConnection comID nodeID order
  | .reportError clientID => cfg.reportError clientID
  | .reportAny clientID => cfg.reportAny clientID

/-! ## The machine -/

/-- A send: the function, the tables at that time, the encoded data and the network. -/
structure Event where
  call : Call
  cfg : Tables
  data : List UInt8
  net : Net

def Event.ops (e : Event) : List Op := e.call.ops e.cfg

/-- The bytes of a message of type `t`. -/
def Event.bytes (gob : Gob) (e : Event) (t : MsgType) : List UInt8 :=
  packMsg gob ⟨t.text, e.data⟩

/-- An operation of a process that is running. -/
def Op.run (gob : Gob) (e : Event) (h : Hub) : Op → Option Hub
  | .buffered addr t => some (h.sendBuffered e.net addr (e.bytes gob t))
  | .direct fatal addr t => some (h.sendDirect e.net fatal addr (e.bytes gob t))
  | .patient addr t => h.sendPatient e.net addr (e.bytes gob t)
  | .readReply ok => some (if ok then h else h.exit)
  | .injectDone addr => some (h.sendInjectDone e.net addr (e.bytes gob .clientSetInjectDone))
  | .contract addr => some (h.sendContract e.net addr (e.bytes gob .booterSendContract))
  | .once addr => some (h.sendOnce e.net addr (e.bytes gob .shardSendGenesis))
  | .clear addr => some (h.clear addr)
  | .exit => some h.exit

/-- An operation; a process that has ended does nothing more. -/
def exec (gob : Gob) (e : Event) (h : Hub) (op : Op) : Option Hub :=
  if h.alive then op.run gob e h else some h

/-- The order in which a call visits the map. -/
def Call.order : Call → Option (List String)
  | .clearConnection _ _ order => some order
  | _ => none

/-- It visits the whole map. -/
def Call.Visits (h : Hub) (c : Call) : Prop :=
  ∀ order ∈ c.order, order.Nodup ∧ order.toFinset = h.conns2Node.keys

instance (h : Hub) (c : Call) : Decidable (c.Visits h) :=
  inferInstanceAs (Decidable (∀ _ ∈ _, _))

/-- A send of a process that is running. -/
def step (gob : Gob) (h : Hub) (e : Event) : Option Hub :=
  if h.alive = true ∧ e.call.Visits h then e.ops.foldlM (exec gob e) h else none

/-- A new process has no connections. -/
def Hub.start : Hub := ⟨∅, true, 0, 0, [], []⟩

def machine (gob : Gob) : Sys.Machine Hub Event := ⟨(· = Hub.start), step gob⟩

/-! ## Usable connections -/

/-- No address is mapped to nil or to a connection that this process has closed. -/
def Usable (h : Hub) : Prop :=
  ∀ addr conn, h.conns2Node.lookup addr = some conn → ∃ c, conn = some c ∧ c ∉ h.closed

/-- No two attempts in a row fail. -/
def Net.Steady (net : Net) : Prop := ∀ n ∈ net.dialFails, n + 1 ∉ net.dialFails

instance (net : Net) : Decidable net.Steady := inferInstanceAs (Decidable (∀ _ ∈ _, _))

/-- An operation that leaves the map usable: one of the two attempts of `dial` succeeds before the
connection is added, and a connection of the map is not closed without being removed. -/
def Op.Safe (net : Net) (h : Hub) : Op → Prop
  | .buffered _ _ => net.Steady
  | .direct _ _ _ => net.Steady
  | .injectDone _ => False
  | .contract addr => addr ∉ h.conns2Node
  | _ => True

instance (net : Net) (h : Hub) (op : Op) : Decidable (op.Safe net h) :=
  match op with
  | .buffered _ _ => inferInstanceAs (Decidable net.Steady)
  | .direct _ _ _ => inferInstanceAs (Decidable net.Steady)
  | .injectDone _ => inferInstanceAs (Decidable False)
  | .contract addr => inferInstanceAs (Decidable (addr ∉ h.conns2Node))
  | .patient _ _ | .readReply _ | .once _ | .clear _ | .exit => inferInstanceAs (Decidable True)

/-- All operations of the send are safe in the state before it. -/
def Safe (h : Hub) (e : Event) : Prop := ∀ op ∈ e.ops, op.Safe e.net h

instance (h : Hub) (e : Event) : Decidable (Safe h e) := inferInstanceAs (Decidable (∀ _ ∈ _, _))

/-- The address and the type of the message that an operation sends. -/
def Op.target : Op → Option (String × MsgType)
  | .buffered addr t => some (addr, t)
  | .direct _ addr t => some (addr, t)
  | .patient addr t => some (addr, t)
  | .injectDone addr => some (addr, .clientSetInjectDone)
  | .contract addr => some (addr, .booterSendContract)
  | .once addr => some (addr, .shardSendGenesis)
  | .readReply _ | .clear _ | .exit => none

/-- What holds of the hub in a run of safe sends. -/
structure Inv (h : Hub) : Prop where
  usable : Usable h
  dialed : ∀ addr c, h.conns2Node.lookup addr = some (some c) → c < h.dialed
  closed : ∀ c ∈ h.closed, c < h.dialed
  own : ∀ a b c, h.conns2Node.lookup a = some (some c) → h.conns2Node.lookup b = some (some c) →
    a = b
  isOpen : ∀ w ∈ h.sent, w.isOpen = true

/-- A new hub and what was written in the meantime, which went over open connections. -/
structure Goes (h h' : Hub) (new : List Write) : Prop where
  inv : Inv h'
  sent : h'.sent = h.sent ++ new

section Ops

variable {net : Net} {h h₁ h' : Hub} {addr : String} {bytes : List UInt8}

theorem Goes.of_sent {new : List Write} (hgoes : Goes h₁ h' new) (hsent : h₁.sent = h.sent) :
    Goes h h' new := ⟨hgoes.inv, hsent ▸ hgoes.sent⟩

theorem Inv.goes_nil (hinv : Inv h') (hsent : h'.sent = h.sent) : Goes h h' [] :=
  ⟨hinv, hsent.trans (List.append_nil _).symm⟩

theorem Inv.exit (hinv : Inv h) : Inv h.exit := ⟨hinv.usable, hinv.dialed, hinv.closed, hinv.own,
  hinv.isOpen⟩

/-- More attempts. -/
theorem Inv.advance (hinv : Inv h) {n : ℕ} (hn : h.dialed ≤ n) : Inv { h with dialed := n } where
  usable := hinv.usable
  dialed addr c hc := lt_of_lt_of_le (hinv.dialed addr c hc) hn
  closed c hc := lt_of_lt_of_le (hinv.closed c hc) hn
  own := hinv.own
  isOpen := hinv.isOpen

/-- A new connection for an address. -/
theorem Inv.add (hinv : Inv h) {c n : ℕ} (hc : h.dialed ≤ c) (hn : c < n) :
    Inv ({ h with dialed := n }.add addr (some c)) := by
  have hlook : ∀ a conn, ({ h with dialed := n }.add addr (some c)).conns2Node.lookup a =
      some conn → a = addr ∧ conn = some c ∨ h.conns2Node.lookup a = some conn := by
    intro a conn ha
    by_cases heq : a = addr
    · subst heq
      rw [Hub.add, Finmap.lookup_insert] at ha
      exact .inl ⟨rfl, (Option.some.inj ha).symm⟩
    · rw [Hub.add, Finmap.lookup_insert_of_ne _ heq] at ha
      exact .inr ha
  have hold := hinv.advance (le_of_lt (lt_of_le_of_lt hc hn))
  constructor
  case usable =>
    intro a conn ha
    rcases hlook a conn ha with ⟨-, rfl⟩ | ha
    · refine ⟨c, rfl, fun hclosed => ?_⟩
      exact absurd (hinv.closed c hclosed) (not_lt.mpr hc)
    · exact hinv.usable a conn ha
  case dialed =>
    intro a c' ha
    rcases hlook a _ ha with ⟨-, heq⟩ | ha
    · cases heq
      exact hn
    · exact hold.dialed a c' ha
  case closed => exact hold.closed
  case own =>
    intro a b c' ha hb
    -- a connection that is in the map already is not the new one
    have hne : ∀ a, h.conns2Node.lookup a = some (some c) → False := fun a ha =>
      absurd (hinv.dialed a c ha) (not_lt.mpr hc)
    rcases hlook a _ ha with ⟨rfl, heq⟩ | holda
    · cases heq
      rcases hlook b _ hb with ⟨rfl, -⟩ | holdb
      · rfl
      · exact (hne b holdb).elim
    · rcases hlook b _ hb with ⟨rfl, heq⟩ | holdb
      · cases heq
        exact (hne a holda).elim
      · exact hinv.own a b c' holda holdb
  case isOpen => exact hinv.isOpen

theorem Inv.write (hinv : Inv h) {c : ℕ} (hc : c ∉ h.closed) :
    Goes h (h.write net addr c bytes).1 [⟨addr, c, true, bytes⟩] := by
  have hsent : (h.write net addr c bytes).1.sent = h.sent ++ [⟨addr, c, true, bytes⟩] := by
    simp [Hub.write, hc]
  refine ⟨⟨hinv.usable, hinv.dialed, hinv.closed, hinv.own, ?_⟩, hsent⟩
  intro w hw
  rw [hsent] at hw
  rcases List.mem_append.mp hw with hw | hw
  · exact hinv.isOpen w hw
  · rw [List.mem_singleton.mp hw]

/-- Closing a connection that is not in the map. -/
theorem Inv.close (hinv : Inv h) {c : ℕ} (hlt : c < h.dialed)
    (hout : ∀ a, h.conns2Node.lookup a ≠ some (some c)) : Inv (h.close c) where
  usable a conn ha := by
    rcases hinv.usable a conn ha with ⟨c', rfl, hopen⟩
    refine ⟨c', rfl, fun hmem => ?_⟩
    rcases List.mem_cons.mp hmem with rfl | hmem
    · exact hout a ha
    · exact hopen hmem
  dialed := hinv.dialed
  closed c' hc' := by
    rcases List.mem_cons.mp hc' with rfl | hc'
    · exact hlt
    · exact hinv.closed c' hc'
  own := hinv.own
  isOpen := hinv.isOpen

/-- `clearConnection` closes a connection and removes its only entry. -/
theorem Inv.clear (hinv : Inv h) : Goes h (h.clear addr) [] := by
  refine ⟨?_, ?_⟩
  · unfold Hub.clear
    split
    case h_1 => exact hinv
    case h_2 => exact hinv.exit
    case h_3 c hc =>
      have hlook : ∀ a conn, (h.conns2Node.erase addr).lookup a = some conn →
          a ≠ addr ∧ h.conns2Node.lookup a = some conn := by
        intro a conn ha
        have hne : a ≠ addr := by
          rintro rfl
          rw [Finmap.lookup_erase] at ha
          cases ha
        rw [Finmap.lookup_erase_ne hne] at ha
        exact ⟨hne, ha⟩
      constructor
      case usable =>
        intro a conn ha
        rcases hlook a conn ha with ⟨hne, hold⟩
        rcases hinv.usable a conn hold with ⟨c', rfl, hopen⟩
        refine ⟨c', rfl, fun hmem => ?_⟩
        -- the connection closed is that of `addr` only
        rcases List.mem_cons.mp hmem with rfl | hmem
        · exact hne (hinv.own a addr c' hold hc)
        · exact hopen hmem
      case dialed => exact fun a c' ha => hinv.dialed a c' (hlook a _ ha).2
      case closed =>
        intro c' hc'
        rcases List.mem_cons.mp hc' with rfl | hc'
        · exact hinv.dialed addr c' hc
        · exact hinv.closed c' hc'
      case own => exact fun a b c' ha hb => hinv.own a b c' (hlook a _ ha).2 (hlook b _ hb).2
      case isOpen => exact hinv.isOpen
  · unfold Hub.clear
    split <;> simp [Hub.exit, Hub.remove, Hub.close]

/-- `dial` gives nil after two failures, or a connection with a new number. -/
theorem dial_cases (net : Net) (h : Hub) :
    (h.dialed ∈ net.dialFails ∧ h.dialed + 1 ∈ net.dialFails ∧
      h.dial net = ({ h with dialed := h.dialed + 2 }, none)) ∨
    ∃ n c, h.dial net = ({ h with dialed := n }, some c) ∧ h.dialed ≤ c ∧ c < n := by
  by_cases hfirst : h.dialed ∈ net.dialFails
  · by_cases hsecond : h.dialed + 1 ∈ net.dialFails
    · refine .inl ⟨hfirst, hsecond, ?_⟩
      rw [Hub.dial, if_neg (not_not.mpr hfirst), if_neg (not_not.mpr hsecond)]
    · refine .inr ⟨h.dialed + 2, h.dialed + 1, ?_, by omega, by omega⟩
      rw [Hub.dial, if_neg (not_not.mpr hfirst), if_pos hsecond]
  · refine .inr ⟨h.dialed + 1, h.dialed, ?_, le_rfl, by omega⟩
    rw [Hub.dial, if_pos hfirst]

theorem Inv.connect (hinv : Inv h) (hnet : net.Steady) (addr : String) :
    ∃ h₁ c, h.connect net addr = (h₁, some c) ∧ Inv h₁ ∧ c ∉ h₁.closed ∧ h₁.sent = h.sent := by
  unfold Hub.connect
  cases hlook : h.conns2Node.lookup addr with
  | some conn =>
      rcases hinv.usable addr conn hlook with ⟨c, rfl, hopen⟩
      exact ⟨h, c, rfl, hinv, hopen, rfl⟩
  | none =>
      rcases dial_cases net h with ⟨hfirst, hsecond, -⟩ | ⟨n, c, hdial, hc, hn⟩
      · exact absurd hsecond (hnet _ hfirst)
      simp only [hdial]
      refine ⟨_, c, rfl, hinv.add hc hn, fun hclosed => ?_, rfl⟩
      exact absurd (hinv.closed c hclosed) (not_lt.mpr hc)

theorem Inv.sendBuffered (hinv : Inv h) (hnet : net.Steady) :
    ∃ c, Goes h (h.sendBuffered net addr bytes) [⟨addr, c, true, bytes⟩] := by
  rcases hinv.connect hnet addr with ⟨h₁, c, hconn, hinv₁, hopen, hsent⟩
  refine ⟨c, ?_⟩
  simp only [Hub.sendBuffered, hconn]
  exact (hinv₁.write hopen).of_sent hsent

theorem Inv.sendDirect (hinv : Inv h) (hnet : net.Steady) (fatal : Bool) :
    ∃ c, Goes h (h.sendDirect net fatal addr bytes) [⟨addr, c, true, bytes⟩] := by
  rcases hinv.connect hnet addr with ⟨h₁, c, hconn, hinv₁, hopen, hsent⟩
  refine ⟨c, ?_⟩
  simp only [Hub.sendDirect, hconn]
  have hgoes := @Inv.write net h₁ addr bytes hinv₁ c hopen
  split
  case h_1 h₂ hwrite =>
    rw [hwrite] at hgoes
    exact hgoes.of_sent hsent
  case h_2 h₂ hwrite =>
    rw [hwrite] at hgoes
    split
    · exact ⟨hgoes.inv.exit, hsent ▸ hgoes.sent⟩
    · exact hgoes.of_sent hsent

theorem Inv.sendPatient (hinv : Inv h) (hrun : h.sendPatient net addr bytes = some h') :
    ∃ c, Goes h h' [⟨addr, c, true, bytes⟩] := by
  unfold Hub.sendPatient at hrun
  split at hrun
  case h_1 hlook =>
    rcases hinv.usable addr none hlook with ⟨c, hnil, -⟩
    cases hnil
  case h_2 c hlook =>
    rcases hinv.usable addr _ hlook with ⟨c', hc', hopen⟩
    cases hc'
    cases hrun
    exact ⟨c, hinv.write hopen⟩
  case h_3 =>
    simp only [Hub.mustDial, Option.bind_eq_bind, Option.bind_eq_some_iff,
      Option.some.injEq] at hrun
    rcases hrun with ⟨p, ⟨k, -, rfl⟩, rfl⟩
    have hadd : Inv ({ h with dialed := h.dialed + k + 1 }.add addr (some (h.dialed + k))) :=
      hinv.add (Nat.le_add_right _ _) (Nat.lt_succ_self _)
    have hopen : h.dialed + k ∉ h.closed := fun hclosed =>
      absurd (hinv.closed _ hclosed) (by omega)
    exact ⟨_, (hadd.write hopen).of_sent rfl⟩

@[simp] theorem conns2Node_sendAndClose (conn : Option ℕ) :
    (h.sendAndClose net addr conn bytes).conns2Node = h.conns2Node := by
  unfold Hub.sendAndClose
  split
  · rfl
  · split
    case h_1 hwrite => exact congrArg (fun p => p.1.conns2Node) hwrite.symm
    case h_2 hwrite => exact congrArg (fun p => p.1.conns2Node) hwrite.symm

/-- A new connection that is not in the map may be closed after its use. -/
theorem Inv.sendAndClose (hinv : Inv h) {c n : ℕ} (hc : h.dialed ≤ c) (hn : c < n) :
    Goes h ({ h with dialed := n }.sendAndClose net addr (some c) bytes)
      [⟨addr, c, true, bytes⟩] := by
  have hadv : Inv { h with dialed := n } := hinv.advance (le_of_lt (lt_of_le_of_lt hc hn))
  have hopen : c ∉ h.closed := fun hclosed => absurd (hinv.closed c hclosed) (not_lt.mpr hc)
  have hout : ∀ a, h.conns2Node.lookup a ≠ some (some c) := fun a ha =>
    absurd (hinv.dialed a c ha) (not_lt.mpr hc)
  have hgoes := @Inv.write net _ addr bytes hadv c hopen
  simp only [Hub.sendAndClose]
  split
  case h_1 h₁ hwrite =>
    have h₁_eq : h₁ = ({ h with dialed := n }.write net addr c bytes).1 :=
      congrArg Prod.fst hwrite.symm
    subst h₁_eq
    exact ⟨hgoes.inv.close hn hout, hgoes.sent⟩
  case h_2 h₁ hwrite =>
    have h₁_eq : h₁ = ({ h with dialed := n }.write net addr c bytes).1 :=
      congrArg Prod.fst hwrite.symm
    subst h₁_eq
    exact ⟨hgoes.inv.exit, hgoes.sent⟩

theorem Inv.sendContract (hinv : Inv h) (haddr : addr ∉ h.conns2Node) :
    ∃ new, Goes h (h.sendContract net addr bytes) new ∧
      ((h.sendContract net addr bytes).alive = true →
        ∃ c, (⟨addr, c, true, bytes⟩ : Write) ∈ new) ∧
      (h.sendContract net addr bytes).conns2Node = h.conns2Node := by
  unfold Hub.sendContract
  rw [Finmap.lookup_eq_none.mpr haddr]
  rcases dial_cases net h with ⟨-, -, hdial⟩ | ⟨n, c, hdial, hc, hn⟩
  · simp only [hdial, conns2Node_sendAndClose]
    have hend : Inv { h with dialed := h.dialed + 2 }.exit :=
      (hinv.advance (Nat.le_add_right _ 2)).exit
    refine ⟨[], hend.goes_nil rfl, fun halive => ?_, trivial⟩
    cases halive
  · simp only [hdial, conns2Node_sendAndClose]
    exact ⟨_, hinv.sendAndClose hc hn, fun _ => ⟨c, List.mem_singleton_self _⟩, trivial⟩

theorem Inv.sendOnce (hinv : Inv h) :
    ∃ new, Goes h (h.sendOnce net addr bytes) new ∧
      ((h.sendOnce net addr bytes).alive = true →
        ∃ c, (⟨addr, c, true, bytes⟩ : Write) ∈ new) := by
  unfold Hub.sendOnce
  split
  · have hend : Inv { h with dialed := h.dialed + 1 }.exit :=
      (hinv.advance (Nat.le_add_right _ 1)).exit
    refine ⟨[], hend.goes_nil rfl, fun halive => ?_⟩
    cases halive
  · exact ⟨_, hinv.sendAndClose le_rfl (Nat.lt_succ_self _),
      fun _ => ⟨h.dialed, List.mem_singleton_self _⟩⟩

end Ops

/-! ## Runs -/

section Runs

variable {gob : Gob} {e : Event} {h h' : Hub}

/-- The message of the operation is among the writes, over an open connection. -/
def Sends (gob : Gob) (e : Event) (op : Op) (new : List Write) : Prop :=
  ∀ addr t, op.target = some (addr, t) → ∃ c, (⟨addr, c, true, e.bytes gob t⟩ : Write) ∈ new

theorem sends_single {op : Op} {addr : String} {t : MsgType} {c : ℕ}
    (ht : op.target = some (addr, t)) : Sends gob e op [⟨addr, c, true, e.bytes gob t⟩] := by
  intro addr' t' ht'
  rw [ht] at ht'
  cases ht'
  exact ⟨c, List.mem_singleton_self _⟩

/-- A safe operation keeps the invariant, and the process sends its message or ends. -/
theorem run_spec {op : Op} (hinv : Inv h) (hsafe : op.Safe e.net h)
    (hrun : op.run gob e h = some h') :
    ∃ new, Goes h h' new ∧ (h'.alive = true → Sends gob e op new) := by
  cases op with
  | buffered addr t =>
      cases hrun
      rcases hinv.sendBuffered hsafe with ⟨c, hgoes⟩
      exact ⟨_, hgoes, fun _ => sends_single rfl⟩
  | direct fatal addr t =>
      cases hrun
      rcases hinv.sendDirect hsafe fatal with ⟨c, hgoes⟩
      exact ⟨_, hgoes, fun _ => sends_single rfl⟩
  | patient addr t =>
      rcases hinv.sendPatient hrun with ⟨c, hgoes⟩
      exact ⟨_, hgoes, fun _ => sends_single rfl⟩
  | readReply ok =>
      cases hrun
      refine ⟨[], ?_, fun _ _ _ ht => by cases ht⟩
      cases ok with
      | true => exact hinv.goes_nil rfl
      | false => exact hinv.exit.goes_nil rfl
  | injectDone addr => exact hsafe.elim
  | contract addr =>
      cases hrun
      rcases hinv.sendContract hsafe with ⟨new, hgoes, hsends, -⟩
      refine ⟨new, hgoes, fun halive addr' t' ht => ?_⟩
      cases ht
      exact hsends halive
  | once addr =>
      cases hrun
      rcases hinv.sendOnce with ⟨new, hgoes, hsends⟩
      refine ⟨new, hgoes, fun halive addr' t' ht => ?_⟩
      cases ht
      exact hsends halive
  | clear addr =>
      cases hrun
      exact ⟨[], hinv.clear, fun _ _ _ ht => by cases ht⟩
  | exit =>
      cases hrun
      exact ⟨[], hinv.exit.goes_nil rfl, fun _ _ _ ht => by cases ht⟩

/-- The same for a process that may have ended before. -/
theorem exec_spec {op : Op} (hinv : Inv h) (hsafe : op.Safe e.net h)
    (hrun : exec gob e h op = some h') :
    ∃ new, Goes h h' new ∧ (h'.alive = true → h.alive = true ∧ Sends gob e op new) := by
  unfold exec at hrun
  split at hrun
  case isTrue halive =>
    rcases run_spec hinv hsafe hrun with ⟨new, hgoes, hsends⟩
    exact ⟨new, hgoes, fun halive' => ⟨halive, hsends halive'⟩⟩
  case isFalse hdead =>
    cases hrun
    exact ⟨[], hinv.goes_nil rfl, fun halive => absurd halive hdead⟩

/-- The booter's broadcast is the only send with operations that depend on the map, and none of
them changes it. -/
def Uniform (ops : List Op) : Prop :=
  (∀ op ∈ ops, ∃ addr, op = .contract addr) ∨ ∀ op ∈ ops, ∀ addr, op ≠ .contract addr

theorem consensusRound_ne {cfg : Tables} {comID i : ℕ} {f : String → Op} {addr : String}
    (hf : ∀ a, f a ≠ .contract addr) : cfg.consensusRound comID i f ≠ some (.contract addr) := by
  unfold Tables.consensusRound
  split
  · split <;> simp
  · simpa using hf _

theorem uniform_ops (cfg : Tables) (c : Call) : Uniform (c.ops cfg) := by
  by_cases hc : c = .booterSendContract
  · subst hc
    left
    intro op hop
    rcases List.mem_map.mp hop with ⟨addr, -, rfl⟩
    exact ⟨addr, rfl⟩
  · right
    rintro op hop addr rfl
    -- no other call makes a `contract` operation
    cases c with
    | booterSendContract => exact hc rfl
    | comLeaderInitMultiSign comID =>
        rcases List.mem_filterMap.mp hop with ⟨i, -, hi⟩
        exact consensusRound_ne (fun _ => by simp) hi
    | sendPbftMsg comID t receiverComID receiverNodeID =>
        simp only [Call.ops, Tables.sendPbftMsg] at hop
        split at hop
        case h_7 => simp at hop
        case h_1 => simp [Tables.sendOldRequests] at hop
        all_goals
          rcases List.mem_filterMap.mp hop with ⟨i, -, hi⟩
          simp only [Option.ite_none_left_eq_some] at hi
          exact consensusRound_ne (fun _ => by simp) hi.2.2
    | _ =>
        simp [Call.ops, Tables.comGetHeightFromShard, Tables.shardSendGenesis,
          Tables.clientInjectTx2Com, Tables.clientSetInjectDone2Nodes,
          Tables.comGetStateFromShard, Tables.shardSendStateToCom, Tables.comSendBlock2Shard,
          Tables.comSendReply2Client, Tables.sendMultiSignReply, Tables.sendNodeInfo,
          Tables.leaderInitReconfig, Tables.sendReconfigResult2Leader,
          Tables.sendReconfigResults2AllLeaders, Tables.sendReconfigResults2ComNodes,
          Tables.sendNewNodeTable2Client, Tables.sendGetPoolTx, Tables.sendGetSyncData,
          Tables.clearConnection, Tables.reportError, Tables.reportAny] at hop

theorem safe_of_exec {op op' : Op} (huniform : (∃ addr, op = .contract addr) ∨
      ∀ addr, op' ≠ .contract addr) (hinv : Inv h) (hsafe : op.Safe e.net h)
    (hsafe' : op'.Safe e.net h) (hrun : exec gob e h op = some h') : op'.Safe e.net h' := by
  rcases huniform with ⟨addr, rfl⟩ | hne
  · have hmap : h'.conns2Node = h.conns2Node := by
      unfold exec at hrun
      split at hrun
      · cases hrun
        rcases hinv.sendContract hsafe with ⟨new, -, -, hmap⟩
        exact hmap
      · cases hrun
        rfl
    cases op' with
    | contract addr' =>
        simp only [Op.Safe, hmap] at hsafe' ⊢
        exact hsafe'
    | _ => exact hsafe'
  · cases op' with
    | contract addr' => exact absurd rfl (hne addr')
    | _ => exact hsafe'

theorem Sends.append {op : Op} {new : List Write} (hsends : Sends gob e op new)
    (new' : List Write) : Sends gob e op (new ++ new') := by
  intro addr t ht
  rcases hsends addr t ht with ⟨c, hc⟩
  exact ⟨c, List.mem_append_left _ hc⟩

/-- A safe send: the invariant stays, and if the process is still running afterwards every
message was written to an open connection. -/
theorem step_spec (hinv : Inv h) (hsafe : Safe h e) (hstep : step gob h e = some h') :
    ∃ new, Goes h h' new ∧ (h'.alive = true → ∀ op ∈ e.ops, Sends gob e op new) := by
  unfold step at hstep
  split at hstep
  case isFalse => cases hstep
  case isTrue =>
    -- the operations to come are safe, those done have sent their messages
    have hend := Sys.foldlM_induction
      (fun (rest : List Op) (h₁ : Hub) => (∀ op ∈ rest, op.Safe e.net h₁) ∧
        ∃ done new, e.ops = done ++ rest ∧ Goes h h₁ new ∧
          (h₁.alive = true → ∀ op ∈ done, Sends gob e op new))
      (by
        rintro op rest h₁ h₂ ⟨hrest, done, new, hops, hgoes, hdone⟩ hexec
        have hop := hrest op List.mem_cons_self
        rcases exec_spec hgoes.inv hop hexec with ⟨new', hgoes', hsends⟩
        refine ⟨fun op' hop' => ?_, done ++ [op], new ++ new', by simp [hops], ?_, ?_⟩
        · refine safe_of_exec ?_ hgoes.inv hop (hrest op' (List.mem_cons_of_mem _ hop')) hexec
          have hmem : op ∈ e.ops ∧ op' ∈ e.ops := by simp [hops, hop']
          exact (uniform_ops e.cfg e.call).imp (· op hmem.1) (· op' hmem.2)
        · exact ⟨hgoes'.inv, by rw [hgoes'.sent, hgoes.sent, List.append_assoc]⟩
        · intro halive op' hop'
          rcases hsends halive with ⟨halive₁, hlast⟩
          rcases List.mem_append.mp hop' with hop' | hop'
          · exact (hdone halive₁ op' hop').append new'
          · rw [List.mem_singleton.mp hop']
            intro addr t ht
            rcases hlast addr t ht with ⟨c, hc⟩
            exact ⟨c, List.mem_append_right _ hc⟩)
      e.ops h h' ⟨hsafe, [], [], rfl, hinv.goes_nil rfl, by simp⟩ hstep
    rcases hend with ⟨-, done, new, hops, hgoes, hdone⟩
    rw [List.append_nil] at hops
    exact ⟨new, hgoes, hops ▸ hdone⟩

theorem inv_start : Inv Hub.start where
  usable addr conn hlook := by cases hlook
  dialed addr c hlook := by cases hlook
  closed c hc := by cases hc
  own a b c ha := by cases ha
  isOpen w hw := by cases hw

end Runs

/-- In a run of safe sends no address is mapped to nil or to a closed connection, nothing was
written to a closed connection, and every safe send after which the process is still running
writes each of its messages to an open connection. -/
theorem usable_of_safe {gob : Gob} {h : Hub} (hreach : (machine gob).ReachableBy Safe h) :
    Usable h ∧ (∀ w ∈ h.sent, w.isOpen = true) ∧
      ∀ e h', Safe h e → step gob h e = some h' → ∃ new, h'.sent = h.sent ++ new ∧
        (h'.alive = true → ∀ op ∈ e.ops, ∀ addr t, op.target = some (addr, t) →
          ∃ c, (⟨addr, c, true, e.bytes gob t⟩ : Write) ∈ new) := by
  have hinv : Inv h := Sys.Machine.invariant_by Inv
    (by
      rintro h rfl
      exact inv_start)
    (by
      intro h e h' hsafe hstep hinv
      rcases step_spec hinv hsafe hstep with ⟨new, hgoes, -⟩
      exact hgoes.inv) hreach
  refine ⟨hinv.usable, hinv.isOpen, fun e h' hsafe hstep => ?_⟩
  rcases step_spec hinv hsafe hstep with ⟨new, hgoes, hsends⟩
  exact ⟨new, hgoes.sent, hsends⟩

/-- A committee of one node and a client. -/
def exampleTables : Tables where
  nodeTable _ _ := "node"
  comNodeTable _ := Finmap.singleton 0 "node"
  clientTable _ := "client"
  shardNum := 1
  shardSize := 1
  comAllNodeNum := 1
  clientNum := 1
  nodeAddr := "other"

/-- A call with data `7`; the attempts to dial with these numbers fail. -/
def exampleEvent (call : Call) (dialFails : List ℕ) : Event :=
  ⟨call, exampleTables, [7], ⟨dialFails, []⟩⟩

/-- Two messages to the node, with a failed attempt before the first, and one to the client, whose
connection is then cleared. -/
theorem usable_of_safe_example :
    ∃ h, (machine .plain).ReachableBy Safe h ∧
      (h.conns2Node.lookup "node" = some (some 1) ∧ "client" ∉ h.conns2Node ∧
        h.sent.map (·.conn) = [1, 1, 2] ∧ h.closed = [2]) ∧
      Usable h ∧ ∀ w ∈ h.sent, w.isOpen = true := by
  have hrun : ∃ h, (machine .plain).ReachableBy Safe h ∧
      (h.conns2Node.lookup "node" = some (some 1) ∧ "client" ∉ h.conns2Node ∧
        h.sent.map (·.conn) = [1, 1, 2] ∧ h.closed = [2]) :=
    Sys.Machine.exists_reachableBy _ rfl
      [exampleEvent (.clientInjectTx2Com 0) [0], exampleEvent (.sendPbftMsg 0 .cPrepare 0 0) [],
        exampleEvent (.reportAny 0) [], exampleEvent (.clearConnection 0 1 ["client", "node"]) []]
      (by decide +kernel)
  rcases hrun with ⟨h, hreach, hstate⟩
  have husable := usable_of_safe hreach
  exact ⟨h, hreach, hstate, husable.1, husable.2.1⟩

/-- After two failed attempts the address is mapped to nil. After the broadcast of
`ClientSetInjectDone` the next transactions are written to a closed connection, although every
attempt to dial would succeed; the process goes on. -/
theorem not_usable_failed_dial_and_injectDone :
    (∃ h, (machine .plain).Reachable h ∧ h.conns2Node.lookup "node" = some none ∧ ¬ Usable h) ∧
    ∃ h, (machine .plain).Reachable h ∧ h.alive = true ∧
      h.sent.map (·.isOpen) = [true, true, false] ∧ ¬ Usable h := by
  have hnil : ∃ h, (machine .plain).Reachable h ∧ h.conns2Node.lookup "node" = some none :=
    Sys.Machine.exists_reachableBy _ rfl [exampleEvent (.clientInjectTx2Com 0) [0, 1]]
      (by decide +kernel)
  have hclosed : ∃ h, (machine .plain).Reachable h ∧ (h.alive = true ∧
      h.sent.map (·.isOpen) = [true, true, false]) ∧
      (h.conns2Node.lookup "node" = some (some 0) ∧ 0 ∈ h.closed) :=
    Sys.Machine.exists_reachableBy _ rfl
      [exampleEvent (.clientInjectTx2Com 0) [], exampleEvent .clientSetInjectDone2Nodes [],
        exampleEvent (.clientInjectTx2Com 0) []]
      (by decide +kernel)
  constructor
  · rcases hnil with ⟨h, hreach, hlook⟩
    refine ⟨h, hreach, hlook, fun husable => ?_⟩
    rcases husable _ _ hlook with ⟨c, hc, -⟩
    cases hc
  · rcases hclosed with ⟨h, hreach, ⟨halive, hsent⟩, hlook, hmem⟩
    refine ⟨h, hreach, halive, hsent, fun husable => ?_⟩
    rcases husable _ _ hlook with ⟨c, hc, hopen⟩
    cases hc
    exact hopen hmem

end LessChain.MessageHub
