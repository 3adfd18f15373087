import LessChain.Core.Types
import LessChain.Lib.Order
import Mathlib.Data.List.AList

/-!
# Reconfiguration messages

`node/reconfig.go`: how a node draws its new committee, how the leaders collect the results,
and how every node works out the new committees from them. Indices into a slice of results
are natural numbers, also where the source writes `uint32(newID)`: a message of the hub is
far from holding `2^32` results.
-/

namespace LessChain

namespace Reconfig

/-- `core.NodeInfo`. -/
structure NodeInfo where
  shardID : ℕ
  comID : ℕ
  nodeID : ℕ
  nodeAddr : String
deriving DecidableEq, Repr

/-- `core.InitReconfig`. -/
structure InitReconfig where
  seed : Hash
  seedHeight : ℕ
  comID : ℕ
  comNodeNum : ℕ
deriving DecidableEq

structure ReconfigResult where
  seed : Hash
  seedHeight : ℕ
  vrf : Bytes
  addr : Address
  oldNodeInfo : NodeInfo
  belong_ComID : ℕ
  newComID : ℕ
deriving DecidableEq

structure ComReconfigResults where
  comID : ℕ
  results : List ReconfigResult
  comNodeNum : ℕ
deriving DecidableEq

/-- `map[uint32]*core.ComReconfigResults`. -/
abbrev Com2Results := AList fun _ : ℕ => ComReconfigResults

/-- `map[uint32]map[uint32]string`. -/
abbrev ComNodeTable := ℕ → Option (ℕ → Option String)

/-- `table[comID][nodeID]`. -/
def slot (table : ComNodeTable) (comID nodeID : ℕ) : Option String :=
  (table comID).bind fun list => list nodeID

/-- `Node` with `cfg.ComNodeTable`; a nil pointer, slice or map is `none`. -/
structure Node where
  shardNum : ℕ
  nodeInfo : NodeInfo
  comAllNodeNum : ℕ
  comNodeTable : ComNodeTable
  reconfigResult : Option ReconfigResult
  reconfigResults : Option (List ReconfigResult)
  com2ReconfigResults : Option Com2Results

/-- `VrfValue2Shard`: an empty value or no shards at all is a panic. -/
def vrfValue2Shard (value : Bytes) (shardNum : ℕ) : Option ℕ :=
  (value[0]?).bind fun b => if shardNum = 0 then none else some (b.toNat % shardNum)

theorem vrfValue2Shard_lt {value : Bytes} {shardNum comID : ℕ}
    (h : vrfValue2Shard value shardNum = some comID) : comID < shardNum := by
  obtain ⟨b, -, hb⟩ := Option.bind_eq_some_iff.mp h
  split at hb
  · cases hb
  · cases hb
    exact Nat.mod_lt _ (by omega)

/-- `HandleLeaderInitReconfig` at a node with account `addr` whose signature of a seed is
`generateVRFOutput`. -/
def Node.handleLeaderInitReconfig (n : Node) (addr : Address) (generateVRFOutput : Hash → Bytes)
    (data : InitReconfig) : Option (Node × ReconfigResult) := do
  let vrfValue := generateVRFOutput data.seed
  let newComId ← vrfValue2Shard vrfValue n.shardNum
  let reply : ReconfigResult :=
    { seed := data.seed
      seedHeight := data.seedHeight
      vrf := vrfValue
      addr := addr
      oldNodeInfo := n.nodeInfo
      belong_ComID := data.comID
      newComID := newComId }
  some ({ n with reconfigResult := some reply }, reply)

/-! ## What the leaders collect -/

/-- `AddReconfigResult`, which only a leader may call. -/
def Node.addReconfigResult (n : Node) (res : ReconfigResult) : Option Node :=
  if n.nodeInfo.nodeID ≠ 0 then none
  else match n.reconfigResults with
    | none => some { n with reconfigResults := some [res] }
    | some results => do
        let last ← results.getLast?
        -- a smaller height was left over from the last reconfiguration
        if last.seedHeight < res.seedHeight then some { n with reconfigResults := some [res] }
        else some { n with reconfigResults := some (results ++ [res]) }

/-- `HandleSendReconfigResult2ComLeader`, with what it sends to all leaders. -/
def Node.handleSendReconfigResult2ComLeader (n : Node) (data : ReconfigResult) :
    Option (Node × Option ComReconfigResults) := do
  let n ← n.addReconfigResult data
  let results := n.reconfigResults.getD []
  if results.length = n.comAllNodeNum then
    some (n, some ⟨n.nodeInfo.comID, results, n.comAllNodeNum⟩)
  else some (n, none)

/-- `Results[0].SeedHeight`. -/
def ComReconfigResults.seedHeight (res : ComReconfigResults) : Option ℕ :=
  res.results.head?.map (·.seedHeight)

/-- `AddReconfigResults`: the loop ends after the first entry the map gives. -/
def Node.addReconfigResults (order : Sys.Order) (n : Node) (res : ComReconfigResults) :
    Option Node :=
  match n.com2ReconfigResults with
  | none => some { n with com2ReconfigResults := some (AList.singleton res.comID res) }
  | some m =>
      match order.iter m.entries with
      | [] => some n
      | last :: _ => do
          let lastHeight ← last.2.seedHeight
          let height ← res.seedHeight
          if lastHeight < height then
            some { n with com2ReconfigResults := some (AList.singleton res.comID res) }
          else if res.comID ∈ m then none
          else some { n with com2ReconfigResults := some (m.insert res.comID res) }

/-- `HandleSendReconfigResults2AllComLeaders`, with what it sends to the committee. -/
def Node.handleSendReconfigResults2AllComLeaders (order : Sys.Order) (n : Node)
    (data : ComReconfigResults) : Option (Node × Option Com2Results) := do
  let n ← n.addReconfigResults order data
  let m := n.com2ReconfigResults.getD ∅
  if m.keys.length = n.shardNum then some (n, some m) else some (n, none)

/-! ## The new committees -/

/-- The comparison of `sort.Slice`: `bytes.Compare` is negative. -/
def VrfLess (a b : ReconfigResult) : Prop := a.vrf < b.vrf

/-- The results by the new committee, in the order in which they are come upon. -/
def collectResults (order : Sys.Order) (data : Com2Results) : ℕ → List ReconfigResult :=
  (order.iter data.entries).foldl
    (fun m rets => rets.2.results.foldl
      (fun m res => Function.update m res.newComID (m res.newComID ++ [res])) m)
    fun _ => []

/-- `newCom2Results` after the sorting. -/
def newCom2Results (order : Sys.Order) (sorter : Sys.Sorter ReconfigResult VrfLess)
    (data : Com2Results) (comID : ℕ) : List ReconfigResult :=
  sorter.sort (collectResults order data comID)

/-- What the loop over the new committees changes. -/
structure Assignment where
  newComNodeTable : ComNodeTable
  nodeInfo : NodeInfo
  oldComLeaderAddr : String

/-- `newComNodeTable[i][newID] = addr`. -/
def putSlot (table : ComNodeTable) (i newID : ℕ) (addr : String) : ComNodeTable :=
  Function.update table i ((table i).map fun list => Function.update list newID (some addr))

/-- The body of the inner loop, for the node with `localNodeInfo` before the loop. -/
def assignResult (localNodeInfo : NodeInfo) (reconfigResult : Option ReconfigResult) (i : ℕ)
    (a : Assignment) (p : ReconfigResult × ℕ) : Option Assignment := do
  let (result, newID) := p
  let own ← reconfigResult
  some {
    newComNodeTable := putSlot a.newComNodeTable i newID result.oldNodeInfo.nodeAddr
    nodeInfo :=
      if result.oldNodeInfo = localNodeInfo then
        ⟨localNodeInfo.shardID, own.newComID, newID, localNodeInfo.nodeAddr⟩
      else a.nodeInfo
    oldComLeaderAddr :=
      if result.oldNodeInfo.comID = own.newComID ∧ result.oldNodeInfo.nodeID = 0 then
        result.oldNodeInfo.nodeAddr
      else a.oldComLeaderAddr }

/-- The body of the outer loop. -/
def assignCommittee (localNodeInfo : NodeInfo) (reconfigResult : Option ReconfigResult)
    (results : ℕ → List ReconfigResult) (a : Assignment) (i : ℕ) : Option Assignment :=
  (results i).zipIdx.foldlM (assignResult localNodeInfo reconfigResult i)
    { a with newComNodeTable := Function.update a.newComNodeTable i (some fun _ => none) }

/-- `HandleSendReconfigResults2ComNodes` and the first line of `EndReconfig`: the node, and the
address it will ask for the pool. -/
def Node.handleSendReconfigResults2ComNodes (order : Sys.Order)
    (sorter : Sys.Sorter ReconfigResult VrfLess) (n : Node) (data : Com2Results) :
    Option (Node × String) := do
  let results := newCom2Results order sorter data
  let a ← (List.range n.shardNum).foldlM (assignCommittee n.nodeInfo n.reconfigResult results)
    ⟨fun _ => none, n.nodeInfo, ""⟩
  some ({ n with
      nodeInfo := a.nodeInfo
      comNodeTable := a.newComNodeTable
      comAllNodeNum := (results a.nodeInfo.comID).length },
    a.oldComLeaderAddr)

end Reconfig

end LessChain
