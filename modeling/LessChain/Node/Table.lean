import LessChain.Node.Reconfig

/-!
# Every node derives the same committees

Each node gets all results and works out the new committees for itself. The map of the
results is walked in any order and the sort is not stable, but the VRF values are all
different, so every node sorts the members of a committee into the same list; the tables,
the node's own place and the old leader follow from these lists.
-/

namespace LessChain

namespace Reconfig

/-- All results of a message. -/
def resultsOf (data : Com2Results) : List ReconfigResult :=
  data.entries.flatMap fun rets => rets.2.results

/-- What the leaders' messages hold: results of different nodes with different VRF values,
each with the committee that its value draws. -/
structure Drawn (shardNum : ℕ) (data : Com2Results) : Prop where
  oldNodeInfo : ((resultsOf data).map (·.oldNodeInfo)).Nodup
  vrf : ((resultsOf data).map (·.vrf)).Nodup
  newComID : ∀ r ∈ resultsOf data, vrfValue2Shard r.vrf shardNum = some r.newComID

/-- The result is the node's own, as `HandleLeaderInitReconfig` has made it, and in the
message. -/
structure Own (n : Node) (data : Com2Results) (r : ReconfigResult) : Prop where
  reconfigResult : n.reconfigResult = some r
  oldNodeInfo : r.oldNodeInfo = n.nodeInfo
  mem : r ∈ resultsOf data

variable {r : ReconfigResult}

/-- A node that has just drawn its committee owns the result it has sent. -/
theorem own_handleLeaderInitReconfig {n n' : Node} {addr : Address} {vrf : Hash → Bytes}
    {init : InitReconfig} {data : Com2Results}
    (h : n.handleLeaderInitReconfig addr vrf init = some (n', r)) (hmem : r ∈ resultsOf data) :
    Own n' data r := by
  unfold Node.handleLeaderInitReconfig at h
  obtain ⟨newComId, -, h⟩ := Option.bind_eq_some_iff.mp h
  cases h
  exact ⟨rfl, rfl, hmem⟩

/-! ## The members of a new committee -/

theorem foldl_collect (l : List ReconfigResult) (m : ℕ → List ReconfigResult) (comID : ℕ) :
    l.foldl (fun m res => Function.update m res.newComID (m res.newComID ++ [res])) m comID =
      m comID ++ l.filter fun r => r.newComID = comID := by
  induction l generalizing m with
  | nil => simp
  | cons r l ih =>
      rw [List.foldl_cons, ih]
      by_cases h : r.newComID = comID
      · subst h
        simp
      · rw [Function.update_of_ne (Ne.symm h)]
        simp [h]

theorem collectResults_eq (order : Sys.Order) (data : Com2Results) (comID : ℕ) :
    collectResults order data comID =
      ((order.iter data.entries).flatMap fun rets => rets.2.results).filter
        fun r => r.newComID = comID := by
  unfold collectResults
  rw [← List.foldl_flatMap, foldl_collect, List.nil_append]

theorem collectResults_perm (order : Sys.Order) (data : Com2Results) (comID : ℕ) :
    (collectResults order data comID).Perm
      ((resultsOf data).filter fun r => r.newComID = comID) := by
  rw [collectResults_eq]
  exact ((order.perm data.entries).flatMap_right _).filter _

section Members

variable {shardNum : ℕ} {data : Com2Results}

theorem Drawn.eq_of_vrf (h : Drawn shardNum data) {a b : ReconfigResult}
    (ha : a ∈ resultsOf data) (hb : b ∈ resultsOf data) (heq : a.vrf = b.vrf) : a = b :=
  List.inj_on_of_nodup_map h.vrf ha hb heq

theorem Drawn.eq_of_oldNodeInfo (h : Drawn shardNum data) {a b : ReconfigResult}
    (ha : a ∈ resultsOf data) (hb : b ∈ resultsOf data) (heq : a.oldNodeInfo = b.oldNodeInfo) :
    a = b :=
  List.inj_on_of_nodup_map h.oldNodeInfo ha hb heq

/-- Different orders and sorters lead to the same lists. -/
theorem Drawn.newCom2Results_eq (h : Drawn shardNum data) (order order' : Sys.Order)
    (sorter sorter' : Sys.Sorter ReconfigResult VrfLess) :
    newCom2Results order sorter data = newCom2Results order' sorter' data := by
  funext comID
  have hperm := collectResults_perm order data comID
  refine Sys.Sorter.sort_eq sorter sorter' (hperm.trans (collectResults_perm order' data comID).symm) ?_
  intro a ha b hb hab hba
  have hmem : ∀ r ∈ collectResults order data comID, r ∈ resultsOf data := fun r hr =>
    (List.mem_filter.mp (hperm.mem_iff.mp hr)).1
  exact h.eq_of_vrf (hmem a ha) (hmem b hb)
    (List.le_antisymm (List.not_lt.mp hba) (List.not_lt.mp hab))

/-- The lists hold the results by their new committee, in the order of the VRF values. -/
structure Members (data : Com2Results) (members : ℕ → List ReconfigResult) : Prop where
  perm : ∀ comID, (members comID).Perm ((resultsOf data).filter fun r => r.newComID = comID)
  sorted : ∀ comID, (members comID).Pairwise fun a b => a.vrf < b.vrf

theorem Drawn.members (h : Drawn shardNum data) (order : Sys.Order)
    (sorter : Sys.Sorter ReconfigResult VrfLess) :
    Members data (newCom2Results order sorter data) := by
  have hperm : ∀ comID, (newCom2Results order sorter data comID).Perm
      ((resultsOf data).filter fun r => r.newComID = comID) := fun comID =>
    (sorter.perm _).trans (collectResults_perm order data comID)
  refine ⟨hperm, ?_⟩
  intro comID
  have hvrfs : ((newCom2Results order sorter data comID).map (·.vrf)).Nodup := by
    rw [((hperm comID).map _).nodup_iff]
    exact h.vrf.sublist (List.filter_sublist.map _)
  -- no two values are the same, so one that is not greater is smaller
  refine ((sorter.sorted _).and (List.pairwise_map.mp hvrfs)).imp ?_
  rintro a b ⟨hnot, hne⟩
  by_contra hlt
  exact hne (List.le_antisymm (List.not_lt.mp hnot) (List.not_lt.mp hlt))

variable {members : ℕ → List ReconfigResult}

theorem Members.mem_iff (h : Members data members)
    {comID : ℕ} {r : ReconfigResult} :
    r ∈ members comID ↔ r ∈ resultsOf data ∧ r.newComID = comID := by
  rw [(h.perm comID).mem_iff, List.mem_filter, decide_eq_true_eq]

theorem Members.nodup (h : Members data members)
    (comID : ℕ) : (members comID).Nodup := by
  refine (h.sorted comID).imp ?_
  intro a b hlt heq
  rw [heq] at hlt
  exact List.lt_irrefl _ hlt

/-- Every result has one place among the members. -/
theorem Members.existsUnique (h : Members data members)
    {r : ReconfigResult} (hr : r ∈ resultsOf data) :
    ∃! p : ℕ × ℕ, (members p.1)[p.2]? = some r := by
  obtain ⟨k, hk⟩ := List.mem_iff_getElem?.mp (h.mem_iff.mpr ⟨hr, rfl⟩)
  refine ⟨(r.newComID, k), hk, ?_⟩
  rintro ⟨comID, k'⟩ hk'
  dsimp only at hk'
  have hcom : r.newComID = comID := (h.mem_iff.mp (List.mem_of_getElem? hk')).2
  subst hcom
  have hlt : k < (members r.newComID).length := (List.getElem?_eq_some_iff.mp hk).1
  rw [(List.getElem?_inj hlt (h.nodup _)).mp (hk.trans hk'.symm)]

end Members

/-! ## The loops -/

/-- The inner loop without the test for a nil pointer. -/
def assigned (localNodeInfo : NodeInfo) (own : ReconfigResult) (i : ℕ) (a : Assignment)
    (p : ReconfigResult × ℕ) : Assignment where
  newComNodeTable := putSlot a.newComNodeTable i p.2 p.1.oldNodeInfo.nodeAddr
  nodeInfo :=
    if p.1.oldNodeInfo = localNodeInfo then
      ⟨localNodeInfo.shardID, own.newComID, p.2, localNodeInfo.nodeAddr⟩
    else a.nodeInfo
  oldComLeaderAddr :=
    if p.1.oldNodeInfo.comID = own.newComID ∧ p.1.oldNodeInfo.nodeID = 0 then
      p.1.oldNodeInfo.nodeAddr
    else a.oldComLeaderAddr

def assignedCommittee (localNodeInfo : NodeInfo) (own : ReconfigResult)
    (results : ℕ → List ReconfigResult) (a : Assignment) (i : ℕ) : Assignment :=
  (results i).zipIdx.foldl (assigned localNodeInfo own i)
    { a with newComNodeTable := Function.update a.newComNodeTable i (some fun _ => none) }

theorem assignCommittee_some (localNodeInfo : NodeInfo) (own : ReconfigResult)
    (results : ℕ → List ReconfigResult) (a : Assignment) (i : ℕ) :
    assignCommittee localNodeInfo (some own) results a i =
      some (assignedCommittee localNodeInfo own results a i) := by
  unfold assignCommittee
  exact List.foldlM_pure (f := assigned localNodeInfo own i)

/-- The results in the order in which the two loops visit them. -/
def visits (results : ℕ → List ReconfigResult) (shardNum : ℕ) : List (ReconfigResult × ℕ) :=
  (List.range shardNum).flatMap fun i => (results i).zipIdx

section Loops

variable (localNodeInfo : NodeInfo) (own : ReconfigResult) (results : ℕ → List ReconfigResult)

/-- One field of the outcome that each visit changes on its own. -/
theorem foldl_field {β : Type} (field : Assignment → β) (visit : β → ReconfigResult × ℕ → β)
    (hvisit : ∀ i a p, visit (field a) p = field (assigned localNodeInfo own i a p))
    (hnew : ∀ a table, field { a with newComNodeTable := table } = field a)
    (shardNum : ℕ) (a : Assignment) :
    field ((List.range shardNum).foldl (assignedCommittee localNodeInfo own results) a) =
      (visits results shardNum).foldl visit (field a) := by
  unfold visits
  rw [List.foldl_flatMap]
  symm
  apply List.foldl_hom
  intro a i
  unfold assignedCommittee
  rw [← hnew a (Function.update a.newComNodeTable i (some fun _ => none))]
  exact List.foldl_hom field (hvisit i)

/-- The old leader of a new committee as the loop finds it. -/
def oldLeaderOf (visited : List (ReconfigResult × ℕ)) (newComID : ℕ) : String :=
  visited.foldl (fun addr p =>
    if p.1.oldNodeInfo.comID = newComID ∧ p.1.oldNodeInfo.nodeID = 0 then p.1.oldNodeInfo.nodeAddr
    else addr) ""

/-- The inner loop fills the slots of its committee from `k` on. -/
theorem foldl_assigned_table (l : List ReconfigResult) (i k : ℕ) (a : Assignment) :
    ((l.zipIdx k).foldl (assigned localNodeInfo own i) a).newComNodeTable =
      Function.update a.newComNodeTable i ((a.newComNodeTable i).map fun list j =>
        if k ≤ j ∧ j < k + l.length then (l[j - k]?).map (·.oldNodeInfo.nodeAddr) else list j) := by
  induction l generalizing k a with
  | nil =>
      show a.newComNodeTable = _
      rw [eq_comm, Function.update_eq_iff]
      refine ⟨?_, fun _ _ => rfl⟩
      have hnone : ∀ j, ¬ (k ≤ j ∧ j < k + ([] : List ReconfigResult).length) := by simp
      simp only [hnone, if_false]
      cases a.newComNodeTable i <;> rfl
  | cons r l ih =>
      rw [List.zipIdx_cons, List.foldl_cons, ih]
      unfold assigned putSlot
      dsimp only
      rw [Function.update_idem, Function.update_self, Option.map_map]
      congr 2
      funext list j
      dsimp only [Function.comp_apply]
      rw [List.length_cons]
      by_cases hj : j = k
      · subst hj
        rw [if_neg (by omega), Function.update_self, if_pos (by omega), Nat.sub_self]
        rfl
      · rw [Function.update_of_ne hj]
        by_cases hin : k + 1 ≤ j ∧ j < k + 1 + l.length
        · rw [if_pos hin, if_pos (by omega), show j - k = (j - (k + 1)) + 1 by omega,
            List.getElem?_cons_succ]
        · rw [if_neg hin, if_neg (by omega)]

/-- The table after the committees below `n`. -/
theorem foldl_table (n : ℕ) (a : Assignment) (ha : ∀ c, a.newComNodeTable c = none) (c : ℕ) :
    ((List.range n).foldl (assignedCommittee localNodeInfo own results) a).newComNodeTable c =
      if c < n then some fun k => ((results c)[k]?).map (·.oldNodeInfo.nodeAddr) else none := by
  induction n with
  | zero => simpa using ha c
  | succ n ih =>
      rw [List.range_succ, List.foldl_append, List.foldl_cons, List.foldl_nil]
      generalize (List.range n).foldl (assignedCommittee localNodeInfo own results) a = b at ih
      unfold assignedCommittee
      rw [foldl_assigned_table]
      dsimp only
      rw [Function.update_idem, Function.update_self, Option.map_some]
      by_cases hc : c = n
      · subst hc
        rw [Function.update_self, if_pos (Nat.lt_succ_self c), Option.some.injEq]
        funext k
        simp only [Nat.zero_le, Nat.zero_add, true_and, Nat.sub_zero]
        split
        · rfl
        · rename_i hk
          rw [List.getElem?_eq_none (by omega)]
          rfl
      · rw [Function.update_of_ne hc, ih]
        by_cases hlt : c < n
        · rw [if_pos hlt, if_pos (by omega)]
        · rw [if_neg hlt, if_neg (by omega)]

/-- What a visit does to the node's own place. -/
def seat (info : NodeInfo) (p : ReconfigResult × ℕ) : NodeInfo :=
  if p.1.oldNodeInfo = localNodeInfo then
    ⟨localNodeInfo.shardID, own.newComID, p.2, localNodeInfo.nodeAddr⟩
  else info

/-- The loop ends with the place of the last result of the node itself. -/
theorem foldl_seat (visited : List (ReconfigResult × ℕ)) (info : NodeInfo) :
    (visited.foldl (seat localNodeInfo own) info = info ∧
      ∀ p ∈ visited, p.1.oldNodeInfo ≠ localNodeInfo) ∨
    ∃ p ∈ visited, p.1.oldNodeInfo = localNodeInfo ∧ visited.foldl (seat localNodeInfo own) info =
      ⟨localNodeInfo.shardID, own.newComID, p.2, localNodeInfo.nodeAddr⟩ := by
  induction visited generalizing info with
  | nil => exact .inl ⟨rfl, by simp⟩
  | cons p visited ih =>
      rw [List.foldl_cons]
      rcases ih (seat localNodeInfo own info p) with ⟨hsame, hnone⟩ | ⟨q, hq, hown, hseat⟩
      · rw [hsame]
        by_cases hp : p.1.oldNodeInfo = localNodeInfo
        · exact .inr ⟨p, List.mem_cons_self, hp, if_pos hp⟩
        · refine .inl ⟨if_neg hp, ?_⟩
          intro q hq
          rcases List.mem_cons.mp hq with rfl | hq
          · exact hp
          · exact hnone q hq
      · exact .inr ⟨q, List.mem_cons_of_mem _ hq, hown, hseat⟩

end Loops

theorem mem_visits {results : ℕ → List ReconfigResult} {shardNum : ℕ} {k : ℕ} :
    (r, k) ∈ visits results shardNum ↔ ∃ i < shardNum, (results i)[k]? = some r := by
  unfold visits
  simp [List.mem_flatMap, List.mem_zipIdx_iff_getElem?]

/-! ## What a node ends up with -/

/-- The node has its place in a table that seats `members`, and the size of its committee. -/
structure Seated (members : ℕ → List ReconfigResult) (r : ReconfigResult) (n : Node) : Prop where
  table : ∀ comID nodeID,
    slot n.comNodeTable comID nodeID = ((members comID)[nodeID]?).map (·.oldNodeInfo.nodeAddr)
  comID : n.nodeInfo.comID = r.newComID
  place : (members n.nodeInfo.comID)[n.nodeInfo.nodeID]? = some r
  nodeAddr : n.nodeInfo.nodeAddr = r.oldNodeInfo.nodeAddr
  comAllNodeNum : n.comAllNodeNum = (members n.nodeInfo.comID).length

theorem Seated.slot_eq {members : ℕ → List ReconfigResult} {n : Node}
    (h : Seated members r n) :
    slot n.comNodeTable n.nodeInfo.comID n.nodeInfo.nodeID = some n.nodeInfo.nodeAddr := by
  rw [h.table, h.place, h.nodeAddr]
  rfl

section Outcome

variable {data : Com2Results} {n : Node} {r : ReconfigResult}

theorem handle_eq (order : Sys.Order) (sorter : Sys.Sorter ReconfigResult VrfLess)
    (hown : n.reconfigResult = some r) :
    let results := newCom2Results order sorter data
    let a := (List.range n.shardNum).foldl (assignedCommittee n.nodeInfo r results)
      ⟨fun _ => none, n.nodeInfo, ""⟩
    n.handleSendReconfigResults2ComNodes order sorter data =
      some ({ n with
          nodeInfo := a.nodeInfo
          comNodeTable := a.newComNodeTable
          comAllNodeNum := (results a.nodeInfo.comID).length },
        a.oldComLeaderAddr) := by
  unfold Node.handleSendReconfigResults2ComNodes
  dsimp only
  rw [hown]
  have hbody : assignCommittee n.nodeInfo (some r) (newCom2Results order sorter data) =
      fun a i => pure (assignedCommittee n.nodeInfo r (newCom2Results order sorter data) a i) := by
    funext a i
    exact assignCommittee_some ..
  rw [hbody, List.foldlM_pure]
  rfl

/-- A node goes through the message and takes its seat. -/
theorem handle_spec (order : Sys.Order) (sorter : Sys.Sorter ReconfigResult VrfLess)
    (hdrawn : Drawn n.shardNum data) (hown : Own n data r) :
    ∃ n', n.handleSendReconfigResults2ComNodes order sorter data = some (n',
        oldLeaderOf (visits (newCom2Results order sorter data) n.shardNum) r.newComID) ∧
      Seated (newCom2Results order sorter data) r n' ∧
      ∀ c, n'.comNodeTable c = if c < n.shardNum then
        some fun k => ((newCom2Results order sorter data c)[k]?).map (·.oldNodeInfo.nodeAddr)
        else none := by
  have hmembers := hdrawn.members order sorter
  rw [handle_eq order sorter hown.reconfigResult]
  generalize newCom2Results order sorter data = members at hmembers
  have htable := foldl_table n.nodeInfo r members n.shardNum ⟨fun _ => none, n.nodeInfo, ""⟩
    fun _ => rfl
  have hinfo := foldl_field n.nodeInfo r members (·.nodeInfo) (seat n.nodeInfo r)
    (fun _ _ _ => rfl) (fun _ _ => rfl) n.shardNum ⟨fun _ => none, n.nodeInfo, ""⟩
  have hleader := foldl_field n.nodeInfo r members (·.oldComLeaderAddr)
    (fun addr p => if p.1.oldNodeInfo.comID = r.newComID ∧ p.1.oldNodeInfo.nodeID = 0 then
      p.1.oldNodeInfo.nodeAddr else addr)
    (fun _ _ _ => rfl) (fun _ _ => rfl) n.shardNum ⟨fun _ => none, n.nodeInfo, ""⟩
  -- the node's own result is visited
  have hlt : r.newComID < n.shardNum := vrfValue2Shard_lt (hdrawn.newComID r hown.mem)
  obtain ⟨k, hk⟩ := List.mem_iff_getElem?.mp (hmembers.mem_iff.mpr ⟨hown.mem, rfl⟩)
  have hvisit : (r, k) ∈ visits members n.shardNum := mem_visits.mpr ⟨r.newComID, hlt, hk⟩
  rcases foldl_seat n.nodeInfo r (visits members n.shardNum) n.nodeInfo with
    ⟨-, hnone⟩ | ⟨⟨q, k'⟩, hq, hqown, hseat⟩
  · exact absurd hown.oldNodeInfo (hnone _ hvisit)
  · -- and no other node has its old info
    obtain ⟨i, hi, hik⟩ := mem_visits.mp hq
    have hmem := hmembers.mem_iff.mp (List.mem_of_getElem? hik)
    have hqr : q = r := hdrawn.eq_of_oldNodeInfo hmem.1 hown.mem
      (hqown.trans hown.oldNodeInfo.symm)
    rw [hqr] at hik hmem
    dsimp only at hinfo hleader hseat
    rw [hseat] at hinfo
    refine ⟨_, by rw [hleader]; rfl, ?_, htable⟩
    constructor
    · intro comID nodeID
      unfold slot
      dsimp only
      rw [htable]
      split
      · rfl
      · rename_i hge
        -- a committee that does not exist has no members
        have hnil : members comID = [] := by
          rw [List.eq_nil_iff_forall_not_mem]
          intro m hm
          obtain ⟨hm, hcom⟩ := hmembers.mem_iff.mp hm
          have := vrfValue2Shard_lt (hdrawn.newComID m hm)
          omega
        rw [hnil]
        rfl
    · dsimp only
      rw [hinfo]
    · dsimp only
      rw [hinfo, hmem.2]
      exact hik
    · dsimp only
      rw [hinfo, hown.oldNodeInfo]
    · rfl

end Outcome

/-- The table holds every node's address in one slot, if the addresses are different. -/
theorem existsUnique_slot {data : Com2Results} {members : ℕ → List ReconfigResult}
    (h : Members data members)
    (haddr : ((resultsOf data).map (·.oldNodeInfo.nodeAddr)).Nodup)
    (hr : r ∈ resultsOf data) :
    ∃! p : ℕ × ℕ, ((members p.1)[p.2]?).map (·.oldNodeInfo.nodeAddr) =
      some r.oldNodeInfo.nodeAddr := by
  obtain ⟨p, hp, hunique⟩ := h.existsUnique hr
  refine ⟨p, ?_, ?_⟩
  · dsimp only at hp ⊢
    rw [hp]
    rfl
  · intro p' hp'
    apply hunique
    obtain ⟨r', hr', heq⟩ := Option.map_eq_some_iff.mp hp'
    have hmem := (h.mem_iff.mp (List.mem_of_getElem? hr')).1
    rw [hr', List.inj_on_of_nodup_map haddr hmem hr heq]

/-- Two nodes whose own results are in the message derive the same table, in whatever order
each walks its maps and however each sorts. The table seats every result in one slot, the
committees in the order of the VRF values; each of the two has its place in it and the size
of its committee; and if they are in the same new committee they know the same old leader. -/
theorem same_table (shardNum : ℕ) (data : Com2Results) (order order' : Sys.Order)
    (sorter sorter' : Sys.Sorter ReconfigResult VrfLess) (n n' : Node) (r r' : ReconfigResult)
    (hdrawn : Drawn shardNum data) (hnum : n.shardNum = shardNum) (hnum' : n'.shardNum = shardNum)
    (hown : Own n data r) (hown' : Own n' data r') :
    ∃ (members : ℕ → List ReconfigResult) (m m' : Node) (leader leader' : String),
      n.handleSendReconfigResults2ComNodes order sorter data = some (m, leader) ∧
      n'.handleSendReconfigResults2ComNodes order' sorter' data = some (m', leader') ∧
      m.comNodeTable = m'.comNodeTable ∧
      Members data members ∧
      (∀ s ∈ resultsOf data, ∃! p : ℕ × ℕ, (members p.1)[p.2]? = some s) ∧
      (((resultsOf data).map (·.oldNodeInfo.nodeAddr)).Nodup → ∀ s ∈ resultsOf data,
        ∃! p : ℕ × ℕ, slot m.comNodeTable p.1 p.2 = some s.oldNodeInfo.nodeAddr) ∧
      Seated members r m ∧ Seated members r' m' ∧
      slot m.comNodeTable m.nodeInfo.comID m.nodeInfo.nodeID = some m.nodeInfo.nodeAddr ∧
      slot m'.comNodeTable m'.nodeInfo.comID m'.nodeInfo.nodeID = some m'.nodeInfo.nodeAddr ∧
      (m.nodeInfo.comID = m'.nodeInfo.comID → leader = leader') := by
  subst hnum
  have hmembers := hdrawn.members order sorter
  obtain ⟨m, hrun, hseated, htable⟩ := handle_spec order sorter hdrawn hown
  obtain ⟨m', hrun', hseated', htable'⟩ :=
    handle_spec order' sorter' (hnum' ▸ hdrawn) hown'
  -- the VRF values are distinct, so neither map order nor sorting algorithm shows
  rw [hdrawn.newCom2Results_eq order' order sorter' sorter] at hrun' hseated' htable'
  rw [hnum'] at hrun' htable'
  refine ⟨newCom2Results order sorter data, m, m', _, _, hrun, hrun', ?_, hmembers, ?_, ?_,
    hseated, hseated', hseated.slot_eq, hseated'.slot_eq, ?_⟩
  · funext c
    rw [htable, htable']
  · intro s hs
    exact hmembers.existsUnique hs
  · intro haddr s hs
    simp only [hseated.table]
    exact existsUnique_slot hmembers haddr hs
  · intro hcom
    rw [hseated.comID, hseated'.comID] at hcom
    rw [hcom]

/-! ## Two committees of four nodes -/

/-- Insertion sort. -/
def insertionSorter : Sys.Sorter ReconfigResult VrfLess where
  sort := List.insertionSort fun a b => ¬ b.vrf < a.vrf
  perm := List.perm_insertionSort _
  sorted := by
    intro l
    have : Std.Total fun a b : ReconfigResult => ¬ b.vrf < a.vrf :=
      ⟨fun a b => List.le_total a.vrf b.vrf⟩
    have : IsTrans ReconfigResult fun a b => ¬ b.vrf < a.vrf :=
      ⟨fun _ _ _ hab hbc => List.le_trans hab hbc⟩
    exact List.pairwise_insertionSort (fun a b : ReconfigResult => ¬ b.vrf < a.vrf) l

/-- The result of a node of committee `comID` whose VRF value starts with `b`. -/
def exampleResult (comID nodeID : ℕ) (nodeAddr : String) (b : UInt8) : ReconfigResult where
  seed := 7
  seedHeight := 10
  vrf := [b, 1, 2]
  addr := 0
  oldNodeInfo := ⟨comID, comID, nodeID, nodeAddr⟩
  belong_ComID := comID
  newComID := b.toNat % 2

/-- Four nodes of each committee, of which two stay where they are. -/
def exampleData : Com2Results :=
  (AList.singleton 0 ⟨0, [exampleResult 0 0 "a" 9, exampleResult 0 1 "b" 3,
      exampleResult 0 2 "c" 4, exampleResult 0 3 "d" 8], 4⟩).insert 1
    ⟨1, [exampleResult 1 0 "e" 5, exampleResult 1 1 "f" 2, exampleResult 1 2 "g" 6,
      exampleResult 1 3 "h" 7], 4⟩

def exampleNode (r : ReconfigResult) : Node where
  shardNum := 2
  nodeInfo := r.oldNodeInfo
  comAllNodeNum := 4
  comNodeTable := fun _ => none
  reconfigResult := some r
  reconfigResults := none
  com2ReconfigResults := none

theorem same_table_exampleData :
    ∃ (members : ℕ → List ReconfigResult) (m m' : Node) (leader leader' : String),
      (exampleNode (exampleResult 0 0 "a" 9)).handleSendReconfigResults2ComNodes .listed
        insertionSorter exampleData = some (m, leader) ∧
      (exampleNode (exampleResult 0 1 "b" 3)).handleSendReconfigResults2ComNodes .backwards
        insertionSorter exampleData = some (m', leader') ∧
      m.comNodeTable = m'.comNodeTable ∧
      Members exampleData members ∧
      (∀ s ∈ resultsOf exampleData, ∃! p : ℕ × ℕ, (members p.1)[p.2]? = some s) ∧
      (((resultsOf exampleData).map (·.oldNodeInfo.nodeAddr)).Nodup →
        ∀ s ∈ resultsOf exampleData,
          ∃! p : ℕ × ℕ, slot m.comNodeTable p.1 p.2 = some s.oldNodeInfo.nodeAddr) ∧
      Seated members (exampleResult 0 0 "a" 9) m ∧ Seated members (exampleResult 0 1 "b" 3) m' ∧
      slot m.comNodeTable m.nodeInfo.comID m.nodeInfo.nodeID = some m.nodeInfo.nodeAddr ∧
      slot m'.comNodeTable m'.nodeInfo.comID m'.nodeInfo.nodeID = some m'.nodeInfo.nodeAddr ∧
      (m.nodeInfo.comID = m'.nodeInfo.comID → leader = leader') :=
  same_table 2 exampleData .listed .backwards insertionSorter insertionSorter _ _ _ _
    ⟨by decide, by decide, by decide⟩ rfl rfl ⟨rfl, rfl, by decide⟩ ⟨rfl, rfl, by decide⟩

end Reconfig

end LessChain
