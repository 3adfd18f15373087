import LessChain.Lib.Machine
import LessChain.Node.Reconfig
import Mathlib.Data.List.Perm.Subperm

/-!
# What the leaders collect in an epoch

One leader over any number of epochs. It takes results to be of the reconfiguration in
progress unless they have a greater seed height than the last one it holds, and it is done
when it has as many as there are members. A result that comes twice, or late, is counted:
`repeated_and_late` is a run with both. In `timely` runs the leader sends one result of each
member and of each committee, all of one epoch.

The members of the committee are known to the leader only by their number. `collecting` says
that the results it holds have come since its last reconfiguration; `emitted` (with the
members at that time) and `broadcast` keep what was sent.
-/

namespace LessChain

namespace Reconfig

namespace Collect

structure State where
  node : Node
  members : List NodeInfo
  collecting : Bool
  emitted : List (List NodeInfo × ComReconfigResults)
  broadcast : List Com2Results

inductive Event where
  | result (res : ReconfigResult)
  | results (order : Sys.Order) (res : ComReconfigResults)
  /-- the node has ended a reconfiguration and is in a new committee -/
  | reconfigured (nodeInfo : NodeInfo) (members : List NodeInfo)

def result (s : State) (res : ReconfigResult) : Option State := do
  let (n, emitted) ← s.node.handleSendReconfigResult2ComLeader res
  some { s with
    node := n
    collecting := s.collecting || decide (n.reconfigResults = some [res])
    emitted := s.emitted ++ emitted.toList.map fun x => (s.members, x) }

def results (s : State) (order : Sys.Order) (res : ComReconfigResults) : Option State := do
  let (n, broadcast) ← s.node.handleSendReconfigResults2AllComLeaders order res
  some { s with
    node := n
    broadcast := s.broadcast ++ broadcast.toList }

def reconfigured (s : State) (nodeInfo : NodeInfo) (members : List NodeInfo) : Option State :=
  if members.Nodup then
    some { s with
      node := { s.node with nodeInfo := nodeInfo, comAllNodeNum := members.length }
      members := members
      collecting := false }
  else none

def step (s : State) : Event → Option State
  | .result res => result s res
  | .results order res => results s order res
  | .reconfigured nodeInfo members => reconfigured s nodeInfo members

/-- Nothing has been collected yet. -/
def Initial (s : State) : Prop :=
  s.node.reconfigResults = none ∧ s.node.com2ReconfigResults = none ∧ s.members.Nodup ∧
    s.node.comAllNodeNum = s.members.length ∧ s.emitted = [] ∧ s.broadcast = []

def machine : Sys.Machine State Event := ⟨Initial, step⟩

/-- The results are of one epoch. -/
def OneEpoch (l : List ReconfigResult) : Prop := ∀ r ∈ l, ∀ r' ∈ l, r.seedHeight = r'.seedHeight

instance (l : List ReconfigResult) : Decidable (OneEpoch l) :=
  inferInstanceAs (Decidable (∀ _ ∈ _, ∀ _ ∈ _, _))

/-- A result of a member begins a new epoch, or it is the first of this member in the epoch
that is being collected. -/
def TimelyResult (s : State) (res : ReconfigResult) : Prop :=
  res.oldNodeInfo ∈ s.members ∧ ∀ l ∈ s.node.reconfigResults,
    (∀ r ∈ l, r.seedHeight < res.seedHeight) ∨
      s.collecting = true ∧
        ∀ r ∈ l, r.seedHeight = res.seedHeight ∧ r.oldNodeInfo ≠ res.oldNodeInfo

/-- The results of a committee are of one epoch, which is newer than those held or the
same. -/
def TimelyResults (s : State) (res : ComReconfigResults) : Prop :=
  res.comID < s.node.shardNum ∧ res.results ≠ [] ∧ OneEpoch res.results ∧
    ∀ m ∈ s.node.com2ReconfigResults,
      (∀ e ∈ m.entries, ∀ r ∈ e.2.results, ∀ r' ∈ res.results, r.seedHeight < r'.seedHeight) ∨
        ∀ e ∈ m.entries, ∀ r ∈ e.2.results, ∀ r' ∈ res.results, r.seedHeight = r'.seedHeight

instance (s : State) (res : ReconfigResult) : Decidable (TimelyResult s res) :=
  inferInstanceAs (Decidable (_ ∧ ∀ _ ∈ _, (∀ _ ∈ _, _) ∨ _ ∧ ∀ _ ∈ _, _ ∧ _))

instance (s : State) (res : ComReconfigResults) : Decidable (TimelyResults s res) :=
  inferInstanceAs (Decidable (_ ∧ _ ∧ _ ∧ ∀ _ ∈ _,
    (∀ _ ∈ _, ∀ _ ∈ _, ∀ _ ∈ _, _) ∨ ∀ _ ∈ _, ∀ _ ∈ _, ∀ _ ∈ _, _))

def timely (s : State) : Event → Prop
  | .result res => TimelyResult s res
  | .results _ res => TimelyResults s res
  | .reconfigured _ _ => True

instance (s : State) (ev : Event) : Decidable (timely s ev) :=
  match ev with
  | .result _ => inferInstanceAs (Decidable (TimelyResult _ _))
  | .results _ _ => inferInstanceAs (Decidable (TimelyResults _ _))
  | .reconfigured _ _ => .isTrue trivial

/-- What was sent is complete: one result of each member, and one entry for each committee,
of one epoch. -/
structure State.PerEpoch (s : State) : Prop where
  emitted : ∀ x ∈ s.emitted, (x.2.results.map (·.oldNodeInfo)).Perm x.1 ∧ OneEpoch x.2.results
  broadcast : ∀ m ∈ s.broadcast, (∀ c, c ∈ m ↔ c < s.node.shardNum) ∧
    (∀ e ∈ m.entries, e.2.comID = e.1) ∧ OneEpoch (m.entries.flatMap fun e => e.2.results)

/-! ## The handlers -/

/-- What `AddReconfigResult` leaves behind. -/
theorem addReconfigResult_cases {n n' : Node} {res : ReconfigResult}
    (h : n.addReconfigResult res = some n') :
    (n' = { n with reconfigResults := some [res] } ∧ ∀ l ∈ n.reconfigResults,
      ∃ last ∈ l, last.seedHeight < res.seedHeight) ∨
    ∃ l last, n.reconfigResults = some l ∧ last ∈ l ∧ ¬ last.seedHeight < res.seedHeight ∧
      n' = { n with reconfigResults := some (l ++ [res]) } := by
  unfold Node.addReconfigResult at h
  split at h
  · cases h
  · split at h
    · rename_i hnone
      cases h
      left
      refine ⟨rfl, ?_⟩
      rw [hnone]
      simp
    · rename_i l hl
      obtain ⟨last, hlast, h⟩ := Option.bind_eq_some_iff.mp h
      have hmem := List.mem_of_getLast? hlast
      split at h
      · rename_i hlt
        cases h
        left
        refine ⟨rfl, ?_⟩
        intro l' hl'
        rw [hl] at hl'
        cases hl'
        exact ⟨last, hmem, hlt⟩
      · rename_i hge
        cases h
        exact .inr ⟨l, last, hl, hmem, hge, rfl⟩

variable {m : Com2Results} {res : ComReconfigResults} {members : List NodeInfo}
  {l : List ReconfigResult} {s s' : State} {order : Sys.Order}

/-- What `AddReconfigResults` leaves behind when it has something to compare with. -/
theorem addReconfigResults_cases {n n' : Node}
    (hne : ∀ m ∈ n.com2ReconfigResults, m.entries ≠ [])
    (h : n.addReconfigResults order res = some n') :
    (n' = { n with com2ReconfigResults := some (AList.singleton res.comID res) }) ∨
    ∃ m last lastHeight height, n.com2ReconfigResults = some m ∧ last ∈ m.entries ∧
      last.2.seedHeight = some lastHeight ∧ res.seedHeight = some height ∧
      ¬ lastHeight < height ∧ res.comID ∉ m ∧
      n' = { n with com2ReconfigResults := some (m.insert res.comID res) } := by
  unfold Node.addReconfigResults at h
  split at h
  · cases h
    exact .inl rfl
  · rename_i m hm
    split at h
    · -- over an empty map the loop makes no round, and the result would be lost
      rename_i hnil
      have hperm := order.perm m.entries
      rw [hnil] at hperm
      exact absurd hperm.symm.eq_nil (hne m hm)
    · rename_i last rest hiter
      obtain ⟨lastHeight, hlast, h⟩ := Option.bind_eq_some_iff.mp h
      obtain ⟨height, hres, h⟩ := Option.bind_eq_some_iff.mp h
      have hmem : last ∈ m.entries := by
        rw [← Sys.Order.mem_iter order, hiter]
        exact List.mem_cons_self
      split at h
      · cases h
        exact .inl rfl
      · rename_i hge
        split at h
        · cases h
        · rename_i hnew
          cases h
          exact .inr ⟨m, last, lastHeight, height, hm, hmem, hlast, hres, hge, hnew, rfl⟩

/-- The map after `AddReconfigResults`, by its entries. -/
theorem mem_entries_insert (hnew : res.comID ∉ m)
    {e : (_ : ℕ) × ComReconfigResults} :
    e ∈ (m.insert res.comID res).entries ↔ e = ⟨res.comID, res⟩ ∨ e ∈ m.entries := by
  rw [AList.insert_of_notMem hnew]
  exact List.mem_cons

/-! ## What is held -/

/-- The results held are of one epoch; while it is being collected they are of different
members. -/
structure Held (members : List NodeInfo) (collecting : Bool) (l : List ReconfigResult) : Prop where
  ne_nil : l ≠ []
  oneEpoch : OneEpoch l
  distinct : collecting = true → (l.map (·.oldNodeInfo)).Nodup
  members : collecting = true → ∀ r ∈ l, r.oldNodeInfo ∈ members

/-- The map holds results of one epoch, each under its committee. -/
structure HeldMap (shards : ℕ) (m : Com2Results) : Prop where
  ne_nil : m.entries ≠ []
  bound : ∀ e ∈ m.entries, e.1 < shards
  own : ∀ e ∈ m.entries, e.2.comID = e.1
  results : ∀ e ∈ m.entries, e.2.results ≠ []
  oneEpoch : OneEpoch (m.entries.flatMap fun e => e.2.results)

theorem OneEpoch.append_single {res : ReconfigResult} (h : OneEpoch l)
    (hres : ∀ r ∈ l, r.seedHeight = res.seedHeight) : OneEpoch (l ++ [res]) := by
  intro r hr r' hr'
  rw [List.mem_append, List.mem_singleton] at hr hr'
  obtain hr | rfl := hr <;> obtain hr' | rfl := hr'
  · exact h r hr r' hr'
  · exact hres r hr
  · exact (hres r' hr').symm
  · rfl

theorem held_single {collecting : Bool} {res : ReconfigResult}
    (hmem : res.oldNodeInfo ∈ members) : Held members collecting [res] where
  ne_nil := List.cons_ne_nil _ _
  oneEpoch := by simp [OneEpoch]
  distinct _ := List.nodup_singleton _
  members _ := by simpa using hmem

/-- A further result of the epoch, of a member that has sent none. -/
theorem Held.append {collecting : Bool}
    {res : ReconfigResult} (h : Held members collecting l) (hmem : res.oldNodeInfo ∈ members)
    (hres : ∀ r ∈ l, r.seedHeight = res.seedHeight ∧ r.oldNodeInfo ≠ res.oldNodeInfo) :
    Held members collecting (l ++ [res]) where
  ne_nil := by simp
  oneEpoch := h.oneEpoch.append_single fun r hr => (hres r hr).1
  distinct hc := by
    rw [List.map_append, List.map_singleton, ← List.concat_eq_append]
    refine (h.distinct hc).concat ?_
    rw [List.mem_map]
    rintro ⟨r, hr, heq⟩
    exact (hres r hr).2 heq
  members hc r hr := by
    rw [List.mem_append, List.mem_singleton] at hr
    obtain hr | rfl := hr
    · exact h.members hc r hr
    · exact hmem

/-- As many results of different members as there are members are one of each. -/
theorem Held.perm (h : Held members true l) (hlen : l.length = members.length) :
    (l.map (·.oldNodeInfo)).Perm members := by
  have hsub : (l.map (·.oldNodeInfo)).Subperm members := by
    refine List.subperm_of_subset (h.distinct rfl) ?_
    intro i hi
    obtain ⟨r, hr, rfl⟩ := List.mem_map.mp hi
    exact h.members rfl r hr
  refine hsub.perm_of_length_le ?_
  rw [List.length_map]
  exact hlen.ge

theorem heldMap_single {shards : ℕ} (hlt : res.comID < shards)
    (hne : res.results ≠ []) (hone : OneEpoch res.results) :
    HeldMap shards (AList.singleton res.comID res) where
  ne_nil := by simp [AList.singleton]
  bound := by simpa [AList.singleton] using hlt
  own := by simp [AList.singleton]
  results := by simpa [AList.singleton] using hne
  oneEpoch := by simpa [AList.singleton] using hone

/-- The results of a further committee. -/
theorem HeldMap.insert {shards : ℕ}
    (h : HeldMap shards m) (hlt : res.comID < shards) (hne : res.results ≠ [])
    (hone : OneEpoch res.results) (hnew : res.comID ∉ m)
    (hsame : ∀ e ∈ m.entries, ∀ r ∈ e.2.results, ∀ r' ∈ res.results,
      r.seedHeight = r'.seedHeight) :
    HeldMap shards (m.insert res.comID res) where
  ne_nil := List.ne_nil_of_mem ((mem_entries_insert hnew).mpr (.inl rfl))
  bound e he := by
    obtain rfl | he := (mem_entries_insert hnew).mp he
    · exact hlt
    · exact h.bound e he
  own e he := by
    obtain rfl | he := (mem_entries_insert hnew).mp he
    · rfl
    · exact h.own e he
  results e he := by
    obtain rfl | he := (mem_entries_insert hnew).mp he
    · exact hne
    · exact h.results e he
  oneEpoch r hr r' hr' := by
    obtain ⟨e, he, hr⟩ := List.mem_flatMap.mp hr
    obtain ⟨e', he', hr'⟩ := List.mem_flatMap.mp hr'
    obtain rfl | he := (mem_entries_insert hnew).mp he <;>
      obtain rfl | he' := (mem_entries_insert hnew).mp he'
    · exact hone r hr r' hr'
    · exact (hsame e' he' r' hr' r hr).symm
    · exact hsame e he r hr r' hr'
    · exact h.oneEpoch r (List.mem_flatMap.mpr ⟨e, he, hr⟩) r' (List.mem_flatMap.mpr ⟨e', he', hr'⟩)

/-- A map with as many entries as there are committees has one for each. -/
theorem HeldMap.mem_iff {shards : ℕ} (h : HeldMap shards m)
    (hlen : m.keys.length = shards) (c : ℕ) : c ∈ m ↔ c < shards := by
  have hbound : ∀ c ∈ m.keys, c < shards := by
    intro c hc
    obtain ⟨e, he, rfl⟩ := List.mem_map.mp hc
    exact h.bound e he
  have hperm : m.keys.Perm (List.range shards) := by
    refine (List.subperm_of_subset m.keys_nodup ?_).perm_of_length_le ?_
    · intro c hc
      exact List.mem_range.mpr (hbound c hc)
    · rw [List.length_range]
      exact hlen.ge
  rw [AList.mem_keys, hperm.mem_iff, List.mem_range]

/-! ## Runs -/

structure Inv (s : State) : Prop where
  nodup : s.members.Nodup
  count : s.node.comAllNodeNum = s.members.length
  held : ∀ l ∈ s.node.reconfigResults, Held s.members s.collecting l
  heldMap : ∀ m ∈ s.node.com2ReconfigResults, HeldMap s.node.shardNum m
  perEpoch : s.PerEpoch

theorem Inv.init (h : Initial s) : Inv s := by
  obtain ⟨hheld, hmap, hnodup, hcount, hemitted, hbroadcast⟩ := h
  constructor
  · exact hnodup
  · exact hcount
  · simp [hheld]
  · simp [hmap]
  · constructor
    · simp [hemitted]
    · simp [hbroadcast]

/-- The list after a timely result, whose members are known to be different. -/
theorem Inv.held_result {res : ReconfigResult} {n : Node} (h : Inv s)
    (htimely : TimelyResult s res) (hadd : s.node.addReconfigResult res = some n) :
    ∃ l, n = { s.node with reconfigResults := some l } ∧ Held s.members true l ∧
      (s.collecting = true ∨ l = [res]) := by
  obtain ⟨hmem, hnew⟩ := htimely
  obtain ⟨rfl, -⟩ | ⟨l, last, hl, hlast, hge, rfl⟩ := addReconfigResult_cases hadd
  · exact ⟨[res], rfl, held_single hmem, .inr rfl⟩
  · obtain hlt | ⟨hcollecting, hsame⟩ := hnew l hl
    · -- the last one is not older, so the epoch is not a new one
      exact absurd (hlt last hlast) hge
    · have hheld := h.held l hl
      rw [hcollecting] at hheld
      exact ⟨l ++ [res], rfl, hheld.append hmem hsame, .inl hcollecting⟩

theorem Inv.result {res : ReconfigResult} (h : Inv s)
    (htimely : TimelyResult s res) (hstep : Collect.result s res = some s') : Inv s' := by
  obtain ⟨⟨n, emitted⟩, hhandle, hstep⟩ := Option.bind_eq_some_iff.mp hstep
  obtain ⟨n', hadd, hhandle⟩ := Option.bind_eq_some_iff.mp hhandle
  obtain ⟨l, rfl, hheld, hcollecting⟩ := h.held_result htimely hadd
  have hstays : (s.collecting || decide (some l = some [res])) = true := by
    simpa using hcollecting
  -- what is sent, if the list is complete
  have hsent : n = { s.node with reconfigResults := some l } ∧
      ∀ x ∈ emitted, x.results = l ∧ l.length = s.members.length := by
    dsimp only [Option.getD_some] at hhandle
    split at hhandle
    · rename_i hlen
      cases hhandle
      refine ⟨rfl, ?_⟩
      rintro x ⟨⟩
      exact ⟨rfl, hlen.trans h.count⟩
    · cases hhandle
      exact ⟨rfl, by simp⟩
  obtain ⟨rfl, hsent⟩ := hsent
  cases hstep
  constructor
  · exact h.nodup
  · exact h.count
  · rintro _ ⟨⟩
    exact hstays.symm ▸ hheld
  · exact h.heldMap
  · constructor
    · intro x hx
      obtain hx | hx := List.mem_append.mp hx
      · exact h.perEpoch.emitted x hx
      · obtain ⟨y, hy, rfl⟩ := List.mem_map.mp hx
        obtain ⟨hl, hlen⟩ := hsent y (Option.mem_toList.mp hy)
        dsimp only
        rw [hl]
        exact ⟨hheld.perm hlen, hheld.oneEpoch⟩
    · exact h.perEpoch.broadcast

/-- The map after timely results of a committee. -/
theorem Inv.heldMap_results {n : Node}
    (h : Inv s) (htimely : TimelyResults s res)
    (hadd : s.node.addReconfigResults order res = some n) :
    ∃ m, n = { s.node with com2ReconfigResults := some m } ∧ HeldMap s.node.shardNum m := by
  obtain ⟨hlt, hne, hone, hnew⟩ := htimely
  obtain rfl | ⟨m, last, lastHeight, height, hm, hlast, hlastHeight, hheight, hge, hfresh, rfl⟩ :=
    addReconfigResults_cases (fun m hm => (h.heldMap m hm).ne_nil) hadd
  · exact ⟨_, rfl, heldMap_single hlt hne hone⟩
  · refine ⟨_, rfl, (h.heldMap m hm).insert hlt hne hone hfresh ?_⟩
    obtain hnewer | hsame := hnew m hm
    · -- the entry the loop looked at is not older
      obtain ⟨r, hr, rfl⟩ := Option.map_eq_some_iff.mp hlastHeight
      obtain ⟨r', hr', rfl⟩ := Option.map_eq_some_iff.mp hheight
      exact absurd (hnewer last hlast r (List.mem_of_head? hr) r' (List.mem_of_head? hr')) hge
    · exact hsame

theorem Inv.results (h : Inv s)
    (htimely : TimelyResults s res) (hstep : Collect.results s order res = some s') : Inv s' := by
  obtain ⟨⟨n, broadcast⟩, hhandle, hstep⟩ := Option.bind_eq_some_iff.mp hstep
  obtain ⟨n', hadd, hhandle⟩ := Option.bind_eq_some_iff.mp hhandle
  obtain ⟨m, rfl, hheld⟩ := h.heldMap_results htimely hadd
  -- the map is sent exactly when it has an entry for each committee
  have hsent : n = { s.node with com2ReconfigResults := some m } ∧
      ∀ x ∈ broadcast, x = m ∧ m.keys.length = s.node.shardNum := by
    dsimp only [Option.getD_some] at hhandle
    split at hhandle
    · rename_i hlen
      cases hhandle
      refine ⟨rfl, ?_⟩
      rintro x ⟨⟩
      exact ⟨rfl, hlen⟩
    · cases hhandle
      exact ⟨rfl, by simp⟩
  obtain ⟨rfl, hsent⟩ := hsent
  cases hstep
  constructor
  · exact h.nodup
  · exact h.count
  · exact h.held
  · rintro _ ⟨⟩
    exact hheld
  · constructor
    · exact h.perEpoch.emitted
    · intro x hx
      obtain hx | hx := List.mem_append.mp hx
      · exact h.perEpoch.broadcast x hx
      · obtain ⟨rfl, hlen⟩ := hsent x (Option.mem_toList.mp hx)
        exact ⟨hheld.mem_iff hlen, hheld.own, hheld.oneEpoch⟩

theorem Inv.reconfigured {nodeInfo : NodeInfo} (h : Inv s)
    (hstep : Collect.reconfigured s nodeInfo members = some s') : Inv s' := by
  unfold Collect.reconfigured at hstep
  split at hstep
  · rename_i hnodup
    cases hstep
    constructor
    · exact hnodup
    · rfl
    · intro l hl
      -- nothing is known any more of whose results these are
      constructor
      · exact (h.held l hl).ne_nil
      · exact (h.held l hl).oneEpoch
      · rintro ⟨⟩
      · rintro ⟨⟩
    · exact h.heldMap
    · exact ⟨h.perEpoch.emitted, h.perEpoch.broadcast⟩
  · cases hstep

theorem Inv.step {ev : Event} (h : Inv s) (htimely : timely s ev)
    (hstep : Collect.step s ev = some s') : Inv s' := by
  cases ev with
  | result res => exact h.result htimely hstep
  | results order res => exact h.results htimely hstep
  | reconfigured nodeInfo members => exact h.reconfigured hstep

/-- In a run in which every result comes in time and once, what the leader sends is complete
and of one epoch. -/
theorem perEpoch_of_timely {s : State} (h : machine.ReachableBy timely s) : s.PerEpoch :=
  (machine.invariant_by Inv (fun _ hs => .init hs)
    (fun _ _ _ htimely hstep hs => hs.step htimely hstep) h).perEpoch

/-! ## Two epochs of four nodes -/

/-- The node `i` of committee 0. -/
def sampleInfo (i : ℕ) : NodeInfo := ⟨0, 0, i, "127.0.0.1"⟩

def sampleMembers : List NodeInfo := (List.range 4).map sampleInfo

def sampleResult (seedHeight i : ℕ) : ReconfigResult :=
  { seed := 0, seedHeight := seedHeight, vrf := [0], addr := 0, oldNodeInfo := sampleInfo i,
    belong_ComID := 0, newComID := 0 }

def sampleResults (seedHeight comID : ℕ) : ComReconfigResults :=
  ⟨comID, (List.range 4).map (sampleResult seedHeight), 4⟩

/-- A leader of one of two committees. -/
def sampleStart : State :=
  { node :=
      { shardNum := 2, nodeInfo := sampleInfo 0, comAllNodeNum := 4, comNodeTable := fun _ => none,
        reconfigResult := none, reconfigResults := none, com2ReconfigResults := none }
    members := sampleMembers, collecting := false, emitted := [], broadcast := [] }

theorem sampleStart_initial : Initial sampleStart :=
  ⟨rfl, rfl, by decide, rfl, rfl, rfl⟩

/-- The reconfiguration with seed height 10. -/
def firstEpoch : List Event :=
  (List.range 4).map (fun i => .result (sampleResult 10 i)) ++
    [.results .listed (sampleResults 10 0), .results .listed (sampleResults 10 1),
      .reconfigured (sampleInfo 0) sampleMembers]

theorem perEpoch_sampleRun : ∃ s, machine.ReachableBy timely s ∧
    (s.emitted.length = 2 ∧ s.broadcast.length = 2) ∧ s.PerEpoch := by
  have hrun : ∃ s, machine.ReachableBy timely s ∧
      s.emitted.length = 2 ∧ s.broadcast.length = 2 :=
    Sys.Machine.exists_reachableBy _ sampleStart_initial
      (firstEpoch ++ (List.range 4).map (fun i => .result (sampleResult 20 i)) ++
        [.results .listed (sampleResults 20 0), .results .listed (sampleResults 20 1)])
      (by decide +kernel)
  obtain ⟨s, hs, hlen⟩ := hrun
  exact ⟨s, hs, hlen, perEpoch_of_timely hs⟩

/-- In the second epoch the result of node 1 comes twice, so that the one of node 3 is not
waited for, and the results of committee 1 are those of the first epoch again. -/
theorem repeated_and_late : ∃ s, machine.Reachable s ∧
    (∃ x ∈ s.emitted, ¬ (x.2.results.map (·.oldNodeInfo)).Perm x.1) ∧
    ∃ m ∈ s.broadcast, ¬ OneEpoch (m.entries.flatMap fun e => e.2.results) :=
  Sys.Machine.exists_reachableBy _ sampleStart_initial
    (firstEpoch ++ [0, 1, 1, 2].map (fun i => .result (sampleResult 20 i)) ++
      [.results .listed (sampleResults 20 0), .results .listed (sampleResults 10 1)])
    (by decide +kernel)

end Collect

end Reconfig

end LessChain
