import LessChain.Core.Types
import LessChain.Lib.Fold
import LessChain.Lib.Order
import Mathlib.Data.List.AList

/-!
# The blocks a node makes of the beacon chain

`generateEthChainBlock` collects the `addTB` events by the height of their Ethereum block. It
returns the block of the lowest height it has, once it reads an event of a greater height:
only then has it all events of the lower one. A call reads what has come into the channel
since the last one, so every node splits the same events differently.
-/

namespace LessChain

namespace BeaconChain

/-- `eth_chain.Event` with the message `addTB`. -/
structure Event where
  shardID : ℕ
  height : ℕ
  ethHeight : ℕ
deriving DecidableEq, Repr

/-- The beacon made of an event. -/
def Event.tb (event : Event) : TimeBeacon := ⟨event.shardID, event.height, "", "", ""⟩

/-- `map[uint32][]*core.TimeBeacon`. -/
abbrev ShardTBs := AList fun _ : ℕ => List TimeBeacon

/-- `map[uint64]map[uint32][]*core.TimeBeacon`. -/
abbrev GethTBs := AList fun _ : ℕ => ShardTBs

/-- `BeaconChain` as far as the Ethereum modes use it. -/
structure TBChain where
  shardNum : ℕ
  tbs : ℕ → List ConfirmedTB
  height : ℕ
  geth_tbs_new : GethTBs

/-- `NewTBChain`. -/
def newTBChain (shardNum : ℕ) : TBChain := ⟨shardNum, fun _ => [], 0, ∅⟩

/-- The loop that looks for the lowest height; 0 stands for none. -/
def startHeight (heights : List ℕ) : ℕ :=
  heights.foldl (fun start h => if start = 0 then h else if h < start then h else start) 0

/-- `geth_tbs_new[event.Eth_height][tb.ShardID] = append(.., tb)`. -/
def addEvent (m : GethTBs) (event : Event) : GethTBs :=
  let tbs := (m.lookup event.ethHeight).getD ∅
  m.insert event.ethHeight
    (tbs.insert event.shardID ((tbs.lookup event.shardID).getD [] ++ [event.tb]))

/-- The variables of the loop that empties the channel. -/
structure Drain where
  start_eth_height : ℕ
  to_pack : Bool
  geth_tbs_new : GethTBs

/-- One event is read. -/
def Drain.read (d : Drain) (event : Event) : Drain :=
  let start := if d.start_eth_height = 0 then event.ethHeight else d.start_eth_height
  { start_eth_height := start
    to_pack := d.to_pack || decide (event.ethHeight > start)
    geth_tbs_new := addEvent d.geth_tbs_new event }

def confirm (now height : ℕ) (tb : TimeBeacon) : ConfirmedTB := ⟨tb, now, height⟩

/-- The beacons of one shard go into the block; a shard ID that is too large panics. -/
def packShard (now height : ℕ) (acc : List (List ConfirmedTB) × (ℕ → List ConfirmedTB))
    (entry : Σ _ : ℕ, List TimeBeacon) : Option (List (List ConfirmedTB) × (ℕ → List ConfirmedTB)) :=
  if entry.1 < acc.1.length then
    let confirmTBs := acc.1.modify entry.1 (· ++ entry.2.map (confirm now height))
    some (confirmTBs, Function.update acc.2 entry.1
      (acc.2 entry.1 ++ (confirmTBs[entry.1]?).getD []))
  else none

/-- `generateEthChainBlock`, with the events that are in the channel, the time, and the orders
in which the two maps are walked. -/
def generateEthChainBlock (order : Sys.Order) (events : List Event) (now : ℕ) (c : TBChain) :
    Option (TBChain × Option TBBlock) :=
  let d := events.foldl Drain.read ⟨startHeight (order.iter c.geth_tbs_new.keys), false, c.geth_tbs_new⟩
  if d.to_pack = false then some ({ c with geth_tbs_new := d.geth_tbs_new }, none)
  else do
    let tbs_new := (d.geth_tbs_new.lookup d.start_eth_height).getD ∅
    let (confirmTBs, tbs) ← (order.iter tbs_new.entries).foldlM (packShard now c.height)
      (List.replicate c.shardNum [], c.tbs)
    some ({ c with
        tbs := tbs
        geth_tbs_new := d.geth_tbs_new.erase d.start_eth_height },
      some ⟨now, d.start_eth_height, confirmTBs⟩)

/-- One call, at a tick of `loop`. -/
structure Call where
  order : Sys.Order
  events : List Event
  now : ℕ

/-- The calls one after the other, and the blocks that `loop` gets. -/
def generateBlocks : TBChain → List Call → Option (TBChain × List TBBlock)
  | c, [] => some (c, [])
  | c, call :: calls => do
      let (c, block) ← generateEthChainBlock call.order call.events call.now c
      let (c, blocks) ← generateBlocks c calls
      some (c, block.toList ++ blocks)

/-! ## What the blocks should be -/

/-- The beacons of a shard among the events of a height, as they came. -/
def beaconsOf (events : List Event) (ethHeight shardID : ℕ) : List TimeBeacon :=
  (events.filter fun e => e.ethHeight = ethHeight ∧ e.shardID = shardID).map Event.tb

/-- The block of a height, at time 0. -/
def blockOf (shardNum : ℕ) (events : List Event) (ethHeight : ℕ) : TBBlock :=
  ⟨0, ethHeight, (List.range shardNum).map fun shardID =>
    (beaconsOf events ethHeight shardID).map (confirm 0 0)⟩

/-- The blocks of the heights that occur, in their order. -/
def blocksOf (shardNum : ℕ) (events : List Event) : List TBBlock :=
  (events.map (·.ethHeight)).dedup.map (blockOf shardNum events)

/-- The block without its timestamps. -/
def untimed (b : TBBlock) : TBBlock :=
  { b with time := 0, tbs := b.tbs.map fun l => l.map fun tb => { tb with confirmTime := 0 } }

/-! ## The pending events -/

/-- The map holds exactly these events. -/
structure Holds (m : GethTBs) (events : List Event) : Prop where
  mem : ∀ h, h ∈ m ↔ ∃ e ∈ events, e.ethHeight = h
  shards : ∀ h tbs, m.lookup h = some tbs → ∀ shardID ∈ tbs,
    ∃ e ∈ events, e.ethHeight = h ∧ e.shardID = shardID
  beacons : ∀ h shardID,
    (((m.lookup h).getD ∅).lookup shardID).getD [] = beaconsOf events h shardID

theorem holds_nil : Holds ∅ [] where
  mem := by simp
  shards := by simp
  beacons := by simp [beaconsOf]

theorem beaconsOf_append (events events' : List Event) (h shardID : ℕ) :
    beaconsOf (events ++ events') h shardID =
      beaconsOf events h shardID ++ beaconsOf events' h shardID := by
  simp [beaconsOf]

variable {m : GethTBs} {events pending : List Event}

theorem beaconsOf_eq_nil {h : ℕ} (hne : ∀ e ∈ events, e.ethHeight ≠ h)
    (shardID : ℕ) : beaconsOf events h shardID = [] := by
  unfold beaconsOf
  rw [List.map_eq_nil_iff, List.filter_eq_nil_iff]
  intro e he hand
  exact hne e he (of_decide_eq_true hand).1

/-- Leaving out events of other heights changes nothing. -/
theorem beaconsOf_filter {p : Event → Bool} {h : ℕ}
    (hp : ∀ e ∈ events, e.ethHeight = h → p e = true) (shardID : ℕ) :
    beaconsOf (events.filter p) h shardID = beaconsOf events h shardID := by
  unfold beaconsOf
  rw [List.filter_filter]
  congr 1
  apply List.filter_congr
  intro e he
  by_cases heh : e.ethHeight = h
  · simp [hp e he heh]
  · simp [heh]

theorem Holds.add (h : Holds m events) (event : Event) :
    Holds (addEvent m event) (events ++ [event]) := by
  constructor
  · intro height
    rw [addEvent, AList.mem_insert, h.mem]
    constructor
    · rintro (rfl | ⟨e, he, rfl⟩)
      · exact ⟨event, by simp, rfl⟩
      · exact ⟨e, by simp [he], rfl⟩
    · rintro ⟨e, he, rfl⟩
      rcases List.mem_append.mp he with he | he
      · exact .inr ⟨e, he, rfl⟩
      · rw [List.mem_singleton.mp he]
        exact .inl rfl
  · intro height tbs htbs shardID hin
    by_cases hheight : height = event.ethHeight
    · subst hheight
      rw [addEvent, AList.lookup_insert, Option.some.injEq] at htbs
      rw [← htbs, AList.mem_insert] at hin
      rcases hin with rfl | hin
      · exact ⟨event, by simp, rfl, rfl⟩
      · -- the shard had beacons at this height before
        cases hold : m.lookup event.ethHeight with
        | none =>
            rw [hold] at hin
            exact absurd hin (AList.notMem_empty shardID)
        | some tbs' =>
            rw [hold] at hin
            obtain ⟨e, he, hes⟩ := h.shards _ tbs' hold shardID hin
            exact ⟨e, by simp [he], hes⟩
    · rw [addEvent, AList.lookup_insert_ne hheight] at htbs
      obtain ⟨e, he, hes⟩ := h.shards height tbs htbs shardID hin
      exact ⟨e, by simp [he], hes⟩
  · intro height shardID
    rw [beaconsOf_append, ← h.beacons height shardID]
    by_cases hheight : height = event.ethHeight
    · subst hheight
      rw [addEvent, AList.lookup_insert, Option.getD_some]
      by_cases hshard : shardID = event.shardID
      · subst hshard
        rw [AList.lookup_insert, Option.getD_some]
        simp [beaconsOf]
      · rw [AList.lookup_insert_ne hshard]
        simp [beaconsOf, Ne.symm hshard]
    · rw [addEvent, AList.lookup_insert_ne hheight]
      simp [beaconsOf, Ne.symm hheight]

theorem Holds.addAll (h : Holds m pending)
    (events : List Event) : Holds (events.foldl addEvent m) (pending ++ events) := by
  induction events generalizing m pending with
  | nil => simpa using h
  | cons event events ih =>
      rw [List.foldl_cons, List.append_cons]
      exact ih (h.add event)

theorem Holds.erase (h : Holds m events) (height : ℕ) :
    Holds (m.erase height) (events.filter fun e => e.ethHeight ≠ height) := by
  constructor
  · intro height'
    rw [AList.mem_erase, h.mem]
    constructor
    · rintro ⟨hne, e, he, rfl⟩
      exact ⟨e, by simp [he, hne], rfl⟩
    · rintro ⟨e, he, rfl⟩
      rw [List.mem_filter] at he
      exact ⟨by simpa using he.2, e, he.1, rfl⟩
  · intro height' tbs htbs shardID hin
    by_cases hne : height' = height
    · rw [hne, AList.lookup_erase] at htbs
      cases htbs
    · rw [AList.lookup_erase_ne hne] at htbs
      obtain ⟨e, he, heh, hes⟩ := h.shards height' tbs htbs shardID hin
      exact ⟨e, by simp [he, heh, hne], heh, hes⟩
  · intro height' shardID
    by_cases hne : height' = height
    · rw [hne, AList.lookup_erase, Option.getD_none, AList.lookup_empty, Option.getD_none]
      symm
      apply beaconsOf_eq_nil
      intro e he
      simpa using (List.mem_filter.mp he).2
    · rw [AList.lookup_erase_ne hne, h.beacons]
      symm
      apply beaconsOf_filter
      intro e _ heh
      simp [heh, hne]

/-! ## The two loops -/

theorem foldl_start {l : List ℕ} {start : ℕ} (hstart : 0 < start) (hpos : ∀ x ∈ l, 0 < x) :
    let r := l.foldl (fun start h => if start = 0 then h else if h < start then h else start) start
    r ∈ start :: l ∧ ∀ x ∈ start :: l, r ≤ x := by
  induction l generalizing start with
  | nil => simp
  | cons a l ih =>
      have ha : 0 < a := hpos a List.mem_cons_self
      have hl : ∀ x ∈ l, 0 < x := fun x hx => hpos x (List.mem_cons_of_mem _ hx)
      dsimp only
      -- `start = 0` stands for no height yet, and all heights are positive
      rw [List.foldl_cons, if_neg (by omega)]
      split
      · rename_i hlt
        obtain ⟨hmem, hle⟩ := ih ha hl
        refine ⟨List.mem_cons_of_mem _ hmem, ?_⟩
        intro x hx
        rcases List.mem_cons.mp hx with rfl | hx
        · exact (hle a List.mem_cons_self).trans hlt.le
        · exact hle x hx
      · rename_i hge
        obtain ⟨hmem, hle⟩ := ih hstart hl
        constructor
        · rcases List.mem_cons.mp hmem with heq | hmem
          · rw [heq]
            exact List.mem_cons_self
          · exact List.mem_cons_of_mem _ (List.mem_cons_of_mem _ hmem)
        · intro x hx
          rcases List.mem_cons.mp hx with rfl | hx
          · exact hle x List.mem_cons_self
          · rcases List.mem_cons.mp hx with rfl | hx
            · exact (hle start List.mem_cons_self).trans (by omega)
            · exact hle x (List.mem_cons_of_mem _ hx)

/-- The least height of a map with positive ones, however it is walked. -/
theorem startHeight_spec {l : List ℕ} (hne : l ≠ []) (hpos : ∀ x ∈ l, 0 < x) :
    startHeight l ∈ l ∧ ∀ x ∈ l, startHeight l ≤ x := by
  cases l with
  | nil => exact absurd rfl hne
  | cons a l =>
      unfold startHeight
      rw [List.foldl_cons, if_pos rfl]
      exact foldl_start (hpos a List.mem_cons_self) fun x hx => hpos x (List.mem_cons_of_mem _ hx)

/-- Once there is a lowest height, it stays for the rest of the call. -/
theorem foldl_read {d : Drain} (hstart : d.start_eth_height ≠ 0) :
    events.foldl Drain.read d =
      ⟨d.start_eth_height,
        d.to_pack || events.any fun e => decide (d.start_eth_height < e.ethHeight),
        events.foldl addEvent d.geth_tbs_new⟩ := by
  induction events generalizing d with
  | nil => simp
  | cons event events ih =>
      have hread : d.read event = ⟨d.start_eth_height,
          d.to_pack || decide (d.start_eth_height < event.ethHeight),
          addEvent d.geth_tbs_new event⟩ := by
        unfold Drain.read
        rw [if_neg hstart]
      rw [List.foldl_cons, hread, List.foldl_cons, List.any_cons, ← Bool.or_assoc]
      exact ih hstart

/-- The loops of a call: the lowest height that is pending or read, and the flag, which is
raised by an event of a greater height. -/
theorem foldl_read_start (order : Sys.Order)
    (h : Holds m pending) (hpos : ∀ e ∈ pending ++ events, 0 < e.ethHeight)
    (hsorted : ((pending ++ events).map (·.ethHeight)).Pairwise (· ≤ ·))
    (hsome : pending ++ events ≠ []) :
    ∃ e₀ ∈ pending ++ events, (∀ e ∈ pending ++ events, e₀.ethHeight ≤ e.ethHeight) ∧
      events.foldl Drain.read ⟨startHeight (order.iter m.keys), false, m⟩ =
        ⟨e₀.ethHeight, events.any fun e => decide (e₀.ethHeight < e.ethHeight),
          events.foldl addEvent m⟩ := by
  rw [List.map_append, List.pairwise_append] at hsorted
  obtain ⟨-, hevents, hcross⟩ := hsorted
  have hkeys : ∀ x ∈ order.iter m.keys, ∃ e ∈ pending, e.ethHeight = x := by
    intro x hx
    rw [Sys.Order.mem_iter] at hx
    exact (h.mem x).mp hx
  by_cases hempty : m.keys = []
  · -- nothing is pending, and the first event gives the lowest height
    have hnone : ∀ e, e ∉ pending := by
      intro e he
      have hin : e.ethHeight ∈ m.keys := (h.mem _).mpr ⟨e, he, rfl⟩
      rw [hempty] at hin
      cases hin
    have hpending : pending = [] := List.eq_nil_iff_forall_not_mem.mpr hnone
    have hstart : startHeight (order.iter m.keys) = 0 := by
      rw [hempty, (order.perm []).eq_nil]
      rfl
    rw [hstart, hpending, List.nil_append]
    cases events with
    | nil => exact absurd hpending (by simpa using hsome)
    | cons event events =>
        have hevent : event.ethHeight ≠ 0 := (hpos event (by simp)).ne'
        have hread : Drain.read ⟨0, false, m⟩ event =
            ⟨event.ethHeight, false, addEvent m event⟩ := by
          simp [Drain.read]
        rw [List.map_cons, List.pairwise_cons] at hevents
        refine ⟨event, List.mem_cons_self, ?_, ?_⟩
        · intro e he
          rcases List.mem_cons.mp he with rfl | he
          · exact le_rfl
          · exact hevents.1 _ (List.mem_map_of_mem he)
        · rw [List.foldl_cons, hread, foldl_read hevent, List.any_cons, List.foldl_cons]
          simp
  · -- the lowest pending height is not above any event
    have hiter : order.iter m.keys ≠ [] := by
      intro hnil
      have hperm := order.perm m.keys
      rw [hnil] at hperm
      exact hempty hperm.symm.eq_nil
    have hkeysPos : ∀ x ∈ order.iter m.keys, 0 < x := by
      intro x hx
      obtain ⟨e, he, rfl⟩ := hkeys x hx
      exact hpos e (List.mem_append_left _ he)
    obtain ⟨hmem, hle⟩ := startHeight_spec hiter hkeysPos
    generalize startHeight (order.iter m.keys) = start at hmem hle
    obtain ⟨e₀, he₀, rfl⟩ := hkeys start hmem
    have hstart : e₀.ethHeight ≠ 0 := (hkeysPos _ hmem).ne'
    refine ⟨e₀, List.mem_append_left _ he₀, ?_, ?_⟩
    · intro e he
      rcases List.mem_append.mp he with he | he
      · apply hle
        rw [Sys.Order.mem_iter]
        exact (h.mem _).mpr ⟨e, he, rfl⟩
      · exact hcross _ (List.mem_map_of_mem he₀) _ (List.mem_map_of_mem he)
    · rw [foldl_read hstart, Bool.false_or]

/-- What a call has found when the channel is empty. -/
structure Drained (pending events : List Event) (d : Drain) : Prop where
  holds : Holds d.geth_tbs_new (pending ++ events)
  mem : d.to_pack = true → ∃ e ∈ pending ++ events, e.ethHeight = d.start_eth_height
  le : d.to_pack = true → ∀ e ∈ pending ++ events, d.start_eth_height ≤ e.ethHeight
  later : d.to_pack = true → ∃ e ∈ events, d.start_eth_height < e.ethHeight

theorem drained (order : Sys.Order)
    (h : Holds m pending) (hpos : ∀ e ∈ pending ++ events, 0 < e.ethHeight)
    (hsorted : ((pending ++ events).map (·.ethHeight)).Pairwise (· ≤ ·)) :
    Drained pending events
      (events.foldl Drain.read ⟨startHeight (order.iter m.keys), false, m⟩) := by
  by_cases hnone : pending ++ events = []
  · obtain ⟨rfl, rfl⟩ := List.append_eq_nil_iff.mp hnone
    exact ⟨h, by simp, by simp, by simp⟩
  · obtain ⟨e₀, he₀, hle, hfold⟩ := foldl_read_start order h hpos hsorted hnone
    rw [hfold]
    refine ⟨h.addAll events, fun _ => ⟨e₀, he₀, rfl⟩, fun _ => hle, ?_⟩
    intro hpack
    dsimp only at hpack ⊢
    rw [List.any_eq_true] at hpack
    obtain ⟨e, he, hlt⟩ := hpack
    exact ⟨e, he, of_decide_eq_true hlt⟩

/-- The beacons of every shard go to its place, in whatever order the shards come. -/
theorem packShards (order : Sys.Order) {tbs_new : ShardTBs} {shardNum : ℕ}
    (hshards : ∀ shardID ∈ tbs_new, shardID < shardNum) (now height : ℕ)
    (tbs : ℕ → List ConfirmedTB) :
    ∃ tbs', (order.iter tbs_new.entries).foldlM (packShard now height)
        (List.replicate shardNum [], tbs) =
      some ((List.range shardNum).map fun shardID =>
        ((tbs_new.lookup shardID).getD []).map (confirm now height), tbs') := by
  -- a shard still to come has an empty place, any other has its beacons
  obtain ⟨⟨confirmTBs, tbs'⟩, hrun, hlength, hplaces, -⟩ := Sys.foldlM_exists
    (f := packShard now height)
    (fun rest acc => acc.1.length = shardNum ∧
      (∀ shardID < shardNum, acc.1[shardID]? = some (if shardID ∈ rest.map (·.1) then []
        else ((tbs_new.lookup shardID).getD []).map (confirm now height))) ∧
      (rest.map (·.1)).Nodup ∧ ∀ entry ∈ rest, entry ∈ tbs_new.entries)
    (by
      rintro ⟨shardID, l⟩ rest ⟨confirmTBs, tbs⟩ ⟨hlength, hplaces, hnodup, hsub⟩
      rw [List.map_cons, List.nodup_cons] at hnodup
      have hentry := hsub _ List.mem_cons_self
      have hlookup : tbs_new.lookup shardID = some l := AList.mem_lookup_iff.mpr hentry
      have hlt : shardID < shardNum := hshards shardID (AList.lookup_isSome.mp (by simp [hlookup]))
      refine ⟨_, if_pos (by simpa [hlength] using hlt), ?_, ?_, hnodup.2, ?_⟩
      · simpa using hlength
      · intro shardID' hlt'
        have hold := hplaces shardID' hlt'
        dsimp only at hold ⊢
        rw [List.getElem?_modify, hold]
        by_cases hsame : shardID = shardID'
        · subst hsame
          rw [if_neg hnodup.1, hlookup]
          simp
        · simp only [if_neg hsame, List.map_cons, List.mem_cons, Ne.symm hsame, false_or]
          rfl
      · intro entry hin
        exact hsub entry (List.mem_cons_of_mem _ hin))
    (order.iter tbs_new.entries) (List.replicate shardNum [], tbs)
    (by
      refine ⟨by simp, ?_, ?_, ?_⟩
      · intro shardID hlt
        rw [List.getElem?_replicate, if_pos hlt, Option.some.injEq]
        split
        · rfl
        · rename_i hnot
          have hnone : shardID ∉ tbs_new := by
            intro hin
            apply hnot
            exact ((order.perm _).map _).mem_iff.mpr hin
          rw [AList.lookup_eq_none.mpr hnone]
          rfl
      · exact ((order.perm _).map _).nodup_iff.mpr tbs_new.keys_nodup
      · intro entry hin
        exact Sys.Order.mem_iter order |>.mp hin)
  refine ⟨tbs', ?_⟩
  rw [hrun, Option.some.injEq, Prod.mk.injEq]
  refine ⟨?_, rfl⟩
  apply List.ext_getElem?
  intro shardID
  by_cases hlt : shardID < shardNum
  · rw [hplaces shardID hlt, List.getElem?_map, List.getElem?_range hlt]
    rfl
  · rw [List.getElem?_eq_none (by simpa [hlength] using hlt), List.getElem?_eq_none (by simpa using hlt)]

end BeaconChain

end LessChain
