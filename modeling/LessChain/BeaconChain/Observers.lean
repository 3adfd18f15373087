import LessChain.BeaconChain.Block

/-!
# Every observer builds the same blocks

Two nodes that read the same events, however these are split between their calls, return the
same blocks as far as both have come. Each of them returns the beginning of `blocksOf`: the
blocks of all heights that occur, with everything that belongs to them.
-/

namespace LessChain

namespace BeaconChain

/-- The events of a run are in order and well formed. -/
structure InOrder (shardNum : ℕ) (events : List Event) : Prop where
  sorted : (events.map (·.ethHeight)).Pairwise (· ≤ ·)
  pos : ∀ e ∈ events, 0 < e.ethHeight
  shardID : ∀ e ∈ events, e.shardID < shardNum

variable {events : List Event} {shardNum : ℕ}

theorem InOrder.left {events' : List Event}
    (h : InOrder shardNum (events ++ events')) : InOrder shardNum events where
  sorted := by
    have := h.sorted
    rw [List.map_append, List.pairwise_append] at this
    exact this.1
  pos := fun e he => h.pos e (List.mem_append_left _ he)
  shardID := fun e he => h.shardID e (List.mem_append_left _ he)

theorem InOrder.le {events' : List Event}
    (h : InOrder shardNum (events ++ events')) {e e' : Event} (he : e ∈ events)
    (he' : e' ∈ events') : e.ethHeight ≤ e'.ethHeight := by
  have := h.sorted
  rw [List.map_append, List.pairwise_append] at this
  exact this.2.2 _ (List.mem_map_of_mem he) _ (List.mem_map_of_mem he')

/-- The events whose block was not returned yet. -/
def pendingOf (events : List Event) (blocks : List TBBlock) : List Event :=
  events.filter fun e => e.ethHeight ∉ blocks.map (·.height)

/-- A node has read `events` and returned `blocks`: those of the lowest heights, each after an
event of a greater height. The other events are in the map. -/
structure Inv (shardNum : ℕ) (events : List Event) (c : TBChain) (blocks : List TBBlock) :
    Prop where
  shards : c.shardNum = shardNum
  height : c.height = 0
  sorted : (blocks.map (·.height)).Pairwise (· < ·)
  occurs : ∀ b ∈ blocks, ∃ e ∈ events, e.ethHeight = b.height
  passed : ∀ b ∈ blocks, ∃ e ∈ events, b.height < e.ethHeight
  initial : ∀ e ∈ events, ∀ b ∈ blocks, e.ethHeight < b.height →
    e.ethHeight ∈ blocks.map (·.height)
  content : ∀ b ∈ blocks, untimed b = blockOf shardNum events b.height
  pending : Holds c.geth_tbs_new (pendingOf events blocks)

theorem inv_newTBChain (shardNum : ℕ) : Inv shardNum [] (newTBChain shardNum) [] where
  shards := rfl
  height := rfl
  sorted := .nil
  occurs := by simp
  passed := by simp
  initial := by simp
  content := by simp
  pending := holds_nil

section Step

variable {shardNum : ℕ} {events events' : List Event} {c : TBChain} {blocks : List TBBlock}

/-- No event comes for a block that was returned. -/
theorem Inv.notMem_heights (h : Inv shardNum events c blocks)
    (hord : InOrder shardNum (events ++ events')) {e : Event} (he : e ∈ events') :
    e.ethHeight ∉ blocks.map (·.height) := by
  intro hin
  obtain ⟨b, hb, heq⟩ := List.mem_map.mp hin
  obtain ⟨e₀, he₀, hlt⟩ := h.passed b hb
  have hle := hord.le he₀ he
  omega

theorem Inv.pendingOf_append (h : Inv shardNum events c blocks)
    (hord : InOrder shardNum (events ++ events')) :
    pendingOf (events ++ events') blocks = pendingOf events blocks ++ events' := by
  unfold pendingOf
  rw [List.filter_append]
  congr 1
  rw [List.filter_eq_self]
  intro e he
  simpa using h.notMem_heights hord he

/-- What is pending and what is read next is in order, as all events are. -/
theorem Inv.pending_inOrder (h : Inv shardNum events c blocks)
    (hord : InOrder shardNum (events ++ events')) :
    InOrder shardNum (pendingOf events blocks ++ events') := by
  have hsub : List.Sublist (pendingOf events blocks ++ events') (events ++ events') := by
    rw [← h.pendingOf_append hord]
    exact List.filter_sublist
  exact ⟨hord.sorted.sublist (hsub.map _), fun e he => hord.pos e (hsub.subset he),
    fun e he => hord.shardID e (hsub.subset he)⟩

/-- More events are read, and no block is returned. -/
theorem Inv.read (h : Inv shardNum events c blocks)
    (hord : InOrder shardNum (events ++ events')) {m : GethTBs}
    (hholds : Holds m (pendingOf (events ++ events') blocks)) :
    Inv shardNum (events ++ events') { c with geth_tbs_new := m } blocks := by
  refine { h with occurs := ?_, passed := ?_, initial := ?_, content := ?_, pending := hholds }
  · intro b hb
    obtain ⟨e, he, heq⟩ := h.occurs b hb
    exact ⟨e, List.mem_append_left _ he, heq⟩
  · intro b hb
    obtain ⟨e, he, hlt⟩ := h.passed b hb
    exact ⟨e, List.mem_append_left _ he, hlt⟩
  · intro e he b hb hlt
    rcases List.mem_append.mp he with he | he
    · exact h.initial e he b hb hlt
    · -- an event that comes now is above every block returned
      obtain ⟨e₀, he₀, hlt₀⟩ := h.passed b hb
      have hle := hord.le he₀ he
      omega
  · intro b hb
    have hnone : ∀ e ∈ events', e.ethHeight ≠ b.height := by
      intro e he heq
      exact h.notMem_heights hord he (heq ▸ List.mem_map_of_mem hb)
    rw [h.content b hb]
    unfold blockOf
    simp only [beaconsOf_append, beaconsOf_eq_nil hnone, List.append_nil]

theorem untimed_confirm (now height start : ℕ) (l : List ℕ) (tbs : ℕ → List TimeBeacon) :
    untimed ⟨now, start, l.map fun shardID => (tbs shardID).map (confirm now height)⟩ =
      ⟨0, start, l.map fun shardID => (tbs shardID).map (confirm 0 height)⟩ := by
  simp [untimed, confirm]

/-- The block of the lowest height is returned. -/
theorem Inv.pack (h : Inv shardNum events c blocks) {start now : ℕ} {m : GethTBs}
    (hholds : Holds m (pendingOf events blocks))
    (hmem : ∃ e ∈ pendingOf events blocks, e.ethHeight = start)
    (hle : ∀ e ∈ pendingOf events blocks, start ≤ e.ethHeight)
    (hlater : ∃ e ∈ events, start < e.ethHeight) {tbs : ℕ → List ConfirmedTB}
    {confirmTBs : List (List ConfirmedTB)}
    (hconfirm : confirmTBs = (List.range shardNum).map fun shardID =>
      ((((m.lookup start).getD ∅).lookup shardID).getD []).map (confirm now c.height)) :
    Inv shardNum events { c with tbs := tbs, geth_tbs_new := m.erase start }
      (blocks ++ [⟨now, start, confirmTBs⟩]) := by
  obtain ⟨e₀, he₀, heq₀⟩ := hmem
  obtain ⟨hin₀, hnew₀⟩ := List.mem_filter.mp he₀
  have hnew : start ∉ blocks.map (·.height) := by
    rw [← heq₀]
    simpa using hnew₀
  -- a lower height that occurs has been returned
  have hlow : ∀ e ∈ events, e.ethHeight < start → e.ethHeight ∈ blocks.map (·.height) := by
    intro e he hlt
    by_contra hnot
    have := hle e (List.mem_filter.mpr ⟨he, by simpa using hnot⟩)
    omega
  constructor
  · exact h.shards
  · exact h.height
  · rw [List.map_append, List.pairwise_append]
    refine ⟨h.sorted, by simp, ?_⟩
    intro height hheight height' hheight'
    rw [List.mem_singleton.mp hheight']
    obtain ⟨b, hb, rfl⟩ := List.mem_map.mp hheight
    rcases Nat.lt_trichotomy b.height start with hlt | heq | hgt
    · exact hlt
    · exact absurd (heq ▸ List.mem_map_of_mem hb) hnew
    · -- the block would have been returned before one of a greater height
      have hin := h.initial e₀ hin₀ b hb (heq₀ ▸ hgt)
      rw [heq₀] at hin
      exact absurd hin hnew
  · intro b hb
    rcases List.mem_append.mp hb with hb | hb
    · exact h.occurs b hb
    · rw [List.mem_singleton.mp hb]
      exact ⟨e₀, hin₀, heq₀⟩
  · intro b hb
    rcases List.mem_append.mp hb with hb | hb
    · exact h.passed b hb
    · rw [List.mem_singleton.mp hb]
      exact hlater
  · intro e he b hb hlt
    rw [List.map_append, List.mem_append]
    rcases List.mem_append.mp hb with hb | hb
    · exact .inl (h.initial e he b hb hlt)
    · rw [List.mem_singleton.mp hb] at hlt
      exact .inl (hlow e he hlt)
  · intro b hb
    rcases List.mem_append.mp hb with hb | hb
    · exact h.content b hb
    · rw [List.mem_singleton.mp hb, hconfirm, untimed_confirm, h.height]
      unfold blockOf
      congr 2
      funext shardID
      rw [hholds.beacons]
      congr 1
      apply beaconsOf_filter
      intro e _ heq
      rw [heq]
      simpa using hnew
  · have hpending : pendingOf events (blocks ++ [⟨now, start, confirmTBs⟩]) =
        (pendingOf events blocks).filter fun e => e.ethHeight ≠ start := by
      unfold pendingOf
      rw [List.filter_filter]
      apply List.filter_congr
      intro e _
      rw [List.map_append, List.map_singleton]
      by_cases heq : e.ethHeight = start
      · simp [heq]
      · simp [heq]
    rw [hpending]
    exact hholds.erase start

/-- A call does not panic, and keeps the node where it should be. -/
theorem Inv.generate (h : Inv shardNum events c blocks) {call : Call}
    (hord : InOrder shardNum (events ++ call.events)) :
    ∃ c' block, generateEthChainBlock call.order call.events call.now c = some (c', block) ∧
      Inv shardNum (events ++ call.events) c' (blocks ++ block.toList) := by
  have happend := h.pendingOf_append hord
  have hpending := h.pending_inOrder hord
  have hdrained := drained call.order h.pending hpending.pos hpending.sorted
  unfold generateEthChainBlock
  dsimp only
  generalize call.events.foldl Drain.read _ = d at hdrained
  obtain ⟨hholds, hmem, hle, hlater⟩ := hdrained
  rw [← happend] at hholds hmem hle
  have hread := h.read hord hholds
  by_cases hpack : d.to_pack = false
  · rw [if_pos hpack]
    exact ⟨_, none, rfl, by simpa using hread⟩
  · rw [if_neg hpack]
    rw [Bool.not_eq_false] at hpack
    -- the new block has a slot for each shard, and panics at any other index
    have hshards : ∀ shardID ∈ (d.geth_tbs_new.lookup d.start_eth_height).getD ∅,
        shardID < c.shardNum := by
      intro shardID hin
      rw [h.shards]
      cases hlook : d.geth_tbs_new.lookup d.start_eth_height with
      | none =>
          rw [hlook] at hin
          exact absurd hin (AList.notMem_empty shardID)
      | some tbs =>
          rw [hlook] at hin
          obtain ⟨e, he, -, rfl⟩ := hholds.shards _ tbs hlook shardID hin
          exact hord.shardID e (List.mem_filter.mp he).1
    obtain ⟨tbs', hrun⟩ := packShards call.order hshards call.now c.height c.tbs
    rw [hrun]
    obtain ⟨e, he, hlt⟩ := hlater hpack
    refine ⟨_, _, rfl, ?_⟩
    apply hread.pack hholds (hmem hpack) (hle hpack) ⟨e, List.mem_append_right _ he, hlt⟩
    rw [h.shards]

end Step

/-! ## Runs -/

theorem inv_generateBlocks (calls : List Call) {c : TBChain}
    {blocks : List TBBlock} (h : Inv shardNum events c blocks)
    (hord : InOrder shardNum (events ++ calls.flatMap Call.events)) :
    ∃ c' blocks', generateBlocks c calls = some (c', blocks') ∧
      Inv shardNum (events ++ calls.flatMap Call.events) c' (blocks ++ blocks') := by
  induction calls generalizing events c blocks with
  | nil => exact ⟨c, [], rfl, by simpa using h⟩
  | cons call calls ih =>
      rw [List.flatMap_cons, ← List.append_assoc] at hord ⊢
      obtain ⟨c₁, block, hrun, h₁⟩ := h.generate hord.left
      obtain ⟨c₂, blocks₂, hrun₂, h₂⟩ := ih h₁ hord
      refine ⟨c₂, block.toList ++ blocks₂, ?_, ?_⟩
      · rw [generateBlocks, hrun]
        dsimp only [Option.bind_eq_bind, Option.bind_some]
        rw [hrun₂]
        rfl
      · rwa [← List.append_assoc]

/-- The blocks returned are the first of the blocks there should be. -/
theorem Inv.prefix_blocksOf {c : TBChain}
    {blocks : List TBBlock} (h : Inv shardNum events c blocks) (hord : InOrder shardNum events) :
    blocks.map untimed <+: blocksOf shardNum events := by
  have hheights : blocks.map (·.height) <+: (events.map (·.ethHeight)).dedup := by
    refine Sys.prefix_of_initial h.sorted (Sys.pairwise_lt_dedup hord.sorted) ?_ ?_
    · intro x hx
      obtain ⟨b, hb, rfl⟩ := List.mem_map.mp hx
      obtain ⟨e, he, heq⟩ := h.occurs b hb
      rw [List.mem_dedup]
      exact List.mem_map.mpr ⟨e, he, heq⟩
    · intro x hx y hy hlt
      obtain ⟨e, he, rfl⟩ := List.mem_map.mp (List.mem_dedup.mp hx)
      obtain ⟨b, hb, rfl⟩ := List.mem_map.mp hy
      exact h.initial e he b hb hlt
  have hblocks : blocks.map untimed = (blocks.map (·.height)).map (blockOf shardNum events) := by
    rw [List.map_map]
    exact List.map_congr_left h.content
  rw [hblocks]
  exact hheights.map _

/-- Two nodes that read the same events in order, split as may be between their calls: neither
panics, the heights of the blocks of each are strictly increasing, the blocks of each are the
first of `blocksOf`, and those of one are the first of the other's. -/
theorem same_blocks (shardNum : ℕ) (calls calls' : List Call)
    (hsame : calls'.flatMap Call.events = calls.flatMap Call.events)
    (hord : InOrder shardNum (calls.flatMap Call.events)) :
    ∃ c blocks c' blocks', generateBlocks (newTBChain shardNum) calls = some (c, blocks) ∧
      generateBlocks (newTBChain shardNum) calls' = some (c', blocks') ∧
      (blocks.map (·.height)).Pairwise (· < ·) ∧
      blocks.map untimed <+: blocksOf shardNum (calls.flatMap Call.events) ∧
      (blocks.map untimed <+: blocks'.map untimed ∨
        blocks'.map untimed <+: blocks.map untimed) := by
  obtain ⟨c, blocks, hrun, h⟩ := inv_generateBlocks calls (inv_newTBChain shardNum)
    (by simpa using hord)
  obtain ⟨c', blocks', hrun', h'⟩ := inv_generateBlocks calls' (inv_newTBChain shardNum)
    (by simpa [hsame] using hord)
  simp only [List.nil_append] at h h'
  rw [hsame] at h'
  have hpre := h.prefix_blocksOf hord
  have hpre' := h'.prefix_blocksOf hord
  exact ⟨c, blocks, c', blocks', hrun, hrun', h.sorted, hpre,
    List.prefix_or_prefix_of_prefix hpre hpre'⟩

/-- Three events of two heights, read at once or one by one. -/
def exampleEvents : List Event := [⟨0, 1, 5⟩, ⟨1, 1, 5⟩, ⟨0, 2, 7⟩]

theorem same_blocks_exampleEvents :
    ∃ c blocks c' blocks',
      generateBlocks (newTBChain 2) [⟨.listed, exampleEvents, 100⟩] = some (c, blocks) ∧
      generateBlocks (newTBChain 2) (exampleEvents.map fun e => ⟨.backwards, [e], 200⟩) =
        some (c', blocks') ∧
      (blocks.map (·.height)).Pairwise (· < ·) ∧
      blocks.map untimed <+: blocksOf 2 exampleEvents ∧
      (blocks.map untimed <+: blocks'.map untimed ∨
        blocks'.map untimed <+: blocks.map untimed) :=
  same_blocks 2 [⟨.listed, exampleEvents, 100⟩] (exampleEvents.map fun e => ⟨.backwards, [e], 200⟩)
    rfl ⟨by decide, by decide, by decide⟩

end BeaconChain

end LessChain
