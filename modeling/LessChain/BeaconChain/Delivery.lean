import LessChain.BeaconChain.Observers

/-!
# From events to pushed blocks

`loop` calls `generateEthChainBlock` at every tick and hands a block that comes back to
`toPushBlock`. Both wait for something later: the first for an event above the height it packs,
the second for the block `Height2Confirm` above the one it pushes.

The first one looks for that event only among those it reads in the same call. With two heights
left over and an empty channel it returns nothing, although the lower height is complete. The
second looks up a single height, and where the beacon chain has skipped it, a block stays behind
for good.
-/

namespace LessChain

namespace BeaconChain

/-! ## When a block is returned -/

/-- At least two distinct heights. -/
def TwoHeights (heights : List ℕ) : Prop := ∃ h ∈ heights, ∃ h' ∈ heights, h ≠ h'

/-- The heights a call has before it: those left over and those of the events it reads. -/
def pendingHeights (c : TBChain) (events : List Event) : List ℕ :=
  c.geth_tbs_new.keys ++ events.map (·.ethHeight)

theorem isSome_generateEthChainBlock {call : Call} {c c' : TBChain} {block : Option TBBlock}
    (h : generateEthChainBlock call.order call.events call.now c = some (c', block)) :
    block.isSome = (call.events.foldl Drain.read
      ⟨startHeight (call.order.iter c.geth_tbs_new.keys), false, c.geth_tbs_new⟩).to_pack := by
  unfold generateEthChainBlock at h
  dsimp only at h
  split at h
  · rename_i hpack
    cases h
    exact hpack.symm
  · rename_i hpack
    obtain ⟨r, -, h⟩ := Option.bind_eq_some_iff.mp h
    cases h
    simpa using hpack

theorem twoHeights_of_lt {heights : List ℕ} {h h' : ℕ} (hmem : h ∈ heights) (hmem' : h' ∈ heights)
    (hlt : h < h') : TwoHeights heights := ⟨h, hmem, h', hmem', by omega⟩

theorem twoHeights_keys_iff (c : TBChain) :
    TwoHeights c.geth_tbs_new.keys ↔ ¬ c.geth_tbs_new.keys.length < 2 := by
  have hnodup : c.geth_tbs_new.keys.Nodup := c.geth_tbs_new.keys_nodup
  generalize c.geth_tbs_new.keys = keys at hnodup
  match keys with
  | [] => simp [TwoHeights]
  | [x] => simp [TwoHeights]
  | x :: y :: rest =>
      have hne : x ≠ y := by
        rintro rfl
        simp at hnodup
      simp only [List.length_cons, not_lt, Nat.le_add_left, iff_true]
      exact ⟨x, by simp, y, by simp, hne⟩

section Return

variable {shardNum : ℕ} {events : List Event} {c : TBChain} {blocks : List TBBlock} {call : Call}

theorem Inv.mem_keys_iff (h : Inv shardNum events c blocks) {x : ℕ} :
    x ∈ c.geth_tbs_new.keys ↔ ∃ e ∈ pendingOf events blocks, e.ethHeight = x := by
  exact h.pending.mem x

theorem Inv.mem_pendingHeights_iff (h : Inv shardNum events c blocks) {x : ℕ} :
    x ∈ pendingHeights c call.events ↔
      ∃ e ∈ pendingOf events blocks ++ call.events, e.ethHeight = x := by
  rw [pendingHeights, List.mem_append, h.mem_keys_iff, List.mem_map]
  simp only [List.mem_append, or_and_right, exists_or]

/-- A call returns a block exactly if it reads an event above the lowest pending height. -/
theorem Inv.to_pack_iff (h : Inv shardNum events c blocks)
    (hord : InOrder shardNum (events ++ call.events)) :
    (call.events.foldl Drain.read
      ⟨startHeight (call.order.iter c.geth_tbs_new.keys), false, c.geth_tbs_new⟩).to_pack = true ↔
      ∃ x ∈ pendingHeights c call.events, ∃ e ∈ call.events, x < e.ethHeight := by
  have hpending := h.pending_inOrder hord
  by_cases hnone : pendingOf events blocks ++ call.events = []
  · simp [(List.append_eq_nil_iff.mp hnone).2]
  · obtain ⟨e₀, he₀, hle, hfold⟩ :=
      foldl_read_start call.order h.pending hpending.pos hpending.sorted hnone
    rw [hfold]
    dsimp only
    rw [List.any_eq_true]
    constructor
    · rintro ⟨e, he, hlt⟩
      exact ⟨e₀.ethHeight, h.mem_pendingHeights_iff.mpr ⟨e₀, he₀, rfl⟩, e, he,
        of_decide_eq_true hlt⟩
    · rintro ⟨x, hx, e, he, hlt⟩
      obtain ⟨e₁, he₁, rfl⟩ := h.mem_pendingHeights_iff.mp hx
      exact ⟨e, he, decide_eq_true (lt_of_le_of_lt (hle e₁ he₁) hlt)⟩

/-- The flag says that two heights are pending, unless they are all left over from earlier
calls and nothing new is read. -/
theorem Inv.to_pack_iff_twoHeights (h : Inv shardNum events c blocks)
    (hord : InOrder shardNum (events ++ call.events)) :
    ((∃ x ∈ pendingHeights c call.events, ∃ e ∈ call.events, x < e.ethHeight) ↔
      TwoHeights (pendingHeights c call.events)) ↔
      (call.events = [] → c.geth_tbs_new.keys.length < 2) := by
  constructor
  · intro hiff hempty
    by_contra hmany
    have htwo : TwoHeights (pendingHeights c call.events) := by
      rw [pendingHeights, hempty, List.map_nil, List.append_nil]
      exact (twoHeights_keys_iff c).mpr hmany
    obtain ⟨x, -, e, he, -⟩ := hiff.mpr htwo
    rw [hempty] at he
    cases he
  · intro hcond
    constructor
    · rintro ⟨x, hx, e, he, hlt⟩
      exact twoHeights_of_lt hx (List.mem_append_right _ (List.mem_map_of_mem he)) hlt
    · rintro ⟨x, hx, y, hy, hne⟩
      -- take the greater of the two heights
      wlog hlt : x < y generalizing x y
      · exact this y hy x hx (Ne.symm hne) (by omega)
      by_cases hread : ∃ e ∈ call.events, y ≤ e.ethHeight
      · obtain ⟨e, he, hle⟩ := hread
        exact ⟨x, hx, e, he, by omega⟩
      · -- no event reaches it: both are left over, and there is no event at all
        exfalso
        have hempty : call.events = [] := by
          rw [List.eq_nil_iff_forall_not_mem]
          intro e he
          apply hread
          obtain ⟨e', he', rfl⟩ := h.mem_pendingHeights_iff.mp hy
          rcases List.mem_append.mp he' with he' | he'
          · exact ⟨e, he, (h.pending_inOrder hord).le he' he⟩
          · exact ⟨e', he', le_rfl⟩
        rw [pendingHeights, hempty, List.map_nil, List.append_nil] at hx hy
        exact (twoHeights_keys_iff c).mp ⟨x, hx, y, hy, hne⟩ (hcond hempty)

end Return

/-- Whatever calls were made before: the next one returns a block exactly when two heights are
pending, unless it reads nothing and two heights are left over. -/
theorem generate_returns_iff (shardNum : ℕ) (calls : List Call) (call : Call)
    (hord : InOrder shardNum (calls.flatMap Call.events ++ call.events)) :
    ∃ c blocks c' block, generateBlocks (newTBChain shardNum) calls = some (c, blocks) ∧
      generateEthChainBlock call.order call.events call.now c = some (c', block) ∧
      ((block.isSome ↔ TwoHeights (pendingHeights c call.events)) ↔
        (call.events = [] → c.geth_tbs_new.keys.length < 2)) := by
  obtain ⟨c, blocks, hrun, h⟩ := inv_generateBlocks calls (inv_newTBChain shardNum)
    (by simpa using hord.left)
  simp only [List.nil_append] at h
  obtain ⟨c', block, hcall, -⟩ := h.generate hord
  refine ⟨c, blocks, c', block, hrun, hcall, ?_⟩
  rw [isSome_generateEthChainBlock hcall, h.to_pack_iff hord]
  exact h.to_pack_iff_twoHeights hord

/-- Three heights at once: the first comes back, and the second, complete as it is, does not
when the channel stays empty. -/
theorem stalls_on_complete_height :
    ∃ c blocks c', generateBlocks (newTBChain 1)
        [⟨.listed, [⟨0, 1, 1⟩, ⟨0, 2, 2⟩, ⟨0, 3, 3⟩], 100⟩] = some (c, blocks) ∧
      generateEthChainBlock .listed [] 110 c = some (c', none) ∧
      TwoHeights (pendingHeights c []) := by
  refine ⟨_, _, _, rfl, rfl, 2, ?_, 3, ?_, by decide⟩
  · decide
  · decide

/-- The channel is never empty: each call reads the event of the next height. -/
theorem generate_returns_iff_oneByOne :
    ∃ c blocks c' block,
      generateBlocks (newTBChain 1) [⟨.listed, [⟨0, 1, 1⟩, ⟨0, 2, 2⟩, ⟨0, 3, 3⟩], 100⟩] =
        some (c, blocks) ∧
      generateEthChainBlock .listed [⟨0, 4, 4⟩] 110 c = some (c', block) ∧
      (block.isSome ↔ TwoHeights (pendingHeights c [⟨0, 4, 4⟩])) := by
  obtain ⟨c, blocks, c', block, hrun, hcall, hiff⟩ := generate_returns_iff 1
    [⟨.listed, [⟨0, 1, 1⟩, ⟨0, 2, 2⟩, ⟨0, 3, 3⟩], 100⟩] ⟨.listed, [⟨0, 4, 4⟩], 110⟩
    ⟨by decide, by decide, by decide⟩
  exact ⟨c, blocks, c', block, hrun, hcall, hiff.mpr (by simp)⟩

/-! ## Which blocks are pushed -/

/-- `BeaconChain` as far as `toPushBlock` uses it, and the blocks that `PushBlock2Client` and
`PushBlock2Coms` have sent. -/
structure Pusher where
  tbBlocks : ℕ → Option TBBlock
  toClient : List TBBlock
  toComs : List TBBlock

/-- `toPushBlock`. Two blocks of one height end the process. -/
def toPushBlock (height2Confirm : ℕ) (p : Pusher) (block : TBBlock) : Option Pusher :=
  match p.tbBlocks block.height with
  | some _ => none
  | none =>
      let tbBlocks := Function.update p.tbBlocks block.height (some block)
      match tbBlocks (subU64 block.height height2Confirm) with
      | none => some { p with tbBlocks := tbBlocks }
      | some confirmBlock => some {
          tbBlocks := tbBlocks
          toClient := p.toClient ++ [confirmBlock]
          toComs := p.toComs ++ [confirmBlock] }

def newPusher : Pusher := ⟨fun _ => none, [], []⟩

/-- The blocks that `loop` hands on, one after the other. -/
def pushBlocks (height2Confirm : ℕ) (blocks : List TBBlock) : Option Pusher :=
  blocks.foldlM (toPushBlock height2Confirm) newPusher

/-- The height of the last block. -/
def latestHeight (blocks : List TBBlock) : ℕ := ((blocks.getLast?).map (·.height)).getD 0

/-- The blocks that are `Height2Confirm` below the last one. -/
def confirmedBlocks (height2Confirm : ℕ) (blocks : List TBBlock) : List TBBlock :=
  blocks.filter fun b => b.height + height2Confirm ≤ latestHeight blocks

/-- What generated blocks are: of increasing heights, each a `uint64`. -/
structure Increasing (blocks : List TBBlock) : Prop where
  sorted : (blocks.map (·.height)).Pairwise (· < ·)
  lt : ∀ b ∈ blocks, b.height < 2 ^ 64

theorem Increasing.left {blocks blocks' : List TBBlock} (h : Increasing (blocks ++ blocks')) :
    Increasing blocks where
  sorted := h.sorted.sublist ((List.sublist_append_left _ _).map _)
  lt := fun b hb => h.lt b (List.mem_append_left _ hb)

theorem Increasing.lt_last {blocks : List TBBlock} {block : TBBlock}
    (h : Increasing (blocks ++ [block])) {b : TBBlock} (hb : b ∈ blocks) :
    b.height < block.height := by
  have hsorted := h.sorted
  rw [List.map_append, List.pairwise_append] at hsorted
  exact hsorted.2.2 _ (List.mem_map_of_mem hb) _ (by simp)

theorem Increasing.eq_of_height {blocks : List TBBlock} (h : Increasing blocks) {b b' : TBBlock}
    (hb : b ∈ blocks) (hb' : b' ∈ blocks) (heq : b.height = b'.height) : b = b' :=
  List.inj_on_of_nodup_map (h.sorted.imp fun hlt => hlt.ne) hb hb' heq

/-- The blocks for which a block exactly `Height2Confirm` above them was generated. -/
def partnered (height2Confirm : ℕ) (blocks : List TBBlock) : List TBBlock :=
  blocks.filter fun b => b.height + height2Confirm ∈ blocks.map (·.height)

/-- Where `toPushBlock` is after these blocks. -/
structure Pushed (height2Confirm : ℕ) (blocks : List TBBlock) (p : Pusher) : Prop where
  stored : ∀ height b, p.tbBlocks height = some b ↔ b ∈ blocks ∧ b.height = height
  toClient : p.toClient = partnered height2Confirm blocks
  toComs : p.toComs = partnered height2Confirm blocks

section Push

variable {height2Confirm : ℕ} {blocks : List TBBlock} {block : TBBlock} {p : Pusher}

theorem mem_partnered {b : TBBlock} : b ∈ partnered height2Confirm blocks ↔
    b ∈ blocks ∧ ∃ b' ∈ blocks, b'.height = b.height + height2Confirm := by
  simp [partnered]

theorem Increasing.partnered_sorted (h : Increasing blocks) :
    ((partnered height2Confirm blocks).map (·.height)).Pairwise (· < ·) :=
  h.sorted.sublist (List.filter_sublist.map _)

/-- The new block is the partner of none. -/
theorem partnered_append_of_ne (hinc : Increasing (blocks ++ [block]))
    (hne : ∀ b ∈ blocks ++ [block], b.height + height2Confirm ≠ block.height) :
    partnered height2Confirm (blocks ++ [block]) = partnered height2Confirm blocks := by
  refine Sys.eq_of_pairwise_key hinc.partnered_sorted hinc.left.partnered_sorted fun b => ?_
  rw [mem_partnered, mem_partnered]
  constructor
  · rintro ⟨hb, b', hb', heq⟩
    have hold : b' ∈ blocks := by
      rcases List.mem_append.mp hb' with hb' | hb'
      · exact hb'
      · rw [List.mem_singleton.mp hb'] at heq
        exact absurd heq.symm (hne b hb)
    refine ⟨?_, b', hold, heq⟩
    rcases List.mem_append.mp hb with hb | hb
    · exact hb
    · -- nothing old is above the new block
      rw [List.mem_singleton.mp hb] at heq
      have := hinc.lt_last hold
      omega
  · rintro ⟨hb, b', hb', heq⟩
    exact ⟨List.mem_append_left _ hb, b', List.mem_append_left _ hb', heq⟩

/-- The new block is the partner of `confirmBlock`. -/
theorem partnered_append_of_eq (hinc : Increasing (blocks ++ [block])) {confirmBlock : TBBlock}
    (hmem : confirmBlock ∈ blocks ++ [block])
    (heq : confirmBlock.height + height2Confirm = block.height) :
    partnered height2Confirm (blocks ++ [block]) =
      partnered height2Confirm blocks ++ [confirmBlock] := by
  refine Sys.eq_of_pairwise_key hinc.partnered_sorted ?_ fun b => ?_
  · rw [List.map_append, List.pairwise_append]
    refine ⟨hinc.left.partnered_sorted, by simp, ?_⟩
    intro x hx y hy
    obtain ⟨b, hb, rfl⟩ := List.mem_map.mp hx
    obtain ⟨-, b', hb', hpartner⟩ := mem_partnered.mp hb
    have hlt := hinc.lt_last hb'
    rw [List.map_singleton, List.mem_singleton] at hy
    omega
  · have hsplit : b ∈ partnered height2Confirm blocks ++ [confirmBlock] ↔
        b ∈ partnered height2Confirm blocks ∨ b = confirmBlock := by
      simp
    rw [hsplit, mem_partnered, mem_partnered]
    constructor
    · rintro ⟨hb, b', hb', hpartner⟩
      rcases List.mem_append.mp hb' with hold | hnew
      · -- an old partner is below the new block, and so is `b`
        have hlt := hinc.lt_last hold
        rcases List.mem_append.mp hb with hb | hb
        · exact .inl ⟨hb, b', hold, hpartner⟩
        · rw [List.mem_singleton.mp hb] at hpartner
          omega
      · rw [List.mem_singleton.mp hnew] at hpartner
        exact .inr (hinc.eq_of_height hb hmem (by omega))
    · rintro (⟨hb, b', hb', hpartner⟩ | rfl)
      · exact ⟨List.mem_append_left _ hb, b', List.mem_append_left _ hb', hpartner⟩
      · exact ⟨hmem, block, by simp, heq.symm⟩

/-- The height that is looked up is that of a block only if the subtraction does not wrap. -/
theorem eq_subU64_iff (hconfirm : height2Confirm < 2 ^ 64) (hblock : block.height < 2 ^ 64)
    {b : TBBlock} (hb : b.height ≤ block.height) :
    b.height = subU64 block.height height2Confirm ↔ b.height + height2Confirm = block.height := by
  by_cases hle : height2Confirm ≤ block.height
  · rw [subU64_of_le hblock hle]
    omega
  · have hwrap := lt_subU64 hconfirm (Nat.lt_of_not_le hle)
    omega

theorem Pushed.stored_update (h : Pushed height2Confirm blocks p)
    (hinc : Increasing (blocks ++ [block])) (height : ℕ) (b : TBBlock) :
    Function.update p.tbBlocks block.height (some block) height = some b ↔
      b ∈ blocks ++ [block] ∧ b.height = height := by
  by_cases hheight : height = block.height
  · rw [hheight, Function.update_self, Option.some.injEq]
    constructor
    · rintro rfl
      exact ⟨by simp, rfl⟩
    · rintro ⟨hmem, heq⟩
      exact (hinc.eq_of_height hmem (by simp) heq).symm
  · rw [Function.update_of_ne hheight, h.stored, List.mem_append, List.mem_singleton]
    constructor
    · rintro ⟨hmem, heq⟩
      exact ⟨.inl hmem, heq⟩
    · rintro ⟨hmem | rfl, heq⟩
      · exact ⟨hmem, heq⟩
      · exact absurd heq.symm hheight

theorem Pushed.step (h : Pushed height2Confirm blocks p) (hconfirm : height2Confirm < 2 ^ 64)
    (hinc : Increasing (blocks ++ [block])) :
    ∃ p', toPushBlock height2Confirm p block = some p' ∧
      Pushed height2Confirm (blocks ++ [block]) p' := by
  have hblock : block.height < 2 ^ 64 := hinc.lt block (by simp)
  have hle : ∀ b ∈ blocks ++ [block], b.height ≤ block.height := by
    intro b hb
    rcases List.mem_append.mp hb with hb | hb
    · exact (hinc.lt_last hb).le
    · rw [List.mem_singleton.mp hb]
  have hnew : p.tbBlocks block.height = none := by
    rw [Option.eq_none_iff_forall_ne_some]
    intro b hb
    obtain ⟨hmem, heq⟩ := (h.stored _ _).mp hb
    have := hinc.lt_last hmem
    omega
  have hstored := h.stored_update hinc
  unfold toPushBlock
  rw [hnew]
  dsimp only
  -- a height that wraps below 0 is that of no block
  cases hlook : Function.update p.tbBlocks block.height (some block)
      (subU64 block.height height2Confirm) with
  | none =>
      have hne : ∀ b ∈ blocks ++ [block], b.height + height2Confirm ≠ block.height := by
        intro b hb heq
        have hfound := (hstored _ b).mpr ⟨hb, (eq_subU64_iff hconfirm hblock (hle b hb)).mpr heq⟩
        rw [hlook] at hfound
        cases hfound
      have hsame := partnered_append_of_ne hinc hne
      exact ⟨_, rfl, hstored, by rw [hsame, h.toClient], by rw [hsame, h.toComs]⟩
  | some confirmBlock =>
      obtain ⟨hmem, heq⟩ := (hstored _ _).mp hlook
      have hpartner := (eq_subU64_iff hconfirm hblock (hle _ hmem)).mp heq
      have hmore := partnered_append_of_eq hinc hmem hpartner
      exact ⟨_, rfl, hstored, by rw [hmore, h.toClient], by rw [hmore, h.toComs]⟩

/-- After any blocks of increasing heights, exactly those with a partner have been pushed. -/
theorem pushed_of_increasing (hconfirm : height2Confirm < 2 ^ 64) (hinc : Increasing blocks) :
    ∃ p, pushBlocks height2Confirm blocks = some p ∧ Pushed height2Confirm blocks p := by
  induction blocks using List.reverseRecOn with
  | nil => exact ⟨newPusher, rfl, by simp [newPusher], rfl, rfl⟩
  | append_singleton blocks block ih =>
      obtain ⟨p, hrun, hpushed⟩ := ih hinc.left
      obtain ⟨p', hstep, hpushed'⟩ := hpushed.step hconfirm hinc
      refine ⟨p', ?_, hpushed'⟩
      rw [pushBlocks, List.foldlM_append]
      unfold pushBlocks at hrun
      rw [hrun]
      simpa using hstep

theorem mem_confirmedBlocks {b : TBBlock} : b ∈ confirmedBlocks height2Confirm blocks ↔
    b ∈ blocks ∧ b.height + height2Confirm ≤ latestHeight blocks := by
  simp [confirmedBlocks]

theorem Increasing.le_latestHeight (h : Increasing blocks) {b : TBBlock} (hb : b ∈ blocks) :
    b.height ≤ latestHeight blocks := by
  induction blocks using List.reverseRecOn with
  | nil => cases hb
  | append_singleton blocks block _ =>
      have hlatest : latestHeight (blocks ++ [block]) = block.height := by simp [latestHeight]
      rw [hlatest]
      rcases List.mem_append.mp hb with hb | hb
      · exact (h.lt_last hb).le
      · rw [List.mem_singleton.mp hb]

theorem confirmedBlocks_eq_iff (hinc : Increasing blocks) :
    partnered height2Confirm blocks = confirmedBlocks height2Confirm blocks ↔
      ∀ b ∈ blocks, b.height + height2Confirm ≤ latestHeight blocks →
        b.height + height2Confirm ∈ blocks.map (·.height) := by
  constructor
  · intro heq b hb hle
    have hin : b ∈ partnered height2Confirm blocks := by
      rw [heq]
      exact mem_confirmedBlocks.mpr ⟨hb, hle⟩
    obtain ⟨-, b', hb', hheight⟩ := mem_partnered.mp hin
    exact List.mem_map.mpr ⟨b', hb', hheight⟩
  · intro hall
    unfold partnered confirmedBlocks
    apply List.filter_congr
    intro b hb
    rw [decide_eq_decide]
    constructor
    · intro hin
      obtain ⟨b', hb', hheight⟩ := List.mem_map.mp hin
      have := hinc.le_latestHeight hb'
      omega
    · exact hall b hb

end Push

/-- The blocks that come out of the calls never contradict each other: `loop` goes on, and what
it pushes are the blocks with a partner. -/
theorem loop_pushes {shardNum height2Confirm : ℕ} (hconfirm : height2Confirm < 2 ^ 64)
    (calls : List Call) (hord : InOrder shardNum (calls.flatMap Call.events))
    (hlt : ∀ e ∈ calls.flatMap Call.events, e.ethHeight < 2 ^ 64) :
    ∃ c blocks p, generateBlocks (newTBChain shardNum) calls = some (c, blocks) ∧
      pushBlocks height2Confirm blocks = some p ∧ Pushed height2Confirm blocks p := by
  obtain ⟨c, blocks, hrun, h⟩ := inv_generateBlocks calls (inv_newTBChain shardNum)
    (by simpa using hord)
  simp only [List.nil_append] at h
  have hinc : Increasing blocks := by
    refine ⟨h.sorted, fun b hb => ?_⟩
    obtain ⟨e, he, heq⟩ := h.occurs b hb
    rw [← heq]
    exact hlt e he
  obtain ⟨p, hpush, hpushed⟩ := pushed_of_increasing hconfirm hinc
  exact ⟨c, blocks, p, hrun, hpush, hpushed⟩

/-- The confirmed blocks are pushed in order, each once and no other, exactly if above every
block that should be confirmed the block `Height2Confirm` above it was not skipped. -/
theorem push_confirmed_iff (height2Confirm : ℕ) (hconfirm : height2Confirm < 2 ^ 64)
    (blocks : List TBBlock) (hinc : Increasing blocks) :
    (∃ p, pushBlocks height2Confirm blocks = some p ∧
      p.toClient = confirmedBlocks height2Confirm blocks ∧
      p.toComs = confirmedBlocks height2Confirm blocks) ↔
      ∀ b ∈ blocks, b.height + height2Confirm ≤ latestHeight blocks →
        b.height + height2Confirm ∈ blocks.map (·.height) := by
  obtain ⟨p, hrun, hpushed⟩ := pushed_of_increasing hconfirm hinc
  rw [← confirmedBlocks_eq_iff hinc]
  constructor
  · rintro ⟨p', hrun', hclient, -⟩
    rw [hrun, Option.some.injEq] at hrun'
    rw [← hpushed.toClient, hrun', hclient]
  · intro heq
    exact ⟨p, hrun, hpushed.toClient.trans heq, hpushed.toComs.trans heq⟩

/-- Block 2 has no beacons; block 1 is never pushed. -/
theorem skipped_height_not_pushed :
    ∃ p, pushBlocks 1 [⟨100, 1, []⟩, ⟨120, 3, []⟩, ⟨130, 4, []⟩] = some p ∧
      p.toClient.map (·.height) = [3] ∧
      (confirmedBlocks 1 [⟨100, 1, []⟩, ⟨120, 3, []⟩, ⟨130, 4, []⟩]).map (·.height) = [1, 3] :=
  ⟨_, rfl, rfl, rfl⟩

/-- Three heights in a row. -/
theorem push_confirmed_consecutive :
    ∃ p, pushBlocks 2 [⟨100, 5, []⟩, ⟨110, 6, []⟩, ⟨120, 7, []⟩] = some p ∧
      p.toClient = confirmedBlocks 2 [⟨100, 5, []⟩, ⟨110, 6, []⟩, ⟨120, 7, []⟩] ∧
      p.toComs = confirmedBlocks 2 [⟨100, 5, []⟩, ⟨110, 6, []⟩, ⟨120, 7, []⟩] :=
  (push_confirmed_iff 2 (by decide) [⟨100, 5, []⟩, ⟨110, 6, []⟩, ⟨120, 7, []⟩]
    ⟨by decide, by decide⟩).mpr (by decide)

end BeaconChain

end LessChain
