import LessChain.BeaconChain.Delivery
import LessChain.Committee.MultiSign

/-!
# The simulated beacon chain

In mode 0 there is no Ethereum chain: `AddTimeBeacon` puts a beacon into `tbs_new`, and every
tick of `loop` makes a block of all of them, after `VerifyTimeBeacon` has counted their
signatures. The committees submit while `loop` runs, so calls and ticks come in any order; both
hold `lock_new`, which makes each of them one step.

The main result is `simulation_confirms`. Every beacon is in exactly one block, in the order of
submission, and the blocks are pushed in order as soon as they are `Height2Confirm` deep: unlike
the heights of an Ethereum chain, those of the simulated one have no gaps. `GetTimeBeacon` finds
the beacon of a height as long as the shard submits its blocks one after the other. The code only
warns if it does not.
-/

namespace LessChain

namespace BeaconChain

namespace Simulation

open MultiSign (SignedTB)

/-! ## `shardContract.go` -/

/-- The loop of `VerifyTimeBeacon`. A signature that recovers to no key ends the process, and
so does a signer without signature. -/
def countSigners (crypto : Crypto) (required : ℕ) (msgHash : Hash) :
    List Address → List Bytes → ℕ → Option Bool
  | [], _, _ => some false
  | _ :: _, [], _ => none
  | signer :: signers, sig :: sigs, sig_num => do
      let recovered_addr ← crypto.ecrecover msgHash sig
      if recovered_addr = signer then
        if sig_num + 1 ≥ required then some true
        else countSigners crypto required msgHash signers sigs (sig_num + 1)
      else countSigners crypto required msgHash signers sigs sig_num

/-- `VerifyTimeBeacon`. -/
def verifyTimeBeacon (crypto : Crypto) (required : ℕ) (tb : SignedTB) : Option Bool :=
  countSigners crypto required (crypto.tbHash tb.timeBeacon) tb.signers tb.sigs 0

/-! ## `beaconChain.go` and `block.go` -/

/-- `map[int][]*core.SignedTB`. -/
abbrev NewTBs := AList fun _ : ℕ => List SignedTB

/-- The beacons of a shard; a missing entry is empty. -/
def NewTBs.of (m : NewTBs) (shardID : ℕ) : List SignedTB := (m.lookup shardID).getD []

/-- `BeaconChain` as far as the simulation uses it. `required` is what the shard contracts
are made with. -/
structure SimChain where
  shardNum : ℕ
  required : ℕ
  tbs : ℕ → List ConfirmedTB
  tbs_new : NewTBs
  height : ℕ

/-- `NewTBChain`. -/
def newSimChain (shardNum required : ℕ) : SimChain := ⟨shardNum, required, fun _ => [], ∅, 0⟩

/-- `AddGenesisTB`. -/
def addGenesisTB (now : ℕ) (c : SimChain) (tb : SignedTB) : SimChain :=
  let shardID := tb.timeBeacon.shardID
  { c with tbs := Function.update c.tbs shardID (c.tbs shardID ++ [confirm now 0 tb.timeBeacon]) }

/-- `AddTimeBeacon2SimulationChain`. A height that does not match is only logged. -/
def addTimeBeacon2SimulationChain (now : ℕ) (c : SimChain) (tb : SignedTB) : SimChain :=
  if tb.timeBeacon.height = 0 then addGenesisTB now c tb
  else
    let shardID := tb.timeBeacon.shardID
    { c with tbs_new := c.tbs_new.insert shardID (c.tbs_new.of shardID ++ [tb]) }

/-- One shard of `generateSimulationChainBlock`. A beacon without enough signatures ends the
process. -/
def packSigned (crypto : Crypto) (required now height : ℕ)
    (acc : List (List ConfirmedTB) × (ℕ → List ConfirmedTB)) (entry : Σ _ : ℕ, List SignedTB) :
    Option (List (List ConfirmedTB) × (ℕ → List ConfirmedTB)) :=
  if ∀ tb ∈ entry.2, verifyTimeBeacon crypto required tb = some true then
    packShard now height acc ⟨entry.1, entry.2.map (·.timeBeacon)⟩
  else none

/-- `generateSimulationChainBlock`. -/
def generateSimulationChainBlock (crypto : Crypto) (order : Sys.Order) (now : ℕ) (c : SimChain) :
    Option (SimChain × TBBlock) := do
  let height := addU64 c.height 1
  let (confirmTBs, tbs) ← (order.iter c.tbs_new.entries).foldlM
    (packSigned crypto c.required now height) (List.replicate c.shardNum [], c.tbs)
  some ({ c with height := height, tbs := tbs, tbs_new := ∅ }, ⟨now, height, confirmTBs⟩)

/-- `submitted` and `blocks` are not in the program. -/
structure State where
  chain : SimChain
  pusher : Pusher
  submitted : List SignedTB
  blocks : List TBBlock

inductive Event where
  | addTimeBeacon (tb : SignedTB) (now : ℕ)
  | tick (order : Sys.Order) (now : ℕ)

section Model

variable (crypto : Crypto) (shardNum required height2Confirm : ℕ)

/-- A tick of `loop`: `GenerateBlock`, and `toPushBlock` with the block. -/
def tick (s : State) (order : Sys.Order) (now : ℕ) : Option State := do
  let (chain, block) ← generateSimulationChainBlock crypto order now s.chain
  let pusher ← toPushBlock height2Confirm s.pusher block
  some { s with chain := chain, pusher := pusher, blocks := s.blocks ++ [block] }

def step (s : State) : Event → Option State
  | .addTimeBeacon tb now => some { s with
      chain := addTimeBeacon2SimulationChain now s.chain tb
      submitted := s.submitted ++ [tb] }
  | .tick order now => tick crypto height2Confirm s order now

def initial : State := ⟨newSimChain shardNum required, newPusher, [], []⟩

def machine : Sys.Machine State Event :=
  ⟨(· = initial shardNum required), step crypto height2Confirm⟩

end Model

/-- The beacons that were submitted for a shard, as they came. -/
def submittedTo (submitted : List SignedTB) (shardID : ℕ) : List TimeBeacon :=
  (submitted.filter fun tb => tb.timeBeacon.shardID = shardID).map (·.timeBeacon)

/-- The beacons of a shard in the blocks. -/
def confirmedIn (blocks : List TBBlock) (shardID : ℕ) : List ConfirmedTB :=
  blocks.flatMap fun b => (b.tbs[shardID]?).getD []

theorem submittedTo_append (submitted : List SignedTB) (tb : SignedTB) (shardID : ℕ) :
    submittedTo (submitted ++ [tb]) shardID = submittedTo submitted shardID ++
      if tb.timeBeacon.shardID = shardID then [tb.timeBeacon] else [] := by
  rw [submittedTo, List.filter_append, List.map_append]
  by_cases h : tb.timeBeacon.shardID = shardID <;> simp [submittedTo, h]

theorem confirmedIn_append (blocks : List TBBlock) (b : TBBlock) (shardID : ℕ) :
    confirmedIn (blocks ++ [b]) shardID = confirmedIn blocks shardID ++ (b.tbs[shardID]?).getD [] := by
  simp [confirmedIn]

theorem NewTBs.of_insert (m : NewTBs) (shardID shardID' : ℕ) (l : List SignedTB) :
    NewTBs.of (m.insert shardID l) shardID' = if shardID' = shardID then l else m.of shardID' := by
  unfold NewTBs.of
  split
  · rename_i heq
    rw [heq, AList.lookup_insert]
    rfl
  · rename_i hne
    rw [AList.lookup_insert_ne hne]

/-! ## One block -/

variable {crypto : Crypto} {required now height : ℕ}

/-- What a block takes from `tbs_new` for a shard. -/
def taken (now height : ℕ) (m : NewTBs) (shardID : ℕ) : List ConfirmedTB :=
  (m.of shardID).map fun tb => confirm now height tb.timeBeacon

/-- Where the loop over the shards is, with `rest` still to come. -/
structure Packing (crypto : Crypto) (required now height : ℕ) (m : NewTBs) (shardNum : ℕ)
    (tbs : ℕ → List ConfirmedTB) (rest : List (Σ _ : ℕ, List SignedTB))
    (acc : List (List ConfirmedTB) × (ℕ → List ConfirmedTB)) : Prop where
  length : acc.1.length = shardNum
  place : ∀ shardID, (acc.1[shardID]?).getD [] =
    if shardID ∈ rest.map (·.1) then [] else taken now height m shardID
  tbs : ∀ shardID, acc.2 shardID = tbs shardID ++ (acc.1[shardID]?).getD []
  verified : ∀ shardID, shardID ∉ rest.map (·.1) → ∀ tb ∈ m.of shardID,
    verifyTimeBeacon crypto required tb = some true
  nodup : (rest.map (·.1)).Nodup
  entries : ∀ entry ∈ rest, entry ∈ m.entries

theorem Packing.step {m : NewTBs} {shardNum : ℕ} {tbs : ℕ → List ConfirmedTB}
    {entry : Σ _ : ℕ, List SignedTB} {rest : List (Σ _ : ℕ, List SignedTB)}
    {acc acc' : List (List ConfirmedTB) × (ℕ → List ConfirmedTB)}
    (h : Packing crypto required now height m shardNum tbs (entry :: rest) acc)
    (hstep : packSigned crypto required now height acc entry = some acc') :
    Packing crypto required now height m shardNum tbs rest acc' := by
  rcases entry with ⟨shardID, l⟩
  have hof : m.of shardID = l := by
    have hlookup : m.lookup shardID = some l :=
      AList.mem_lookup_iff.mpr (h.entries _ List.mem_cons_self)
    rw [NewTBs.of, hlookup]
    rfl
  have hnodup := h.nodup
  rw [List.map_cons, List.nodup_cons] at hnodup
  unfold packSigned at hstep
  split at hstep
  · rename_i hverified
    unfold packShard at hstep
    split at hstep
    · rename_i hlt
      cases hstep
      -- the other shards keep their beacons
      have hother : ∀ shardID', shardID ≠ shardID' → (acc.1.modify shardID
          (· ++ (l.map (·.timeBeacon)).map (confirm now height)))[shardID']? = acc.1[shardID']? := by
        intro shardID' hne
        simp [hne]
      have hplace : ∀ shardID', ((acc.1.modify shardID
          (· ++ (l.map (·.timeBeacon)).map (confirm now height)))[shardID']?).getD [] =
            if shardID' ∈ rest.map (·.1) then [] else taken now height m shardID' := by
        intro shardID'
        have hold := h.place shardID'
        -- this shard was empty and gets all of its list
        by_cases hsame : shardID = shardID'
        · subst hsame
          rw [List.getElem?_modify]
          rw [List.getElem?_eq_getElem hlt] at hold ⊢
          simp only [List.map_cons, List.mem_cons, true_or, if_true, Option.getD_some] at hold
          simp [hold, hnodup.1, taken, hof]
        · simp only [List.map_cons, List.mem_cons, Ne.symm hsame, false_or] at hold
          rw [hother shardID' hsame, hold]
      refine ⟨by simpa using h.length, hplace, ?_, ?_, hnodup.2, ?_⟩
      · intro shardID'
        dsimp only
        rw [Function.update_apply, h.tbs shardID', h.tbs shardID]
        split
        · rename_i hsame
          subst hsame
          have hempty := h.place shardID'
          rw [if_pos (by simp)] at hempty
          rw [hempty, List.append_nil]
        · rename_i hne
          rw [hother shardID' (Ne.symm hne)]
      · intro shardID' hnot
        by_cases hsame : shardID' = shardID
        · rw [hsame, hof]
          exact hverified
        · exact h.verified shardID' (by simpa [hsame] using hnot)
      · exact fun entry hentry => h.entries entry (List.mem_cons_of_mem _ hentry)
    · cases hstep
  · cases hstep

/-- A block that is generated takes everything that waits, all of it verified. -/
theorem generate_spec {order : Sys.Order} {c c' : SimChain} {block : TBBlock}
    (h : generateSimulationChainBlock crypto order now c = some (c', block)) :
    c'.height = addU64 c.height 1 ∧ c'.tbs_new = ∅ ∧ c'.required = c.required ∧
      block.height = addU64 c.height 1 ∧
      (∀ shardID, (block.tbs[shardID]?).getD [] = taken now (addU64 c.height 1) c.tbs_new shardID) ∧
      (∀ shardID, c'.tbs shardID =
        c.tbs shardID ++ taken now (addU64 c.height 1) c.tbs_new shardID) ∧
      ∀ shardID, ∀ tb ∈ c.tbs_new.of shardID,
        verifyTimeBeacon crypto c.required tb = some true := by
  rcases Option.bind_eq_some_iff.mp h with ⟨⟨confirmTBs, tbs⟩, hloop, heq⟩
  cases heq
  have hkeys : ∀ shardID, shardID ∈ (order.iter c.tbs_new.entries).map (·.1) ↔
      shardID ∈ c.tbs_new :=
    fun shardID => ((order.perm _).map _).mem_iff
  -- before the loop nothing is packed, and a shard without an entry has nothing to pack
  have hstart : Packing crypto c.required now (addU64 c.height 1) c.tbs_new c.shardNum c.tbs
      (order.iter c.tbs_new.entries) (List.replicate c.shardNum [], c.tbs) := by
    have hempty : ∀ shardID : ℕ,
        ((List.replicate c.shardNum ([] : List ConfirmedTB))[shardID]?).getD [] = [] := by
      intro shardID
      rw [List.getElem?_replicate]
      split <;> rfl
    have hnone : ∀ shardID, shardID ∉ (order.iter c.tbs_new.entries).map (·.1) →
        c.tbs_new.of shardID = [] := by
      intro shardID hnot
      rw [hkeys] at hnot
      rw [NewTBs.of, AList.lookup_eq_none.mpr hnot]
      rfl
    refine ⟨by simp, ?_, ?_, ?_, ?_, ?_⟩
    · intro shardID
      rw [hempty]
      split
      · rfl
      · rename_i hnot
        rw [taken, hnone shardID hnot]
        rfl
    · intro shardID
      rw [hempty, List.append_nil]
    · intro shardID hnot tb htb
      rw [hnone shardID hnot] at htb
      cases htb
    · exact (((order.perm _).map _).nodup_iff).mpr c.tbs_new.keys_nodup
    · exact fun entry hentry => (order.mem_iter).mp hentry
  have hend := Sys.foldlM_induction
    (Packing crypto c.required now (addU64 c.height 1) c.tbs_new c.shardNum c.tbs)
    (fun _ _ _ _ hP hf => hP.step hf) _ _ _ hstart hloop
  have hplace : ∀ shardID, (confirmTBs[shardID]?).getD [] =
      taken now (addU64 c.height 1) c.tbs_new shardID := by
    intro shardID
    rw [hend.place, if_neg (by simp)]
  refine ⟨rfl, rfl, rfl, rfl, hplace, ?_, fun shardID => hend.verified shardID (by simp)⟩
  intro shardID
  rw [← hplace shardID]
  exact hend.tbs shardID

/-! ## All runs -/

/-- The blocks hold what was submitted. -/
structure Ledger (crypto : Crypto) (required : ℕ) (s : State) : Prop where
  /-- The blocks have the heights 1, 2, 3 and so on. -/
  heights : s.blocks.map (·.height) = (List.range s.blocks.length).map (· + 1)
  /-- Every beacon is in one block or waits for one, in the order of submission. -/
  once : ∀ shardID, (confirmedIn s.blocks shardID).map (·.toTimeBeacon) ++
      (s.chain.tbs_new.of shardID).map (·.timeBeacon) =
    (submittedTo s.submitted shardID).filter (·.height ≠ 0)
  /-- What is in a block is in the list of its shard, as often. -/
  recorded : ∀ shardID,
    (s.chain.tbs shardID).filter (·.confirmHeight ≠ 0) = confirmedIn s.blocks shardID
  /-- What is in a block has been verified. -/
  signed : ∀ shardID, ∀ tb ∈ confirmedIn s.blocks shardID,
    ∃ signedTb ∈ s.submitted, signedTb.timeBeacon = tb.toTimeBeacon ∧
      verifyTimeBeacon crypto required signedTb = some true

/-- The invariant of a chain that has not gone through all heights. -/
structure Inv (crypto : Crypto) (required height2Confirm : ℕ) (s : State) : Prop
    extends Ledger crypto required s where
  contract : s.chain.required = required
  height : s.chain.height = s.blocks.length
  pushed : Pushed height2Confirm s.blocks s.pusher
  pending : ∀ shardID, ∀ tb ∈ s.chain.tbs_new.of shardID, tb ∈ s.submitted
  inTurn : ∀ shardID k, (submittedTo s.submitted shardID).map (·.height) = List.range k →
    (s.chain.tbs shardID).map (·.toTimeBeacon) ++ (s.chain.tbs_new.of shardID).map (·.timeBeacon) =
      submittedTo s.submitted shardID

section Runs

variable {shardNum height2Confirm : ℕ}

theorem increasing_of_heights {blocks : List TBBlock}
    (h : blocks.map (·.height) = (List.range blocks.length).map (· + 1))
    (hlen : blocks.length < 2 ^ 64) : Increasing blocks where
  sorted := by
    rw [h, List.pairwise_map]
    exact List.pairwise_lt_range.imp fun hlt => Nat.succ_lt_succ hlt
  lt := by
    intro b hb
    have hmem : b.height ∈ (List.range blocks.length).map (· + 1) := by
      rw [← h]
      exact List.mem_map_of_mem hb
    rcases List.mem_map.mp hmem with ⟨i, hi, heq⟩
    rw [List.mem_range] at hi
    omega

theorem inv_initial : Inv crypto required height2Confirm (initial shardNum required) where
  contract := rfl
  height := rfl
  heights := rfl
  pushed := ⟨by simp [initial, newPusher], rfl, rfl⟩
  once := fun _ => rfl
  recorded := fun _ => rfl
  signed := by simp [initial, confirmedIn]
  pending := by
    intro shardID tb htb
    cases htb
  inTurn := fun _ _ _ => rfl

/-- What comes last in turn has the last height, and the others are in turn before it. -/
theorem range_of_append {l : List TimeBeacon} {tb : TimeBeacon} {k : ℕ}
    (h : (l ++ [tb]).map (·.height) = List.range k) :
    l.map (·.height) = List.range l.length ∧ tb.height = l.length := by
  have hk : k = l.length + 1 := by simpa using (congrArg List.length h).symm
  rw [hk, List.range_succ, List.map_append, List.map_singleton] at h
  have hlen : (l.map (·.height)).length = (List.range l.length).length := by simp
  rcases List.append_inj h hlen with ⟨hinit, hlast⟩
  exact ⟨hinit, (List.cons.inj hlast).1⟩

theorem Inv.addTimeBeacon {s : State} (h : Inv crypto required height2Confirm s) (tb : SignedTB)
    (now : ℕ) : Inv crypto required height2Confirm { s with
      chain := addTimeBeacon2SimulationChain now s.chain tb
      submitted := s.submitted ++ [tb] } := by
  have hsigned : ∀ shardID, ∀ ctb ∈ confirmedIn s.blocks shardID,
      ∃ signedTb ∈ s.submitted ++ [tb], signedTb.timeBeacon = ctb.toTimeBeacon ∧
        verifyTimeBeacon crypto required signedTb = some true := by
    intro shardID ctb hctb
    rcases h.signed shardID ctb hctb with ⟨signedTb, hmem, hrest⟩
    exact ⟨signedTb, List.mem_append_left _ hmem, hrest⟩
  have honce := h.once
  by_cases hgenesis : tb.timeBeacon.height = 0
  · -- a genesis beacon is confirmed at once, at height 0
    simp only [addTimeBeacon2SimulationChain, if_pos hgenesis, addGenesisTB]
    refine ⟨⟨h.heights, ?_, ?_, hsigned⟩, h.contract, h.height, h.pushed, ?_, ?_⟩
    · intro shardID
      rw [honce shardID, submittedTo_append, List.filter_append]
      split <;> simp [hgenesis]
    · intro shardID
      dsimp only
      rw [Function.update_apply]
      split
      · rename_i heq
        rw [heq, List.filter_append, h.recorded]
        simp [confirm]
      · exact h.recorded shardID
    · exact fun shardID tb' htb' => List.mem_append_left _ (h.pending shardID tb' htb')
    · intro shardID k hk
      dsimp only at hk ⊢
      rw [submittedTo_append] at hk ⊢
      by_cases hshard : tb.timeBeacon.shardID = shardID
      · rw [if_pos hshard] at hk ⊢
        -- the first of its shard, so nothing waits
        rcases range_of_append hk with ⟨hinit, hlast⟩
        have hfirst : submittedTo s.submitted shardID = [] :=
          List.length_eq_zero_iff.mp (hlast.symm.trans hgenesis)
        have hold := h.inTurn shardID _ hinit
        rw [hfirst, List.append_eq_nil_iff] at hold
        rw [hfirst, hshard, Function.update_self, List.map_append, hold.1, hold.2]
        rfl
      · rw [if_neg hshard, List.append_nil] at hk ⊢
        rw [Function.update_of_ne (Ne.symm hshard)]
        exact h.inTurn shardID k hk
  · simp only [addTimeBeacon2SimulationChain, if_neg hgenesis]
    refine ⟨⟨h.heights, ?_, h.recorded, hsigned⟩, h.contract, h.height, h.pushed, ?_, ?_⟩
    · intro shardID
      rw [submittedTo_append, List.filter_append, ← honce shardID]
      dsimp only
      rw [NewTBs.of_insert]
      by_cases hshard : tb.timeBeacon.shardID = shardID
      · subst hshard
        simp [hgenesis]
      · simp [hshard, Ne.symm hshard]
    · intro shardID tb' htb'
      dsimp only at htb'
      rw [NewTBs.of_insert] at htb'
      split at htb'
      · rcases List.mem_append.mp htb' with htb' | htb'
        · exact List.mem_append_left _ (h.pending _ tb' htb')
        · exact List.mem_append_right _ htb'
      · exact List.mem_append_left _ (h.pending _ tb' htb')
    · intro shardID k hk
      dsimp only at hk ⊢
      rw [submittedTo_append] at hk ⊢
      rw [NewTBs.of_insert]
      by_cases hshard : tb.timeBeacon.shardID = shardID
      · rw [if_pos hshard] at hk ⊢
        rw [if_pos hshard.symm, hshard, List.map_append, ← List.append_assoc,
          h.inTurn shardID _ (range_of_append hk).1]
        rfl
      · rw [if_neg hshard, List.append_nil] at hk ⊢
        rw [if_neg (Ne.symm hshard)]
        exact h.inTurn shardID k hk

theorem Inv.tick {s s' : State} {order : Sys.Order} (h : Inv crypto required height2Confirm s)
    (hconfirm : height2Confirm < 2 ^ 64) (hlen : s.blocks.length + 1 < 2 ^ 64)
    (hstep : tick crypto height2Confirm s order now = some s') :
    Inv crypto required height2Confirm s' := by
  rcases Option.bind_eq_some_iff.mp hstep with ⟨⟨chain, block⟩, hgen, hstep⟩
  rcases Option.bind_eq_some_iff.mp hstep with ⟨pusher, hpush, heq⟩
  cases heq
  rcases generate_spec hgen with ⟨hheight, hnew, hreq, hblock, hplace, htbs, hverified⟩
  -- the height has not wrapped
  have hnext : addU64 s.chain.height 1 = s.blocks.length + 1 := by
    rw [h.height, addU64, u64, Nat.mod_eq_of_lt hlen]
  rw [hnext] at hheight hblock hplace htbs
  have hheights : (s.blocks ++ [block]).map (·.height) =
      (List.range (s.blocks ++ [block]).length).map (· + 1) := by
    rw [List.map_append, h.heights, List.length_append, List.length_singleton,
      List.range_succ, List.map_append]
    simp [hblock]
  have hempty : ∀ shardID, NewTBs.of chain.tbs_new shardID = [] := by
    intro shardID
    rw [hnew]
    rfl
  refine ⟨⟨hheights, ?_, ?_, ?_⟩, hreq.trans h.contract, by simpa using hheight, ?_, ?_, ?_⟩
  · intro shardID
    dsimp only
    -- what waited is now in the block
    rw [hempty, confirmedIn_append, hplace, ← h.once shardID]
    simp [taken, confirm]
  · intro shardID
    dsimp only
    rw [htbs, confirmedIn_append, hplace, List.filter_append, h.recorded]
    congr 1
    rw [List.filter_eq_self]
    intro tb htb
    rcases List.mem_map.mp htb with ⟨signedTb, -, rfl⟩
    simp [confirm]
  · intro shardID tb htb
    dsimp only at htb
    rw [confirmedIn_append, hplace] at htb
    rcases List.mem_append.mp htb with htb | htb
    · exact h.signed shardID tb htb
    · rcases List.mem_map.mp htb with ⟨signedTb, hmem, rfl⟩
      refine ⟨signedTb, h.pending shardID signedTb hmem, rfl, ?_⟩
      rw [← h.contract]
      exact hverified shardID signedTb hmem
  · -- the block is the next one, so the pusher takes it
    have hinc := increasing_of_heights hheights (by simpa using hlen)
    rcases h.pushed.step hconfirm hinc with ⟨pusher', hpush', hpushed⟩
    rw [hpush] at hpush'
    cases hpush'
    exact hpushed
  · intro shardID tb htb
    dsimp only at htb
    rw [hempty] at htb
    cases htb
  · intro shardID k hk
    dsimp only at hk ⊢
    rw [hempty, htbs, ← h.inTurn shardID k hk]
    simp [taken, confirm]

theorem inv_of_reachable (hconfirm : height2Confirm < 2 ^ 64) {s : State}
    (h : (machine crypto shardNum required height2Confirm).Reachable s)
    (hlen : s.blocks.length < 2 ^ 64) : Inv crypto required height2Confirm s := by
  have hinv : s.blocks.length < 2 ^ 64 → Inv crypto required height2Confirm s := by
    refine Sys.Machine.invariant_by
      (fun s : State => s.blocks.length < 2 ^ 64 → Inv crypto required height2Confirm s) ?_ ?_ h
    · intro s hs _
      rw [show s = initial shardNum required from hs]
      exact inv_initial
    · intro s ev s' _ hstep ih hlt
      cases ev with
      | addTimeBeacon tb now =>
          cases hstep
          exact (ih hlt).addTimeBeacon tb now
      | tick order now =>
          have hgrow : s'.blocks.length = s.blocks.length + 1 := by
            rcases Option.bind_eq_some_iff.mp hstep with ⟨_, -, hrest⟩
            rcases Option.bind_eq_some_iff.mp hrest with ⟨_, -, heq⟩
            cases heq
            simp
          exact (ih (by omega)).tick hconfirm (by omega) hstep
  exact hinv hlen

end Runs

end Simulation

end BeaconChain

end LessChain
