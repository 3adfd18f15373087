import LessChain.System.Handover

/-!
# The seeds of reconfigurations

Every node follows the beacon chain and notes in its `Committee` when a block says that it is
time to reconfigure; the leader acts on the note after its next block. A note is overwritten
by the next one, and `Start` erases it, so that committees that pack blocks at different
speeds may begin with different seeds: `different_seeds`. If every node is through with one
reconfiguration before it hears of the next (`unhurried`), they agree.

The nodes and the epochs are those of the handover model. `received` counts the blocks of the
beacon chain a node has seen, and `reconfigResult` is the seed height of the reconfiguration
it takes part in.
-/

namespace LessChain

namespace Seeds

open Handover (Plan exchangePlan)

/-- The fields of `Committee` the beacon chain writes, and `config.Height2Reconfig`. -/
structure Committee where
  height2Reconfig : ℕ
  tbchain_height : ℕ
  to_reconfig : Bool
  reconfig_seed_height : ℕ
deriving DecidableEq

/-- `AddTBs`; a modulus of zero is a panic. -/
def Committee.addTBs (com : Committee) (height : ℕ) : Option Committee :=
  if height ≤ com.tbchain_height then some com
  else
    let com := { com with tbchain_height := height }
    if com.tbchain_height > 0 then
      if com.height2Reconfig = 0 then none
      else if com.tbchain_height % com.height2Reconfig = 0 then
        some { com with reconfig_seed_height := com.tbchain_height, to_reconfig := true }
      else some com
    else some com

/-- `NewBlockGenerated`, with the seed height of the `InitReconfig` it calls. The header that
`GetEthChainBlockHash` finds is the one of the height asked for. -/
def Committee.newBlockGenerated (com : Committee) : Committee × Option ℕ :=
  if com.to_reconfig then ({ com with to_reconfig := false }, some com.reconfig_seed_height)
  else (com, none)

def Committee.updateTbChainHeight (com : Committee) (height : ℕ) : Committee :=
  if height > com.tbchain_height then { com with tbchain_height := height } else com

/-- `Start`. -/
def Committee.start (com : Committee) : Committee := { com with to_reconfig := false }

structure Node where
  com : Committee
  received : ℕ
  epoch : ℕ
  reconfigResult : Option ℕ
deriving DecidableEq

/-- A call of `InitReconfig`. -/
structure Init (ComId : Type) where
  epoch : ℕ
  comID : ComId
  seedHeight : ℕ
deriving DecidableEq

structure State (NodeId ComId : Type) where
  nodes : NodeId → Node
  inits : List (Init ComId)

section SetNode

variable {NodeId ComId : Type} [DecidableEq NodeId] (s : State NodeId ComId) (n : NodeId)
  (nd : Node)

def State.setNode : State NodeId ComId := { s with nodes := Function.update s.nodes n nd }

@[simp] theorem State.setNode_self : (s.setNode n nd).nodes n = nd := by
  simp [State.setNode]

theorem State.setNode_of_ne {m : NodeId} (hne : m ≠ n) :
    (s.setNode n nd).nodes m = s.nodes m := by
  simp [State.setNode, hne]

end SetNode

inductive Event (NodeId : Type) where
  | addTBs (n : NodeId)
  | newBlockGenerated (n : NodeId)
  | handleLeaderInitReconfig (n : NodeId) (seedHeight : ℕ)
  | start (n : NodeId)

/-- The heights of the beacon chain's blocks in the order in which all nodes see them. -/
structure Chain where
  heights : List ℕ
  increasing : heights.Pairwise (· < ·)

/-- `AddTBs` takes the height for one to reconfigure at. -/
def IsTrigger (height2Reconfig height : ℕ) : Prop := 0 < height ∧ height % height2Reconfig = 0

instance (height2Reconfig height : ℕ) : Decidable (IsTrigger height2Reconfig height) :=
  inferInstanceAs (Decidable (_ ∧ _))

section Model

variable {NodeId ComId : Type} [DecidableEq NodeId] [DecidableEq ComId] [Fintype ComId]
  (plan : Plan NodeId ComId) (chain : Chain) (height2Reconfig : ℕ)

/-- The next block of the beacon chain comes to `n`. -/
def addTBs (s : State NodeId ComId) (n : NodeId) : Option (State NodeId ComId) := do
  let nd := s.nodes n
  let height ← chain.heights[nd.received]?
  let com ← nd.com.addTBs height
  some (s.setNode n { nd with com := com, received := nd.received + 1 })

/-- The worker of a leader has made a block. -/
def newBlockGenerated (s : State NodeId ComId) (n : NodeId) : Option (State NodeId ComId) :=
  let nd := s.nodes n
  let comID := plan.comID nd.epoch n
  if n = plan.leader nd.epoch comID then
    let (com, seedHeight) := nd.com.newBlockGenerated
    some { s.setNode n { nd with com := com } with
      inits := s.inits ++ seedHeight.toList.map fun h => ⟨nd.epoch, comID, h⟩ }
  else none

/-- `HandleLeaderInitReconfig` of the message that the leader of its committee has sent. -/
def handleLeaderInitReconfig (s : State NodeId ComId) (n : NodeId) (seedHeight : ℕ) :
    Option (State NodeId ComId) :=
  let nd := s.nodes n
  if ⟨nd.epoch, plan.comID nd.epoch n, seedHeight⟩ ∈ s.inits then
    some (s.setNode n { nd with
      com := nd.com.updateTbChainHeight seedHeight
      reconfigResult := some seedHeight })
  else none

/-- `Start` in `EndReconfig`: the node has results of all committees, its own among them. -/
def start (s : State NodeId ComId) (n : NodeId) : Option (State NodeId ComId) :=
  let nd := s.nodes n
  if nd.reconfigResult ≠ none ∧ ∀ c, ∃ x ∈ s.inits, x.epoch = nd.epoch ∧ x.comID = c then
    some (s.setNode n { nd with
      com := nd.com.start
      epoch := nd.epoch + 1
      reconfigResult := none })
  else none

def step (s : State NodeId ComId) : Event NodeId → Option (State NodeId ComId)
  | .addTBs n => addTBs chain s n
  | .newBlockGenerated n => newBlockGenerated plan s n
  | .handleLeaderInitReconfig n seedHeight => handleLeaderInitReconfig plan s n seedHeight
  | .start n => start s n

def initial : State NodeId ComId where
  nodes := fun _ => ⟨⟨height2Reconfig, 0, false, 0⟩, 0, 0, none⟩
  inits := []

def machine : Sys.Machine (State NodeId ComId) (Event NodeId) :=
  ⟨(· = initial height2Reconfig), step plan chain⟩

/-- The calls of `InitReconfig` of a committee. -/
def State.begun (s : State NodeId ComId) (c : ComId) : List (Init ComId) :=
  s.inits.filter fun x => x.comID = c

/-- The seed heights with which a committee called `InitReconfig`. -/
def State.seeds (s : State NodeId ComId) (c : ComId) : List ℕ := (s.begun c).map (·.seedHeight)

/-- The committees agree on the `i`-th seed height, and none is used twice. -/
structure State.SameSeeds (s : State NodeId ComId) : Prop where
  agree : ∀ c c' (i : ℕ) h h', (s.seeds c)[i]? = some h → (s.seeds c')[i]? = some h' → h = h'
  nodup : ∀ c, (s.seeds c).Nodup

/-- A block at which to reconfigure comes to a node only when nothing is left there of the
last reconfiguration: it has been begun, and it is over. -/
def unhurried (s : State NodeId ComId) : Event NodeId → Prop
  | .addTBs n =>
      let nd := s.nodes n
      ∀ height ∈ chain.heights[nd.received]?,
        IsTrigger height2Reconfig height → nd.com.tbchain_height < height →
          nd.com.to_reconfig = false ∧ ∀ x ∈ s.inits,
            x.epoch = nd.epoch → x.comID = plan.comID nd.epoch n → height ≤ x.seedHeight
  | _ => True

instance (s : State NodeId ComId) (ev : Event NodeId) :
    Decidable (unhurried plan chain height2Reconfig s ev) := by
  unfold unhurried
  split <;> infer_instance

end Model

/-! ## The committee -/

theorem Committee.addTBs_cases {com com' : Committee} {height : ℕ}
    (h : com.addTBs height = some com') :
    (height ≤ com.tbchain_height ∧ com' = com) ∨
    (com.tbchain_height < height ∧ ¬ IsTrigger com.height2Reconfig height ∧
      com' = { com with tbchain_height := height }) ∨
    com.tbchain_height < height ∧ IsTrigger com.height2Reconfig height ∧
      com' = { com with
        tbchain_height := height, reconfig_seed_height := height, to_reconfig := true } := by
  unfold Committee.addTBs at h
  split at h
  · rename_i hle
    cases h
    exact .inl ⟨hle, rfl⟩
  · rename_i hgt
    have hlt := Nat.lt_of_not_le hgt
    have hpos : height > 0 := Nat.zero_lt_of_lt hlt
    dsimp only at h
    rw [if_pos hpos] at h
    split at h
    · cases h
    · split at h
      · rename_i hmod
        cases h
        exact .inr (.inr ⟨hlt, ⟨hpos, hmod⟩, rfl⟩)
      · rename_i hmod
        cases h
        exact .inr (.inl ⟨hlt, fun ht => hmod ht.2, rfl⟩)

theorem Committee.updateTbChainHeight_eq (com : Committee) (height : ℕ) :
    com.updateTbChainHeight height =
      { com with tbchain_height := max com.tbchain_height height } := by
  unfold Committee.updateTbChainHeight
  split
  · rw [Nat.max_eq_right (by omega)]
  · rw [Nat.max_eq_left (by omega)]

/-! ## Triggers -/

/-- The heights at which to reconfigure. -/
def Chain.triggers (chain : Chain) (height2Reconfig : ℕ) : List ℕ :=
  chain.heights.filter fun h => IsTrigger height2Reconfig h

theorem Chain.triggers_increasing (chain : Chain) (height2Reconfig : ℕ) :
    (chain.triggers height2Reconfig).Pairwise (· < ·) :=
  chain.increasing.filter _

variable {l : List ℕ} {h : ℕ}

theorem Chain.mem_triggers {chain : Chain} {height2Reconfig : ℕ} :
    h ∈ chain.triggers height2Reconfig ↔ h ∈ chain.heights ∧ IsTrigger height2Reconfig h := by
  simp [Chain.triggers]

theorem le_iff_of_increasing (hl : l.Pairwise (· < ·)) {i j a b : ℕ}
    (ha : l[i]? = some a) (hb : l[j]? = some b) : a ≤ b ↔ i ≤ j := by
  have hlt : ∀ {i j a b : ℕ}, l[i]? = some a → l[j]? = some b → i < j → a < b := by
    intro i j a b ha hb hij
    obtain ⟨hi, rfl⟩ := List.getElem?_eq_some_iff.mp ha
    obtain ⟨hj, rfl⟩ := List.getElem?_eq_some_iff.mp hb
    exact List.pairwise_iff_getElem.mp hl i j hi hj hij
  obtain hij | rfl | hij := lt_trichotomy i j
  · have := hlt ha hb hij
    omega
  · cases ha.symm.trans hb
    simp
  · have := hlt hb ha hij
    omega

/-- Of the heights in `l`, exactly the first `k` are at most `t`. -/
def Passed (l : List ℕ) (k t : ℕ) : Prop := ∀ i h, l[i]? = some h → (h ≤ t ↔ i < k)

theorem passed_self (hl : l.Pairwise (· < ·)) {k : ℕ} (hk : l[k]? = some h) :
    Passed l (k + 1) h := by
  intro i h' hi
  rw [le_iff_of_increasing hl hi hk, Nat.lt_succ_iff]

/-- A height that has been passed changes nothing. -/
theorem Passed.max_of_le {k t : ℕ} (hp : Passed l k t) (hle : h ≤ t) :
    Passed l k (max t h) := by
  rw [Nat.max_eq_left hle]
  exact hp

/-- With the `k`-th height, `k + 1` are passed, whether or not it was passed before. -/
theorem Passed.max_next (hl : l.Pairwise (· < ·)) {k t : ℕ}
    (hk : l[k]? = some h) (hp : Passed l k t ∨ Passed l (k + 1) t) :
    Passed l (k + 1) (max t h) := by
  obtain hp | hp := hp
  · have hgt : ¬ h ≤ t := fun hle => Nat.lt_irrefl k ((hp k h hk).mp hle)
    rw [Nat.max_eq_right (by omega)]
    exact passed_self hl hk
  · exact hp.max_of_le ((hp k h hk).mpr (Nat.lt_succ_self k))

/-- What the next block adds to the heights seen. -/
theorem Chain.le_next_iff {chain : Chain} {r t : ℕ} (hr : chain.heights[r]? = some h)
    (hseen : ∀ i x, i < r → chain.heights[i]? = some x → x ≤ t) (hlt : t < h) {x : ℕ}
    (hx : x ∈ chain.heights) : x ≤ h ↔ x ≤ t ∨ x = h := by
  obtain ⟨i, hi⟩ := List.mem_iff_getElem?.mp hx
  have hle := le_iff_of_increasing chain.increasing hi hr
  have hge := le_iff_of_increasing chain.increasing hr hi
  constructor
  · intro hxh
    obtain hir | rfl := Nat.lt_or_eq_of_le (hle.mp hxh)
    · exact .inl (hseen i x hir hi)
    · exact .inr (Option.some.inj (hi.symm.trans hr))
  · omega

section Next

variable {chain : Chain} {height2Reconfig r h t k : ℕ} (hr : chain.heights[r]? = some h)
  (hseen : ∀ i x, i < r → chain.heights[i]? = some x → x ≤ t) (hlt : t < h)
  (hp : Passed (chain.triggers height2Reconfig) k t)

include hr hseen hlt hp

theorem Passed.next_of_not_trigger (ht : ¬ IsTrigger height2Reconfig h) :
    Passed (chain.triggers height2Reconfig) k h := by
  intro i x hi
  obtain ⟨hmem, htrigger⟩ := Chain.mem_triggers.mp (List.mem_of_getElem? hi)
  have hne : x ≠ h := fun heq => ht (heq ▸ htrigger)
  rw [chain.le_next_iff hr hseen hlt hmem, ← hp i x hi]
  simp [hne]

/-- The next trigger is the first that was not passed. -/
theorem Passed.getElem?_next (ht : IsTrigger height2Reconfig h) :
    (chain.triggers height2Reconfig)[k]? = some h := by
  have hmem : h ∈ chain.triggers height2Reconfig :=
    Chain.mem_triggers.mpr ⟨List.mem_of_getElem? hr, ht⟩
  obtain ⟨j, hj⟩ := List.mem_iff_getElem?.mp hmem
  have hkj : k ≤ j := by
    have := hp j h hj
    omega
  obtain hkj | rfl := Nat.lt_or_eq_of_le hkj
  · -- an earlier one that was not passed would have come before
    have hklen : k < (chain.triggers height2Reconfig).length :=
      hkj.trans (List.getElem?_eq_some_iff.mp hj).1
    obtain ⟨x, hx⟩ : ∃ x, (chain.triggers height2Reconfig)[k]? = some x :=
      ⟨_, List.getElem?_eq_getElem hklen⟩
    have hxh : x ≤ h :=
      (le_iff_of_increasing (chain.triggers_increasing _) hx hj).mpr hkj.le
    have hhx := le_iff_of_increasing (chain.triggers_increasing _) hj hx
    have hxt := hp k x hx
    have hxmem := (Chain.mem_triggers.mp (List.mem_of_getElem? hx)).1
    have := (chain.le_next_iff hr hseen hlt hxmem).mp hxh
    omega
  · exact hj

end Next

/-! ## What holds in unhurried runs -/

section Runs

variable {NodeId ComId : Type} (plan : Plan NodeId ComId) (chain : Chain) (height2Reconfig : ℕ)

/-- A node in its `epoch`-th committee has passed as many triggers, and one more while it
reconfigures. `count` is the number of reconfigurations begun by each committee. -/
structure NodeInv (count : ComId → ℕ) (n : NodeId) (nd : Node) : Prop where
  config : nd.com.height2Reconfig = height2Reconfig
  seen : ∀ i x, i < nd.received → chain.heights[i]? = some x → x ≤ nd.com.tbchain_height
  begun : ∀ c, nd.epoch ≤ count c
  passed :
    Passed (chain.triggers height2Reconfig) nd.epoch nd.com.tbchain_height ∨
      Passed (chain.triggers height2Reconfig) (nd.epoch + 1) nd.com.tbchain_height ∧
        (nd.com.to_reconfig = true ∨ nd.epoch < count (plan.comID nd.epoch n))
  flagged : nd.com.to_reconfig = true →
    (chain.triggers height2Reconfig)[nd.epoch]? = some nd.com.reconfig_seed_height ∧
      Passed (chain.triggers height2Reconfig) (nd.epoch + 1) nd.com.tbchain_height
  notBegun : nd.com.to_reconfig = true → n = plan.leader nd.epoch (plan.comID nd.epoch n) →
    count (plan.comID nd.epoch n) = nd.epoch
  led : n = plan.leader nd.epoch (plan.comID nd.epoch n) →
    nd.epoch < count (plan.comID nd.epoch n) →
      Passed (chain.triggers height2Reconfig) (nd.epoch + 1) nd.com.tbchain_height
  result : nd.reconfigResult ≠ none →
    Passed (chain.triggers height2Reconfig) (nd.epoch + 1) nd.com.tbchain_height

variable {plan chain height2Reconfig}

/-! ### One node -/

section OneNode

variable {count : ComId → ℕ} {n : NodeId} {nd : Node}

/-- Before a trigger comes to a node, no more triggers have been passed than epochs. -/
theorem NodeInv.passed_epoch {height : ℕ} (h : NodeInv plan chain height2Reconfig count n nd)
    (hlt : nd.com.tbchain_height < height) (hflag : nd.com.to_reconfig = false)
    (hover : nd.epoch < count (plan.comID nd.epoch n) →
      ∃ x, (chain.triggers height2Reconfig)[nd.epoch]? = some x ∧ height ≤ x) :
    Passed (chain.triggers height2Reconfig) nd.epoch nd.com.tbchain_height := by
  obtain hp | ⟨hp, hset | hbegun⟩ := h.passed
  · exact hp
  · rw [hflag] at hset
    cases hset
  · -- the trigger of a reconfiguration that goes on has been passed, so this one is later
    obtain ⟨x, hx, hle⟩ := hover hbegun
    have := (hp nd.epoch x hx).mpr (Nat.lt_succ_self _)
    omega

theorem NodeInv.addTBs {height : ℕ} {com : Committee}
    (h : NodeInv plan chain height2Reconfig count n nd)
    (hnext : chain.heights[nd.received]? = some height)
    (hadd : nd.com.addTBs height = some com)
    (hidle : IsTrigger height2Reconfig height → nd.com.tbchain_height < height →
      nd.com.to_reconfig = false ∧ (nd.epoch < count (plan.comID nd.epoch n) →
        ∃ x, (chain.triggers height2Reconfig)[nd.epoch]? = some x ∧ height ≤ x)) :
    NodeInv plan chain height2Reconfig count n
      { nd with com := com, received := nd.received + 1 } := by
  -- what has been received is at most the new height of the node
  have hseen : ∀ t, nd.com.tbchain_height ≤ t → height ≤ t →
      ∀ i x, i < nd.received + 1 → chain.heights[i]? = some x → x ≤ t := by
    intro t hle hheight i x hi hx
    obtain hi | rfl := Nat.lt_succ_iff_lt_or_eq.mp hi
    · exact (h.seen i x hi hx).trans hle
    · cases hx.symm.trans hnext
      exact hheight
  obtain ⟨hle, rfl⟩ | ⟨hlt, ht, rfl⟩ | ⟨hlt, ht, rfl⟩ := Committee.addTBs_cases hadd
  · constructor
    · exact h.config
    · exact hseen _ le_rfl hle
    · exact h.begun
    · exact h.passed
    · exact h.flagged
    · exact h.notBegun
    · exact h.led
    · exact h.result
  · rw [h.config] at ht
    have hstep : ∀ {k}, Passed (chain.triggers height2Reconfig) k nd.com.tbchain_height →
        Passed (chain.triggers height2Reconfig) k height :=
      fun hp => hp.next_of_not_trigger hnext h.seen hlt ht
    constructor
    · exact h.config
    · exact hseen _ hlt.le le_rfl
    · exact h.begun
    · exact h.passed.imp hstep (And.imp_left hstep)
    · intro hflag
      exact ⟨(h.flagged hflag).1, hstep (h.flagged hflag).2⟩
    · exact h.notBegun
    · intro hleader hbegun
      exact hstep (h.led hleader hbegun)
    · intro hresult
      exact hstep (h.result hresult)
  · rw [h.config] at ht
    obtain ⟨hflag, hover⟩ := hidle ht hlt
    have hp := h.passed_epoch hlt hflag hover
    have hget := hp.getElem?_next hnext h.seen hlt ht
    have hp' := passed_self (chain.triggers_increasing _) hget
    constructor
    · exact h.config
    · exact hseen _ hlt.le le_rfl
    · exact h.begun
    · exact .inr ⟨hp', .inl rfl⟩
    · exact fun _ => ⟨hget, hp'⟩
    · -- a leader that had begun would have passed this trigger already
      intro _ hleader
      have hle : nd.epoch ≤ count (plan.comID nd.epoch n) := h.begun _
      obtain hbegun | heq := Nat.lt_or_eq_of_le hle
      · have := (h.led hleader hbegun nd.epoch height hget).mpr (Nat.lt_succ_self _)
        omega
      · exact heq.symm
    · exact fun _ _ => hp'
    · exact fun _ => hp'

theorem NodeInv.handleLeaderInitReconfig {seedHeight : ℕ}
    (h : NodeInv plan chain height2Reconfig count n nd)
    (hget : (chain.triggers height2Reconfig)[nd.epoch]? = some seedHeight)
    (hbegun : nd.epoch < count (plan.comID nd.epoch n)) :
    NodeInv plan chain height2Reconfig count n
      { nd with
        com := nd.com.updateTbChainHeight seedHeight, reconfigResult := some seedHeight } := by
  rw [Committee.updateTbChainHeight_eq]
  have hp : Passed (chain.triggers height2Reconfig) (nd.epoch + 1)
      (max nd.com.tbchain_height seedHeight) :=
    Passed.max_next (chain.triggers_increasing _) hget (h.passed.imp_right And.left)
  constructor
  · exact h.config
  · intro i x hi hx
    exact (h.seen i x hi hx).trans (Nat.le_max_left _ _)
  · exact h.begun
  · exact .inr ⟨hp, .inr hbegun⟩
  · exact fun hflag => ⟨(h.flagged hflag).1, hp⟩
  · exact h.notBegun
  · exact fun _ _ => hp
  · exact fun _ => hp

theorem NodeInv.start (h : NodeInv plan chain height2Reconfig count n nd)
    (hresult : nd.reconfigResult ≠ none) (hall : ∀ c, nd.epoch < count c)
    (hfirst : n = plan.leader (nd.epoch + 1) (plan.comID (nd.epoch + 1) n) →
      ¬ nd.epoch + 1 < count (plan.comID (nd.epoch + 1) n)) :
    NodeInv plan chain height2Reconfig count n
      { nd with com := nd.com.start, epoch := nd.epoch + 1, reconfigResult := none } := by
  constructor
  · exact h.config
  · exact h.seen
  · exact hall
  · exact .inl (h.result hresult)
  · rintro ⟨⟩
  · rintro ⟨⟩
  · intro hleader hlt
    exact absurd hlt (hfirst hleader)
  · intro hne
    exact absurd rfl hne

/-- Another node when the committee `c` begins a reconfiguration. -/
theorem NodeInv.begin [DecidableEq ComId] {c : ComId}
    (h : NodeInv plan chain height2Reconfig count n nd)
    (hother : n = plan.leader nd.epoch (plan.comID nd.epoch n) → plan.comID nd.epoch n = c →
      nd.epoch ≠ count c) :
    NodeInv plan chain height2Reconfig (Function.update count c (count c + 1)) n nd := by
  have hle : ∀ c', count c' ≤ Function.update count c (count c + 1) c' := by
    intro c'
    by_cases hc : c' = c
    · subst hc
      simp
    · simp [hc]
  constructor
  · exact h.config
  · exact h.seen
  · exact fun c' => (h.begun c').trans (hle c')
  · exact h.passed.imp_right (And.imp_right (Or.imp_right (fun hlt => hlt.trans_le (hle _))))
  · exact h.flagged
  · intro hflag hleader
    have hcount := h.notBegun hflag hleader
    by_cases hc : plan.comID nd.epoch n = c
    · rw [hc] at hcount
      exact absurd hcount.symm (hother hleader hc)
    · rw [Function.update_of_ne hc]
      exact hcount
  · intro hleader hlt
    by_cases hc : plan.comID nd.epoch n = c
    · -- the new one is not of the epoch the node leads in, so an earlier one is
      rw [hc, Function.update_self] at hlt
      have hne := hother hleader hc
      refine h.led hleader ?_
      rw [hc]
      omega
    · rw [Function.update_of_ne hc] at hlt
      exact h.led hleader hlt
  · exact h.result

/-- The leader that begins it. -/
theorem NodeInv.newBlockGenerated [DecidableEq ComId]
    (h : NodeInv plan chain height2Reconfig count n nd) (hflag : nd.com.to_reconfig = true) :
    NodeInv plan chain height2Reconfig
      (Function.update count (plan.comID nd.epoch n) (nd.epoch + 1)) n
      { nd with com := { nd.com with to_reconfig := false } } := by
  have hp := (h.flagged hflag).2
  constructor
  · exact h.config
  · exact h.seen
  · intro c
    by_cases hc : c = plan.comID nd.epoch n
    · subst hc
      simp
    · rw [Function.update_of_ne hc]
      exact h.begun c
  · exact .inr ⟨hp, .inr (by simp)⟩
  · rintro ⟨⟩
  · rintro ⟨⟩
  · exact fun _ _ => hp
  · exact fun _ => hp

end OneNode

/-! ### All nodes -/

variable [DecidableEq ComId]

variable (plan chain height2Reconfig) in
/-- The `i`-th reconfiguration of each committee is the one of the `i`-th trigger, begun by
its leader in epoch `i`. -/
structure Inv (s : State NodeId ComId) : Prop where
  ordered : ∀ (c : ComId) (i : ℕ) x, (s.begun c)[i]? = some x →
    x.epoch = i ∧ (chain.triggers height2Reconfig)[i]? = some x.seedHeight
  reached : ∀ x ∈ s.inits, x.epoch ≤ (s.nodes (plan.leader x.epoch x.comID)).epoch
  node : ∀ n, NodeInv plan chain height2Reconfig (fun c => (s.begun c).length) n (s.nodes n)

theorem Inv.mem_inits {s : State NodeId ComId} (h : Inv plan chain height2Reconfig s)
    {x : Init ComId} (hx : x ∈ s.inits) :
    x.epoch < (s.begun x.comID).length ∧
      (chain.triggers height2Reconfig)[x.epoch]? = some x.seedHeight := by
  have hmem : x ∈ s.begun x.comID := List.mem_filter.mpr ⟨hx, by simp⟩
  obtain ⟨i, hi⟩ := List.mem_iff_getElem?.mp hmem
  obtain ⟨rfl, htrigger⟩ := h.ordered x.comID i x hi
  exact ⟨(List.getElem?_eq_some_iff.mp hi).1, htrigger⟩

theorem Inv.exists_init {s : State NodeId ComId} (h : Inv plan chain height2Reconfig s)
    {c : ComId} {i : ℕ} (hi : i < (s.begun c).length) :
    ∃ x ∈ s.inits, x.epoch = i ∧ x.comID = c ∧
      (chain.triggers height2Reconfig)[i]? = some x.seedHeight := by
  obtain ⟨x, hx⟩ : ∃ x, (s.begun c)[i]? = some x := ⟨_, List.getElem?_eq_getElem hi⟩
  obtain ⟨hepoch, htrigger⟩ := h.ordered c i x hx
  obtain ⟨hmem, hcom⟩ := List.mem_filter.mp (List.mem_of_getElem? hx)
  exact ⟨x, hmem, hepoch, of_decide_eq_true hcom, htrigger⟩

theorem Inv.init : Inv plan chain height2Reconfig (initial height2Reconfig) := by
  constructor
  · intro c i x hx
    simp [State.begun, initial] at hx
  · simp [initial]
  · intro n
    have hpassed : Passed (chain.triggers height2Reconfig) 0 0 := by
      intro i h hi
      -- a height of zero is none to reconfigure at
      have hpos := (Chain.mem_triggers.mp (List.mem_of_getElem? hi)).2.1
      omega
    constructor
    · rfl
    · intro i x hi
      exact absurd hi (Nat.not_lt_zero i)
    · intro c
      exact Nat.zero_le _
    · exact .inl hpassed
    · rintro ⟨⟩
    · rintro ⟨⟩
    · intro _ hlt
      exact absurd hlt (Nat.not_lt_zero _)
    · intro hne
      exact absurd rfl hne

variable {n : NodeId} {s' : State NodeId ComId}

theorem State.begun_append {s : State NodeId ComId} {x : Init ComId}
    (h : s'.inits = s.inits ++ [x]) (c : ComId) :
    s'.begun c = if x.comID = c then s.begun c ++ [x] else s.begun c := by
  rw [State.begun, h, List.filter_append, List.filter_singleton]
  split <;> rename_i hc <;> simp_all [State.begun]

/-- The seeds of every committee are those of the first triggers. -/
theorem Inv.seeds_getElem? {s : State NodeId ComId} (h : Inv plan chain height2Reconfig s)
    {c : ComId} {i seedHeight : ℕ} (hi : (s.seeds c)[i]? = some seedHeight) :
    (chain.triggers height2Reconfig)[i]? = some seedHeight := by
  rw [State.seeds, List.getElem?_map] at hi
  obtain ⟨x, hx, rfl⟩ := Option.map_eq_some_iff.mp hi
  exact (h.ordered c i x hx).2

theorem Inv.sameSeeds {s : State NodeId ComId} (h : Inv plan chain height2Reconfig s) :
    s.SameSeeds := by
  constructor
  · intro c c' i a b ha hb
    exact Option.some.inj ((h.seeds_getElem? ha).symm.trans (h.seeds_getElem? hb))
  · intro c
    rw [List.nodup_iff_getElem?_ne_getElem?]
    intro i j hij hj heq
    obtain ⟨a, ha⟩ : ∃ a, (s.seeds c)[j]? = some a := ⟨_, List.getElem?_eq_getElem hj⟩
    have hle := le_iff_of_increasing (chain.triggers_increasing height2Reconfig)
      (h.seeds_getElem? ha) (h.seeds_getElem? (heq.trans ha))
    omega

variable [DecidableEq NodeId]

/-- A step of one node that begins no reconfiguration. -/
theorem Inv.setNode {s : State NodeId ComId} {nd : Node}
    (h : Inv plan chain height2Reconfig s)
    (hnode : NodeInv plan chain height2Reconfig (fun c => (s.begun c).length) n nd)
    (hepoch : (s.nodes n).epoch ≤ nd.epoch) : Inv plan chain height2Reconfig (s.setNode n nd) := by
  constructor
  · exact h.ordered
  · intro x hx
    have hreached := h.reached x hx
    by_cases hleader : plan.leader x.epoch x.comID = n
    · rw [hleader] at hreached ⊢
      rw [State.setNode_self]
      omega
    · rw [State.setNode_of_ne s n nd hleader]
      exact hreached
  · intro m
    by_cases hm : m = n
    · subst hm
      rw [State.setNode_self]
      exact hnode
    · rw [State.setNode_of_ne s n nd hm]
      exact h.node m

theorem Inv.addTBs {s : State NodeId ComId}
    (h : Inv plan chain height2Reconfig s)
    (hok : unhurried plan chain height2Reconfig s (.addTBs n))
    (hstep : Seeds.addTBs chain s n = some s') : Inv plan chain height2Reconfig s' := by
  obtain ⟨height, hnext, hstep⟩ := Option.bind_eq_some_iff.mp hstep
  obtain ⟨com, hadd, hstep⟩ := Option.bind_eq_some_iff.mp hstep
  cases hstep
  refine h.setNode ((h.node n).addTBs hnext hadd ?_) le_rfl
  intro ht hlt
  obtain ⟨hflag, hover⟩ := hok height hnext ht hlt
  refine ⟨hflag, ?_⟩
  intro hbegun
  obtain ⟨x, hx, hepoch, hcom, hget⟩ := h.exists_init hbegun
  exact ⟨x.seedHeight, hget, hover x hx hepoch hcom⟩

theorem Inv.handleLeaderInitReconfig {s : State NodeId ComId} {seedHeight : ℕ}
    (h : Inv plan chain height2Reconfig s)
    (hstep : Seeds.handleLeaderInitReconfig plan s n seedHeight = some s') :
    Inv plan chain height2Reconfig s' := by
  dsimp only [Seeds.handleLeaderInitReconfig] at hstep
  split at hstep
  · rename_i hmem
    cases hstep
    obtain ⟨hbegun, hget⟩ := h.mem_inits hmem
    exact h.setNode ((h.node n).handleLeaderInitReconfig hget hbegun) le_rfl
  · cases hstep

theorem Inv.start [Fintype ComId] {s : State NodeId ComId}
    (h : Inv plan chain height2Reconfig s) (hstep : Seeds.start s n = some s') :
    Inv plan chain height2Reconfig s' := by
  dsimp only [Seeds.start] at hstep
  split at hstep
  · rename_i hguard
    obtain ⟨hresult, hall⟩ := hguard
    cases hstep
    refine h.setNode ((h.node n).start hresult ?_ ?_) (Nat.le_succ _)
    · intro c
      obtain ⟨x, hx, hepoch, rfl⟩ := hall c
      rw [← hepoch]
      exact (h.mem_inits hx).1
    · -- only `n` could have begun as the leader it becomes now
      intro hleader hbegun
      obtain ⟨x, hx, hepoch, hcom, -⟩ := h.exists_init hbegun
      have hreached := h.reached x hx
      rw [hepoch, hcom, ← hleader] at hreached
      omega
  · cases hstep

theorem Inv.begin {s : State NodeId ComId} (h : Inv plan chain height2Reconfig s)
    (hleader : n = plan.leader (s.nodes n).epoch (plan.comID (s.nodes n).epoch n))
    (hflag : (s.nodes n).com.to_reconfig = true)
    (hself : s'.nodes n =
      { s.nodes n with com := { (s.nodes n).com with to_reconfig := false } })
    (hothers : ∀ m, m ≠ n → s'.nodes m = s.nodes m)
    (hinits : s'.inits = s.inits ++ [⟨(s.nodes n).epoch, plan.comID (s.nodes n).epoch n,
      (s.nodes n).com.reconfig_seed_height⟩]) :
    Inv plan chain height2Reconfig s' := by
  have hn := h.node n
  have hcount := hn.notBegun hflag hleader
  have hget := (hn.flagged hflag).1
  have hepoch : ∀ m, (s'.nodes m).epoch = (s.nodes m).epoch := by
    intro m
    by_cases hm : m = n
    · rw [hm, hself]
    · rw [hothers m hm]
  -- the number of reconfigurations begun grows by one for this committee
  have hcounts : (fun c => (s'.begun c).length) = Function.update (fun c => (s.begun c).length)
      (plan.comID (s.nodes n).epoch n) ((s.nodes n).epoch + 1) := by
    funext c
    rw [State.begun_append hinits]
    by_cases hc : plan.comID (s.nodes n).epoch n = c
    · subst hc
      simpa using hcount
    · simp [hc, Ne.symm hc]
  constructor
  · intro c i x hx
    rw [State.begun_append hinits] at hx
    split at hx
    · rename_i hc
      obtain rfl : plan.comID (s.nodes n).epoch n = c := hc
      rw [List.getElem?_append] at hx
      split at hx
      · exact h.ordered _ i x hx
      · -- the one that is begun now
        obtain ⟨hi, rfl⟩ := List.getElem?_eq_some_iff.mp hx
        rw [List.length_singleton] at hi
        obtain rfl : i = (s.nodes n).epoch := by omega
        simpa using hget
    · exact h.ordered c i x hx
  · intro x hx
    rw [hepoch]
    rw [hinits, List.mem_append, List.mem_singleton] at hx
    obtain hx | rfl := hx
    · exact h.reached x hx
    · dsimp only
      rw [← hleader]
  · intro m
    rw [hcounts]
    by_cases hm : m = n
    · subst hm
      rw [hself]
      exact hn.newBlockGenerated hflag
    · have hbegin := (h.node m).begin (c := plan.comID (s.nodes n).epoch n) <| by
        -- the leader of this committee in this epoch is `n`
        intro hleads hcom heq
        rw [hcom, heq, hcount, ← hleader] at hleads
        exact hm hleads
      rw [hcount] at hbegin
      rw [hothers m hm]
      exact hbegin

theorem Inv.newBlockGenerated {s : State NodeId ComId}
    (h : Inv plan chain height2Reconfig s)
    (hstep : Seeds.newBlockGenerated plan s n = some s') : Inv plan chain height2Reconfig s' := by
  dsimp only [Seeds.newBlockGenerated, Committee.newBlockGenerated] at hstep
  split at hstep
  · rename_i hleader
    split at hstep
    · rename_i hflag
      cases hstep
      refine h.begin hleader hflag (State.setNode_self s n _) ?_ rfl
      exact fun m hm => State.setNode_of_ne s n _ hm
    · cases hstep
      simp only [Option.toList_none, List.map_nil, List.append_nil]
      exact h.setNode (h.node n) le_rfl
  · cases hstep

theorem Inv.step [Fintype ComId] {s : State NodeId ComId} {ev : Event NodeId}
    (h : Inv plan chain height2Reconfig s) (hok : unhurried plan chain height2Reconfig s ev)
    (hstep : Seeds.step plan chain s ev = some s') : Inv plan chain height2Reconfig s' := by
  cases ev with
  | addTBs n => exact h.addTBs hok hstep
  | newBlockGenerated n => exact h.newBlockGenerated hstep
  | handleLeaderInitReconfig n seedHeight => exact h.handleLeaderInitReconfig hstep
  | start n => exact h.start hstep

end Runs

section Result

variable {NodeId ComId : Type} [DecidableEq NodeId] [DecidableEq ComId] [Fintype ComId]

/-- In an unhurried run all committees reconfigure with the same seeds. -/
theorem sameSeeds_of_unhurried (plan : Plan NodeId ComId) (chain : Chain) (height2Reconfig : ℕ)
    {s : State NodeId ComId}
    (h : (machine plan chain height2Reconfig).ReachableBy
      (unhurried plan chain height2Reconfig) s) : s.SameSeeds := by
  refine (Sys.Machine.invariant_by (Inv plan chain height2Reconfig) ?_ ?_ h).sameSeeds
  · rintro _ rfl
    exact .init
  · intro s ev s' hok hstep hs
    exact hs.step hok hstep

end Result


/-! ## Two committees -/

def exampleChain : Chain := ⟨[5, 10, 12, 20], by decide⟩

theorem sameSeeds_exampleRun : ∃ s, (machine exchangePlan exampleChain 10).ReachableBy
    (unhurried exchangePlan exampleChain 10) s ∧
    (s.seeds 0 = [10, 20] ∧ s.seeds 1 = [10, 20]) ∧ s.SameSeeds := by
  have hrun : ∃ s, (machine exchangePlan exampleChain 10).ReachableBy
      (unhurried exchangePlan exampleChain 10) s ∧ s.seeds 0 = [10, 20] ∧ s.seeds 1 = [10, 20] :=
    Sys.Machine.exists_reachableBy _ rfl
      [.addTBs 0, .addTBs 0, .newBlockGenerated 0, .addTBs 4, .addTBs 4, .newBlockGenerated 4,
        .handleLeaderInitReconfig 0 10, .handleLeaderInitReconfig 4 10, .start 0, .start 4,
        .addTBs 0, .addTBs 0, .newBlockGenerated 0, .addTBs 4, .addTBs 4, .newBlockGenerated 4]
      (by decide +kernel)
  obtain ⟨s, hs, hseeds⟩ := hrun
  exact ⟨s, hs, hseeds, sameSeeds_of_unhurried exchangePlan exampleChain 10 hs⟩

/-- The leader of committee 0 sees the blocks 10 and 20 before it has packed a block, the one
of committee 1 only the block 10. When the latter leads committee 0, it begins with 20
again. -/
theorem different_seeds : ∃ s, (machine exchangePlan exampleChain 10).Reachable s ∧
    s.seeds 0 = [20, 20] ∧ s.seeds 1 = [10] :=
  Sys.Machine.exists_reachableBy _ rfl
    [.addTBs 0, .addTBs 0, .addTBs 0, .addTBs 0, .newBlockGenerated 0,
      .addTBs 4, .addTBs 4, .newBlockGenerated 4,
      .handleLeaderInitReconfig 0 20, .handleLeaderInitReconfig 4 10, .start 0, .start 4,
      .addTBs 4, .addTBs 4, .newBlockGenerated 4]
    (by decide +kernel)

end Seeds

end LessChain
