import LessChain.Contract.Finality

/-!
# Which shard does the contract map an address to?

After a reconfiguration each new leader has the contract move its members with
`adjustRecordedAddrs`. The call takes any `seedHeight`: a vrf of an older epoch is as good as
a newer one, and may be submitted again by anybody. `older_epoch_returns` is a run that goes
back. In `newestLast` runs the shard of an address is that of its newest vrf.

`genesis` and `accepted` are not in the contract: the shards of the constructor, and the vrfs
that were accepted with their seed heights.
-/

namespace LessChain

namespace Contract

section Accepted

variable (evm : Evm)

/-- The entries that pass the checks of `adjustRecordedAddrs`, from index `j` on. -/
def acceptedFrom (addrRecorded : Address → Bool) (seed : Hash) (vrfs : List MemBytes) :
    List Address → ℕ → List (Address × MemBytes)
  | [], _ => []
  | addr :: addrs, j =>
      match vrfs[j]? with
      | none => []
      | some vrf =>
          if addrRecorded addr = true ∧ verifyVrfResult evm seed vrf addr = true then
            (addr, vrf) :: acceptedFrom addrRecorded seed vrfs addrs (j + 1)
          else acceptedFrom addrRecorded seed vrfs addrs (j + 1)

variable {evm} {seed : Hash} {vrfs : List MemBytes}

/-- What a call leaves behind: an address has the shard of one of its accepted vrfs, or its
old one if there is none. -/
structure Adjusted (st : TBStorage) (accepted : List (Address × MemBytes)) (st' : TBStorage) :
    Prop where
  frame : st' = { st with addr2Shard := st'.addr2Shard }
  addr2Shard : ∀ a,
    (st'.addr2Shard a = st.addr2Shard a ∧ ∀ e ∈ accepted, e.1 ≠ a) ∨
      ∃ e ∈ accepted, e.1 = a ∧ vrfValue2ShardID st e.2 = some (st'.addr2Shard a)

theorem Adjusted.nil (st : TBStorage) : Adjusted st [] st where
  frame := rfl
  addr2Shard := fun _ => .inl ⟨rfl, by simp⟩

/-- An entry is accepted, and the rest of the loop runs on what it leaves. -/
theorem Adjusted.cons {st st' : TBStorage} {addr : Address} {vrf : MemBytes} {newShardID : ℕ}
    {accepted : List (Address × MemBytes)} (hshard : vrfValue2ShardID st vrf = some newShardID)
    (h : Adjusted { st with addr2Shard := Function.update st.addr2Shard addr newShardID }
      accepted st') : Adjusted st ((addr, vrf) :: accepted) st' := by
  constructor
  · rw [h.frame]
  · intro a
    rcases h.addr2Shard a with ⟨hsame, hnone⟩ | ⟨e, he, hea, hto⟩
    · by_cases ha : a = addr
      · -- no later entry moves the address again
        right
        refine ⟨(addr, vrf), List.mem_cons_self, ha.symm, ?_⟩
        rw [hsame, ha]
        dsimp only
        rw [Function.update_self, hshard]
      · left
        constructor
        · rw [hsame]
          dsimp only
          rw [Function.update_of_ne ha]
        · intro e he
          rcases List.mem_cons.mp he with rfl | he
          · exact Ne.symm ha
          · exact hnone e he
    · exact .inr ⟨e, List.mem_cons_of_mem _ he, hea, hto⟩

theorem adjustLoop_adjusted {addrs : List Address} {j : ℕ} {st st' : TBStorage}
    {logs : List LogMessage} (h : adjustLoop evm seed vrfs addrs j st = some (st', logs)) :
    Adjusted st (acceptedFrom evm st.addrRecorded seed vrfs addrs j) st' := by
  induction addrs generalizing j st logs with
  | nil =>
      cases h
      exact .nil _
  | cons addr addrs ih =>
      rw [adjustLoop] at h
      obtain ⟨vrfValue, hvrf, h⟩ := Option.bind_eq_some_iff.mp h
      rw [acceptedFrom, hvrf]
      dsimp only
      by_cases hrec : st.addrRecorded addr = true
      · rw [if_neg (by simp [hrec])] at h
        by_cases hver : verifyVrfResult evm seed vrfValue addr = true
        · rw [if_neg (by simp [hver])] at h
          rw [if_pos ⟨hrec, hver⟩]
          obtain ⟨newShardID, hshard, h⟩ := Option.bind_eq_some_iff.mp h
          split at h
          · cases h
          · exact .cons hshard (ih h)
        · -- `continue` after a log line
          rw [if_pos (by simpa using hver)] at h
          rw [if_neg fun hand => hver hand.2]
          split at h
          · cases h
          · obtain ⟨⟨st₁, logs₁⟩, hrest, heq⟩ := Option.map_eq_some_iff.mp h
            cases heq
            exact ih hrest
      · rw [if_pos (by simpa using hrec)] at h
        rw [if_neg fun hand => hrec hand.1]
        split at h
        · cases h
        · obtain ⟨⟨st₁, logs₁⟩, hrest, heq⟩ := Option.map_eq_some_iff.mp h
          cases heq
          exact ih hrest

end Accepted

/-! ## Runs of calls -/

/-- A vrf that was accepted for an address. -/
structure Accepted where
  addr : Address
  seedHeight : ℕ
  vrf : MemBytes

structure Epochs where
  store : TBStorage
  genesis : Address → ℕ
  accepted : List Accepted

namespace Epochs

section Model

variable (evm : Evm)

/-- The entries of a call that pass the checks, with their seed height. -/
def acceptedBy (st : TBStorage) (addrs : List Address) (vrfs : List MemBytes) (seedHeight : ℕ)
    (blockhash : ℕ → Hash) : List Accepted :=
  (acceptedFrom evm st.addrRecorded (blockhash seedHeight) vrfs addrs 0).map
    fun e => ⟨e.1, seedHeight, e.2⟩

def step (s : Epochs) : Call → Option Epochs
  | .addTB call =>
      match addTB evm s.store call with
      | none => some s
      | some (st, _) => some { s with store := st }
  | .adjustRecordedAddrs addrs vrfs seedHeight blockhash =>
      match adjustRecordedAddrs evm s.store addrs vrfs seedHeight blockhash with
      | none => some s
      | some (st, _) => some { s with
          store := st
          accepted := s.accepted ++ acceptedBy evm s.store addrs vrfs seedHeight blockhash }
  | .getTB _ _ => some s

def Deployed (s : Epochs) : Prop :=
  (∃ genesisTBs minSigCnt shardNum addrs,
    deploy genesisTBs minSigCnt shardNum addrs = some s.store) ∧
    s.genesis = s.store.addr2Shard ∧ s.accepted = []

def machine : Sys.Machine Epochs Call := ⟨Deployed, step evm⟩

/-- The vrf leads to the same shard as another. -/
def SameShard (st : TBStorage) (x y : Accepted) : Prop :=
  vrfValue2ShardID st x.vrf = vrfValue2ShardID st y.vrf

instance (st : TBStorage) (x y : Accepted) : Decidable (SameShard st x y) :=
  inferInstanceAs (Decidable (_ = _))

/-- A vrf that passes the checks is of a newer epoch than those accepted for its address
before, or leads to the same shard as those of its own epoch. -/
def newestLast (s : Epochs) : Call → Prop
  | .adjustRecordedAddrs addrs vrfs seedHeight blockhash =>
      ∀ x ∈ acceptedBy evm s.store addrs vrfs seedHeight blockhash,
        (∀ y ∈ s.accepted, y.addr = x.addr →
          y.seedHeight < seedHeight ∨ y.seedHeight = seedHeight ∧ SameShard s.store y x) ∧
        ∀ y ∈ acceptedBy evm s.store addrs vrfs seedHeight blockhash, y.addr = x.addr →
          SameShard s.store y x
  | _ => True

instance (s : Epochs) (c : Call) : Decidable (newestLast evm s c) :=
  match c with
  | .adjustRecordedAddrs _ _ _ _ =>
      inferInstanceAs (Decidable (∀ _ ∈ _, (∀ _ ∈ _, _ → _ ∨ _ ∧ _) ∧ ∀ _ ∈ _, _ → _))
  | .addTB _ => .isTrue trivial
  | .getTB _ _ => .isTrue trivial

/-- Every address is where the newest vrf accepted for it leads, or where the constructor
put it. -/
def Newest (s : Epochs) : Prop :=
  ∀ a, s.store.addrRecorded a = true →
    ((∀ x ∈ s.accepted, x.addr ≠ a) → s.store.addr2Shard a = s.genesis a) ∧
    ∀ x ∈ s.accepted, x.addr = a →
      (∀ y ∈ s.accepted, y.addr = a → y.seedHeight ≤ x.seedHeight) →
        vrfValue2ShardID s.store x.vrf = some (s.store.addr2Shard a)

variable {evm} {addrs : List Address} {vrfs : List MemBytes} {seedHeight : ℕ} {blockhash : ℕ → Hash}

theorem seedHeight_of_mem_acceptedBy {st : TBStorage}
    {x : Accepted}
    (h : x ∈ acceptedBy evm st addrs vrfs seedHeight blockhash) : x.seedHeight = seedHeight := by
  obtain ⟨e, -, rfl⟩ := List.mem_map.mp h
  rfl

/-- What an executed call does to one address, in terms of the accepted vrfs. -/
theorem adjustRecordedAddrs_addr2Shard {st st' : TBStorage}
    {logs : List LogMessage}
    (h : adjustRecordedAddrs evm st addrs vrfs seedHeight blockhash = some (st', logs))
    (a : Address) :
    (st'.addr2Shard a = st.addr2Shard a ∧
      ∀ x ∈ acceptedBy evm st addrs vrfs seedHeight blockhash, x.addr ≠ a) ∨
    ∃ x ∈ acceptedBy evm st addrs vrfs seedHeight blockhash, x.addr = a ∧
      vrfValue2ShardID st x.vrf = some (st'.addr2Shard a) := by
  rcases (adjustLoop_adjusted h).addr2Shard a with ⟨hsame, hnone⟩ | ⟨e, he, hea, hto⟩
  · left
    refine ⟨hsame, ?_⟩
    intro x hx
    obtain ⟨e, he, rfl⟩ := List.mem_map.mp hx
    exact hnone e he
  · right
    exact ⟨_, List.mem_map_of_mem he, hea, hto⟩

theorem newest_adjust {s : Epochs} {st : TBStorage}
    {logs : List LogMessage}
    (hok : newestLast evm s (.adjustRecordedAddrs addrs vrfs seedHeight blockhash))
    (hadjust : adjustRecordedAddrs evm s.store addrs vrfs seedHeight blockhash = some (st, logs))
    (h : s.Newest) :
    Newest { s with
      store := st
      accepted := s.accepted ++ acceptedBy evm s.store addrs vrfs seedHeight blockhash } := by
  have hframe := (adjustLoop_adjusted hadjust).frame
  have hrecorded : st.addrRecorded = s.store.addrRecorded := by rw [hframe]
  have hshard : vrfValue2ShardID st = vrfValue2ShardID s.store := by
    rw [hframe]
    rfl
  intro a ha
  dsimp only at ha ⊢
  rw [hrecorded] at ha
  obtain ⟨hgenesis, hnewest⟩ := h a ha
  rcases adjustRecordedAddrs_addr2Shard hadjust a with ⟨hsame, hnone⟩ | ⟨e, he, hea, hto⟩
  · -- nothing is accepted for `a`, which stays where it is
    rw [hsame, hshard]
    constructor
    · intro hno
      exact hgenesis fun x hx => hno x (List.mem_append_left _ hx)
    · intro x hx hxa hmax
      rcases List.mem_append.mp hx with hold | hnew
      · exact hnewest x hold hxa fun y hy => hmax y (List.mem_append_left _ hy)
      · exact absurd hxa (hnone x hnew)
  · -- `e` decides where `a` goes, and it is of the newest epoch
    constructor
    · intro hno
      exact absurd hea (hno e (List.mem_append_right _ he))
    · intro x hx hxa hmax
      rw [hshard, ← hto]
      have hxe : x.addr = e.addr := hxa.trans hea.symm
      rcases List.mem_append.mp hx with hold | hnew
      · have hle := hmax e (List.mem_append_right _ he) hea
        rw [seedHeight_of_mem_acceptedBy he] at hle
        rcases (hok e he).1 x hold hxe with hlt | ⟨-, hsame⟩
        · omega
        · exact hsame
      · exact (hok e he).2 x hnew hxe

theorem newest_step {s s' : Epochs} {c : Call} (hok : newestLast evm s c)
    (hstep : step evm s c = some s') (h : s.Newest) : s'.Newest := by
  cases c with
  | addTB call =>
      rw [step] at hstep
      split at hstep
      · cases hstep
        exact h
      · rename_i st logs hadd
        cases hstep
        -- a beacon does not move anybody
        rcases addTB_eq hadd with ⟨-, rfl⟩ | ⟨-, rfl⟩
        · exact h
        · exact h
  | adjustRecordedAddrs addrs vrfs seedHeight blockhash =>
      rw [step] at hstep
      split at hstep
      · cases hstep
        exact h
      · rename_i st logs hadjust
        cases hstep
        exact newest_adjust hok hadjust h
  | getTB _ _ =>
      cases hstep
      exact h

/-- In runs in which no older vrf is accepted after a newer one, every recorded address is in
the shard of its newest vrf. -/
theorem newest_of_newestLast {s : Epochs} (h : (machine evm).ReachableBy (newestLast evm) s) :
    s.Newest := by
  refine Sys.Machine.invariant_by Newest ?_ ?_ h
  · rintro s₀ ⟨-, hgenesis, hnone⟩ a -
    rw [hnone, hgenesis]
    constructor
    · intro _
      rfl
    · intro x hx
      cases hx
  · intro t c t' hok hstep ht
    exact newest_step hok hstep ht

end Model

/-! ## Back to an older epoch -/

/-- The hash of a later block, and the vrf of the member for it. -/
def laterSeed : Hash := 0x9fda1d63aa03825f4d67100e8c1f0ab3bcd2e36fb5b1dde0f2cb3654f1d45b43#256

def laterVrf : Hash × Hash × UInt8 :=
  (0x2f01e5e15cca351daff3843fb70f3c2f0a1bdd05e5af888a67784ef3e10a2a01#256,
    0x66247f975f2649106054ad76379a372304799664a438235074a0be9d4dbf4ff8#256, 1)

/-- `exampleEvm`, which now also knows the later vrf. -/
def laterEvm : Evm where
  keccak256 := exampleEvm.keccak256
  ecrecover := fun hash v r s =>
    if (hash, r, s, v) = (laterSeed, laterVrf.1, laterVrf.2.1, laterVrf.2.2 + 27) then exampleMember
    else exampleEvm.ecrecover hash v r s

def laterBlockhash (height : ℕ) : Hash := if height = 5 then exampleSeed else laterSeed

/-- Two shards; the member starts in the first. -/
def twoShards : TBStorage :=
  (deploy [exampleGenesis, exampleGenesis] 1 2 [[exampleMember], []]).get rfl

def exampleEpochs : Epochs := ⟨twoShards, twoShards.addr2Shard, []⟩

theorem deployed_exampleEpochs : Deployed exampleEpochs :=
  ⟨⟨[exampleGenesis, exampleGenesis], 1, 2, [[exampleMember], []], (Option.some_get rfl).symm⟩,
    rfl, rfl⟩

/-- The vrf of height 5 leads to shard 0 and that of height 10 to shard 1. -/
def adjustAt (seedHeight : ℕ) : Call :=
  let vrf := if seedHeight = 5 then vrfSig else laterVrf
  .adjustRecordedAddrs [exampleMember] [signature vrf.1 vrf.2.1 vrf.2.2] seedHeight laterBlockhash

/-- The call of the first epoch is submitted once more after that of the second. -/
theorem older_epoch_returns :
    ∃ s, (machine laterEvm).Reachable s ∧
      s.accepted.map (·.seedHeight) = [5, 10, 5] ∧
      (∀ x ∈ s.accepted, x.addr = exampleMember) ∧
      (∀ x ∈ s.accepted, x.seedHeight = 10 → vrfValue2ShardID s.store x.vrf = some 1) ∧
      s.store.addrRecorded exampleMember = true ∧ s.store.addr2Shard exampleMember = 0 :=
  Sys.Machine.exists_reachableBy _ deployed_exampleEpochs [adjustAt 5, adjustAt 10, adjustAt 5]
    (by decide +kernel)

theorem newest_inOrder :
    ∃ s, (machine laterEvm).ReachableBy (newestLast laterEvm) s ∧
      s.accepted.map (·.seedHeight) = [5, 10] ∧ s.store.addr2Shard exampleMember = 1 ∧
      s.Newest := by
  obtain ⟨s, hs, hheights, hshard⟩ : ∃ s, (machine laterEvm).ReachableBy (newestLast laterEvm) s ∧
      s.accepted.map (·.seedHeight) = [5, 10] ∧ s.store.addr2Shard exampleMember = 1 :=
    Sys.Machine.exists_reachableBy _ deployed_exampleEpochs [adjustAt 5, adjustAt 10]
      (by decide +kernel)
  exact ⟨s, hs, hheights, hshard, newest_of_newestLast hs⟩

end Epochs

end Contract

end LessChain
