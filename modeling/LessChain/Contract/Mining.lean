import LessChain.Contract.Epochs

/-!
# A beacon among the calls of a reconfiguration

The last beacon before a reconfiguration and the `adjustRecordedAddrs` calls of the new
leaders are on their way to the beacon chain together. Each account's calls are mined in the
order of their nonces, and there is no order between accounts. `addTB` looks at `addr2Shard`
as it is when the call is mined, so a call that has moved the signers by then makes it
refuse the beacon: `beacon_orphaned`. It is stored if the calls mined before it leave the
signers in their shard.
-/

namespace LessChain

namespace Contract

namespace Mining

/-- A submitted call of `adjustRecordedAddrs`. -/
structure Adjust where
  sender : Address
  nonce : ℕ
  addrs : List Address
  vrfs : List MemBytes
  seedHeight : ℕ
  blockhash : ℕ → Hash

/-- The account and the nonce of the `addTB` that is not mined yet, and the other calls that
are not. -/
structure State where
  store : TBStorage
  addTB : Option (Address × ℕ)
  adjusts : List Adjust

inductive Event where
  | addTB
  | adjust (k : ℕ)

/-- A call of this account with a smaller nonce is still to be mined. -/
def State.Behind (s : State) (sender : Address) (nonce : ℕ) : Prop :=
  (∃ adj ∈ s.adjusts, adj.sender = sender ∧ adj.nonce < nonce) ∨
    ∃ p ∈ s.addTB, p.1 = sender ∧ p.2 < nonce

instance (s : State) (sender : Address) (nonce : ℕ) : Decidable (s.Behind sender nonce) :=
  inferInstanceAs (Decidable ((∃ _ ∈ _, _ ∧ _) ∨ ∃ _ ∈ _, _ ∧ _))

section Model

variable (evm : Evm) (beacon : AddTBCall)

def mineAddTB (s : State) : Option State := do
  let (sender, nonce) ← s.addTB
  if s.Behind sender nonce then none
  else some { s with
    addTB := none
    store := match Contract.addTB evm s.store beacon with
      | none => s.store
      | some (st, _) => st }

def mineAdjust (s : State) (k : ℕ) : Option State := do
  let adj ← s.adjusts[k]?
  if s.Behind adj.sender adj.nonce then none
  else some { s with
    adjusts := s.adjusts.eraseIdx k
    store := match adjustRecordedAddrs evm s.store adj.addrs adj.vrfs adj.seedHeight
        adj.blockhash with
      | none => s.store
      | some (st, _) => st }

def step (s : State) : Event → Option State
  | .addTB => mineAddTB evm beacon s
  | .adjust k => mineAdjust evm s k

/-- The beacon carries as many signatures as are asked for, and the contract would accept
each of them as things stand. -/
structure Signed (st : TBStorage) : Prop where
  length : beacon.sigs.length = st.minSigCnt
  minSigCnt : st.minSigCnt < 2 ^ 32
  valid : ∀ i sig, beacon.sigs[i]? = some sig →
    ∃ signer, verdict evm st beacon i sig = some (.valid, signer)

/-- The beacon has been submitted, with whatever calls of the new leaders. -/
def Submitted (s : State) : Prop := s.addTB.isSome = true ∧ Signed evm beacon s.store

def machine : Sys.Machine State Event := ⟨Submitted evm beacon, step evm beacon⟩

/-- A call mined before the beacon has no acceptable vrf that moves a signer of the beacon to
another shard. -/
def keepsSigners (s : State) : Event → Prop
  | .addTB => True
  | .adjust k => s.addTB.isSome = true → ∀ adj ∈ s.adjusts[k]?,
      ∀ e ∈ acceptedFrom evm s.store.addrRecorded (adj.blockhash adj.seedHeight) adj.vrfs adj.addrs 0,
        e.1 ∈ beacon.signers → vrfValue2ShardID s.store e.2 = some beacon.tb.shardID

instance (s : State) (ev : Event) : Decidable (keepsSigners evm beacon s ev) :=
  match ev with
  | .addTB => .isTrue trivial
  | .adjust _ => inferInstanceAs (Decidable (_ → ∀ _ ∈ _, ∀ _ ∈ _, _ → _))

variable {evm beacon}

/-! ## A signed beacon is stored -/

/-- The loop counts every position and stops at the last one. -/
theorem countSigs_of_valid {st : TBStorage} {sigs : List MemBytes} {i cnt : ℕ} (hcnt : cnt = i)
    (hlength : i + sigs.length = st.minSigCnt) (hmin : st.minSigCnt < 2 ^ 32)
    (hvalid : ∀ k sig, sigs[k]? = some sig →
      ∃ signer, verdict evm st beacon (i + k) sig = some (.valid, signer)) :
    countSigs evm st beacon sigs i cnt = some (st.minSigCnt, []) := by
  induction sigs generalizing i cnt with
  | nil => rw [countSigs, hcnt, ← hlength, List.length_nil, Nat.add_zero]
  | cons sig sigs ih =>
      obtain ⟨signer, hsig⟩ := hvalid 0 sig rfl
      rw [Nat.add_zero] at hsig
      rw [List.length_cons] at hlength
      rw [countSigs, hsig, Option.bind_some]
      dsimp only
      rw [if_pos rfl]
      by_cases hfull : cnt + 1 ≥ st.minSigCnt
      · rw [if_pos hfull, show cnt + 1 = st.minSigCnt by omega]
      · rw [if_neg hfull, if_neg (by omega)]
        apply ih (by omega) (by omega)
        intro k sig' hk
        obtain ⟨signer', hsig'⟩ := hvalid (k + 1) sig' hk
        rw [← Nat.add_assoc, Nat.add_right_comm] at hsig'
        exact ⟨signer', hsig'⟩

theorem Signed.stored {st : TBStorage} (h : Signed evm beacon st) :
    ∃ logs, Contract.addTB evm st beacon =
      some (st.putTB beacon.tb.shardID beacon.tb.height beacon.tb, logs) := by
  have hcount : countSigs evm st beacon beacon.sigs 0 0 = some (st.minSigCnt, []) := by
    apply countSigs_of_valid rfl
    · rw [Nat.zero_add, h.length]
    · exact h.minSigCnt
    · intro k sig hk
      rw [Nat.zero_add]
      exact h.valid k sig hk
  unfold Contract.addTB
  rw [hcount, Option.map_some]
  dsimp only
  rw [if_neg (lt_irrefl _)]
  exact ⟨_, rfl⟩

/-- A position stays valid when its signer stays in the shard. -/
theorem verdict_valid_of_keeps {st st' : TBStorage} {i : ℕ} {sig : MemBytes} {signer : Address}
    (hrecorded : st'.addrRecorded = st.addrRecorded)
    (hkeeps : ∀ a ∈ beacon.signers, st.addr2Shard a = beacon.tb.shardID →
      st'.addr2Shard a = beacon.tb.shardID)
    (h : verdict evm st beacon i sig = some (.valid, signer)) :
    verdict evm st' beacon i sig = some (.valid, signer) := by
  unfold verdict at h ⊢
  obtain ⟨a, ha, h⟩ := Option.bind_eq_some_iff.mp h
  rw [ha, Option.bind_some, hrecorded]
  split at h
  · cases h
  · rename_i hrec
    split at h
    · cases h
    · rename_i hshard
      rw [not_ne_iff] at hshard
      have hstays := hkeeps a (List.mem_of_getElem? ha) hshard
      rw [if_neg hrec, if_neg (not_ne_iff.mpr hstays)]
      exact h

theorem Signed.adjust {st st' : TBStorage} {addrs : List Address} {vrfs : List MemBytes}
    {seedHeight : ℕ} {blockhash : ℕ → Hash} {logs : List LogMessage}
    (h : Signed evm beacon st)
    (hadjust : adjustRecordedAddrs evm st addrs vrfs seedHeight blockhash = some (st', logs))
    (hok : ∀ e ∈ acceptedFrom evm st.addrRecorded (blockhash seedHeight) vrfs addrs 0,
      e.1 ∈ beacon.signers → vrfValue2ShardID st e.2 = some beacon.tb.shardID) :
    Signed evm beacon st' := by
  have hadj := adjustLoop_adjusted hadjust
  have hmin : st'.minSigCnt = st.minSigCnt := by rw [hadj.frame]
  have hrecorded : st'.addrRecorded = st.addrRecorded := by rw [hadj.frame]
  have hkeeps : ∀ a ∈ beacon.signers, st.addr2Shard a = beacon.tb.shardID →
      st'.addr2Shard a = beacon.tb.shardID := by
    intro a ha hshard
    rcases hadj.addr2Shard a with ⟨hsame, -⟩ | ⟨e, he, hea, hto⟩
    · rw [hsame, hshard]
    · -- `a` was moved, and by assumption to where it was
      have hstays := hok e he (hea ▸ ha)
      rw [hto, Option.some.injEq] at hstays
      exact hstays
  constructor
  · rw [hmin]
    exact h.length
  · rw [hmin]
    exact h.minSigCnt
  · intro i sig hsig
    obtain ⟨signer, hvalid⟩ := h.valid i sig hsig
    exact ⟨signer, verdict_valid_of_keeps hrecorded hkeeps hvalid⟩

/-! ## Runs -/

variable (evm beacon) in
/-- The beacon is still acceptable, or stored. -/
def Inv (s : State) : Prop :=
  s.addTB.isSome = true ∧ Signed evm beacon s.store ∨
    s.addTB = none ∧ s.store.tbs beacon.tb.shardID beacon.tb.height = beacon.tb

theorem inv_mineAddTB {s s' : State} (hstep : mineAddTB evm beacon s = some s')
    (h : Inv evm beacon s) : Inv evm beacon s' := by
  unfold mineAddTB at hstep
  obtain ⟨⟨sender, nonce⟩, hpending, hstep⟩ := Option.bind_eq_some_iff.mp hstep
  dsimp only at hstep
  split at hstep
  · cases hstep
  · cases hstep
    rcases h with ⟨-, hsigned⟩ | ⟨hnone, -⟩
    · obtain ⟨logs, hadd⟩ := hsigned.stored
      right
      refine ⟨rfl, ?_⟩
      rw [hadd]
      dsimp only
      rw [TBStorage.putTB_tbs, if_pos ⟨rfl, rfl⟩]
    · rw [hnone] at hpending
      cases hpending

theorem inv_mineAdjust {s s' : State} {k : ℕ} (hok : keepsSigners evm beacon s (.adjust k))
    (hstep : mineAdjust evm s k = some s') (h : Inv evm beacon s) : Inv evm beacon s' := by
  unfold mineAdjust at hstep
  obtain ⟨adj, hadj, hstep⟩ := Option.bind_eq_some_iff.mp hstep
  split at hstep
  · cases hstep
  · cases hstep
    cases hrun : adjustRecordedAddrs evm s.store adj.addrs adj.vrfs adj.seedHeight
        adj.blockhash with
    | none => exact h
    | some r =>
        obtain ⟨st, logs⟩ := r
        rcases h with ⟨hpending, hsigned⟩ | ⟨hnone, hstored⟩
        · left
          exact ⟨hpending, hsigned.adjust hrun (hok hpending adj hadj)⟩
        · right
          refine ⟨hnone, ?_⟩
          dsimp only
          rw [adjustLoop_tbs hrun]
          exact hstored

/-- In every order in which no call mined before the beacon moves one of its signers, the
beacon is stored once it is mined. -/
theorem beacon_stored {s : State} (h : (machine evm beacon).ReachableBy (keepsSigners evm beacon) s)
    (hmined : s.addTB = none) :
    s.store.tbs beacon.tb.shardID beacon.tb.height = beacon.tb := by
  have hinv : Inv evm beacon s := by
    refine Sys.Machine.invariant_by (Inv evm beacon) ?_ ?_ h
    · intro s₀ hs₀
      exact .inl hs₀
    · intro t ev t' hok hstep ht
      cases ev with
      | addTB => exact inv_mineAddTB hstep ht
      | adjust k => exact inv_mineAdjust hok hstep ht
  rcases hinv with ⟨hpending, -⟩ | ⟨-, hstored⟩
  · rw [hmined] at hpending
    cases hpending
  · exact hstored

end Model

/-! ## An orphaned beacon -/

/-- The account of the new leader; the old one is the member itself. -/
def newLeader : Address := 0x2b5ad5c4795c026514f8317c7a215e218dccd6cf#160

/-- The beacon is signed by the member of shard 0, whom the new leader's call takes to
shard 1. -/
def exampleMining : State where
  store := Epochs.twoShards
  addTB := some (exampleMember, 0)
  adjusts := [{
    sender := newLeader
    nonce := 0
    addrs := [exampleMember]
    vrfs := [signature Epochs.laterVrf.1 Epochs.laterVrf.2.1 Epochs.laterVrf.2.2]
    seedHeight := 10
    blockhash := Epochs.laterBlockhash }]

theorem submitted_exampleMining :
    Submitted Epochs.laterEvm (exampleCall beaconOne sigOne 1) exampleMining := by
  refine ⟨rfl, ?_⟩
  constructor
  · rfl
  · decide
  · intro i sig hsig
    match i with
    | 0 =>
        rw [show sig = signature sigOne.1 sigOne.2.1 sigOne.2.2 from (Option.some.inj hsig).symm]
        exact ⟨exampleMember, by decide +kernel⟩

theorem beacon_orphaned :
    ∃ s, (machine Epochs.laterEvm (exampleCall beaconOne sigOne 1)).Reachable s ∧
      s.addTB = none ∧ s.adjusts.length = 0 ∧ s.store.tbs 0 1 = zeroTB ∧ zeroTB ≠ beaconOne :=
  Sys.Machine.exists_reachableBy _ submitted_exampleMining [.adjust 0, .addTB] (by decide +kernel)

/-- The beacon is mined first. -/
theorem beacon_stored_first :
    ∃ s, (machine Epochs.laterEvm (exampleCall beaconOne sigOne 1)).ReachableBy
        (keepsSigners Epochs.laterEvm (exampleCall beaconOne sigOne 1)) s ∧
      s.addTB = none ∧ s.adjusts.length = 0 ∧ s.store.tbs 0 1 = beaconOne := by
  obtain ⟨s, hs, hmined, hall⟩ :
      ∃ s, (machine Epochs.laterEvm (exampleCall beaconOne sigOne 1)).ReachableBy
          (keepsSigners Epochs.laterEvm (exampleCall beaconOne sigOne 1)) s ∧
        s.addTB = none ∧ s.adjusts.length = 0 :=
    Sys.Machine.exists_reachableBy _ submitted_exampleMining [.addTB, .adjust 0]
      (by decide +kernel)
  exact ⟨s, hs, hmined, hall, beacon_stored hs hmined⟩

end Mining

end Contract

end LessChain
