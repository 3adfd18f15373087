import LessChain.Lib.Machine
import LessChain.Contract.Threshold

/-!
# Is a stored beacon final?

Runs of calls to `TBStorage`, by anybody and with any arguments. A reverted call changes
nothing. `held` is not in the contract: it marks the entries of `tbs` that the constructor
or an accepted `addTB` has written.
-/

namespace LessChain

namespace Contract

structure Chain where
  store : TBStorage
  held : ℕ → ℕ → Bool

inductive Call where
  | addTB (call : AddTBCall)
  | adjustRecordedAddrs (addrs : List Address) (vrfs : List MemBytes) (seedHeight : ℕ)
      (blockhash : ℕ → Hash)
  | getTB (shardID height : ℕ)

/-- The hashes of a beacon. -/
def ContractTB.hashes (tb : ContractTB) : Bytes × Bytes × Bytes :=
  (tb.blockHash, tb.txHash, tb.statusHash)

section Model

variable (evm : Evm)

def step (s : Chain) : Call → Option Chain
  | .addTB call =>
      match addTB evm s.store call with
      | none => some s
      | some (st, logs) => some {
          store := st
          held := fun shardID height =>
            s.held shardID height || decide (shardID = call.tb.shardID ∧ height = call.tb.height ∧
              ⟨"addTB", call.tb.shardID, call.tb.height, 0⟩ ∈ logs) }
  | .adjustRecordedAddrs addrs vrfs seedHeight blockhash =>
      match adjustRecordedAddrs evm s.store addrs vrfs seedHeight blockhash with
      | none => some s
      | some (st, _) => some { s with store := st }
  | .getTB _ _ => some s

/-- The contract has just been deployed. -/
def Deployed (s : Chain) : Prop :=
  ∃ genesisTBs minSigCnt shardNum addrs,
    deploy genesisTBs minSigCnt shardNum addrs = some s.store ∧
      s.held = fun shardID height => decide (shardID < genesisTBs.length ∧ height = 0)

def machine : Sys.Machine Chain Call := ⟨Deployed, step evm⟩

/-- An `addTB` for an entry that is held has the hashes that are there, or too few valid
positions to be accepted. -/
def noSecondBeacon (s : Chain) : Call → Prop
  | .addTB call => s.held call.tb.shardID call.tb.height = true →
      call.tb.hashes = (s.store.tbs call.tb.shardID call.tb.height).hashes ∨
        validPositions evm s.store call < s.store.minSigCnt
  | _ => True

instance (s : Chain) (c : Call) : Decidable (noSecondBeacon evm s c) :=
  match c with
  | .addTB _ => inferInstanceAs (Decidable (_ → _ ∨ _))
  | .adjustRecordedAddrs _ _ _ _ => .isTrue trivial
  | .getTB _ _ => .isTrue trivial

variable {evm}

/-! ## What a call does to the beacons -/

theorem adjustLoop_tbs {seed : Hash} {vrfs : List MemBytes} {addrs : List Address} {j : ℕ}
    {st st' : TBStorage} {logs : List LogMessage}
    (h : adjustLoop evm seed vrfs addrs j st = some (st', logs)) : st'.tbs = st.tbs := by
  induction addrs generalizing j st logs with
  | nil =>
      cases h
      rfl
  | cons addr addrs ih =>
      rw [adjustLoop] at h
      obtain ⟨vrfValue, -, h⟩ := Option.bind_eq_some_iff.mp h
      split at h
      · split at h
        · cases h
        · obtain ⟨⟨st₁, logs₁⟩, hrest, heq⟩ := Option.map_eq_some_iff.mp h
          cases heq
          exact ih hrest
      · split at h
        · split at h
          · cases h
          · obtain ⟨⟨st₁, logs₁⟩, hrest, heq⟩ := Option.map_eq_some_iff.mp h
            cases heq
            exact ih hrest
        · obtain ⟨newShardID, -, h⟩ := Option.bind_eq_some_iff.mp h
          split at h
          · cases h
          · rw [ih h]

theorem not_written_of_validPositions_lt {st : TBStorage} {call : AddTBCall}
    (h : validPositions evm st call < st.minSigCnt) : ¬ Written evm st call := by
  rw [written_iff_validPositions (by omega)]
  omega

/-- An entry that is held stays, as long as no second beacon is accepted for it. -/
theorem held_step {s s' : Chain} {c : Call} {shardID height : ℕ}
    (hok : noSecondBeacon evm s c) (hstep : step evm s c = some s')
    (hheld : s.held shardID height = true) :
    s'.held shardID height = true ∧
      (s'.store.tbs shardID height).hashes = (s.store.tbs shardID height).hashes := by
  cases c with
  | addTB call =>
      rw [step] at hstep
      split at hstep
      · cases hstep
        exact ⟨hheld, rfl⟩
      · rename_i st logs hadd
        cases hstep
        refine ⟨by simp [hheld], ?_⟩
        rcases addTB_eq hadd with ⟨hwritten, hst⟩ | ⟨-, hst⟩
        · dsimp only
          rw [hst, TBStorage.putTB_tbs]
          split
          · -- the entry itself is written again: only with the hashes it has
            rename_i hslot
            obtain ⟨hs, hh⟩ := hslot
            rw [hs, hh] at hheld ⊢
            rcases hok hheld with hsame | hfew
            · exact hsame
            · exact absurd hwritten (not_written_of_validPositions_lt hfew)
          · rfl
        · rw [hst]
  | adjustRecordedAddrs addrs vrfs seedHeight blockhash =>
      rw [step] at hstep
      split at hstep
      · cases hstep
        exact ⟨hheld, rfl⟩
      · rename_i st logs hadjust
        cases hstep
        refine ⟨hheld, ?_⟩
        dsimp only
        rw [adjustLoop_tbs hadjust]
  | getTB _ _ =>
      cases hstep
      exact ⟨hheld, rfl⟩

/-- In runs without a second beacon for an entry, the hashes of an entry that is held do not
change any more. -/
theorem hashes_final {s t : Chain} {shardID height : ℕ}
    (hrun : (machine evm).Reaches (noSecondBeacon evm) s t)
    (hheld : s.held shardID height = true) :
    (t.store.tbs shardID height).hashes = (s.store.tbs shardID height).hashes := by
  have hkept : t.held shardID height = true ∧
      (t.store.tbs shardID height).hashes = (s.store.tbs shardID height).hashes := by
    refine Sys.Machine.stable_by (fun u => u.held shardID height = true ∧
      (u.store.tbs shardID height).hashes = (s.store.tbs shardID height).hashes) ?_ hrun
      ⟨hheld, rfl⟩
    intro u c u' hok hstep hu
    obtain ⟨hheld', hhashes⟩ := held_step hok hstep hu.1
    exact ⟨hheld', hhashes.trans hu.2⟩
  exact hkept.2

end Model

/-! ## A second beacon -/

/-- One signature is enough. -/
def exampleChain : Chain where
  store := exampleStorage 1
  held := fun shardID height => decide (shardID < 1 ∧ height = 0)

theorem deployed_exampleChain : Deployed exampleChain :=
  ⟨[exampleGenesis], 1, 1, [[exampleMember]], (Option.some_get rfl).symm, rfl⟩

/-- The member signs two beacons of one block, and the second replaces the first. -/
theorem beacon_replaced :
    ∃ s t, (machine exampleEvm).Reachable s ∧
      (machine exampleEvm).Reaches Sys.Machine.anyStep s t ∧ s.held 0 1 = true ∧
      s.store.tbs 0 1 = beaconOne ∧ t.store.tbs 0 1 = beaconTwo ∧
      beaconOne.hashes ≠ beaconTwo.hashes := by
  obtain ⟨s, hs, hheld, hone, hnext⟩ : ∃ s, (machine exampleEvm).Reachable s ∧
      s.held 0 1 = true ∧ s.store.tbs 0 1 = beaconOne ∧
      ((machine exampleEvm).runBy Sys.Machine.anyStep s [.addTB (exampleCall beaconTwo sigTwo 1)]).any
        (fun t => t.store.tbs 0 1 = beaconTwo) = true :=
    Sys.Machine.exists_reachableBy _ deployed_exampleChain
      [.addTB (exampleCall beaconOne sigOne 1)] (by decide +kernel)
  obtain ⟨t, hrun, htwo⟩ := Sys.Machine.exists_reaches _ _ hnext
  exact ⟨s, t, hs, hrun, hheld, hone, htwo, by decide⟩

/-- A run in which the beacon is submitted again, and another one without signature. -/
def repeatedCalls : List Call :=
  [.addTB (exampleCall beaconOne sigOne 1), .addTB (exampleCall beaconTwo sigTwo 0), .getTB 0 1]

theorem hashes_final_repeatedCalls :
    ∃ s t, (machine exampleEvm).ReachableBy (noSecondBeacon exampleEvm) s ∧
      (machine exampleEvm).Reaches (noSecondBeacon exampleEvm) s t ∧ s.held 0 1 = true ∧
      (t.store.tbs 0 1).hashes = (s.store.tbs 0 1).hashes := by
  obtain ⟨s, hs, hheld, hnext⟩ :
      ∃ s, (machine exampleEvm).ReachableBy (noSecondBeacon exampleEvm) s ∧ s.held 0 1 = true ∧
        ((machine exampleEvm).runBy (noSecondBeacon exampleEvm) s repeatedCalls).any
          (fun _ => True) = true :=
    Sys.Machine.exists_reachableBy _ deployed_exampleChain
      [.addTB (exampleCall beaconOne sigOne 1)] (by decide +kernel)
  obtain ⟨t, hrun, -⟩ := Sys.Machine.exists_reaches _ _ hnext
  exact ⟨s, t, hs, hrun, hheld, hashes_final hrun hheld⟩

end Contract

end LessChain
