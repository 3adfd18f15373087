import LessChain.Contract.Epochs

/-!
# Who may change what in the contract

Calls by anybody, with any arguments, to a contract that was deployed with one beacon for each
shard. The record of members never changes. An address is moved only by a vrf of its own, and to
a shard that exists; a beacon is stored only if enough entries of the call were found valid, all
of them of members of its shard. The readers of the beacon chain rely on the last part: they use
the shard ID of a stored beacon as an index.
-/

namespace LessChain

namespace Contract

section Model

variable (evm : Evm)

/-- The entry at position `i` passes the checks of `addTB`. -/
structure ValidEntry (st : TBStorage) (call : AddTBCall) (i : ℕ) (signer : Address) : Prop where
  signers : call.signers[i]? = some signer
  addrRecorded : st.addrRecorded signer = true
  addr2Shard : st.addr2Shard signer = call.tb.shardID
  vrf : ∃ vrf, call.vrfs[i]? = some vrf ∧ verifyVrfResult evm call.seed vrf signer = true
  sig : ∃ sig, call.sigs[i]? = some sig ∧ verifySignature evm call.tb sig signer = true

/-- The call has counted `minSigCnt` positions, each of them valid. -/
def Counted (st : TBStorage) (call : AddTBCall) : Prop :=
  ∃ cnt logs, countSigs evm st call call.sigs 0 0 = some (cnt, logs) ∧ st.minSigCnt ≤ cnt ∧
    ∃ positions : Finset ℕ, positions.card = cnt ∧
      ∀ i ∈ positions, ∃ signer, ValidEntry evm st call i signer

/-- The only changes a call may make. -/
structure Authorised (st : TBStorage) (c : Call) (st' : TBStorage) : Prop where
  minSigCnt : st'.minSigCnt = st.minSigCnt
  shardNum : st'.shardNum = st.shardNum
  addrRecorded : st'.addrRecorded = st.addrRecorded
  addr2Shard : ∀ a, st'.addr2Shard a ≠ st.addr2Shard a →
    ∃ addrs vrfs seedHeight blockhash, c = .adjustRecordedAddrs addrs vrfs seedHeight blockhash ∧
      st.addrRecorded a = true ∧
      ∃ vrf ∈ vrfs, verifyVrfResult evm (blockhash seedHeight) vrf a = true ∧
        ∃ b, vrf.data[0]? = some b ∧ st'.addr2Shard a = b.toNat % st.shardNum
  tbs : ∀ shardID height, st'.tbs shardID height ≠ st.tbs shardID height →
    ∃ call, c = .addTB call ∧ shardID = call.tb.shardID ∧ height = call.tb.height ∧
      Written evm st call
  /-- A call that reports a stored beacon has counted enough, and its shard exists. -/
  written : ∀ call, c = .addTB call → Written evm st call →
    Counted evm st call ∧ (0 < st.minSigCnt → call.tb.shardID < st.shardNum)

/-- The contract was deployed with one genesis beacon for each shard. -/
def Founded (s : Chain) : Prop :=
  ∃ genesisTBs minSigCnt addrs, 0 < genesisTBs.length ∧
    deploy genesisTBs minSigCnt genesisTBs.length addrs = some s.store

def foundedMachine : Sys.Machine Chain Call := ⟨Founded, step evm⟩

variable {evm} {st : TBStorage} {call : AddTBCall}

/-! ## What is counted -/

theorem validEntry_of_verdict {i : ℕ} {sig : MemBytes} {signer : Address}
    (hsig : call.sigs[i]? = some sig) (h : verdict evm st call i sig = some (.valid, signer)) :
    ValidEntry evm st call i signer := by
  unfold verdict at h
  obtain ⟨a, ha, h⟩ := Option.bind_eq_some_iff.mp h
  split at h
  · cases h
  · rename_i hrecorded
    split at h
    · cases h
    · rename_i hshard
      obtain ⟨vrf, hvrf, h⟩ := Option.bind_eq_some_iff.mp h
      split at h
      · cases h
      · rename_i hver
        obtain ⟨qualified, -, h⟩ := Option.bind_eq_some_iff.mp h
        split at h
        · cases h
        · split at h
          · rename_i hsigned
            cases h
            exact ⟨ha, by simpa using hrecorded, by simpa using hshard,
              ⟨vrf, hvrf, by simpa using hver⟩, ⟨sig, hsig, hsigned⟩⟩
          · cases h

/-- The counter of the loop is the number of valid positions it has met. -/
theorem countSigs_positions {sigs : List MemBytes} {i cnt cnt' : ℕ} {logs : List LogMessage}
    (hsigs : call.sigs.drop i = sigs)
    (h : countSigs evm st call sigs i cnt = some (cnt', logs)) :
    ∃ positions : Finset ℕ, cnt' = cnt + positions.card ∧
      ∀ j ∈ positions, i ≤ j ∧ ∃ signer, ValidEntry evm st call j signer := by
  induction sigs generalizing i cnt logs with
  | nil =>
      cases h
      exact ⟨∅, by simp⟩
  | cons sig sigs ih =>
      have hsig : call.sigs[i]? = some sig := by
        rw [← List.head?_drop, hsigs, List.head?_cons]
      have hrest : call.sigs.drop (i + 1) = sigs := by
        rw [← List.tail_drop, hsigs, List.tail_cons]
      rw [countSigs] at h
      obtain ⟨⟨v, signer⟩, hverdict, h⟩ := Option.bind_eq_some_iff.mp h
      dsimp only at h
      split at h
      · rename_i hvalid
        rw [hvalid] at hverdict
        have hentry := validEntry_of_verdict hsig hverdict
        split at h
        · -- `break` with this position as the last one
          cases h
          exact ⟨{i}, by simp, by simpa using ⟨signer, hentry⟩⟩
        · split at h
          · cases h
          · obtain ⟨positions, hcard, hall⟩ := ih hrest h
            have hfresh : i ∉ positions := by
              intro hin
              have := (hall i hin).1
              omega
            refine ⟨insert i positions, ?_, ?_⟩
            · rw [Finset.card_insert_of_notMem hfresh]
              omega
            · intro j hj
              rcases Finset.mem_insert.mp hj with rfl | hj
              · exact ⟨le_rfl, signer, hentry⟩
              · obtain ⟨hle, hvalid⟩ := hall j hj
                exact ⟨by omega, hvalid⟩
      · split at h
        · cases h
        · obtain ⟨⟨cnt₁, logs₁⟩, hloop, heq⟩ := Option.map_eq_some_iff.mp h
          cases heq
          obtain ⟨positions, hcard, hall⟩ := ih hrest hloop
          refine ⟨positions, hcard, ?_⟩
          intro j hj
          obtain ⟨hle, hvalid⟩ := hall j hj
          exact ⟨by omega, hvalid⟩

theorem counted_of_written (h : Written evm st call) : Counted evm st call := by
  obtain ⟨cnt, logs, hcount, hle⟩ := written_iff.mp h
  obtain ⟨positions, hcard, hall⟩ := countSigs_positions List.drop_zero hcount
  exact ⟨cnt, logs, hcount, hle, positions, by omega, fun i hi => (hall i hi).2⟩

/-- A beacon that was signed at all is of a shard that has members. -/
theorem Counted.shardID_lt (h : Counted evm st call) (hmin : 0 < st.minSigCnt)
    (hshards : ∀ a, st.addr2Shard a < st.shardNum) : call.tb.shardID < st.shardNum := by
  obtain ⟨cnt, -, -, hle, positions, hcard, hall⟩ := h
  have hne : positions.Nonempty := by
    rw [← Finset.card_pos]
    omega
  obtain ⟨i, hi⟩ := hne
  obtain ⟨signer, hentry⟩ := hall i hi
  rw [← hentry.addr2Shard]
  exact hshards signer

/-! ## Calls -/

theorem mem_acceptedFrom {addrRecorded : Address → Bool} {seed : Hash} {vrfs : List MemBytes}
    {addrs : List Address} {j : ℕ} {e : Address × MemBytes}
    (h : e ∈ acceptedFrom evm addrRecorded seed vrfs addrs j) :
    addrRecorded e.1 = true ∧ e.2 ∈ vrfs ∧ verifyVrfResult evm seed e.2 e.1 = true := by
  induction addrs generalizing j with
  | nil => cases h
  | cons addr addrs ih =>
      rw [acceptedFrom] at h
      split at h
      · cases h
      · rename_i vrf hvrf
        split at h
        · rename_i hpass
          rcases List.mem_cons.mp h with rfl | h
          · exact ⟨hpass.1, List.mem_of_getElem? hvrf, hpass.2⟩
          · exact ih h
        · exact ih h

theorem vrfValue2ShardID_eq {vrf : MemBytes} {shardID : ℕ}
    (h : vrfValue2ShardID st vrf = some shardID) :
    ∃ b, vrf.data[0]? = some b ∧ shardID = b.toNat % st.shardNum := by
  obtain ⟨b, hb, h⟩ := Option.bind_eq_some_iff.mp h
  split at h
  · cases h
  · cases h
    exact ⟨b, hb, rfl⟩

/-- A call that leaves the storage as it is, as reverted ones do. -/
theorem authorised_refl (c : Call) (hwritten : ∀ call, c = .addTB call → ¬ Written evm st call) :
    Authorised evm st c st where
  minSigCnt := rfl
  shardNum := rfl
  addrRecorded := rfl
  addr2Shard := fun _ hne => absurd rfl hne
  tbs := fun _ _ hne => absurd rfl hne
  written := fun call hc hw => absurd hw (hwritten call hc)

theorem authorised_addTB {st' : TBStorage} {logs : List LogMessage}
    (hshards : ∀ a, st.addr2Shard a < st.shardNum) (h : addTB evm st call = some (st', logs)) :
    Authorised evm st (.addTB call) st' := by
  rcases addTB_eq h with ⟨hwritten, rfl⟩ | ⟨hnot, rfl⟩
  · refine ⟨rfl, rfl, rfl, fun _ hne => absurd rfl hne, ?_, ?_⟩
    · intro shardID height hne
      rw [TBStorage.putTB_tbs] at hne
      split at hne
      · rename_i hslot
        exact ⟨call, rfl, hslot.1, hslot.2, hwritten⟩
      · exact absurd rfl hne
    · intro call' hc hw
      cases hc
      have hcounted := counted_of_written hw
      exact ⟨hcounted, fun hmin => hcounted.shardID_lt hmin hshards⟩
  · apply authorised_refl
    intro call' hc
    cases hc
    exact hnot

theorem authorised_adjust {st' : TBStorage} {addrs : List Address} {vrfs : List MemBytes}
    {seedHeight : ℕ} {blockhash : ℕ → Hash} {logs : List LogMessage}
    (h : adjustRecordedAddrs evm st addrs vrfs seedHeight blockhash = some (st', logs)) :
    Authorised evm st (.adjustRecordedAddrs addrs vrfs seedHeight blockhash) st' := by
  have hadjusted := adjustLoop_adjusted h
  have hframe := hadjusted.frame
  refine ⟨by rw [hframe], by rw [hframe], by rw [hframe], ?_, ?_, by rintro _ ⟨⟩⟩
  · intro a hne
    rcases hadjusted.addr2Shard a with ⟨hsame, -⟩ | ⟨e, he, rfl, hto⟩
    · exact absurd hsame hne
    · obtain ⟨hrecorded, hvrf, hver⟩ := mem_acceptedFrom he
      exact ⟨addrs, vrfs, seedHeight, blockhash, rfl, hrecorded, e.2, hvrf, hver,
        vrfValue2ShardID_eq hto⟩
  · intro shardID height hne
    rw [adjustLoop_tbs h] at hne
    exact absurd rfl hne

/-- Every call makes only changes it may make, in a state that maps all addresses to shards. -/
theorem authorised_step {s s' : Chain} {c : Call}
    (hshards : ∀ a, s.store.addr2Shard a < s.store.shardNum) (hstep : step evm s c = some s') :
    Authorised evm s.store c s'.store := by
  cases c with
  | addTB call =>
      rw [step] at hstep
      split at hstep
      · rename_i hrevert
        cases hstep
        apply authorised_refl
        rintro call' hc ⟨st', logs, hadd, -⟩
        cases hc
        rw [hrevert] at hadd
        cases hadd
      · rename_i hadd
        cases hstep
        exact authorised_addTB hshards hadd
  | adjustRecordedAddrs addrs vrfs seedHeight blockhash =>
      rw [step] at hstep
      split at hstep
      · cases hstep
        exact authorised_refl _ (by rintro _ ⟨⟩)
      · rename_i hadjust
        cases hstep
        exact authorised_adjust hadjust
  | getTB shardID height =>
      cases hstep
      exact authorised_refl _ (by rintro _ ⟨⟩)

/-! ## Runs -/

/-- An authorised change moves nobody out of the shards. -/
theorem Authorised.addr2Shard_lt {st st' : TBStorage} {c : Call} (h : Authorised evm st c st')
    (hshards : ∀ a, st.addr2Shard a < st.shardNum) (a : Address) :
    st'.addr2Shard a < st'.shardNum := by
  rw [h.shardNum]
  by_cases hsame : st'.addr2Shard a = st.addr2Shard a
  · rw [hsame]
    exact hshards a
  · obtain ⟨-, -, -, -, -, -, -, -, -, b, -, hto⟩ := h.addr2Shard a hsame
    rw [hto]
    have := hshards a
    exact Nat.mod_lt _ (by omega)

theorem genesisLoop_addr2Shard {addrs : List (List Address)} {tbs : List ContractTB}
    {shardID n : ℕ} {st st' : TBStorage} (hn : shardID + tbs.length ≤ n)
    (h : genesisLoop addrs tbs shardID st = some st') (hshards : ∀ a, st.addr2Shard a < n)
    (a : Address) : st'.addr2Shard a < n := by
  induction tbs generalizing shardID st with
  | nil =>
      cases h
      exact hshards a
  | cons tb tbs ih =>
      rw [List.length_cons] at hn
      rw [genesisLoop] at h
      obtain ⟨members, -, h⟩ := Option.bind_eq_some_iff.mp h
      split at h
      · cases h
      · refine ih (by omega) h fun b => ?_
        dsimp only
        split
        · omega
        · exact hshards b

theorem Founded.addr2Shard_lt {s : Chain} (h : Founded s) (a : Address) :
    s.store.addr2Shard a < s.store.shardNum := by
  obtain ⟨genesisTBs, minSigCnt, addrs, hpos, hdeploy⟩ := h
  obtain ⟨st, hloop, heq⟩ := Option.map_eq_some_iff.mp hdeploy
  rw [← heq]
  exact genesisLoop_addr2Shard (by omega) hloop (fun _ => hpos) a

/-- Whatever calls were made before: all addresses are mapped to shards, and the next call
makes only changes it may make. -/
theorem authorised_of_reachable {s : Chain} (h : (foundedMachine evm).Reachable s) :
    (∀ a, s.store.addr2Shard a < s.store.shardNum) ∧
      ∀ c s', step evm s c = some s' → Authorised evm s.store c s'.store := by
  have hshards : ∀ a, s.store.addr2Shard a < s.store.shardNum := by
    refine Sys.Machine.invariant_by
      (fun t : Chain => ∀ a, t.store.addr2Shard a < t.store.shardNum) ?_ ?_ h
    · intro s₀ hinit
      exact hinit.addr2Shard_lt
    · intro t c t' _ hstep ht
      exact (authorised_step ht hstep).addr2Shard_lt ht
  exact ⟨hshards, fun c s' hstep => authorised_step hshards hstep⟩

end Model

open Epochs in
/-- Two shards, and the member of the first has moved to the second. -/
theorem authorised_after_adjustAt :
    ∃ s, (foundedMachine laterEvm).Reachable s ∧ s.store.addr2Shard exampleMember = 1 ∧
      (∀ a, s.store.addr2Shard a < s.store.shardNum) ∧
      ∀ c s', step laterEvm s c = some s' → Authorised laterEvm s.store c s'.store := by
  have hinit : Founded ⟨twoShards, fun _ _ => false⟩ :=
    ⟨[exampleGenesis, exampleGenesis], 1, [[exampleMember], []], by decide,
      (Option.some_get rfl).symm⟩
  obtain ⟨s, hs, hmoved⟩ : ∃ s, (foundedMachine laterEvm).Reachable s ∧
      s.store.addr2Shard exampleMember = 1 :=
    Sys.Machine.exists_reachableBy _ hinit [adjustAt 10] (by decide +kernel)
  exact ⟨s, hs, hmoved, authorised_of_reachable hs⟩

end Contract

end LessChain
