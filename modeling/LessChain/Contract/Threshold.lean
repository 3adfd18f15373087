import LessChain.Committee.MultiSign
import LessChain.Contract.TBStorage

/-!
# The signatures behind a beacon

What `addTB` asks for before it stores a beacon. The loop counts positions of the argument
arrays, so one signer counts as often as it stands in `signers` (`one_member_twice`). The
threshold is met if the signers at the counted positions are pairwise different
(`addTB_threshold`).
-/

namespace LessChain

namespace Contract

section Loop

variable (evm : Evm) (st : TBStorage) (call : AddTBCall)

/-- The verdicts of the loop if it did not end early, up to the position that reverts. -/
def verdicts : List MemBytes → ℕ → List Verdict
  | [], _ => []
  | sig :: sigs, i =>
      match verdict evm st call i sig with
      | none => []
      | some (v, _) => v :: if i + 1 = 2 ^ 32 then [] else verdicts sigs (i + 1)

/-- The positions with a valid signature, up to the one that reverts. -/
def validPositions : ℕ := (verdicts evm st call call.sigs 0).count .valid

variable {evm st call}

/-- With enough valid positions the loop ends at the one that completes the count. -/
theorem countSigs_of_le {sigs : List MemBytes} {i cnt : ℕ} (hlt : cnt < st.minSigCnt)
    (hle : st.minSigCnt ≤ cnt + (verdicts evm st call sigs i).count .valid) :
    ∃ logs, countSigs evm st call sigs i cnt = some (st.minSigCnt, logs) := by
  induction sigs generalizing i cnt with
  | nil =>
      simp only [verdicts, List.count_nil, Nat.add_zero] at hle
      omega
  | cons sig sigs ih =>
      rw [countSigs]
      rw [verdicts] at hle
      cases hverdict : verdict evm st call i sig with
      | none =>
          simp only [hverdict, List.count_nil, Nat.add_zero] at hle
          omega
      | some r =>
          obtain ⟨v, signer⟩ := r
          simp only [hverdict] at hle
          rw [Option.bind_some]
          dsimp only
          by_cases hv : v = .valid
          · rw [hv, List.count_cons_self] at hle
            rw [if_pos hv]
            -- `break` as soon as the count is full
            by_cases hfull : cnt + 1 ≥ st.minSigCnt
            · rw [if_pos hfull, show cnt + 1 = st.minSigCnt by omega]
              exact ⟨[], rfl⟩
            · rw [if_neg hfull]
              -- `i++` reverts on overflow, and no later position counts
              by_cases hlast : i + 1 = 2 ^ 32
              · rw [if_pos hlast, List.count_nil] at hle
                omega
              · rw [if_neg hlast] at hle ⊢
                exact ih (by omega) (by omega)
          · rw [List.count_cons_of_ne hv] at hle
            rw [if_neg hv]
            by_cases hlast : i + 1 = 2 ^ 32
            · rw [if_pos hlast, List.count_nil] at hle
              omega
            · rw [if_neg hlast] at hle ⊢
              obtain ⟨logs, hlogs⟩ := ih hlt hle
              rw [hlogs]
              exact ⟨_, rfl⟩

/-- With too few valid positions the loop counts too few, if it comes to an end. -/
theorem countSigs_lt {sigs : List MemBytes} {i cnt cnt' : ℕ} {logs : List LogMessage}
    (hlt : cnt + (verdicts evm st call sigs i).count .valid < st.minSigCnt)
    (h : countSigs evm st call sigs i cnt = some (cnt', logs)) : cnt' < st.minSigCnt := by
  induction sigs generalizing i cnt logs with
  | nil =>
      cases h
      omega
  | cons sig sigs ih =>
      rw [countSigs] at h
      rw [verdicts] at hlt
      cases hverdict : verdict evm st call i sig with
      | none => simp [hverdict] at h
      | some r =>
          obtain ⟨v, signer⟩ := r
          simp only [hverdict] at hlt
          rw [hverdict, Option.bind_some] at h
          dsimp only at h
          by_cases hv : v = .valid
          · rw [hv, List.count_cons_self] at hlt
            rw [if_pos hv, if_neg (by omega)] at h
            -- the index is a `uint32`: the loop would revert
            by_cases hlast : i + 1 = 2 ^ 32
            · rw [if_pos hlast] at h
              cases h
            · rw [if_neg hlast] at h hlt
              exact ih (by omega) h
          · rw [List.count_cons_of_ne hv] at hlt
            rw [if_neg hv] at h
            by_cases hlast : i + 1 = 2 ^ 32
            · rw [if_pos hlast] at h
              cases h
            · rw [if_neg hlast] at h hlt
              obtain ⟨⟨cnt₁, logs₁⟩, hrest, heq⟩ := Option.map_eq_some_iff.mp h
              cases heq
              exact ih hlt hrest

/-- The loop reports signers, never an accepted beacon. -/
theorem message_of_mem_countSigs {sigs : List MemBytes} {i cnt cnt' : ℕ} {logs : List LogMessage}
    (h : countSigs evm st call sigs i cnt = some (cnt', logs)) :
    ∀ log ∈ logs, log.message ≠ "addTB" := by
  induction sigs generalizing i cnt logs with
  | nil =>
      cases h
      simp
  | cons sig sigs ih =>
      rw [countSigs] at h
      obtain ⟨⟨v, signer⟩, -, h⟩ := Option.bind_eq_some_iff.mp h
      dsimp only at h
      by_cases hv : v = .valid
      · rw [if_pos hv] at h
        split at h
        · cases h
          simp
        · split at h
          · cases h
          · exact ih h
      · rw [if_neg hv] at h
        split at h
        · cases h
        · obtain ⟨⟨cnt₁, logs₁⟩, hrest, heq⟩ := Option.map_eq_some_iff.mp h
          cases heq
          intro log hlog
          rcases List.mem_cons.mp hlog with hlog | hlog
          · rw [hlog]
            cases v <;> simp [Verdict.message]
          · exact ih hrest log hlog

end Loop

section AddTB

variable (evm : Evm) (st : TBStorage) (call : AddTBCall)

/-- The call is executed and reports that it has stored the beacon. -/
def Written : Prop :=
  ∃ st' logs, addTB evm st call = some (st', logs) ∧
    ⟨"addTB", call.tb.shardID, call.tb.height, 0⟩ ∈ logs

variable {evm st call}

theorem written_iff : Written evm st call ↔
    ∃ cnt logs, countSigs evm st call call.sigs 0 0 = some (cnt, logs) ∧ st.minSigCnt ≤ cnt := by
  unfold Written addTB
  constructor
  · rintro ⟨st', logs, h, hlog⟩
    obtain ⟨⟨cnt, logs₀⟩, hcount, heq⟩ := Option.map_eq_some_iff.mp h
    refine ⟨cnt, logs₀, hcount, ?_⟩
    dsimp only at heq
    split at heq
    · -- a rejected call has only the loop's reports and its own
      cases heq
      rcases List.mem_append.mp hlog with hlog | hlog
      · exact absurd rfl (message_of_mem_countSigs hcount _ hlog)
      · simp at hlog
    · omega
  · rintro ⟨cnt, logs, hcount, hle⟩
    rw [hcount, Option.map_some]
    dsimp only
    rw [if_neg (by omega)]
    exact ⟨_, _, rfl, List.mem_append_right _ (List.mem_singleton.mpr rfl)⟩

/-- An accepted call stores its beacon and nothing else changes; any other call that is
executed changes nothing. -/
theorem addTB_eq {st' : TBStorage} {logs : List LogMessage}
    (h : addTB evm st call = some (st', logs)) :
    Written evm st call ∧ st' = st.putTB call.tb.shardID call.tb.height call.tb ∨
      ¬ Written evm st call ∧ st' = st := by
  have hwritten : Written evm st call ↔ _ := written_iff
  unfold addTB at h
  obtain ⟨⟨cnt, logs₀⟩, hcount, heq⟩ := Option.map_eq_some_iff.mp h
  dsimp only at heq
  split at heq
  · rename_i hlt
    right
    cases heq
    refine ⟨fun hw => ?_, rfl⟩
    obtain ⟨cnt', logs', hcount', hle⟩ := hwritten.mp hw
    rw [hcount] at hcount'
    cases hcount'
    omega
  · rename_i hle
    left
    cases heq
    exact ⟨hwritten.mpr ⟨cnt, logs₀, hcount, by omega⟩, rfl⟩

/-- A call is accepted if enough positions are valid, however often a signer is among
them. -/
theorem written_iff_validPositions (hpos : 0 < st.minSigCnt) :
    Written evm st call ↔ st.minSigCnt ≤ validPositions evm st call := by
  rw [written_iff]
  constructor
  · rintro ⟨cnt, logs, hcount, hle⟩
    by_contra hlt
    have hfew : 0 + (verdicts evm st call call.sigs 0).count .valid < st.minSigCnt := by
      rwa [Nat.zero_add, ← Nat.not_le]
    exact absurd hle (Nat.not_le.mpr (countSigs_lt hfew hcount))
  · intro hle
    have hcount : st.minSigCnt ≤ 0 + (verdicts evm st call call.sigs 0).count .valid := by
      rwa [Nat.zero_add]
    obtain ⟨logs, hcount⟩ := countSigs_of_le hpos hcount
    exact ⟨_, logs, hcount, le_rfl⟩

/-! ## The threshold -/

variable (evm st call) in
/-- What the multi-signature is for: enough members of the shard have shown their vrf and
signed the beacon. -/
def ThresholdMet : Prop :=
  ∃ S : Finset Address, st.minSigCnt ≤ S.card ∧ ∀ a ∈ S,
    st.addrRecorded a = true ∧ st.addr2Shard a = call.tb.shardID ∧
    (∃ vrf ∈ call.vrfs, verifyVrfResult evm call.seed vrf a = true) ∧
    ∃ sig ∈ call.sigs, verifySignature evm call.tb sig a = true

variable (evm st call) in
/-- The members of the shard that are recovered from some vrf and from some signature. -/
def recoveredMembers : Finset Address :=
  ((call.vrfs.map (recoveredSigner evm call.seed)).toFinset ∩
    (call.sigs.map (recoveredSigner evm (msgHash evm call.tb))).toFinset).filter fun a =>
      st.addrRecorded a = true ∧ st.addr2Shard a = call.tb.shardID

theorem mem_recoveredMembers {a : Address} : a ∈ recoveredMembers evm st call ↔
    st.addrRecorded a = true ∧ st.addr2Shard a = call.tb.shardID ∧
    (∃ vrf ∈ call.vrfs, verifyVrfResult evm call.seed vrf a = true) ∧
    ∃ sig ∈ call.sigs, verifySignature evm call.tb sig a = true := by
  simp only [recoveredMembers, verifyVrfResult, verifySignature, Finset.mem_filter,
    Finset.mem_inter, List.mem_toFinset, List.mem_map, decide_eq_true_eq]
  tauto

theorem thresholdMet_iff :
    ThresholdMet evm st call ↔ st.minSigCnt ≤ (recoveredMembers evm st call).card := by
  constructor
  · rintro ⟨S, hle, hS⟩
    refine hle.trans (Finset.card_le_card fun a ha => ?_)
    exact mem_recoveredMembers.mpr (hS a ha)
  · intro hle
    exact ⟨_, hle, fun a ha => mem_recoveredMembers.mp ha⟩

/-! ### The positions that are counted -/

variable (evm st call) in
/-- Position `i` passes all checks of the loop. -/
def validAt (i : ℕ) : Bool :=
  ((call.sigs[i]?).bind fun sig => (verdict evm st call i sig).map Prod.fst) = some .valid

variable (evm st call) in
/-- The first `minSigCnt` positions that pass: those an accepted call has counted. -/
def countedPositions : List ℕ :=
  ((List.range call.sigs.length).filter (validAt evm st call)).take st.minSigCnt

variable (evm st call) in
/-- The entries of `signers` at the counted positions. -/
def countedSigners : List Address := (countedPositions evm st call).filterMap (call.signers[·]?)

/-- The checks at a valid position are about the vrf, the signature and the signer there. -/
theorem checks_of_verdict_valid {i : ℕ} {sig : MemBytes} {signer : Address}
    (h : verdict evm st call i sig = some (.valid, signer)) :
    call.signers[i]? = some signer ∧ st.addrRecorded signer = true ∧
      st.addr2Shard signer = call.tb.shardID ∧
      (∃ vrf ∈ call.vrfs, verifyVrfResult evm call.seed vrf signer = true) ∧
      verifySignature evm call.tb sig signer = true := by
  unfold verdict at h
  obtain ⟨a, ha, h⟩ := Option.bind_eq_some_iff.mp h
  -- a check that fails ends with a verdict of its own
  split at h
  · cases h
  rename_i hrecorded
  split at h
  · cases h
  rename_i hshard
  obtain ⟨vrf, hvrf, h⟩ := Option.bind_eq_some_iff.mp h
  split at h
  · cases h
  rename_i hpassed
  obtain ⟨qualified, -, h⟩ := Option.bind_eq_some_iff.mp h
  split at h
  · cases h
  split at h
  · rename_i hsig
    cases h
    exact ⟨ha, by simpa using hrecorded, not_not.mp hshard,
      ⟨vrf, List.mem_of_getElem? hvrf, by simpa using hpassed⟩, hsig⟩
  · cases h

/-- A valid position has a signer, who is among the recovered members. -/
theorem signer_of_validAt {i : ℕ} (h : validAt evm st call i = true) :
    ∃ signer, call.signers[i]? = some signer ∧ signer ∈ recoveredMembers evm st call := by
  simp only [validAt, decide_eq_true_eq, Option.bind_eq_some_iff, Option.map_eq_some_iff] at h
  obtain ⟨sig, hsig, ⟨v, signer⟩, hverdict, hv⟩ := h
  rw [show v = .valid from hv] at hverdict
  obtain ⟨hsigner, hrecorded, hshard, hvrf, hok⟩ := checks_of_verdict_valid hverdict
  exact ⟨signer, hsigner, mem_recoveredMembers.mpr
    ⟨hrecorded, hshard, hvrf, sig, List.mem_of_getElem? hsig, hok⟩⟩

/-- What the loop may count from position `i` on is valid there. -/
theorem count_verdicts_le {sigs : List MemBytes} {i : ℕ}
    (hsigs : ∀ j, sigs[j]? = call.sigs[i + j]?) :
    (verdicts evm st call sigs i).count .valid ≤
      ((List.range' i sigs.length).filter (validAt evm st call)).length := by
  induction sigs generalizing i with
  | nil => simp [verdicts]
  | cons sig sigs ih =>
      have hhead : call.sigs[i]? = some sig := by simpa using (hsigs 0).symm
      have htail : ∀ j, sigs[j]? = call.sigs[i + 1 + j]? := by
        intro j
        rw [Nat.add_right_comm, Nat.add_assoc, ← hsigs (j + 1), List.getElem?_cons_succ]
      rw [verdicts, List.length_cons, List.range'_succ]
      cases hverdict : verdict evm st call i sig with
      | none => simp
      | some r =>
          obtain ⟨v, signer⟩ := r
          -- behind the last position `i++` reverts, which counts less than the rest of the list
          have hrest : (if i + 1 = 2 ^ 32 then [] else verdicts evm st call sigs (i + 1)).count
              .valid ≤ ((List.range' (i + 1) sigs.length).filter (validAt evm st call)).length := by
            split
            · simp
            · exact ih htail
          have hvalid : validAt evm st call i = decide (v = .valid) := by
            simp [validAt, hhead, hverdict]
          dsimp only
          by_cases hv : v = .valid
          · rw [List.filter_cons_of_pos (by simpa [hvalid] using hv), hv, List.count_cons_self,
              List.length_cons]
            exact Nat.succ_le_succ hrest
          · rw [List.filter_cons_of_neg (by simpa [hvalid] using hv), List.count_cons_of_ne hv]
            exact hrest

theorem mem_countedPositions {i : ℕ} (h : i ∈ countedPositions evm st call) :
    validAt evm st call i = true :=
  (List.mem_filter.mp (List.mem_of_mem_take h)).2

/-- An accepted call has counted `minSigCnt` signers, each time one that passed the checks. -/
theorem length_countedSigners (hwritten : Written evm st call) :
    (countedSigners evm st call).length = st.minSigCnt := by
  have hsigners : (countedSigners evm st call).length = (countedPositions evm st call).length := by
    refine List.filterMap_length_eq_length.mpr fun i hi => ?_
    obtain ⟨signer, hsigner, -⟩ := signer_of_validAt (mem_countedPositions hi)
    rw [hsigner, Option.isSome_some]
  rw [hsigners, countedPositions, List.length_take, Nat.min_eq_left]
  rcases Nat.eq_zero_or_pos st.minSigCnt with hzero | hpos
  · rw [hzero]
    exact Nat.zero_le _
  · have hle := (written_iff_validPositions hpos).mp hwritten
    refine hle.trans ?_
    rw [List.range_eq_range']
    exact count_verdicts_le fun j => by rw [Nat.zero_add]

theorem countedSigners_subset :
    (countedSigners evm st call).toFinset ⊆ recoveredMembers evm st call := by
  intro a ha
  obtain ⟨i, hi, hsigner⟩ := List.mem_filterMap.mp (List.mem_toFinset.mp ha)
  obtain ⟨signer, hsigner', hmem⟩ := signer_of_validAt (mem_countedPositions hi)
  rw [hsigner] at hsigner'
  cases hsigner'
  exact hmem

/-- An accepted call whose counted signers are pairwise different has the signatures of
`minSigCnt` members. The other way round this needs that nobody else has signed: a member that
is counted twice does no harm if another one, not counted, makes up for it. -/
theorem addTB_threshold (hwritten : Written evm st call) :
    ((countedSigners evm st call).Nodup → ThresholdMet evm st call) ∧
      (recoveredMembers evm st call ⊆ (countedSigners evm st call).toFinset →
        ThresholdMet evm st call → (countedSigners evm st call).Nodup) := by
  have hlen := length_countedSigners hwritten
  rw [thresholdMet_iff]
  refine ⟨fun hnodup => ?_, fun hall hle => ?_⟩
  · calc st.minSigCnt = (countedSigners evm st call).toFinset.card := by
          rw [List.toFinset_card_of_nodup hnodup, hlen]
      _ ≤ (recoveredMembers evm st call).card := Finset.card_le_card countedSigners_subset
  · -- a repetition would leave fewer members than there are counted positions
    rw [← Multiset.coe_nodup, ← Multiset.toFinset_card_eq_card_iff_nodup]
    refine le_antisymm (Multiset.toFinset_card_le _) ?_
    rw [Multiset.coe_card, hlen]
    exact hle.trans (Finset.card_le_card hall)

end AddTB

/-! ## One member signs twice, and two members sign -/

/-- The address of the private key 1. -/
def exampleMember : Address := MultiSign.replyOne.pubAddress

/-- The address of the private key 2. -/
def secondMember : Address := MultiSign.replyTwo.pubAddress

def exampleSeed : Hash := MultiSign.requestOne.seed

/-- Two beacons of block 1 of shard 0, those of the rounds of `MultiSign`. -/
def beaconOne : ContractTB := ⟨0, 1, [0x62, 0x31], [0x63, 0x31], [0x64, 0x31]⟩

def beaconTwo : ContractTB := ⟨0, 1, [0x62, 0x32], [0x63, 0x32], [0x64, 0x32]⟩

/-- A signature of 65 bytes, with zeros behind it. -/
def signature (r s : Hash) (v : UInt8) : MemBytes := ⟨MultiSign.signature r s v, fun _ => 0⟩

/-- The member's signatures of the seed and of the two beacons. -/
def vrfSig : Hash × Hash × UInt8 :=
  (0x5cbdf0646e5db4eaa398f365f2ea7a0e3d419b7e0330e39ce92bddedcac4f9bc#256,
    0x407c488a04b659e235455247309822513a8f6ec23fd21dda3826707a7e84b4ae#256, 0)

def sigOne : Hash × Hash × UInt8 :=
  (0x774ae7f858a9411e5ef4246b70c65aac5649980be5c17891bbec17895da008cb#256,
    0x201c043b9b3d39c1e4f2593ccddbbed153f70b0555e182f08c39f38ae415e723#256, 1)

def sigTwo : Hash × Hash × UInt8 :=
  (0x774ae7f858a9411e5ef4246b70c65aac5649980be5c17891bbec17895da008cb#256,
    0x1a4b32cddbfe6b4740618df546f4511e7950cf3d6220c24a9c1ee277d296201b#256, 0)

/-- The second member's signatures of the seed and of the first beacon. -/
def secondVrf : Hash × Hash × UInt8 :=
  (0xd47644539acec3da5e3ecf5fe8863c628a9c97e8b71e9ea9167a6f4f83c03c32#256,
    0x6b4e1f85698301e2fbe7269eaeb90ef840f7e702ca95c2fa2536f883ae886d54#256, 0)

def secondSig : Hash × Hash × UInt8 :=
  (0xf30e4bd8094e53a679ddb8f55b5216b03c44623fc4279ef0791f9aa1f6930d49#256,
    0x7e10bc752e45fc1f28e75afb05101ef7bc073cc02c21a15f3103e5c843f29beb#256, 1)

/-- The precompiled functions on the beacons and signatures above. -/
def exampleEvm : Evm where
  keccak256 := fun b =>
    if b = abiEncode beaconOne then MultiSign.hashOne
    else if b = abiEncode beaconTwo then MultiSign.hashTwo else 0
  ecrecover := fun hash v r s =>
    if (hash, r, s, v) ∈ [(exampleSeed, vrfSig.1, vrfSig.2.1, vrfSig.2.2 + 27),
        (MultiSign.hashOne, sigOne.1, sigOne.2.1, sigOne.2.2 + 27),
        (MultiSign.hashTwo, sigTwo.1, sigTwo.2.1, sigTwo.2.2 + 27)] then exampleMember
    else if (hash, r, s, v) ∈ [(exampleSeed, secondVrf.1, secondVrf.2.1, secondVrf.2.2 + 27),
        (MultiSign.hashOne, secondSig.1, secondSig.2.1, secondSig.2.2 + 27)] then secondMember
    else 0

def exampleGenesis : ContractTB := ⟨0, 0, [0x62, 0x30], [0x63, 0x30], [0x64, 0x30]⟩

/-- A contract with one member in its only shard. -/
def exampleStorage (minSigCnt : ℕ) : TBStorage :=
  (deploy [exampleGenesis] minSigCnt 1 [[exampleMember]]).get rfl

/-- The member submits a beacon with `n` copies of its own vrf and signature. -/
def exampleCall (tb : ContractTB) (sig : Hash × Hash × UInt8) (n : ℕ) : AddTBCall where
  tb := tb
  sigs := List.replicate n (signature sig.1 sig.2.1 sig.2.2)
  vrfs := List.replicate n (signature vrfSig.1 vrfSig.2.1 vrfSig.2.2)
  seedHeight := 5
  signers := List.replicate n exampleMember
  blockhash := fun _ => exampleSeed

/-- Two signatures are asked for, and one member gives both. -/
theorem one_member_twice :
    Written exampleEvm (exampleStorage 2) (exampleCall beaconOne sigOne 2) ∧
      ¬ ThresholdMet exampleEvm (exampleStorage 2) (exampleCall beaconOne sigOne 2) := by
  have hmin : (exampleStorage 2).minSigCnt = 2 := rfl
  have hvalid : validPositions exampleEvm (exampleStorage 2) (exampleCall beaconOne sigOne 2) = 2 := by
    decide +kernel
  have hmembers : (recoveredMembers exampleEvm (exampleStorage 2)
      (exampleCall beaconOne sigOne 2)).card = 1 := by
    decide +kernel
  constructor
  · rw [written_iff_validPositions (by omega), hmin, hvalid]
  · rw [thresholdMet_iff, hmin, hmembers]
    omega

/-- A contract with two members in its only shard, both of whom have to sign. -/
def twoMembersStorage : TBStorage :=
  (deploy [exampleGenesis] 2 1 [[exampleMember, secondMember]]).get rfl

/-- A call with the vrfs and signatures of the two members in some order. -/
def twoMembersCall (signers : List Address) : AddTBCall where
  tb := beaconOne
  sigs := signers.map fun a =>
    if a = exampleMember then signature sigOne.1 sigOne.2.1 sigOne.2.2
    else signature secondSig.1 secondSig.2.1 secondSig.2.2
  vrfs := signers.map fun a =>
    if a = exampleMember then signature vrfSig.1 vrfSig.2.1 vrfSig.2.2
    else signature secondVrf.1 secondVrf.2.1 secondVrf.2.2
  seedHeight := 5
  signers := signers
  blockhash := fun _ => exampleSeed

def bothSign : AddTBCall := twoMembersCall [exampleMember, secondMember, exampleMember]

theorem threshold_bothSign :
    Written exampleEvm twoMembersStorage bothSign ∧
      countedSigners exampleEvm twoMembersStorage bothSign = [exampleMember, secondMember] ∧
      ThresholdMet exampleEvm twoMembersStorage bothSign ∧
      (countedSigners exampleEvm twoMembersStorage bothSign).Nodup := by
  have hvalid : twoMembersStorage.minSigCnt ≤
      validPositions exampleEvm twoMembersStorage bothSign := by
    decide +kernel
  have hwritten : Written exampleEvm twoMembersStorage bothSign :=
    (written_iff_validPositions (by decide)).mpr hvalid
  have hcounted : countedSigners exampleEvm twoMembersStorage bothSign =
      [exampleMember, secondMember] := by
    decide +kernel
  have hnodup : (countedSigners exampleEvm twoMembersStorage bothSign).Nodup := by
    rw [hcounted]
    decide
  have hthreshold := (addTB_threshold hwritten).1 hnodup
  have hall : recoveredMembers exampleEvm twoMembersStorage bothSign ⊆
      (countedSigners exampleEvm twoMembersStorage bothSign).toFinset := by
    decide +kernel
  exact ⟨hwritten, hcounted, hthreshold, (addTB_threshold hwritten).2 hall hthreshold⟩

/-- The first member is counted twice and the second one not at all, but both have signed. -/
example : ¬ (countedSigners exampleEvm twoMembersStorage
      (twoMembersCall [exampleMember, exampleMember, secondMember])).Nodup ∧
    ThresholdMet exampleEvm twoMembersStorage
      (twoMembersCall [exampleMember, exampleMember, secondMember]) :=
  ⟨by decide +kernel, thresholdMet_iff.mpr (by decide +kernel)⟩

end Contract

end LessChain
