import LessChain.BeaconChain.Simulation
import LessChain.Contract.Mining
import LessChain.EthChain.Subscribe

/-!
# From a signing round to the beacon chain

A leader asks its committee to sign a beacon, every member answers with two signatures
(`HandleMultiSignRequest`), and the beacon goes to the beacon chain as soon as enough answers
have come. Three programs check the signatures: the leader, the simulated contract, and the
contract on the Ethereum chain, which has its own hash and its own way to take a signature
apart.

* `round_completes`: a round ends whatever the order of the answers, with the signatures of
  those who answered first.
* `signed_beacon_accepted`: the outcome of every round that ends with enough signatures passes
  the other two checks. The contract stores the beacon, reports nothing but that, and every node
  that listens gets one event.
-/

namespace LessChain

namespace BeaconPath

open MultiSign
open Contract (Evm TBStorage AddTBCall MemBytes)

/-! ## The members -/

/-- What go-ethereum and the Ethereum chain have in common: one hash, and one way to recover an
address, which the precompiled contract offers for two values of `v`. -/
structure Agrees (crypto : Crypto) (evm : Evm) : Prop where
  tbHash : ∀ tb, crypto.tbHash tb = tb.hash evm.keccak256
  ecrecover : ∀ {hash r s : Hash} {v : UInt8} {a : Address}, v ≤ 1 →
    crypto.ecrecover hash (signature r s v) = some a → evm.ecrecover hash (v + 27) r s = a

/-- `W3Account`: an address, and signatures that recover to it. -/
structure Account (crypto : Crypto) where
  address : Address
  sign : Hash → Hash × Hash × Bool
  recovers : ∀ hash, crypto.ecrecover hash
    (signature (sign hash).1 (sign hash).2.1 (sign hash).2.2.toUInt8) = some address

variable {crypto : Crypto} {evm : Evm} {required : ℕ}

/-- `SignHash`. -/
def Account.signHash (account : Account crypto) (hash : Hash) : Bytes :=
  signature (account.sign hash).1 (account.sign hash).2.1 (account.sign hash).2.2.toUInt8

/-- `HandleMultiSignRequest`. -/
def handleMultiSignRequest (account : Account crypto) (request : Request) :
    Option MultiSignReply := do
  let vrf := account.signHash request.seed
  let good ← vrfResultIsGood vrf
  if good = false then none
  else some ⟨request, vrf, account.signHash (crypto.tbHash request.tb), account.address⟩

/-- Every member answers. -/
def Account.reply (account : Account crypto) (request : Request) : MultiSignReply :=
  ⟨request, account.signHash request.seed, account.signHash (crypto.tbHash request.tb),
    account.address⟩

theorem vrfResultIsGood_signHash (account : Account crypto) (hash : Hash) :
    vrfResultIsGood (account.signHash hash) = some true := by
  have hne : account.signHash hash ≠ [] := by simp [Account.signHash, signature]
  rcases List.exists_cons_of_ne_nil hne with ⟨b, rest, heq⟩
  rw [heq]
  simp [vrfResultIsGood]

theorem handleMultiSignRequest_eq (account : Account crypto) (request : Request) :
    handleMultiSignRequest account request = some (account.reply request) := by
  simp [handleMultiSignRequest, vrfResultIsGood_signHash, Account.reply]

/-- Every reply that is handled was sent by a member, and belongs to the round that waits for
it. -/
def byMembers (members : List (Account crypto)) (required : ℕ) (s : State) (ev : Event) : Prop :=
  ownReplies required s ev ∧ ∀ rep, ev = .handleMultiSignReply rep →
    ∃ account ∈ members, ∃ request, handleMultiSignRequest account request = some rep

/-! ## A round ends -/

/-- The lists after the answers of these accounts. -/
def collected (required : ℕ) (request : Request) (accounts : List (Account crypto)) :
    MultiSignData :=
  let first := accounts.take required
  { multiSignDone := some (decide (required ≤ accounts.length))
    vrfs := first.map fun a => a.signHash request.seed
    sigs := first.map fun a => a.signHash (crypto.tbHash request.tb)
    signers := first.map (·.address) }

theorem length_signers_collected (request : Request) (accounts : List (Account crypto)) :
    (collected required request accounts).signers.length = min required accounts.length := by
  simp [collected]

/-- One more answer. -/
theorem handleMultiSignReply_collected (request : Request) (accounts : List (Account crypto))
    (account : Account crypto) :
    handleMultiSignReply crypto required (collected required request accounts)
        (account.reply request) =
      some (collected required request (accounts ++ [account])) := by
  have hverify : ∀ hash,
      verifySignature crypto hash (account.signHash hash) account.address = some true := by
    intro hash
    have hrec : crypto.ecrecover hash (account.signHash hash) = some account.address :=
      account.recovers hash
    simp [verifySignature, hrec]
  unfold handleMultiSignReply
  rw [length_signers_collected]
  by_cases hfull : required ≤ accounts.length
  · rw [if_pos (by omega)]
    have htake : (accounts ++ [account]).take required = accounts.take required :=
      List.take_append_of_le_length hfull
    simp only [collected, htake, List.length_append, List.length_singleton]
    rw [decide_eq_true hfull, decide_eq_true (by omega)]
  · have hall : accounts.take required = accounts := List.take_of_length_le (by omega)
    have hmore : (accounts ++ [account]).take required = accounts ++ [account] :=
      List.take_of_length_le (by rw [List.length_append, List.length_singleton]; omega)
    rw [if_neg (by omega)]
    simp only [Account.reply, hverify, vrfResultIsGood_signHash, Option.bind_eq_bind,
      Option.bind_some, Bool.true_eq_false, if_false, MultiSignData.collect, collected, hall, hmore,
      List.length_append, List.length_map, List.length_singleton, List.map_append,
      List.map_cons, List.map_nil, MultiSignData.fire]
    -- the answer that makes them enough fires the channel
    by_cases hlast : accounts.length + 1 = required
    · have hopen : decide (required ≤ accounts.length) = false := decide_eq_false hfull
      have hdone : decide (required ≤ accounts.length + 1) = true := decide_eq_true (by omega)
      rw [if_pos hlast, hopen, hdone, if_pos rfl]
    · have hopen : decide (required ≤ accounts.length) = false := decide_eq_false hfull
      have hstill : decide (required ≤ accounts.length + 1) = false := decide_eq_false (by omega)
      rw [if_neg hlast, hopen, hstill]

/-- The leader waits, and these accounts have answered. -/
def answered (required : ℕ) (request : Request) (before : State)
    (accounts : List (Account crypto)) : State :=
  { before with
    data := collected required request accounts
    phase := .waiting request
    fired := if required ≤ accounts.length then 1 else 0 }

theorem reply_answered (request : Request) (before : State)
    (accounts : List (Account crypto)) (account : Account crypto) :
    reply crypto required (answered required request before accounts) (account.reply request) =
      some (answered required request before (accounts ++ [account])) := by
  rw [reply, answered, handleMultiSignReply_collected]
  simp only [Option.map_some, answered, Option.some.injEq, State.mk.injEq, true_and, and_true,
    collected, Option.some.injEq, decide_eq_decide, List.length_append, List.length_singleton]
  -- enough before, enough with this one, or still too few
  by_cases hfull : required ≤ accounts.length
  · rw [if_pos (by omega), if_pos hfull, if_pos (by omega)]
  · by_cases hlast : required ≤ accounts.length + 1
    · rw [if_neg (by omega), if_neg hfull, if_pos hlast]
    · rw [if_pos (by omega), if_neg hfull, if_neg hlast]

/-- The leader asks, and these accounts answer. -/
def round (request : Request) (accounts : List (Account crypto)) : List Event :=
  openRound request ++ accounts.map fun a => .handleMultiSignReply (a.reply request)

theorem byMembers_of_ne {members : List (Account crypto)} {s : State} {ev : Event}
    (h : ∀ rep, ev ≠ .handleMultiSignReply rep) : byMembers members required s ev := by
  refine ⟨?_, fun rep heq => absurd heq (h rep)⟩
  cases ev with
  | handleMultiSignReply rep => exact absurd rfl (h rep)
  | _ => trivial

/-- A new member's answer belongs to the round. -/
theorem byMembers_answered {members accounts : List (Account crypto)} {request : Request}
    {before : State} {account : Account crypto} (hmem : account ∈ members)
    (hnew : account.address ∉ accounts.map (·.address)) :
    byMembers members required (answered required request before accounts)
      (.handleMultiSignReply (account.reply request)) := by
  constructor
  · intro _
    refine ⟨rfl, rfl, fun hin => hnew ?_⟩
    -- the signers are among those who have answered
    exact ((List.take_sublist required accounts).map _).subset hin
  · intro rep heq
    cases heq
    exact ⟨account, hmem, request, handleMultiSignRequest_eq account request⟩

/-- The leader has sent its request. -/
theorem openRound_answered (hpos : 0 < required) {members : List (Account crypto)} {s : State}
    (hidle : s.phase = .idle) (request : Request) :
    (openRound request).foldlM (step crypto required) s =
        some (answered required request s ([] : List (Account crypto))) ∧
      (machine crypto required).Reaches (byMembers members required) s
        (answered required request s ([] : List (Account crypto))) := by
  -- the first and the last of the four steps; the two between compute
  have hinit : step crypto required s (.initMultiSign request) = some
      { s with data := { s.data with signers := [] }, phase := .resetSigs request } := by
    rw [step, initMultiSign, if_pos hidle]
  have hlast : step crypto required
      { s with data := ⟨s.data.multiSignDone, [], [], []⟩, phase := .resetChannel request } .assign =
        some (answered required request s ([] : List (Account crypto))) := by
    simp [step, assign, answered, collected, Nat.not_le.mpr hpos]
  have hok : ∀ (s : State) (ev : Event), (∀ rep, ev ≠ .handleMultiSignReply rep) →
      byMembers members required s ev := fun s ev => byMembers_of_ne
  constructor
  · rw [openRound, List.foldlM_cons, hinit]
    exact hlast
  · have hstart : (machine crypto required).Reaches (byMembers members required) s s := .refl
    have h1 := hstart.tail (l := Event.initMultiSign request) (hok _ _ (by simp)) hinit
    have h2 := h1.tail (l := Event.assign) (hok _ _ (by simp)) rfl
    have h3 := h2.tail (l := Event.assign) (hok _ _ (by simp)) rfl
    exact h3.tail (l := Event.assign) (hok _ _ (by simp)) hlast

theorem replies_answered (hpos : 0 < required) {members accounts : List (Account crypto)}
    {s : State} (hidle : s.phase = .idle) (request : Request) (hmem : ∀ a ∈ accounts, a ∈ members)
    (hnodup : (accounts.map (·.address)).Nodup) :
    (round request accounts).foldlM (step crypto required) s =
        some (answered required request s accounts) ∧
      (machine crypto required).Reaches (byMembers members required) s
        (answered required request s accounts) := by
  -- on the last answer: the state is known after any number of them
  induction accounts using List.reverseRecOn with
  | nil => exact openRound_answered hpos hidle request
  | append_singleton accounts account ih =>
      rw [List.map_append, List.nodup_append] at hnodup
      have hnew : account.address ∉ accounts.map (·.address) := by
        intro hin
        exact hnodup.2.2 _ hin _ (by simp) rfl
      rcases ih (fun a ha => hmem a (List.mem_append_left _ ha)) hnodup.1 with ⟨hrun, hreach⟩
      have hstep : step crypto required (answered required request s accounts)
          (.handleMultiSignReply (account.reply request)) =
            some (answered required request s (accounts ++ [account])) :=
        reply_answered ..
      constructor
      · rw [round] at hrun ⊢
        rw [List.map_append, ← List.append_assoc, List.foldlM_append, hrun]
        simpa using hstep
      · exact hreach.tail (l := Event.handleMultiSignReply (account.reply request))
          (byMembers_answered (hmem account (by simp)) hnew) hstep

/-- The leader has returned the beacon. -/
def returned (required : ℕ) (request : Request) (before : State)
    (accounts : List (Account crypto)) : State :=
  { before with
    data := { collected required request accounts with multiSignDone := some false }
    phase := .idle
    fired := 1
    results := ⟨request, (collected required request accounts).signedTB request, 1⟩ ::
      before.results }

theorem returnDone_answered {request : Request} {before : State}
    {accounts : List (Account crypto)} (hlen : required ≤ accounts.length) :
    step crypto required (answered required request before accounts) .returnDone =
      some (returned required request before accounts) := by
  have hdone : (collected required request accounts).multiSignDone = some true := by
    simp [collected, hlen]
  simp only [step, returnDone, answered, returned, hdone, if_pos hlen]

/-- A round with enough different members ends, in whatever order they answer, with the
signatures of the first ones. -/
theorem round_completes (hpos : 0 < required) {members accounts : List (Account crypto)}
    {s : State} (hidle : s.phase = .idle) (request : Request) (hmem : ∀ a ∈ accounts, a ∈ members)
    (hnodup : (accounts.map (·.address)).Nodup) (hlen : required ≤ accounts.length) :
    ∃ s', (round request accounts ++ [Event.returnDone]).foldlM (step crypto required) s = some s' ∧
      (machine crypto required).Reaches (byMembers members required) s s' ∧ s'.phase = .idle ∧
      s'.results = ⟨request, (collected required request accounts).signedTB request, 1⟩ ::
        s.results := by
  rcases replies_answered hpos hidle request hmem hnodup with ⟨hrun, hreach⟩
  -- the token is in the channel, so the leader can return
  have hstep := @returnDone_answered crypto required request s accounts hlen
  refine ⟨_, ?_, hreach.tail (l := Event.returnDone) (byMembers_of_ne (by simp)) hstep, rfl, rfl⟩
  rw [List.foldlM_append, hrun]
  simpa using hstep

/-- Signatures that name their signer in place of `r`. -/
def namedCrypto : Crypto where
  ecrecover := fun _ sig => some ((bytesToHash (sig.take 32)).setWidth 160)
  tbHash := fun tb => BitVec.ofNat 256 (Sys.fromBE tb.abiEncode)

theorem namedCrypto_recovers (hash r s : Hash) (v : UInt8) :
    namedCrypto.ecrecover hash (signature r s v) = some (r.setWidth 160) := by
  have htake : (signature r s v).take 32 = r.bytes := by
    rw [signature, List.append_assoc, List.take_left' (Hash.length_bytes r)]
  simp [namedCrypto, htake]

def namedAccount (a : Address) : Account namedCrypto where
  address := a
  sign := fun hash => (a.setWidth 256, hash, false)
  recovers := fun hash => by
    rw [namedCrypto_recovers, BitVec.setWidth_setWidth_of_le a (by omega), BitVec.setWidth_eq]

/-- Three members, in the order of their answers. -/
def threeAccounts : List (Account namedCrypto) := [namedAccount 3, namedAccount 1, namedAccount 2]

theorem round_completes_threeAccounts :
    ∃ s', (round requestOne threeAccounts ++ [Event.returnDone]).foldlM (step namedCrypto 2)
        MultiSign.initial = some s' ∧
      (machine namedCrypto 2).Reaches (byMembers threeAccounts 2) MultiSign.initial s' ∧
      s'.phase = .idle ∧
      s'.results = [⟨requestOne, (collected 2 requestOne threeAccounts).signedTB requestOne, 1⟩] :=
  round_completes (by decide) rfl requestOne (fun _ h => h) (by decide) (by decide)

/-! ## What a round returns -/

/-- A signature as `SignHash` makes it. -/
def Regular (sig : Bytes) : Prop :=
  ∃ (r s : Hash) (v : UInt8), v ≤ 1 ∧ sig = signature r s v

theorem Account.regular_signHash (account : Account crypto) (hash : Hash) :
    Regular (account.signHash hash) := by
  refine ⟨_, _, _, ?_, rfl⟩
  cases (account.sign hash).2.2 <;> decide

/-- Lists that hold answers of members. -/
structure FromMembers (members : List (Account crypto)) (signers : List Address)
    (sigs vrfs : List Bytes) : Prop where
  signers : ∀ a ∈ signers, ∃ account ∈ members, account.address = a
  sigs : ∀ sig ∈ sigs, Regular sig
  vrfs : ∀ vrf ∈ vrfs, Regular vrf

theorem FromMembers.append {members : List (Account crypto)} {signers : List Address}
    {sigs vrfs : List Bytes} (h : FromMembers members signers sigs vrfs)
    {account : Account crypto} (hmem : account ∈ members) (request : Request) :
    FromMembers members (signers ++ [account.address])
      (sigs ++ [account.signHash (crypto.tbHash request.tb)])
      (vrfs ++ [account.signHash request.seed]) := by
  refine ⟨?_, ?_, ?_⟩
  · intro a ha
    rcases List.mem_append.mp ha with ha | ha
    · exact h.signers a ha
    · exact ⟨account, hmem, (List.mem_singleton.mp ha).symm⟩
  · intro sig hsig
    rcases List.mem_append.mp hsig with hsig | hsig
    · exact h.sigs sig hsig
    · rw [List.mem_singleton.mp hsig]
      exact account.regular_signHash _
  · intro vrf hvrf
    rcases List.mem_append.mp hvrf with hvrf | hvrf
    · exact h.vrfs vrf hvrf
    · rw [List.mem_singleton.mp hvrf]
      exact account.regular_signHash _

structure Origin (members : List (Account crypto)) (s : State) : Prop where
  data : FromMembers members s.data.signers s.data.sigs s.data.vrfs
  results : ∀ res ∈ s.results, res.signed.seedHeight = res.request.seedHeight ∧
    FromMembers members res.signed.signers res.signed.sigs res.signed.vrfs

theorem Origin.step {members : List (Account crypto)} {s s' : State} {ev : Event}
    (h : Origin members s) (hok : byMembers members required s ev)
    (hstep : step crypto required s ev = some s') : Origin members s' := by
  -- a list that was just reset
  have hempty : ∀ {l : List Bytes}, l = [] → ∀ sig ∈ l, Regular sig := by
    rintro l rfl sig hsig
    cases hsig
  cases ev with
  | initMultiSign r =>
      rw [MultiSign.step, initMultiSign] at hstep
      split at hstep
      · cases hstep
        exact ⟨⟨by simp, h.data.sigs, h.data.vrfs⟩, h.results⟩
      · cases hstep
  | assign =>
      rw [MultiSign.step, assign] at hstep
      split at hstep
      · cases hstep
        exact ⟨⟨h.data.signers, hempty rfl, h.data.vrfs⟩, h.results⟩
      · cases hstep
        exact ⟨⟨h.data.signers, h.data.sigs, hempty rfl⟩, h.results⟩
      · cases hstep
        exact ⟨h.data, h.results⟩
      · cases hstep
  -- the reply is what some member has computed from some request
  | handleMultiSignReply rep =>
      rcases hok.2 rep rfl with ⟨account, hmem, request, hrep⟩
      rw [handleMultiSignRequest_eq] at hrep
      cases hrep
      rcases Option.map_eq_some_iff.mp hstep with ⟨d, hd, rfl⟩
      refine ⟨?_, h.results⟩
      rcases handleMultiSignReply_cases hd with rfl | ⟨-, -, -, hcollect⟩
      · exact h.data
      · rcases collect_spec hcollect with ⟨hsigners, hsigs, hvrfs, -⟩
        show FromMembers members d.signers d.sigs d.vrfs
        rw [hsigners, hsigs, hvrfs]
        exact h.data.append hmem request
  | returnDone =>
      rw [MultiSign.step, returnDone] at hstep
      split at hstep
      · cases hstep
        refine ⟨h.data, ?_⟩
        intro res hres
        rcases List.mem_cons.mp hres with rfl | hres
        · -- the result is a copy of the lists
          exact ⟨rfl, h.data⟩
        · exact h.results res hres
      · cases hstep
  | returnExit =>
      rw [MultiSign.step, returnExit] at hstep
      split at hstep
      · cases hstep
        exact ⟨h.data, h.results⟩
      · cases hstep

/-- Every result is sound and made of answers of members. -/
theorem results_of_reachable {members : List (Account crypto)} {s : State}
    (h : (machine crypto required).ReachableBy (byMembers members required) s) :
    Inv crypto required s ∧ Origin members s := by
  refine Sys.Machine.invariant_by (fun s => Inv crypto required s ∧ Origin members s) ?_ ?_ h
  · intro s hs
    rw [show s = initial from hs]
    exact ⟨inv_initial, ⟨by simp [initial], by simp [initial], by simp [initial]⟩, by simp [initial]⟩
  · -- the invariant of a round needs the order of replies, the origin needs who sends them
    intro s ev s' hok hstep hinv
    refine ⟨?_, hinv.2.step hok hstep⟩
    cases ev with
    | initMultiSign r => exact hinv.1.initMultiSign hstep
    | assign => exact hinv.1.assign hstep
    | handleMultiSignReply rep => exact hinv.1.reply hok.1 hstep
    | returnDone => exact hinv.1.returnDone hstep
    | returnExit => exact hinv.1.returnExit hstep

/-! ## The simulated contract -/

theorem ecrecover_of_verifySignature {hash : Hash} {sig : Bytes} {a : Address}
    (h : verifySignature crypto hash sig a = some true) : crypto.ecrecover hash sig = some a := by
  rcases Option.map_eq_some_iff.mp h with ⟨b, hb, heq⟩
  rw [hb, of_decide_eq_true heq]

theorem countSigners_of_forall₂ {hash : Hash} {signers : List Address} {sigs : List Bytes}
    (h : List.Forall₂ (fun sig a => verifySignature crypto hash sig a = some true) sigs signers)
    {n : ℕ} (hn : n + signers.length = required) (hne : signers ≠ []) :
    BeaconChain.Simulation.countSigners crypto required hash signers sigs n = some true := by
  induction h generalizing n with
  | nil => exact absurd rfl hne
  | @cons sig a sigs signers hsig hrest ih =>
      have hrec := ecrecover_of_verifySignature hsig
      rw [BeaconChain.Simulation.countSigners, hrec]
      simp only [Option.bind_eq_bind, Option.bind_some, if_true]
      rw [List.length_cons] at hn
      -- the count stops at the required number, which the last signer reaches
      by_cases hlast : n + 1 ≥ required
      · rw [if_pos hlast]
      · rw [if_neg hlast]
        refine ih (by omega) ?_
        rintro rfl
        simp only [List.length_nil] at hn
        omega

/-! ## The contract on the Ethereum chain -/

/-- The memory holds the whole word. -/
theorem mload_of_append {b : MemBytes} {pre post : Bytes} {word : Hash}
    (h : b.data = pre ++ (word.bytes ++ post)) : b.mload pre.length = word := by
  have hbytes : ((List.range 32).map fun i => b.byteAt (pre.length + i)) = word.bytes := by
    apply List.ext_getElem?
    intro i
    by_cases hi : i < 32
    · -- within the word the byte is one of the array
      have hword : i < word.bytes.length := by simpa using hi
      have hbyte : b.data[pre.length + i]? = some word.bytes[i] := by
        rw [h, List.getElem?_append_right (Nat.le_add_right _ _), Nat.add_sub_cancel_left,
          List.getElem?_append_left hword, List.getElem?_eq_getElem hword]
      simp [List.getElem?_map, List.getElem?_range hi, MemBytes.byteAt, hbyte]
    · -- behind it there is none in either list
      have hword : word.bytes.length ≤ i := by
        rw [Hash.length_bytes]
        omega
      have hrange : ((List.range 32).map fun i => b.byteAt (pre.length + i)).length ≤ i := by
        rw [List.length_map, List.length_range]
        omega
      rw [List.getElem?_eq_none hword, List.getElem?_eq_none hrange]
  rw [MemBytes.mload, hbytes]
  exact bytesToHash_bytes word

/-- `decomposeSig` on a signature of 65 bytes. -/
theorem decomposeSig_signature {b : MemBytes} {r s : Hash} {v : UInt8} (hv : v ≤ 1)
    (h : b.data = signature r s v) : Contract.decomposeSig b = (r, s, v + 27) := by
  have hr : b.mload 0 = r := @mload_of_append b [] (s.bytes ++ [v]) r (by simp [h, signature])
  have hs : b.mload 32 = s := by
    have hload := @mload_of_append b r.bytes [v] s (by simp [h, signature])
    rwa [Hash.length_bytes] at hload
  have hbyte : b.byteAt 64 = v := by
    have hlen : (r.bytes ++ s.bytes).length = 64 := by simp
    rw [MemBytes.byteAt, h, signature, List.getElem?_append_right (by rw [hlen]), hlen]
    rfl
  -- `SignHash` gives 0 or 1, and the contract adds 27
  have hlt : v < 27 := UInt8.lt_of_le_of_lt hv (by decide)
  simp only [Contract.decomposeSig, hr, hs, hbyte, if_pos hlt]

theorem recoveredSigner_of_verifySignature (hagree : Agrees crypto evm) {hash : Hash}
    {sig : Bytes} {a : Address} {b : MemBytes} (hsig : Regular sig) (hb : b.data = sig)
    (h : verifySignature crypto hash sig a = some true) :
    Contract.recoveredSigner evm hash b = a := by
  rcases hsig with ⟨r, s, v, hv, hsig⟩
  have hrec := ecrecover_of_verifySignature h
  rw [hsig] at hb hrec
  simp only [Contract.recoveredSigner, decomposeSig_signature hv hb]
  exact hagree.ecrecover hv hrec

/-- The call that `AddTimeBeacon2EthChain` makes of a signed beacon above the genesis, wherever
its arrays come to lie in memory. -/
structure Carries (signed : SignedTB) (call : AddTBCall) : Prop where
  tb : call.tb = signed.timeBeacon.toContract
  sigs : call.sigs.map (·.data) = signed.sigs
  vrfs : call.vrfs.map (·.data) = signed.vrfs
  seedHeight : call.seedHeight = signed.seedHeight
  signers : call.signers = signed.signers

/-- The contract has recorded the members, in the shard. -/
structure Recorded (members : List (Account crypto)) (required shardID : ℕ) (st : TBStorage) :
    Prop where
  minSigCnt : st.minSigCnt = required
  addrRecorded : ∀ a ∈ members, st.addrRecorded a.address = true
  addr2Shard : ∀ a ∈ members, st.addr2Shard a.address = shardID

theorem exists_of_forall₂_getElem? {α β : Type*} {R : α → β → Prop} {l : List α} {m : List β}
    (h : List.Forall₂ R l m) {i : ℕ} {x : α} (hx : l[i]? = some x) :
    ∃ y, m[i]? = some y ∧ R x y := by
  rcases List.getElem?_eq_some_iff.mp hx with ⟨hl, rfl⟩
  have hm : i < m.length := by rwa [← h.length_eq]
  exact ⟨m[i], List.getElem?_eq_getElem hm, h.get hl hm⟩

theorem exists_of_map_getElem? {bs : List MemBytes} {l : List Bytes} (h : bs.map (·.data) = l)
    {i : ℕ} {x : Bytes} (hx : l[i]? = some x) : ∃ b, bs[i]? = some b ∧ b.data = x := by
  rw [← h, List.getElem?_map] at hx
  rcases Option.map_eq_some_iff.mp hx with ⟨b, hb, heq⟩
  exact ⟨b, hb, heq⟩

/-- The contract finds every position valid. -/
theorem signed_of_sound (hagree : Agrees crypto evm) {members : List (Account crypto)}
    {res : MultiSign.Result} (hsound : MultiSign.Sound crypto required res)
    (hfrom : FromMembers members res.signed.signers res.signed.sigs res.signed.vrfs)
    {st : TBStorage} (hrec : Recorded members required res.request.tb.shardID st)
    (hmax : required < 2 ^ 32) {call : AddTBCall} (hcall : Carries res.signed call)
    (hseed : call.seed = res.request.seed) : Contract.Mining.Signed evm call st := by
  -- both sides hash the same bytes
  have hhash : Contract.msgHash evm call.tb = crypto.tbHash res.request.tb := by
    rw [Contract.msgHash, hcall.tb, hsound.timeBeacon, abiEncode_toContract, hagree.tbHash]
    rfl
  refine ⟨?_, by rw [hrec.minSigCnt]; exact hmax, ?_⟩
  · rw [hrec.minSigCnt, ← hsound.sigs_length, ← hcall.sigs, List.length_map]
  · intro i sig hi
    have hsig : res.signed.sigs[i]? = some sig.data := by
      rw [← hcall.sigs, List.getElem?_map, hi]
      rfl
    -- the four arrays of the call have one member at each position
    rcases exists_of_forall₂_getElem? hsound.sigs hsig with ⟨a, ha, hsigned⟩
    rcases exists_of_forall₂_getElem? hsound.vrfs.flip ha with ⟨vrfData, hvrfData, hvrf⟩
    rcases exists_of_map_getElem? hcall.vrfs hvrfData with ⟨vrf, hvrfi, hdata⟩
    rcases hfrom.signers a (List.mem_of_getElem? ha) with ⟨account, hmem, rfl⟩
    have hregular := hfrom.vrfs vrfData (List.mem_of_getElem? hvrfData)
    -- the five tests of `verdict`: recorded, in the shard, the VRF, its value, the signature
    have hvrfPasses : Contract.verifyVrfResult evm call.seed vrf account.address = true := by
      rw [hseed]
      exact decide_eq_true (recoveredSigner_of_verifySignature hagree hregular hdata hvrf)
    have hsigPasses : Contract.verifySignature evm call.tb sig account.address = true := by
      rw [Contract.verifySignature, hhash]
      exact decide_eq_true (recoveredSigner_of_verifySignature hagree
        (hfrom.sigs _ (List.mem_of_getElem? hsig)) rfl hsigned)
    have hqualified : Contract.vrfIsQualified vrf = some true := by
      rcases hregular with ⟨r, s, v, -, hsig⟩
      have hne : vrf.data ≠ [] := by
        rw [hdata, hsig]
        simp [signature]
      rcases List.exists_cons_of_ne_nil hne with ⟨x, rest, heq⟩
      simp [Contract.vrfIsQualified, heq]
    have hshard : st.addr2Shard account.address = call.tb.shardID := by
      rw [hrec.addr2Shard account hmem, hcall.tb, hsound.timeBeacon]
      rfl
    refine ⟨account.address, ?_⟩
    simp [Contract.verdict, hcall.signers, ha, hrec.addrRecorded account hmem, hshard, hvrfi,
      hvrfPasses, hqualified, hsigPasses]

/-- Whatever rounds there were, in whatever order members answered: what a round returns that
`MultiSignDone` has ended passes `VerifyTimeBeacon`; as long as the contract can look up the seed
it stores the beacon and reports nothing else, and a node that listens passes on one event for
it. What a round returns that `exitCh` has ended is in `exits`, and may have too few signatures. -/
theorem signed_beacon_accepted (hagree : Agrees crypto evm) {members : List (Account crypto)}
    (hpos : 0 < required) (hmax : required < 2 ^ 32) {s : State}
    (h : (machine crypto required).ReachableBy (byMembers members required) s) {res : MultiSign.Result}
    (hres : res ∈ s.results) {st : TBStorage}
    (hrec : Recorded members required res.request.tb.shardID st) {call : AddTBCall}
    (hcall : Carries res.signed call)
    (hseed : call.blockhash res.request.seedHeight = res.request.seed)
    (hfits : res.request.tb.Fits) :
    BeaconChain.Simulation.verifyTimeBeacon crypto required res.signed = some true ∧
      Contract.addTB evm st call =
        some (st.putTB res.request.tb.shardID res.request.tb.height res.request.tb.toContract,
          [⟨"addTB", res.request.tb.shardID, res.request.tb.height, 0⟩]) ∧
      ∀ (blockNumber : ℕ) (sub : EthChain.Subscription), sub.running = true →
        (EthChain.logsOf evm st [(blockNumber, .addTB call)]).foldl EthChain.Subscription.read sub =
          { sub with channel := sub.channel ++
            [⟨res.request.tb.shardID, res.request.tb.height, blockNumber⟩] } := by
  rcases results_of_reachable h with ⟨hinv, horigin⟩
  have hsound := hinv.results res hres
  rcases horigin.results res hres with ⟨hheight, hfrom⟩
  -- the contract reads the seed from the chain, at the height the beacon names
  have hcallSeed : call.seed = res.request.seed := by
    rw [Contract.AddTBCall.seed, hcall.seedHeight, hheight, hseed]
  have hsigned := signed_of_sound hagree hsound hfrom hrec hmax hcall hcallSeed
  -- each position counts, and the last one makes them enough
  have hcount : Contract.countSigs evm st call call.sigs 0 0 = some (st.minSigCnt, []) := by
    apply Contract.Mining.countSigs_of_valid rfl
    · rw [Nat.zero_add, hsigned.length]
    · exact hsigned.minSigCnt
    · intro k sig hk
      rw [Nat.zero_add]
      exact hsigned.valid k sig hk
  have htb : call.tb = res.request.tb.toContract := by rw [hcall.tb, hsound.timeBeacon]
  have hadd : Contract.addTB evm st call =
      some (st.putTB res.request.tb.shardID res.request.tb.height res.request.tb.toContract,
        [⟨"addTB", res.request.tb.shardID, res.request.tb.height, 0⟩]) := by
    rw [Contract.addTB, hcount, htb]
    simp [TimeBeacon.toContract]
  refine ⟨?_, hadd, ?_⟩
  · -- the simulated chain checks the signatures alone
    rw [BeaconChain.Simulation.verifyTimeBeacon, hsound.timeBeacon]
    refine countSigners_of_forall₂ hsound.sigs (by rw [Nat.zero_add, hsound.signers]) ?_
    intro hnil
    have hlen := hsound.signers
    rw [hnil] at hlen
    exact absurd hlen (by simp; omega)
  · intro blockNumber sub hrun
    -- one log, and the node turns it into one event
    have hlogs : EthChain.logsOf evm st [(blockNumber, .addTB call)] = [⟨EthChain.encodeLog
        ⟨"addTB", res.request.tb.shardID, res.request.tb.height, 0⟩, blockNumber⟩] := by
      simp [EthChain.logsOf, EthChain.exec, hadd]
    rw [hlogs, List.foldl_cons, List.foldl_nil]
    exact @EthChain.read_addTB ⟨"addTB", res.request.tb.shardID, res.request.tb.height, 0⟩ sub
      blockNumber rfl hfits hrun

/-- The precompiled functions for `namedCrypto`. -/
def namedEvm : Evm where
  ecrecover := fun _ _ r _ => r.setWidth 160
  keccak256 := fun b => BitVec.ofNat 256 (Sys.fromBE b)

theorem named_agrees : Agrees namedCrypto namedEvm := by
  refine ⟨fun _ => rfl, ?_⟩
  intro hash r s v a _ hrec
  rw [namedCrypto_recovers] at hrec
  exact Option.some.inj hrec

/-- A contract with the three members in its only shard. -/
def threeStorage : TBStorage :=
  (Contract.deploy [Contract.exampleGenesis] 2 1 [threeAccounts.map (·.address)]).get rfl

/-- The arrays of the call, with zeros behind them. -/
def inMemory (signed : SignedTB) (seed : Hash) : AddTBCall where
  tb := signed.timeBeacon.toContract
  sigs := signed.sigs.map fun sig => ⟨sig, fun _ => 0⟩
  vrfs := signed.vrfs.map fun vrf => ⟨vrf, fun _ => 0⟩
  seedHeight := signed.seedHeight
  signers := signed.signers
  blockhash := fun _ => seed

theorem signed_beacon_accepted_threeAccounts :
    ∃ res : MultiSign.Result, res.request = requestOne ∧
      BeaconChain.Simulation.verifyTimeBeacon namedCrypto 2 res.signed = some true ∧
      Contract.addTB namedEvm threeStorage (inMemory res.signed requestOne.seed) =
        some (threeStorage.putTB 0 1 requestOne.tb.toContract, [⟨"addTB", 0, 1, 0⟩]) := by
  have hreach : (machine namedCrypto 2).ReachableBy (byMembers threeAccounts 2)
      (returned 2 requestOne MultiSign.initial threeAccounts) := by
    rcases @replies_answered namedCrypto 2 (by decide) threeAccounts threeAccounts
      MultiSign.initial rfl requestOne (fun _ h => h) (by decide) with ⟨-, hreach⟩
    have hstep := @returnDone_answered namedCrypto 2 requestOne MultiSign.initial threeAccounts (by decide)
    exact ⟨MultiSign.initial, rfl, hreach.tail (l := Event.returnDone) (byMembers_of_ne (by simp))
      hstep⟩
  have hrec : Recorded threeAccounts 2 requestOne.tb.shardID threeStorage :=
    ⟨rfl, by decide +kernel, by decide +kernel⟩
  have hcarries : ∀ signed : SignedTB, Carries signed (inMemory signed requestOne.seed) := by
    intro signed
    refine ⟨rfl, ?_, ?_, rfl, rfl⟩
    · rw [inMemory, List.map_map]
      exact List.map_id _
    · rw [inMemory, List.map_map]
      exact List.map_id _
  rcases signed_beacon_accepted named_agrees (by decide) (by decide) hreach
    (List.mem_cons_self) hrec (hcarries _) rfl ⟨by decide, by decide⟩ with ⟨hsim, hadd, -⟩
  exact ⟨_, rfl, hsim, hadd⟩

end BeaconPath

end LessChain
