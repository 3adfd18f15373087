import LessChain.Core.Types
import LessChain.Lib.Machine

/-!
# Multi-signing a time beacon

The leader's `initMultiSign` empties the lists, makes a new channel, asks the committee to
sign and waits; `HandleMultiSignReply` fills the lists and fires the channel when there are
enough signatures. A reply is checked against the request that comes with it.

The handler runs under `multiSignLock`, which `initMultiSign` does not take: its
assignments are steps of their own, between which replies may be handled.
-/

namespace LessChain

/-- `crypto.Ecrecover` with `PubkeyToAddress`, where `none` is an error, and
`TimeBeacon.Hash`. -/
structure Crypto where
  ecrecover : Hash → Bytes → Option Address
  tbHash : TimeBeacon → Hash

/-- `VerifySignature`; the process ends when no key can be recovered. -/
def verifySignature (crypto : Crypto) (msgHash : Hash) (sig : Bytes) (expected_addr : Address) :
    Option Bool :=
  (crypto.ecrecover msgHash sig).map fun recovered_addr => recovered_addr = expected_addr

namespace MultiSign

/-- `core.ComLeaderInitMultiSign`. -/
structure Request where
  seed : Hash
  seedHeight : ℕ
  tb : TimeBeacon
deriving DecidableEq

/-- `core.MultiSignReply`, without the `NodeInfo` that is only logged. -/
structure MultiSignReply where
  request : Request
  vrfValue : Bytes
  sig : Bytes
  pubAddress : Address
deriving DecidableEq

/-- `core.SignedTB`. -/
structure SignedTB where
  timeBeacon : TimeBeacon
  signers : List Address
  sigs : List Bytes
  vrfs : List Bytes
  seedHeight : ℕ
deriving DecidableEq

/-- `MultiSignData`. The channel is nil before the first round, and has room for one
token. -/
structure MultiSignData where
  multiSignDone : Option Bool
  vrfs : List Bytes
  sigs : List Bytes
  signers : List Address
deriving DecidableEq

/-- `vrfResultIsGood`: every first byte is. -/
def vrfResultIsGood (val : Bytes) : Option Bool := (val[0]?).map fun b => 0 ≤ b.toNat

/-- Send a token into the channel; `none` is a send that waits for ever. -/
def MultiSignData.fire (d : MultiSignData) : Option MultiSignData :=
  if d.multiSignDone = some false then some { d with multiSignDone := some true } else none

/-- The end of `HandleMultiSignReply`, for a reply that has passed the checks. -/
def MultiSignData.collect (d : MultiSignData) (required : ℕ) (reply : MultiSignReply) :
    Option MultiSignData :=
  let d := { d with
    signers := d.signers ++ [reply.pubAddress]
    sigs := d.sigs ++ [reply.sig]
    vrfs := d.vrfs ++ [reply.vrfValue] }
  if d.sigs.length = required then d.fire else some d

def handleMultiSignReply (crypto : Crypto) (required : ℕ) (d : MultiSignData)
    (reply : MultiSignReply) : Option MultiSignData :=
  if d.signers.length ≥ required then some d
  else do
    let vrfPasses ← verifySignature crypto reply.request.seed reply.vrfValue reply.pubAddress
    if vrfPasses = false then return d
    let good ← vrfResultIsGood reply.vrfValue
    if good = false then return d
    let sigPasses ← verifySignature crypto (crypto.tbHash reply.request.tb) reply.sig
      reply.pubAddress
    if sigPasses = false then return d
    d.collect required reply

/-! ## Rounds -/

/-- Where `initMultiSign` is: the assignments still to come, or the wait. -/
inductive Phase where
  | idle
  | resetSigs (r : Request)
  | resetVrfs (r : Request)
  | resetChannel (r : Request)
  | waiting (r : Request)
deriving DecidableEq

/-- The outcome of a round that ended with a token, and how often its channel had fired. -/
structure Result where
  request : Request
  signed : SignedTB
  fired : ℕ
deriving DecidableEq

/-- `fired`, `results` and `exits` are not in the program; `exits` has what the rounds returned
that `exitCh` ended, with the signatures collected until then. -/
structure State where
  data : MultiSignData
  phase : Phase
  fired : ℕ
  results : List Result
  exits : List SignedTB
deriving DecidableEq

inductive Event where
  | initMultiSign (r : Request)
  /-- the next assignment of `initMultiSign`; with the last one the request is sent -/
  | assign
  | handleMultiSignReply (reply : MultiSignReply)
  /-- `initMultiSign` returns with the token of `MultiSignDone`, or with that of `exitCh` -/
  | returnDone
  | returnExit

/-- What `initMultiSign` returns. -/
def MultiSignData.signedTB (d : MultiSignData) (r : Request) : SignedTB :=
  ⟨r.tb, d.signers, d.sigs, d.vrfs, r.seedHeight⟩

section Model

variable (crypto : Crypto) (required : ℕ)

def initMultiSign (s : State) (r : Request) : Option State :=
  if s.phase = .idle then
    some { s with data := { s.data with signers := [] }, phase := .resetSigs r }
  else none

def assign (s : State) : Option State :=
  match s.phase with
  | .resetSigs r => some { s with data := { s.data with sigs := [] }, phase := .resetVrfs r }
  | .resetVrfs r => some { s with data := { s.data with vrfs := [] }, phase := .resetChannel r }
  | .resetChannel r => some { s with
      data := { s.data with multiSignDone := some false }
      phase := .waiting r
      fired := 0 }
  | _ => none

def reply (s : State) (reply : MultiSignReply) : Option State :=
  (handleMultiSignReply crypto required s.data reply).map fun d => { s with
    data := d
    fired := if s.data.multiSignDone = d.multiSignDone then s.fired else s.fired + 1 }

def returnDone (s : State) : Option State :=
  match s.phase, s.data.multiSignDone with
  | .waiting r, some true => some { s with
      data := { s.data with multiSignDone := some false }
      phase := .idle
      results := ⟨r, s.data.signedTB r, s.fired⟩ :: s.results }
  | _, _ => none

def returnExit (s : State) : Option State :=
  match s.phase with
  | .waiting r => some { s with phase := .idle, exits := s.data.signedTB r :: s.exits }
  | _ => none

def step (s : State) : Event → Option State
  | .initMultiSign r => initMultiSign s r
  | .assign => assign s
  | .handleMultiSignReply rep => reply crypto required s rep
  | .returnDone => returnDone s
  | .returnExit => returnExit s

def initial : State where
  data := ⟨none, [], [], []⟩
  phase := .idle
  fired := 0
  results := []
  exits := []

def machine : Sys.Machine State Event := ⟨(· = initial), step crypto required⟩

/-- No reply is handled while `initMultiSign` resets the lists, and one that is handled
while it waits answers its own request and is from a new signer. -/
def ReplyOk (d : MultiSignData) (rep : MultiSignReply) : Phase → Prop
  | .idle => True
  | .waiting r => d.signers.length < required →
      rep.request.seed = r.seed ∧ rep.request.tb = r.tb ∧ rep.pubAddress ∉ d.signers
  | _ => False

instance (d : MultiSignData) (rep : MultiSignReply) (phase : Phase) :
    Decidable (ReplyOk required d rep phase) :=
  match phase with
  | .idle => .isTrue trivial
  | .waiting _ => inferInstanceAs (Decidable (_ → _ ∧ _ ∧ _))
  | .resetSigs _ | .resetVrfs _ | .resetChannel _ => .isFalse id

def ownReplies (s : State) : Event → Prop
  | .handleMultiSignReply rep => ReplyOk required s.data rep s.phase
  | _ => True

instance (s : State) (ev : Event) : Decidable (ownReplies required s ev) := by
  unfold ownReplies
  split <;> infer_instance

end Model

/-! ## What a reply does -/

section Reply

variable {crypto : Crypto} {required : ℕ} {d d' : MultiSignData} {rep : MultiSignReply}

/-- A reply is left aside, or it has passed the checks against its own request and is
collected. -/
theorem handleMultiSignReply_cases (h : handleMultiSignReply crypto required d rep = some d') :
    d' = d ∨ d.signers.length < required ∧
      verifySignature crypto rep.request.seed rep.vrfValue rep.pubAddress = some true ∧
      verifySignature crypto (crypto.tbHash rep.request.tb) rep.sig rep.pubAddress = some true ∧
      d.collect required rep = some d' := by
  unfold handleMultiSignReply at h
  split at h
  · -- enough signers: the handler returns before any check
    left
    exact (Option.some.inj h).symm
  · rename_i hopen
    simp only [Option.bind_eq_bind, Option.bind_eq_some_iff] at h
    obtain ⟨vrfPasses, hvrf, h⟩ := h
    -- the three checks in the order of the source, each against the request of the reply
    cases vrfPasses with
    | false => exact .inl (Option.some.inj h).symm
    | true =>
        rw [if_neg (by simp)] at h
        obtain ⟨good, hgood, h⟩ := Option.bind_eq_some_iff.mp h
        cases good with
        | false => exact .inl (Option.some.inj h).symm
        | true =>
            rw [if_neg (by simp)] at h
            obtain ⟨sigPasses, hsig, h⟩ := Option.bind_eq_some_iff.mp h
            cases sigPasses with
            | false => exact .inl (Option.some.inj h).symm
            | true =>
                rw [if_neg (by simp)] at h
                exact .inr ⟨by omega, hvrf, hsig, h⟩

/-- A collected reply goes to the end of the three lists; the channel fires if it makes the
signatures enough. -/
theorem collect_spec (h : d.collect required rep = some d') :
    d'.signers = d.signers ++ [rep.pubAddress] ∧ d'.sigs = d.sigs ++ [rep.sig] ∧
      d'.vrfs = d.vrfs ++ [rep.vrfValue] ∧
      (d.sigs.length + 1 = required ∧ d.multiSignDone = some false ∧ d'.multiSignDone = some true ∨
        d.sigs.length + 1 ≠ required ∧ d'.multiSignDone = d.multiSignDone) := by
  unfold MultiSignData.collect MultiSignData.fire at h
  dsimp only at h
  rw [List.length_append, List.length_singleton] at h
  split at h
  · rename_i hfull
    -- the channel holds one token: a second one would block
    split at h
    · rename_i hempty
      cases h
      exact ⟨rfl, rfl, rfl, .inl ⟨hfull, hempty, rfl⟩⟩
    · cases h
  · rename_i hfull
    cases h
    exact ⟨rfl, rfl, rfl, .inr ⟨hfull, rfl⟩⟩

end Reply

/-! ## The lists of one round -/

section Rounds

variable {crypto : Crypto} {required : ℕ}

/-- The lists have one length, and the channel has fired when and only when it is the
required one. -/
structure Aligned (required : ℕ) (d : MultiSignData) (fired : ℕ) : Prop where
  sigs : d.sigs.length = d.signers.length
  vrfs : d.vrfs.length = d.signers.length
  fired_le : fired ≤ 1
  pending : d.signers.length < required → fired = 0
  full : fired = 1 → d.signers.length = required
  token : d.multiSignDone = some true → fired = 1

/-- The lists answer the request, with no signer twice. -/
structure Genuine (crypto : Crypto) (r : Request) (d : MultiSignData) : Prop where
  nodup : d.signers.Nodup
  sigs : List.Forall₂ (fun sig a => verifySignature crypto (crypto.tbHash r.tb) sig a = some true)
    d.sigs d.signers
  vrfs : List.Forall₂ (fun vrf a => verifySignature crypto r.seed vrf a = some true)
    d.vrfs d.signers

variable {rep : MultiSignReply} {s s' : State}

theorem Aligned.reply {d d' : MultiSignData} {fired : ℕ}
    (h : Aligned required d fired)
    (hrep : handleMultiSignReply crypto required d rep = some d') :
    Aligned required d' (if d.multiSignDone = d'.multiSignDone then fired else fired + 1) := by
  rcases handleMultiSignReply_cases hrep with hsame | ⟨hopen, -, -, hcollect⟩
  · rw [hsame, if_pos rfl]
    exact h
  · obtain ⟨hsigners, hsigs, hvrfs, hdone⟩ := collect_spec hcollect
    -- a reply is only collected below the required number, so the channel has not fired
    have hfired := h.pending hopen
    have hlen : d'.signers.length = d.signers.length + 1 := by
      rw [hsigners, List.length_append, List.length_singleton]
    have hsigsLen : d'.sigs.length = d'.signers.length := by
      rw [hsigs, hlen, List.length_append, List.length_singleton, h.sigs]
    have hvrfsLen : d'.vrfs.length = d'.signers.length := by
      rw [hvrfs, hlen, List.length_append, List.length_singleton, h.vrfs]
    have hsigs₀ := h.sigs
    -- the reply is the last one that is needed, or it is not
    rcases hdone with ⟨hfull, hempty, htoken⟩ | ⟨hnot, hkept⟩
    · rw [if_neg (by rw [hempty, htoken]; simp)]
      exact ⟨hsigsLen, hvrfsLen, by omega, fun hlt => by omega, fun _ => by omega,
        fun _ => by omega⟩
    · rw [if_pos hkept.symm]
      refine ⟨hsigsLen, hvrfsLen, h.fired_le, fun _ => hfired, fun hone => by omega, ?_⟩
      rw [hkept]
      exact h.token

theorem Genuine.reply {d d' : MultiSignData} {r : Request}
    (h : Genuine crypto r d) (hok : ReplyOk required d rep (.waiting r))
    (hrep : handleMultiSignReply crypto required d rep = some d') : Genuine crypto r d' := by
  rcases handleMultiSignReply_cases hrep with hsame | ⟨hopen, hvrf, hsig, hcollect⟩
  · rw [hsame]
    exact h
  · obtain ⟨hseed, htb, hnew⟩ := hok hopen
    obtain ⟨hsigners, hsigs, hvrfs, -⟩ := collect_spec hcollect
    -- the reply answers this request, so its checks are checks of this round
    rw [hseed] at hvrf
    rw [htb] at hsig
    constructor
    · rw [hsigners]
      exact List.Nodup.append h.nodup (List.nodup_singleton _) (by simpa using hnew)
    · rw [hsigners, hsigs]
      exact List.rel_append h.sigs (.cons hsig .nil)
    · rw [hsigners, hvrfs]
      exact List.rel_append h.vrfs (.cons hvrf .nil)

/-- What a round that ended with a token has to show. -/
structure Sound (crypto : Crypto) (required : ℕ) (res : Result) : Prop where
  timeBeacon : res.signed.timeBeacon = res.request.tb
  signers : res.signed.signers.length = required
  sigs_length : res.signed.sigs.length = required
  vrfs_length : res.signed.vrfs.length = required
  nodup : res.signed.signers.Nodup
  sigs : List.Forall₂ (fun sig a =>
    verifySignature crypto (crypto.tbHash res.request.tb) sig a = some true)
    res.signed.sigs res.signed.signers
  vrfs : List.Forall₂ (fun vrf a => verifySignature crypto res.request.seed vrf a = some true)
    res.signed.vrfs res.signed.signers
  fired : res.fired = 1

/-- What the lists are like where `initMultiSign` is. -/
def ListsOk (crypto : Crypto) (required : ℕ) (d : MultiSignData) (fired : ℕ) : Phase → Prop
  | .idle => Aligned required d fired
  | .resetSigs _ => d.signers = []
  | .resetVrfs _ => d.signers = [] ∧ d.sigs = []
  | .resetChannel _ => d.signers = [] ∧ d.sigs = [] ∧ d.vrfs = []
  | .waiting r => Aligned required d fired ∧ Genuine crypto r d

structure Inv (crypto : Crypto) (required : ℕ) (s : State) : Prop where
  fired_le : s.fired ≤ 1
  lists : ListsOk crypto required s.data s.fired s.phase
  results : ∀ res ∈ s.results, Sound crypto required res

theorem inv_initial : Inv crypto required initial := by
  refine ⟨Nat.zero_le 1, ?_, nofun⟩
  exact ⟨rfl, rfl, Nat.zero_le 1, fun _ => rfl, nofun, nofun⟩

theorem Inv.initMultiSign {s s' : State} {r : Request} (h : Inv crypto required s)
    (hstep : initMultiSign s r = some s') : Inv crypto required s' := by
  unfold MultiSign.initMultiSign at hstep
  split at hstep
  · cases hstep
    exact ⟨h.fired_le, rfl, h.results⟩
  · cases hstep

/-- The last assignment starts the round with empty lists and an empty channel. -/
theorem Inv.assign (h : Inv crypto required s) (hstep : assign s = some s') :
    Inv crypto required s' := by
  have hlists := h.lists
  unfold MultiSign.assign at hstep
  cases hphase : s.phase with
  | idle => simp [hphase] at hstep
  | waiting r => simp [hphase] at hstep
  -- three assignments, one list or channel each; the lists that are still old are not looked at
  | resetSigs r =>
      simp only [hphase, Option.some.injEq] at hstep hlists
      subst hstep
      exact ⟨h.fired_le, ⟨hlists, rfl⟩, h.results⟩
  | resetVrfs r =>
      simp only [hphase, Option.some.injEq] at hstep hlists
      subst hstep
      exact ⟨h.fired_le, ⟨hlists.1, hlists.2, rfl⟩, h.results⟩
  | resetChannel r =>
      simp only [hphase, Option.some.injEq] at hstep hlists
      subst hstep
      -- the channel is new, and all lists are empty
      obtain ⟨hsigners, hsigs, hvrfs⟩ := hlists
      refine ⟨Nat.zero_le 1, ⟨?_, ?_⟩, h.results⟩
      · exact ⟨by simp [hsigners, hsigs], by simp [hsigners, hvrfs], Nat.zero_le 1, fun _ => rfl,
          nofun, nofun⟩
      · exact ⟨by simp [hsigners], by simp [hsigners, hsigs], by simp [hsigners, hvrfs]⟩

theorem Inv.reply (h : Inv crypto required s)
    (hok : ReplyOk required s.data rep s.phase)
    (hstep : reply crypto required s rep = some s') : Inv crypto required s' := by
  have hlists := h.lists
  obtain ⟨d, hd, rfl⟩ := Option.map_eq_some_iff.mp hstep
  cases hphase : s.phase with
  -- after the round: the lists may take late replies, so only their lengths are known
  | idle =>
      rw [hphase] at hlists
      have haligned := hlists.reply hd
      exact ⟨haligned.fired_le, haligned, h.results⟩
  | waiting r =>
      rw [hphase] at hlists hok
      have haligned := hlists.1.reply hd
      exact ⟨haligned.fired_le, ⟨haligned, hlists.2.reply hok hd⟩, h.results⟩
  -- `ReplyOk`: none is handled while the lists are reset
  | resetSigs r => exact absurd hok (by simp [hphase, ReplyOk])
  | resetVrfs r => exact absurd hok (by simp [hphase, ReplyOk])
  | resetChannel r => exact absurd hok (by simp [hphase, ReplyOk])

theorem Inv.returnDone (h : Inv crypto required s)
    (hstep : returnDone s = some s') : Inv crypto required s' := by
  have hlists := h.lists
  unfold MultiSign.returnDone at hstep
  split at hstep
  · rename_i r hphase htoken
    cases hstep
    rw [hphase] at hlists
    obtain ⟨haligned, hgenuine⟩ := hlists
    -- a token means that the lists are full
    have hfired := haligned.token htoken
    have hfull := haligned.full hfired
    refine ⟨h.fired_le, ?_, ?_⟩
    · -- the token is taken, and the lists stay as they are
      exact { haligned with token := nofun }
    · intro res hres
      rcases List.mem_cons.mp hres with hres | hres
      · rw [hres]
        exact ⟨rfl, hfull, haligned.sigs.trans hfull, haligned.vrfs.trans hfull, hgenuine.nodup,
          hgenuine.sigs, hgenuine.vrfs, hfired⟩
      · exact h.results res hres
  · cases hstep

theorem Inv.returnExit (h : Inv crypto required s)
    (hstep : returnExit s = some s') : Inv crypto required s' := by
  have hlists := h.lists
  unfold MultiSign.returnExit at hstep
  split at hstep
  · rename_i r hphase
    cases hstep
    rw [hphase] at hlists
    -- the outcome goes to `exits`, of which nothing is said
    exact ⟨h.fired_le, hlists.1, h.results⟩
  · cases hstep

/-- When every reply that is handled belongs to the round that waits for it, the outcome of
each round that ends with a token is signed by the required number of different signers, for
the beacon and the seed of the round, and the channel has fired once. -/
theorem collected_in_round {s : State}
    (h : (machine crypto required).ReachableBy (ownReplies required) s) :
    (∀ res ∈ s.results, Sound crypto required res) ∧ s.fired ≤ 1 := by
  have hinv : Inv crypto required s := by
    refine Sys.Machine.invariant_by (Inv crypto required) ?_ ?_ h
    · intro s hs
      rw [show s = initial from hs]
      exact inv_initial
    · intro s ev s' hok hstep hinv
      cases ev with
      | initMultiSign r => exact hinv.initMultiSign hstep
      | assign => exact hinv.assign hstep
      | handleMultiSignReply rep => exact hinv.reply hok hstep
      | returnDone => exact hinv.returnDone hstep
      | returnExit => exact hinv.returnExit hstep
  exact ⟨hinv.results, hinv.fired_le⟩

end Rounds

/-! ## A late reply -/

/-- A signature of 65 bytes. -/
def signature (r s : Hash) (v : UInt8) : Bytes := r.bytes ++ s.bytes ++ [v]

/-- Beacons of two blocks, with the seeds of their rounds. -/
def requestOne : Request :=
  ⟨0x66a80b61b29ec044d14c4c8c613e762ba1fb8eeb0c454d1ee00ed6dedaa5b5c5#256, 5,
    ⟨0, 1, "b1", "c1", "d1"⟩⟩

def requestTwo : Request :=
  ⟨0x91a04aff9c722ba12813fc68312d99fd0f0f9e41593fa36b764b6e1d1bf4b5c9#256, 6,
    ⟨0, 1, "b2", "c2", "d2"⟩⟩

def hashOne : Hash := 0xe9e9469752f83a367775b13167aad8524553e12ecaef27c44a915f6e6f50e5b6#256

def hashTwo : Hash := 0x6779e92f336822d1dcdac20a82ba2901e89b3a1e41676eb10e64ea6a3659188e#256

/-- The replies of two members, those of the private keys 1 and 2, in the first round. -/
def replyOne : MultiSignReply where
  request := requestOne
  vrfValue := signature 0x5cbdf0646e5db4eaa398f365f2ea7a0e3d419b7e0330e39ce92bddedcac4f9bc#256
    0x407c488a04b659e235455247309822513a8f6ec23fd21dda3826707a7e84b4ae#256 0
  sig := signature 0x774ae7f858a9411e5ef4246b70c65aac5649980be5c17891bbec17895da008cb#256
    0x201c043b9b3d39c1e4f2593ccddbbed153f70b0555e182f08c39f38ae415e723#256 1
  pubAddress := 0x7e5f4552091a69125d5dfcb7b8c2659029395bdf#160

def replyTwo : MultiSignReply where
  request := requestOne
  vrfValue := signature 0x352bbf4a4cdd12564f93fa332ce333301d9ad40271f8107181340aef25be59d5#256
    0x63c311cfb338b82543c9b3c3adf393f8cb91bd946441270d539da357e9b416f2#256 1
  sig := signature 0x2fa2104d6b38d11b0230010559879124e42ab8dfeff5ff29dc9cdadd4ecacc3f#256
    0x2492ab717c3c413c5e6d7718dfc54dada185df29911af954271b1f6712aa90ba#256 1
  pubAddress := 0x2b5ad5c4795c026514f8317c7a215e218dccd6cf#160

/-- The functions on these beacons and signatures. The first member's signature of the first
beacon, taken for one of the second, recovers to nobody the committee knows. -/
def exampleCrypto : Crypto where
  tbHash := fun tb => if tb = requestOne.tb then hashOne else if tb = requestTwo.tb then hashTwo else 0
  ecrecover := fun hash sig =>
    [((requestOne.seed, replyOne.vrfValue), replyOne.pubAddress),
      ((hashOne, replyOne.sig), replyOne.pubAddress),
      ((requestOne.seed, replyTwo.vrfValue), replyTwo.pubAddress),
      ((hashOne, replyTwo.sig), replyTwo.pubAddress),
      ((hashTwo, replyOne.sig), 0x7cfe2b1d0f64c3d892f6afc8767000eddbb77177#160)].lookup (hash, sig)

/-- The calls of a round up to the wait. -/
def openRound (r : Request) : List Event := [.initMultiSign r, .assign, .assign, .assign]

/-- Two members sign the first beacon. -/
def firstRound : List Event :=
  openRound requestOne ++ [.handleMultiSignReply replyOne, .handleMultiSignReply replyTwo, .returnDone]

/-- In the second round the first reply comes again, twice. -/
def lateReplies : List Event :=
  firstRound ++ openRound requestTwo ++
    [.handleMultiSignReply replyOne, .handleMultiSignReply replyOne, .returnDone]

theorem round_takes_late_reply :
    ∃ s, (machine exampleCrypto 2).Reachable s ∧ ∃ res ∈ s.results, res.request = requestTwo ∧
      ¬ res.signed.signers.Nodup ∧ res.signed.sigs = [replyOne.sig, replyOne.sig] ∧
      verifySignature exampleCrypto (exampleCrypto.tbHash requestTwo.tb) replyOne.sig
        replyOne.pubAddress = some false :=
  Sys.Machine.exists_reachableBy _ rfl lateReplies (by decide +kernel)

theorem collected_in_firstRound :
    ∃ s, (machine exampleCrypto 2).ReachableBy (ownReplies 2) s ∧ s.results ≠ [] ∧
      (∀ res ∈ s.results, Sound exampleCrypto 2 res) ∧ s.fired ≤ 1 := by
  obtain ⟨s, hreach, hne⟩ : ∃ s, (machine exampleCrypto 2).ReachableBy (ownReplies 2) s ∧
      s.results ≠ [] :=
    Sys.Machine.exists_reachableBy _ rfl firstRound (by decide +kernel)
  exact ⟨s, hreach, hne, collected_in_round hreach⟩

end MultiSign

end LessChain
