import LessChain.Shard.Sync

/-!
# `Worker.commit`

What a committee leader does with the answer of the shard: `getStatusFromShard` checks the
Merkle proof of every account in it, and `commit` executes the transactions on the accounts
and puts the root that `rebuildTrie` computes into the header of the block.

The main result is about an answer that the shard gave from the state it still has: the
block that is built from it fits the shard.
-/

namespace LessChain

open Trie

/-! ## `getStatusFromShard` -/

/-- `get` with `skipResolved`: down to a hash, a value or an empty slot, with the rest of the
key. An empty key at a full node panics. -/
def getSkipResolved : Node → Bytes → Option (Bytes × Node)
  | .short nkey val, key =>
      if key.take nkey.length = nkey then getSkipResolved val (key.drop nkey.length)
      else some ([], .nil)
  | .full children, x :: key => do
      let i ← slot x
      getSkipResolved (children i) key
  | .full _, [] => none
  | .hash h, key => some (key, .hash h)
  | .value v, _ => some ([], .value v)
  | .nil, key => some (key, .nil)

section Model

variable (keccak : Bytes → Hash)

/-- `proofReader.Get`. -/
def proofGet (proof : List Bytes) (key : Bytes) : Option Bytes :=
  proof.find? fun node => (keccak node).bytes = key

/-- The loop of `VerifyProof`: the value of the key, which is empty if the key is absent.
`fuel` bounds the number of rounds. -/
def verifyLoop (proof : List Bytes) : ℕ → Bytes → Bytes → Option Bytes
  | 0, _, _ => none
  | fuel + 1, wantHash, key => do
      let buf ← proofGet keccak proof wantHash
      let n ← mustDecodeNode buf
      let (keyrest, cld) ← getSkipResolved n key
      match cld with
      | .hash h => verifyLoop proof fuel h keyrest
      | .value v => some v
      | _ => some []

/-- `VerifyProof`. A loop that comes to an end meets every pair of a proof element and a
suffix of the key at most once. -/
def verifyProof (rootHash : Hash) (key : Bytes) (proof : List Bytes) : Option Bytes :=
  verifyLoop keccak proof ((proof.length + 1) * ((keybytesToHex key).length + 1)) rootHash.bytes
    (keybytesToHex key)

/-- The check of `getStatusFromShard`. -/
def acceptsStates (response : ShardSendState) : Bool :=
  response.accountData.all fun (address, accountData) =>
    verifyProof keccak response.statusTrieHash (addrKey keccak address)
      (response.accountsProofs address) = some accountData

/-! ## `commit` -/

/-- The accounts of `addr2State`, each in a record of its own. -/
def ExecState.ofStates (addr2State : Address → Option StateAccount) : ExecState where
  memory p := (addr2State (BitVec.ofNat 160 p)).getD newAccount
  addr2State a := (addr2State a).map fun _ => a.toNat
  updatedStates := ∅
  ptr_inj := by
    intro a b p ha hb
    rcases Option.map_eq_some_iff.mp ha with ⟨_, _, rfl⟩
    rcases Option.map_eq_some_iff.mp hb with ⟨_, _, heq⟩
    exact (BitVec.eq_of_toNat_eq heq).symm

/-- The accounts that `updatedStates` points to. -/
def ExecState.updated (st : ExecState) (key : Bytes) : Option StateAccount :=
  (st.updatedStates.lookup key).map st.memory

namespace Worker

/-- `Finalize`. -/
def finalize (fuel : ℕ) (header : Header) (txs : List Transaction) (hash2Node : Hash2Node)
    (trieRoot : Hash) (updatedStates : Bytes → Option StateAccount) : Option Block := do
  let newTrieRoot ← rebuildTrie keccak updatedStates fuel trieRoot hash2Node
  some ⟨{ header with root := newTrieRoot }, txs⟩

/-- `commit` from the answer of the shard to the block it proposes. `fuel` bounds the depth
of the walk of `rebuildTrie`. -/
def commitStates (fuel comID parentHeight : ℕ) (txs : List Transaction) (states : ShardSendState) :
    Option Block := do
  let (addr2State, hash2Node) ← analyseStates keccak states.accountData states.accountsProofs
  let (txs, st) ← executeTransactions (addrKey keccak) txs (ExecState.ofStates addr2State)
  finalize keccak fuel ⟨parentHeight + 1, 0, comID⟩ txs hash2Node states.statusTrieHash st.updated

end Worker

end Model

/-! ## What the steps of `commit` give -/

/-- An account is read back from its encoding. -/
theorem decodeAccount_encodeAccount {acc : StateAccount} {data : Bytes}
    (h : encodeAccount acc = some data) (hlen : data.length < 2 ^ 64) :
    decodeAccount data = some acc := by
  unfold encodeAccount at h
  split at h
  · cases h
  · rename_i hneg
    cases h
    have hpayload := Sys.Rlp.length_lt_encodeList
      (Sys.Rlp.encodeString (Sys.minBE acc.nonce.toNat) ++
        Sys.Rlp.encodeString (Sys.minBE acc.balance.toNat) ++
        Sys.Rlp.encodeString acc.root.bytes ++ Sys.Rlp.encodeString acc.codeHash)
    have hnonce := Sys.Rlp.length_le_encodeString (Sys.minBE acc.nonce.toNat)
    have hbalance := Sys.Rlp.length_le_encodeString (Sys.minBE acc.balance.toNat)
    have hcode := Sys.Rlp.length_le_encodeString acc.codeHash
    have hlist := @Sys.Rlp.splitList_encodeList
      (Sys.Rlp.encodeString (Sys.minBE acc.nonce.toNat) ++
        Sys.Rlp.encodeString (Sys.minBE acc.balance.toNat) ++
        Sys.Rlp.encodeString acc.root.bytes ++ Sys.Rlp.encodeString acc.codeHash) (by omega) []
    simp only [List.length_append] at hpayload
    have hlast := Sys.Rlp.splitString_encodeString (s := acc.codeHash) (by omega) []
    rw [List.append_nil] at hlist hlast
    -- the nonce is decoded into a `uint64`, the balance into a `big.Int` without sign
    have hnonceLen : (Sys.minBE acc.nonce.toNat).length ≤ 8 :=
      Sys.length_minBE_le (k := 8) acc.nonce.toNat_lt
    have hnat : ((acc.balance.toNat : ℕ) : ℤ) = acc.balance := Int.toNat_of_nonneg (by omega)
    rw [decodeAccount, hlist]
    simp only [List.append_assoc, Option.bind_eq_bind, Option.bind_some]
    rw [Sys.Rlp.splitString_encodeString (by omega)]
    simp only [Option.bind_some]
    rw [Sys.Rlp.splitString_encodeString (by omega)]
    simp only [Option.bind_some]
    rw [Sys.Rlp.splitString_encodeString (by rw [Hash.length_bytes]; omega)]
    simp only [Option.bind_some]
    rw [hlast]
    simp [hnonceLen, Sys.head?_minBE, hnat]

/-- A value of a trie is part of the stored form of a node. -/
theorem IsState.exists_length_le (keccak : Bytes → Hash) {d : ℕ} {n : Node} (h : IsState d n)
    {r u : Bytes} (hget : tryGet n r = some u) :
    ∃ m ∈ subnodes n, u.length ≤ (enc keccak m).length := by
  induction h generalizing r with
  | @leaf k v hk hv =>
      rcases tryGet_short.mp hget with ⟨r', -, hval⟩
      cases hval
      refine ⟨_, List.mem_cons_self, ?_⟩
      have hstr := Sys.Rlp.length_le_encodeString u
      have hlist := Sys.Rlp.length_lt_encodeList
        (Sys.Rlp.encodeString (hexToCompact (k ++ [16])) ++ Sys.Rlp.encodeString u)
      rw [enc_leaf, Node.encode, Node.encode]
      rw [List.length_append] at hlist
      omega
  | @ext k children d hk hne hchild ih =>
      rcases tryGet_short.mp hget with ⟨r', -, hval⟩
      rcases ih hval with ⟨m, hm, hle⟩
      exact ⟨m, List.mem_cons_of_mem _ hm, hle⟩
  | @full children d hvalue hsome hchild ih =>
      rcases tryGet_full.mp hget with ⟨i, r', -, hval⟩
      rcases ih i (ne_nil_of_tryGet hval) hval with ⟨m, hm, hle⟩
      refine ⟨m, List.mem_cons_of_mem _ ?_, hle⟩
      exact List.mem_flatMap.mpr ⟨i, List.mem_finRange i, hm⟩

theorem Distinct.length_lt {keccak : Bytes → Hash} {T : Node} (h : Distinct keccak T)
    (hT : IsState 65 T) {r u : Bytes} (hget : tryGet T r = some u) : u.length < 2 ^ 64 := by
  rcases IsState.exists_length_le keccak hT hget with ⟨m, hm, hle⟩
  exact Nat.lt_of_le_of_lt hle (h.size _ (List.mem_map_of_mem hm))

/-- `addr2State` holds what the data of the accounts decodes to. -/
theorem analyseStates_addr2State {keccak : Bytes → Hash} {accountData : List (Address × Bytes)}
    {accountsProofs : Address → List Bytes} {addr2State : Address → Option StateAccount}
    {hash2Node : Hash2Node}
    (h : analyseStates keccak accountData accountsProofs = some (addr2State, hash2Node))
    (hnodup : (accountData.map Prod.fst).Nodup) :
    ∀ x ∈ accountData, addr2State x.1 = decodeAccount x.2 := by
  -- along the loop: what is read stays, as no address comes twice
  have hloop := Sys.foldlM_induction
    (fun rest (s : (Address → Option StateAccount) × Hash2Node) =>
      (rest.map Prod.fst).Nodup ∧ ∀ x ∈ accountData, x ∈ rest ∨
        (x.1 ∉ rest.map Prod.fst ∧ s.1 x.1 = decodeAccount x.2))
    (by
      rintro ⟨addr, encodedState⟩ rest s s' ⟨hrest, hdone⟩ hstep
      simp only [Option.bind_eq_bind, Option.bind_eq_some_iff, Option.some.injEq] at hstep
      rcases hstep with ⟨state, hstate, h2n, -, rfl⟩
      rw [List.map_cons, List.nodup_cons] at hrest
      refine ⟨hrest.2, fun x hx => ?_⟩
      rcases hdone x hx with hin | ⟨hnot, hread⟩
      · rcases List.mem_cons.mp hin with rfl | hin
        · refine .inr ⟨hrest.1, ?_⟩
          show Function.update s.1 addr (some state) addr = decodeAccount encodedState
          rw [Function.update_self, hstate]
        · exact .inl hin
      · rw [List.map_cons, List.mem_cons, not_or] at hnot
        refine .inr ⟨hnot.2, ?_⟩
        show Function.update s.1 addr (some state) x.1 = decodeAccount x.2
        rw [Function.update_of_ne hnot.1, hread])
    accountData (fun _ => none, fun _ => none) (addr2State, hash2Node)
    ⟨hnodup, fun x hx => .inl hx⟩ h
  intro x hx
  rcases hloop.2 x hx with hnil | ⟨-, hread⟩
  · cases hnil
  · exact hread

theorem ExecState.view_ofStates (addr2State : Address → Option StateAccount) (a : Address) :
    (ExecState.ofStates addr2State).view a = addr2State a := by
  cases hacc : addr2State a with
  | none => simp [ExecState.view, ExecState.ofStates, hacc]
  | some acc => simp [ExecState.view, ExecState.ofStates, hacc]

/-- `updatedStates` after an execution: the touched accounts as they are then. -/
theorem Worker.Executed.updated_iff {hash : Address → Bytes} {touched : Address → Prop}
    {effect : Address → StateAccount → StateAccount} {st st' : ExecState}
    (h : Worker.Executed hash touched effect st st') (hinj : Function.Injective hash)
    (hempty : st.updatedStates = ∅) {key : Bytes} {acc : StateAccount} :
    st'.updated key = some acc ↔ ∃ a, touched a ∧ key = hash a ∧ st'.view a = some acc := by
  have hentry : ∀ p, st'.updatedStates.lookup key = some p →
      ∃ a, touched a ∧ key = hash a ∧ st'.view a = some (st'.memory p) := by
    intro p hp
    rcases h.entries key p hp with hold | ⟨a, ha, hkey, hptr⟩
    · simp [hempty] at hold
    · refine ⟨a, ha, hkey, ?_⟩
      rw [ExecState.view, h.pointers, hptr]
      rfl
  constructor
  · intro hup
    rcases Option.map_eq_some_iff.mp hup with ⟨p, hp, rfl⟩
    exact hentry p hp
  · rintro ⟨a, ha, hkey, hview⟩
    have hin : key ∈ st'.updatedStates := (h.keys key).mpr (.inr ⟨a, ha, hkey⟩)
    rcases Finmap.mem_iff.mp hin with ⟨p, hp⟩
    rcases hentry p hp with ⟨b, -, hb, hview'⟩
    -- no other address has this key
    rw [hinj (hb.symm.trans hkey), hview] at hview'
    rw [ExecState.updated, hp, hview']
    rfl

/-- Nothing was proved, so the walk stops at the root. -/
theorem rebuildTrie_of_none {keccak : Bytes → Hash} {updates : Bytes → Option StateAccount}
    {fuel : ℕ} (hfuel : 0 < fuel) (root : Hash) :
    rebuildTrie keccak updates fuel root (fun _ => none) = some root := by
  rcases Nat.exists_eq_succ_of_ne_zero (Nat.pos_iff_ne_zero.mp hfuel) with ⟨n, rfl⟩
  simp [rebuildTrie, rebuildHelper]

/-! ## Answers -/

section Answers

variable {keccak : Bytes → Hash} {st : Storage} {addrs : List Address} {r : ShardSendState}

/-- What an answer of the shard says. -/
structure Answers (keccak : Bytes → Hash) (st : Storage) (addrs : List Address)
    (r : ShardSendState) : Prop where
  root : r.statusTrieHash = st.backend.root keccak
  keys : r.accountData.map Prod.fst = addrs
  data : ∀ x ∈ r.accountData, encodeAccount ⟨st.shard.stateDB.getNonce x.1,
    st.shard.stateDB.getBalance x.1, emptyRoot, emptyCodeHash⟩ = some x.2
  proofs : ∀ a ∈ addrs, ∃ proof, prove keccak st.backend.trie (addrKey keccak a) = some proof ∧
    r.accountsProofs a = iterated keccak proof

theorem answers_of_answer (h : st.answer keccak addrs = some r) : Answers keccak st addrs r := by
  simp only [Storage.answer, Option.bind_eq_bind, Option.bind_eq_some_iff, Option.some.injEq] at h
  rcases h with ⟨answers, hanswers, rfl⟩
  have hfor : ∀ a x, st.answerFor keccak a = some x → x.1 = a ∧
      encodeAccount ⟨st.shard.stateDB.getNonce a, st.shard.stateDB.getBalance a, emptyRoot,
        emptyCodeHash⟩ = some x.2.1 ∧
      ∃ proof, prove keccak st.backend.trie (addrKey keccak a) = some proof ∧
        x.2.2 = iterated keccak proof := by
    intro a x hx
    simp only [Storage.answerFor, Option.bind_eq_bind, Option.bind_eq_some_iff,
      Option.some.injEq] at hx
    rcases hx with ⟨data, hdata, proof, hproof, rfl⟩
    exact ⟨rfl, hdata, proof, hproof, rfl⟩
  refine ⟨rfl, ?_, ?_, ?_⟩
  · rw [List.map_map]
    exact Sys.map_of_mapM (fun a x hx => (hfor a x hx).1) hanswers
  · intro x hx
    rcases List.mem_map.mp hx with ⟨y, hy, rfl⟩
    rcases Sys.exists_of_mem_mapM hanswers y hy with ⟨a, -, hay⟩
    rcases hfor a y hay with ⟨rfl, hdata, -⟩
    exact hdata
  · intro a ha
    -- the entry that the map holds for the address
    rcases Sys.exists_mem_of_mapM hanswers a ha with ⟨y, hy, hay⟩
    have hsome : (answers.find? fun x => x.1 = a).isSome := by
      rw [List.find?_isSome]
      exact ⟨y, hy, by simp [(hfor a y hay).1]⟩
    rcases Option.isSome_iff_exists.mp hsome with ⟨x, hx⟩
    rcases Sys.exists_of_mem_mapM hanswers x (List.mem_of_find?_eq_some hx) with ⟨b, -, hbx⟩
    have hxa : x.1 = a := by simpa using List.find?_some hx
    rcases hfor b x hbx with ⟨hxb, -, proof, hproof, heq⟩
    refine ⟨proof, ?_, ?_⟩
    · rw [← hxa, hxb]
      exact hproof
    · show ((answers.find? fun x => x.1 = a).map fun x => x.2.2).getD [] = _
      rw [hx]
      exact heq

variable (hsynced : Synced keccak st.shard.stateDB st.backend)
include hsynced

/-- The data of an answer is the account that the shard has. -/
theorem Answers.encode_eq (h : Answers keccak st addrs r) {x : Address × Bytes}
    (hx : x ∈ r.accountData) : encodeAccount (st.shard.stateDB.account x.1) = some x.2 := by
  rw [← h.data x hx]
  rcases hsynced.plain_account x.1 with ⟨hroot, hcode⟩
  rw [← hroot, ← hcode]
  rfl

/-- The accounts of an answer are in the trie, if they exist and none waits to be written. -/
theorem Answers.tryGet_eq (h : Answers keccak st addrs r) (hsettled : st.backend.pending = ∅)
    (hexists : ∀ a ∈ addrs, st.shard.stateDB a ≠ none) {x : Address × Bytes}
    (hx : x ∈ r.accountData) : tryGet st.backend.trie (hexKey keccak x.1) = some x.2 := by
  have hmem : x.1 ∈ addrs := h.keys ▸ List.mem_map_of_mem hx
  rcases Option.ne_none_iff_exists'.mp (hexists _ hmem) with ⟨acc, hacc⟩
  have henc := h.encode_eq hsynced hx
  rw [StateDB.account_eq hacc] at henc
  exact hsynced.leaf x.1 acc x.2 (by simp [hsettled]) hacc henc

/-- An answer, its accounts in any order, is one that `analyseStates` can work with. -/
theorem Answers.answer (h : Answers keccak st addrs r) (hsettled : st.backend.pending = ∅)
    (hexists : ∀ a ∈ addrs, st.shard.stateDB a ≠ none) (hT : IsState 65 st.backend.trie)
    (hdistinct : Distinct keccak st.backend.trie) {data : List (Address × Bytes)}
    (hdata : data.Perm r.accountData) :
    Answer keccak st.backend.trie data r.accountsProofs := by
  refine ⟨?_, ?_, ?_⟩
  · intro x hx
    have hx' := hdata.mem_iff.mp hx
    have hlen := hdistinct.length_lt hT (h.tryGet_eq hsynced hsettled hexists hx')
    rw [decodeAccount_encodeAccount (h.encode_eq hsynced hx') hlen]
    rfl
  · intro x hx
    have hget := h.tryGet_eq hsynced hsettled hexists (hdata.mem_iff.mp hx)
    rw [hexKey] at hget
    rw [hget]
    exact Option.some_ne_none _
  · intro x hx
    have hx' := hdata.mem_iff.mp hx
    rcases h.proofs x.1 (h.keys ▸ List.mem_map_of_mem hx') with ⟨proof, hproof, heq⟩
    refine ⟨proof, hproof, fun e => ?_⟩
    rw [heq]
    apply mem_iterated
    -- the elements of the proof are stored nodes
    rcases hT.prove_eq keccak (length_addrKey x.1) (h.tryGet_eq hsynced hsettled hexists hx') with
      ⟨nodes, -, hsub, hprove⟩
    have hnodes : proof = nodes.map (enc keccak) := Option.some.inj (hproof.symm.trans hprove)
    have hin : ∀ e ∈ proof, e ∈ encodings keccak st.backend.trie := by
      intro e he
      rw [hnodes] at he
      rcases List.mem_map.mp he with ⟨m, hm, rfl⟩
      exact List.mem_map_of_mem (hsub m hm)
    exact fun e he e' he' => hdistinct.inj e (hin e he) e' (hin e' he')

end Answers

/-! ## The block fits -/

section Block

variable {keccak : Bytes → Hash} {st : Storage} {addrs : List Address} {r : ShardSendState}
  {txs : List Transaction} {data : List (Address × Bytes)}

theorem effects_executed (txs : List Transaction) (a : Address) (acc : StateAccount) :
    effects (txs.map Transaction.executed) a acc = effects txs a acc := by
  induction txs generalizing acc with
  | nil => rfl
  | cons tx txs ih => exact ih (tx.effect a acc)

/-- What the execution of a block leaves in `updatedStates`, on the accounts of an answer. -/
theorem updated_iff_of_answers (hinj : Function.Injective (addrKey keccak))
    (hsynced : Synced keccak st.shard.stateDB st.backend) (h : Answers keccak st addrs r)
    (hsettled : st.backend.pending = ∅) (hexists : ∀ a ∈ addrs, st.shard.stateDB a ≠ none)
    (hT : addrs ≠ [] → IsState 65 st.backend.trie) (hdistinct : Distinct keccak st.backend.trie)
    (hdata : data.Perm r.accountData) (hnodup : addrs.Nodup)
    (htouched : ∀ a, a ∈ addrs ↔ ∃ tx ∈ txs, a ∈ tx.touched)
    {addr2State : Address → Option StateAccount} {hash2Node : Hash2Node}
    (hanalyse : analyseStates keccak data r.accountsProofs = some (addr2State, hash2Node))
    {txs' : List Transaction} {st' : ExecState}
    (hexec : Worker.executeTransactions (addrKey keccak) txs (ExecState.ofStates addr2State) =
      some (txs', st')) (key : Bytes) (acc : StateAccount) :
    st'.updated key = some acc ↔ ∃ a ∈ addrs, key = addrKey keccak a ∧
      acc = effects txs a (st.shard.stateDB.account a) := by
  have hkeys : (data.map Prod.fst).Perm addrs := h.keys ▸ hdata.map Prod.fst
  -- the worker starts from the accounts of the shard
  have hview : ∀ a ∈ addrs, (ExecState.ofStates addr2State).view a =
      some (st.shard.stateDB.account a) := by
    intro a ha
    rcases List.mem_map.mp (hkeys.mem_iff.mpr ha) with ⟨x, hx, rfl⟩
    have hx' := hdata.mem_iff.mp hx
    rw [ExecState.view_ofStates,
      analyseStates_addr2State hanalyse (hkeys.nodup_iff.mpr hnodup) x hx]
    refine decodeAccount_encodeAccount (h.encode_eq hsynced hx') ?_
    exact hdistinct.length_lt (hT (List.ne_nil_of_mem ha))
      (h.tryGet_eq hsynced hsettled hexists hx')
  have hdef : ∀ a, (∃ tx ∈ txs, a ∈ tx.touched) →
      ((ExecState.ofStates addr2State).addr2State a).isSome := by
    intro a ha
    have hsome := hview a ((htouched a).mpr ha)
    rcases Option.map_eq_some_iff.mp hsome with ⟨p, hp, -⟩
    rw [hp]
    rfl
  have hknown := (Worker.executeTransactions_txs hexec).2
  rcases Worker.executeTransactions_spec (addrKey keccak) txs _ hknown hdef with
    ⟨st'', hexec', hex⟩
  rw [hexec] at hexec'
  cases hexec'
  rw [hex.updated_iff hinj rfl]
  constructor
  · rintro ⟨a, ha, hkey, hacc⟩
    have ha' := (htouched a).mpr ha
    rw [hex.accounts, hview a ha'] at hacc
    exact ⟨a, ha', hkey, (Option.some.inj hacc).symm⟩
  · rintro ⟨a, ha, hkey, rfl⟩
    refine ⟨a, (htouched a).mp ha, hkey, ?_⟩
    rw [hex.accounts, hview a ha]
    rfl

/-- The walk of `rebuildTrie` over an answer gives the root of the trie in which the shard
has written the accounts, in whatever order it does. -/
theorem rebuildTrie_of_answers {T : Node} {order : List Address} {after : Address → StateAccount}
    {updates : Bytes → Option StateAccount} {accountsProofs : Address → List Bytes}
    (hT : IsState 65 T) (hdistinct : Distinct keccak T)
    (hans : Answer keccak T data accountsProofs)
    (horder : ∀ a ∈ order, a ∈ data.map Prod.fst)
    (hupdates : ∀ key acc, updates key = some acc ↔
      ∃ a ∈ order, key = addrKey keccak a ∧ acc = after a)
    {addr2State : Address → Option StateAccount} {h2n : Hash2Node}
    (hanalyse : analyseStates keccak data accountsProofs = some (addr2State, h2n))
    {fuel : ℕ} (hfuel : 65 ≤ fuel) :
    rebuildTrie keccak updates fuel (rootHash keccak T) h2n =
      (overwrite T (order.map fun a => (addrKey keccak a, after a))).map (rootHash keccak) := by
  have hlists : Lists updates (order.map fun a => (addrKey keccak a, after a)) := by
    intro key acc
    rw [hupdates, List.mem_map]
    constructor
    · rintro ⟨a, ha, hkey, hacc⟩
      exact ⟨a, ha, by rw [hkey, hacc]⟩
    · rintro ⟨a, ha, heq⟩
      exact ⟨a, ha, (congrArg Prod.fst heq).symm, (congrArg Prod.snd heq).symm⟩
  have hkeys : ∀ x ∈ order.map (fun a => (addrKey keccak a, after a)),
      ∃ y ∈ data, x.1 = addrKey keccak y.1 := by
    intro x hx
    rcases List.mem_map.mp hx with ⟨a, ha, rfl⟩
    rcases List.mem_map.mp (horder a ha) with ⟨y, hy, rfl⟩
    exact ⟨y, hy, rfl⟩
  rcases analyseStates_ready hT hdistinct hans hlists hkeys with
    ⟨addr2State', h2n', hanalyse', hready⟩
  have hsame : h2n = h2n' :=
    congrArg Prod.snd (Option.some.inj (hanalyse.symm.trans hanalyse'))
  rw [hsame]
  exact rebuildTrie_of_ready hT hlists (hans.present_of_keys hkeys) hready hfuel

/-- The block that `commit` builds from an answer fits the shard, as long as the shard is in
the state it answered from. -/
theorem fits_of_commitStates (hinj : Function.Injective (addrKey keccak))
    (hsound : Sound keccak st) (hsettled : st.backend.pending = ∅)
    (hexists : ∀ a ∈ addrs, st.shard.stateDB a ≠ none) (hanswer : st.answer keccak addrs = some r)
    (haddrs : getTxRelatedAddrs txs = some addrs.toFinset) (hnodup : addrs.Nodup)
    (hdistinct : Distinct keccak st.backend.trie) (hdata : data.Perm r.accountData)
    {fuel comID parentHeight : ℕ} (hfuel : 65 ≤ fuel)
    (hheight : parentHeight + 1 = st.shard.blockchain.blocks.length) {block : Block}
    (hcommit : Worker.commitStates keccak fuel comID parentHeight txs
      { r with accountData := data } = some block) : Fits keccak st block := by
  have h := answers_of_answer hanswer
  have hsynced := hsound.synced
  simp only [Worker.commitStates, Worker.finalize, Option.bind_eq_bind, Option.bind_eq_some_iff,
    Prod.exists, Option.some.injEq] at hcommit
  rcases hcommit with ⟨addr2State, h2n, hanalyse, txs', st', hexec, root, hroot, rfl⟩
  rcases Worker.executeTransactions_txs hexec with ⟨rfl, hknown⟩
  have htouched : ∀ a, a ∈ addrs ↔ ∃ tx ∈ txs, a ∈ tx.touched := by
    rcases getTxRelatedAddrs_spec hknown with ⟨set, hset, hmem⟩
    cases haddrs.symm.trans hset
    intro a
    rw [← hmem, List.mem_toFinset]
  -- a shard that answers for an account has a trie
  have hstate : addrs ≠ [] → IsState 65 st.backend.trie := by
    intro hne
    rcases List.exists_mem_of_ne_nil _ hne with ⟨a, ha⟩
    rcases List.mem_map.mp (h.keys ▸ ha : a ∈ r.accountData.map Prod.fst) with ⟨x, hx, rfl⟩
    have hget := h.tryGet_eq hsynced hsettled hexists hx
    rcases hsynced.isRoot with hnil | hT
    · rw [hnil, tryGet_nil] at hget
      cases hget
    · exact hT
  have hupdated := updated_iff_of_answers hinj hsynced h hsettled hexists hstate hdistinct hdata
    hnodup htouched hanalyse hexec
  refine ⟨hsettled, hheight, ?_, ?_⟩
  · intro tx htx
    rcases List.mem_map.mp htx with ⟨tx₀, htx₀, rfl⟩
    exact hknown tx₀ htx₀
  · intro order horder
    have horder' : ∀ a, a ∈ order ↔ a ∈ addrs := by
      intro a
      -- executing a transaction does not change whom it touches
      have htouch : ∀ tx : Transaction, tx.executed.touched = tx.touched := fun _ => rfl
      simp only [horder, htouched, List.mem_map, exists_exists_and_eq_and, htouch]
    simp only [effects_executed]
    rcases hsynced.isRoot with hnil | hT
    · -- an empty trie: nothing was asked for, and nothing is written
      have hnone : addrs = [] := by
        by_contra hne
        have hT := (hstate hne).isNil_eq
        rw [hnil] at hT
        cases hT
      have hempty : order = [] := by
        rw [List.eq_nil_iff_forall_not_mem]
        intro a ha
        have hmem := (horder' a).mp ha
        rw [hnone] at hmem
        cases hmem
      have hno : data = [] := by
        have hkeys := hdata.map Prod.fst
        rw [h.keys, hnone] at hkeys
        simpa using hkeys.eq_nil
      rw [hno] at hanalyse
      have htable : h2n = fun _ => none :=
        (congrArg Prod.snd (Option.some.inj hanalyse)).symm
      rw [htable, rebuildTrie_of_none (by omega), h.root] at hroot
      rw [hempty]
      exact hroot
    · have hans := h.answer hsynced hsettled hexists hT hdistinct hdata
      have hmem : ∀ a ∈ order, a ∈ data.map Prod.fst := by
        intro a ha
        rw [(hdata.map Prod.fst).mem_iff, h.keys]
        exact (horder' a).mp ha
      have hupdates : ∀ key acc, st'.updated key = some acc ↔ ∃ a ∈ order,
          key = addrKey keccak a ∧ acc = effects txs a (st.shard.stateDB.account a) := by
        intro key acc
        simp only [hupdated, horder']
      rw [← hroot, h.root]
      exact (rebuildTrie_of_answers hT hdistinct hans hmem hupdates hanalyse hfuel).symm

end Block

end LessChain
