import LessChain.Committee.Rebuild
import LessChain.Trie.Insert

/-!
# The stateless root is the direct root

`analyseStates` turns the Merkle proofs of some accounts into a table that is ready for
the walk of `rebuildTrie`, so the root a committee computes from the proofs is the root
the shard gets by overwriting the accounts in its trie.
-/

namespace LessChain

open Trie

/-- The stored forms of the nodes of a trie, one for each position. -/
def encodings (keccak : Bytes → Hash) (n : Node) : List Bytes := (subnodes n).map (enc keccak)

/-- `utils.GetHash(addr)`: the key of an account. -/
def addrKey (keccak : Bytes → Hash) (addr : Address) : Bytes := (keccak addr.bytes).bytes

section

variable {keccak : Bytes → Hash} {T : Node}

theorem length_addrKey (addr : Address) : (keybytesToHex (addrKey keccak addr)).length = 65 := by
  simp [keybytesToHex, length_nibbles, addrKey]

section Analyse

variable (hT : IsState 65 T) (hlen : ∀ e ∈ encodings keccak T, e.length < 2 ^ 64)
  (hinj : ∀ e ∈ encodings keccak T, ∀ e' ∈ encodings keccak T, keccak e = keccak e' → e = e')
include hT hlen

/-- A proof element decodes to the node it was made from. -/
theorem mustDecodeNode_enc {m : Node} (hm : m ∈ subnodes T) :
    mustDecodeNode (enc keccak m) = some (shallow keccak m) := by
  rcases hT.of_mem_subnodes hm with ⟨d, hstate⟩
  exact hstate.decode_enc (hlen _ (List.mem_map_of_mem hm))

include hinj

/-- One proof element more. -/
theorem analyseProof_spec {h2n : Hash2Node} (hload : Loaded keccak h2n T) {proof : Bytes}
    (hproof : proof ∈ encodings keccak T) :
    ∃ h2n', analyseProof keccak h2n proof = some h2n' ∧ Loaded keccak h2n' T ∧
      h2n' (keccak proof).bytes ≠ none ∧ ∀ x, h2n x ≠ none → h2n' x ≠ none := by
  rcases List.mem_map.mp hproof with ⟨m, hm, rfl⟩
  by_cases hknown : (h2n (keccak (enc keccak m)).bytes).isSome
  · refine ⟨h2n, by simp [analyseProof, hknown], hload, ?_, fun _ hx => hx⟩
    exact Option.isSome_iff_ne_none.mp hknown
  · refine ⟨h2n.store (keccak (enc keccak m)).bytes (shallow keccak m), ?_, ?_, ?_, ?_⟩
    · simp [analyseProof, hknown, mustDecodeNode_enc hT hlen hm]
    · intro m' hm'
      by_cases hhash : nodeHash keccak m' = (keccak (enc keccak m)).bytes
      · -- one hash, one encoding, one decoded node
        have henc : enc keccak m' = enc keccak m :=
          hinj _ (List.mem_map_of_mem hm') _ (List.mem_map_of_mem hm) (Hash.bytes_injective hhash)
        have hshallow := mustDecodeNode_enc hT hlen hm'
        rw [henc, mustDecodeNode_enc hT hlen hm] at hshallow
        rw [hhash, Hash2Node.store_self]
        exact .inr hshallow
      · rw [Hash2Node.store_of_ne _ _ hhash]
        exact hload m' hm'
    · rw [Hash2Node.store_self]
      exact Option.some_ne_none _
    · intro x hx
      by_cases heq : x = (keccak (enc keccak m)).bytes
      · rw [heq, Hash2Node.store_self]
        exact Option.some_ne_none _
      · rw [Hash2Node.store_of_ne _ _ heq]
        exact hx

/-- All elements of one proof. -/
theorem analyseProofs_spec {h2n : Hash2Node} (hload : Loaded keccak h2n T) {proofs : List Bytes}
    (hproofs : ∀ e ∈ proofs, e ∈ encodings keccak T) :
    ∃ h2n', proofs.foldlM (analyseProof keccak) h2n = some h2n' ∧ Loaded keccak h2n' T ∧
      (∀ e ∈ proofs, h2n' (keccak e).bytes ≠ none) ∧ ∀ x, h2n x ≠ none → h2n' x ≠ none := by
  have hloop := Sys.foldlM_exists (f := analyseProof keccak)
    (fun rest s => Loaded keccak s T ∧ (∀ e ∈ rest, e ∈ encodings keccak T) ∧
      (∀ e ∈ proofs, e ∈ rest ∨ s (keccak e).bytes ≠ none) ∧ ∀ x, h2n x ≠ none → s x ≠ none)
    (by
      rintro e rest s ⟨hs, hrest, hdone, hmono⟩
      rcases analyseProof_spec hT hlen hinj hs (hrest e List.mem_cons_self) with
        ⟨s', hstep, hs', hentry, hmono'⟩
      refine ⟨s', hstep, hs', fun e' he' => hrest e' (List.mem_cons_of_mem _ he'), ?_,
        fun x hx => hmono' x (hmono x hx)⟩
      intro e' he'
      rcases hdone e' he' with hin | hpresent
      · rcases List.mem_cons.mp hin with rfl | hin
        · exact .inr hentry
        · exact .inl hin
      · exact .inr (hmono' _ hpresent))
    proofs h2n ⟨hload, hproofs, fun e he => .inl he, fun _ hx => hx⟩
  rcases hloop with ⟨s, hfold, hs, -, hdone, hmono⟩
  refine ⟨s, hfold, hs, fun e he => ?_, hmono⟩
  rcases hdone e he with hnil | hpresent
  · cases hnil
  · exact hpresent

/-- `analyseStates` succeeds on proofs of the trie, and stores all their nodes. -/
theorem analyseStates_spec {accountData : List (Address × Bytes)}
    {accountsProofs : Address → List Bytes}
    (hdata : ∀ x ∈ accountData, (decodeAccount x.2).isSome)
    (hproofs : ∀ x ∈ accountData, ∀ e ∈ accountsProofs x.1, e ∈ encodings keccak T) :
    ∃ addr2State h2n, analyseStates keccak accountData accountsProofs = some (addr2State, h2n) ∧
      Loaded keccak h2n T ∧
      ∀ x ∈ accountData, ∀ e ∈ accountsProofs x.1, h2n (keccak e).bytes ≠ none := by
  -- along the loop: the table holds nodes of the trie only, and those of all proofs read
  have hloop := Sys.foldlM_exists
    (f := fun (s : (Address → Option StateAccount) × Hash2Node) (x : Address × Bytes) => do
      let state ← decodeAccount x.2
      let hash2Node ← (accountsProofs x.1).foldlM (analyseProof keccak) s.2
      some (Function.update s.1 x.1 (some state), hash2Node))
    (fun rest s => Loaded keccak s.2 T ∧ (∀ x ∈ rest, x ∈ accountData) ∧
      ∀ x ∈ accountData, x ∈ rest ∨ ∀ e ∈ accountsProofs x.1, s.2 (keccak e).bytes ≠ none)
    (by
      rintro x rest s ⟨hs, hrest, hdone⟩
      have hx := hrest x List.mem_cons_self
      rcases Option.isSome_iff_exists.mp (hdata x hx) with ⟨state, hstate⟩
      rcases analyseProofs_spec hT hlen hinj hs (hproofs x hx) with
        ⟨h2n', hfold, hload', hentries, hmono⟩
      refine ⟨(Function.update s.1 x.1 (some state), h2n'), by simp [hstate, hfold], hload',
        fun y hy => hrest y (List.mem_cons_of_mem _ hy), ?_⟩
      intro y hy
      rcases hdone y hy with hin | hstored
      · rcases List.mem_cons.mp hin with rfl | hin
        · exact .inr hentries
        · exact .inl hin
      · exact .inr fun e he => hmono _ (hstored e he))
    accountData (fun _ => none, fun _ => none)
    ⟨fun _ _ => .inl rfl, fun _ hx => hx, fun _ hx => .inl hx⟩
  rcases hloop with ⟨⟨addr2State, h2n⟩, hfold, hload, -, hdone⟩
  refine ⟨addr2State, h2n, hfold, hload, ?_⟩
  intro x hx
  rcases hdone x hx with hnil | hstored
  · cases hnil
  · exact hstored

end Analyse

/-! ## The root -/

/-- The list of accounts of a map, in any order. -/
def Lists (updates : Bytes → Option StateAccount) (us : List (Bytes × StateAccount)) : Prop :=
  ∀ key acc, updates key = some acc ↔ (key, acc) ∈ us

theorem written_eq {updates : Bytes → Option StateAccount} {us : List (Bytes × StateAccount)}
    (hlists : Lists updates us) (hok : ∀ x ∈ us, (encodeAccount x.2).isSome) (key : Bytes) :
    written us (keybytesToHex key) = (updates key).bind encodeAccount := by
  cases hkey : updates key with
  | none =>
      apply written_of_not_mem
      intro x hx heq
      have := (hlists x.1 x.2).mpr hx
      rw [heq, hkey] at this
      cases this
  | some acc =>
      have hmem := (hlists key acc).mp hkey
      rcases Option.isSome_iff_exists.mp (hok _ hmem) with ⟨data, hdata⟩
      refine (written_of_mem hmem ?_ hdata).trans hdata.symm
      intro x hx heq
      have := (hlists x.1 x.2).mpr hx
      rw [heq, hkey] at this
      exact (Option.some.inj this).symm

theorem newState_nil (updates : Bytes → Option StateAccount) (key : Bytes) :
    newState updates [] (keybytesToHex key) = updates key := by
  rw [newState, List.nil_append, hexToKeybytes_keybytesToHex]
  rfl

theorem bytes_rootHash {d : ℕ} (h : IsState d T) : (rootHash keccak T).bytes = nodeHash keccak T := by
  rw [rootHash, h.isNil_eq]
  rfl

/-- The walk over a table that is ready computes the root of the overwritten trie. -/
theorem rebuildTrie_of_ready (hT : IsState 65 T) {updates : Bytes → Option StateAccount}
    {us : List (Bytes × StateAccount)} (hlists : Lists updates us)
    (hpresent : ∀ x ∈ us, (keybytesToHex x.1).length = 65 ∧ tryGet T (keybytesToHex x.1) ≠ none)
    {h2n : Hash2Node} (hready : Ready keccak updates h2n [] 65 T) {fuel : ℕ} (hfuel : 65 ≤ fuel) :
    rebuildTrie keccak updates fuel (rootHash keccak T) h2n =
      (overwrite T us).map (rootHash keccak) := by
  have hwalk := rebuildHelper_spec hT hfuel (by decide) hready
  rw [hT.overwrite_eq hpresent]
  by_cases hok : ∀ x ∈ us, (encodeAccount x.2).isSome
  · have hencodable : Encodable updates [] 65 T := by
      intro r u acc hr hget hacc
      rcases hT.eq_keybytesToHex hr hget with ⟨key, -, rfl⟩
      rw [newState_nil] at hacc
      exact hok _ ((hlists key acc).mp hacc)
    -- the map and the list give the same values to the keys of the trie
    have hpatch : patch T (newValue updates []) = patch T (written us) := by
      apply hT.patch_congr
      intro r u hr hget
      rcases hT.eq_keybytesToHex hr hget with ⟨key, -, rfl⟩
      rw [newValue, newState_nil, written_eq hlists hok]
    have hpatched : IsState 65 (patch T (written us)) :=
      hT.patched fun _ _ => isAccount_of_written
    rcases hwalk.1 hencodable with ⟨h2n', hresult, -⟩
    rw [if_pos (List.all_eq_true.mpr hok), rebuildTrie, bytes_rootHash hT, hresult, hpatch,
      ← bytes_rootHash hpatched]
    simp
  · have hnot : ¬ Encodable updates [] 65 T := by
      intro hencodable
      apply hok
      intro x hx
      rcases hpresent x hx with ⟨hxlen, hxget⟩
      rcases Option.ne_none_iff_exists'.mp hxget with ⟨u, hu⟩
      exact hencodable _ u x.2 hxlen hu ((newState_nil _ _).trans ((hlists _ _).mpr hx))
    rw [if_neg fun hall => hok (List.all_eq_true.mp hall), rebuildTrie, bytes_rootHash hT,
      hwalk.2 hnot]
    rfl

/-- The shard answered for these accounts: each is in the trie, its data can be decoded,
and its proof is the one `Prove` gives, in any order. -/
structure Answer (keccak : Bytes → Hash) (T : Node) (accountData : List (Address × Bytes))
    (accountsProofs : Address → List Bytes) : Prop where
  data : ∀ x ∈ accountData, (decodeAccount x.2).isSome
  present : ∀ x ∈ accountData, tryGet T (keybytesToHex (addrKey keccak x.1)) ≠ none
  proofs : ∀ x ∈ accountData, ∃ proof, prove keccak T (addrKey keccak x.1) = some proof ∧
    ∀ e, e ∈ accountsProofs x.1 ↔ e ∈ proof

/-- The assumptions on the stored nodes of a trie: Keccak is injective on them, none occurs
at two positions, and none exceeds the size RLP can express. -/
structure Distinct (keccak : Bytes → Hash) (T : Node) : Prop where
  inj : ∀ e ∈ encodings keccak T, ∀ e' ∈ encodings keccak T, keccak e = keccak e' → e = e'
  nodup : (encodings keccak T).Nodup
  size : ∀ e ∈ encodings keccak T, e.length < 2 ^ 64

theorem Distinct.nodup_hashes (h : Distinct keccak T) : (hashes keccak T).Nodup := by
  have hmap : hashes keccak T = (encodings keccak T).map fun e => (keccak e).bytes := by
    rw [hashes, encodings, List.map_map]
    rfl
  rw [hmap]
  refine h.nodup.map_on fun e he e' he' heq => ?_
  exact h.inj e he e' he' (Hash.bytes_injective heq)

section

variable {accountData : List (Address × Bytes)} {accountsProofs : Address → List Bytes}
  {updates : Bytes → Option StateAccount} {us : List (Bytes × StateAccount)}

/-- A proof holds the stored forms of the nodes on the path. -/
theorem Answer.path (h : Answer keccak T accountData accountsProofs) (hT : IsState 65 T)
    {x : Address × Bytes} (hx : x ∈ accountData) :
    ∃ nodes, proofNodes T (keybytesToHex (addrKey keccak x.1)) = some nodes ∧
      (∀ m ∈ nodes, m ∈ subnodes T) ∧
      ∀ e, e ∈ accountsProofs x.1 ↔ e ∈ nodes.map (enc keccak) := by
  rcases Option.ne_none_iff_exists'.mp (h.present x hx) with ⟨u, hu⟩
  rcases hT.prove_eq keccak (length_addrKey x.1) hu with ⟨nodes, hnodes, hsub, hprove⟩
  rcases h.proofs x hx with ⟨proof, hproof, hiff⟩
  rw [hprove] at hproof
  cases hproof
  exact ⟨nodes, hnodes, hsub, hiff⟩

/-- `analyseStates` makes a table that is ready for the walk. -/
theorem analyseStates_ready (hT : IsState 65 T) (hdistinct : Distinct keccak T)
    (hanswer : Answer keccak T accountData accountsProofs) (hlists : Lists updates us)
    (hkeys : ∀ x ∈ us, ∃ y ∈ accountData, x.1 = addrKey keccak y.1) :
    ∃ addr2State h2n, analyseStates keccak accountData accountsProofs = some (addr2State, h2n) ∧
      Ready keccak updates h2n [] 65 T := by
  have hfrom : ∀ x ∈ accountData, ∀ e ∈ accountsProofs x.1, e ∈ encodings keccak T := by
    intro x hx e he
    rcases hanswer.path hT hx with ⟨nodes, -, hsub, hiff⟩
    rcases List.mem_map.mp ((hiff e).mp he) with ⟨m, hm, rfl⟩
    exact List.mem_map_of_mem (hsub m hm)
  rcases analyseStates_spec hT hdistinct.size hdistinct.inj hanswer.data hfrom with
    ⟨addr2State, h2n, hanalyse, hload, hstored⟩
  refine ⟨addr2State, h2n, hanalyse, hdistinct.nodup_hashes, hload, ?_⟩
  -- every updated account was proved
  intro r u hr hget hnew
  rcases hT.eq_keybytesToHex hr hget with ⟨key, -, rfl⟩
  rw [newState_nil] at hnew
  rcases Option.ne_none_iff_exists'.mp hnew with ⟨acc, hacc⟩
  rcases hkeys _ ((hlists key acc).mp hacc) with ⟨x, hx, hkey⟩
  rcases hanswer.path hT hx with ⟨nodes, hnodes, -, hiff⟩
  simp only at hkey
  rw [hkey]
  refine ⟨nodes, hnodes, fun m hm => ?_⟩
  exact hstored x hx _ ((hiff _).mpr (List.mem_map_of_mem hm))

/-- Updated accounts are present in the trie. -/
theorem Answer.present_of_keys (hanswer : Answer keccak T accountData accountsProofs)
    (hkeys : ∀ x ∈ us, ∃ y ∈ accountData, x.1 = addrKey keccak y.1) :
    ∀ x ∈ us, (keybytesToHex x.1).length = 65 ∧ tryGet T (keybytesToHex x.1) ≠ none := by
  intro x hx
  rcases hkeys x hx with ⟨y, hy, heq⟩
  rw [heq]
  exact ⟨length_addrKey y.1, hanswer.present y hy⟩

/-- The root that a committee computes from the proofs of some accounts is the root of the
trie in which the accounts have been overwritten, for any trie with 32-byte keys and
accounts for values. Enough fuel is the depth of the trie. -/
theorem rebuildTrie_eq_overwrite (hT : IsState 65 T) (hdistinct : Distinct keccak T)
    (hanswer : Answer keccak T accountData accountsProofs) (hlists : Lists updates us)
    (hkeys : ∀ x ∈ us, ∃ y ∈ accountData, x.1 = addrKey keccak y.1) :
    ∃ addr2State h2n, analyseStates keccak accountData accountsProofs = some (addr2State, h2n) ∧
      ∀ fuel ≥ 65, rebuildTrie keccak updates fuel (rootHash keccak T) h2n =
        (overwrite T us).map (rootHash keccak) := by
  rcases analyseStates_ready hT hdistinct hanswer hlists hkeys with
    ⟨addr2State, h2n, hanalyse, hready⟩
  refine ⟨addr2State, h2n, hanalyse, fun fuel hfuel => ?_⟩
  exact rebuildTrie_of_ready hT hlists (hanswer.present_of_keys hkeys) hready hfuel

end

end

/-! ## A trie with three accounts -/

/-- An account without code or storage. -/
def sampleAccount (nonce : UInt64) (balance : ℤ) : StateAccount :=
  ⟨nonce, balance, emptyRoot, emptyCodeHash⟩

/-- The stored form of a leaf. -/
def storedLeaf (key : Bytes) (acc : StateAccount) : Node :=
  .short key (.value ((encodeAccount acc).getD []))

/-- The stored form of a full node with two children. -/
def storedFull (i j : ℕ) (a b : Hash) : Node :=
  .full fun k =>
    if (k : ℕ) = i then .hash a.bytes else if (k : ℕ) = j then .hash b.bytes else .nil

/-- Keccak on the nodes below, before and after the update, computed by other means. -/
def sampleNodes : List (Node × Hash) := [
  (storedLeaf (Sys.toBE 32 0x3468288056310c82aa4c01a7e12a10f8111a0560e72b700555479031b86c357d)
      (sampleAccount 2 3),
    0xc22aa0ad9b4e0a8d5fa4494c17144dbe5cf3ef59a643d570538362cf81af0183),
  (storedLeaf (Sys.toBE 31 0x3df1fa259221d02aa4956eb0d35ace318ca24c0a33a64c1af96cf67cf245b6)
      (sampleAccount 1 5),
    0xeb2c492f872c43ad87d2140e26470cc1d406b25e4127ddf5aaf5704acf6f5bf2),
  (storedLeaf (Sys.toBE 31 0x345de6853d406783b6b50c378bfb61d6ce5271b3bf813cc2b959055fc12f98)
      (sampleAccount 0 9),
    0x75e7151e1f2076b5475a48149e91d497f6b1e39dfdae05969a5e5b3f856b589b),
  (storedFull 1 11 0xeb2c492f872c43ad87d2140e26470cc1d406b25e4127ddf5aaf5704acf6f5bf2
      0x75e7151e1f2076b5475a48149e91d497f6b1e39dfdae05969a5e5b3f856b589b,
    0xddb448da0eb872add7d6a7113ccb87b1ceedd700f6ee6ffd56b22679206095ec),
  (.short [0x12] (.hash (Hash.bytes
      0xddb448da0eb872add7d6a7113ccb87b1ceedd700f6ee6ffd56b22679206095ec)),
    0xbd778c0ba7c7f42986261636090c860bcd667867c2959c0adacd0cd6024e6e46),
  (storedFull 1 4 0xc22aa0ad9b4e0a8d5fa4494c17144dbe5cf3ef59a643d570538362cf81af0183
      0xbd778c0ba7c7f42986261636090c860bcd667867c2959c0adacd0cd6024e6e46,
    0x08116cc5b4874ae7953eecceeaaa2eae4ca65a93c35503c9cd22ccda8abf15c2),
  (storedLeaf (Sys.toBE 31 0x3df1fa259221d02aa4956eb0d35ace318ca24c0a33a64c1af96cf67cf245b6)
      (sampleAccount 2 4),
    0xe41f1566d6f7578dc42a0bcd8d6e8d2b782d3736df030b2967f9b4aa486d498d),
  (storedFull 1 11 0xe41f1566d6f7578dc42a0bcd8d6e8d2b782d3736df030b2967f9b4aa486d498d
      0x75e7151e1f2076b5475a48149e91d497f6b1e39dfdae05969a5e5b3f856b589b,
    0x3ae3c3a2370565cce3e2e86da9c6fa1db9f5b58a2534e4e65618c4a2c84b9f85),
  (.short [0x12] (.hash (Hash.bytes
      0x3ae3c3a2370565cce3e2e86da9c6fa1db9f5b58a2534e4e65618c4a2c84b9f85)),
    0xf2b1b2c32d260bb165beaae8af7a3beee43b3f698a2c56e93e8cb0de47d3ac52),
  (storedFull 1 4 0xc22aa0ad9b4e0a8d5fa4494c17144dbe5cf3ef59a643d570538362cf81af0183
      0xf2b1b2c32d260bb165beaae8af7a3beee43b3f698a2c56e93e8cb0de47d3ac52,
    0x2d7cfedf1ed7a7513b7f2c476f1f07ec3209f1f52bc28730b6f3decc2c7c02bc)]

/-- Keccak on three addresses. Those of 5 and 15 share their first byte, so the trie has an
extension node. -/
def sampleAddrs : List (Address × Hash) := [
  (1, 0x1468288056310c82aa4c01a7e12a10f8111a0560e72b700555479031b86c357d),
  (5, 0x421df1fa259221d02aa4956eb0d35ace318ca24c0a33a64c1af96cf67cf245b6),
  (15, 0x42b45de6853d406783b6b50c378bfb61d6ce5271b3bf813cc2b959055fc12f98)]

/-- Keccak where the example asks for it. -/
def sampleKeccak (b : Bytes) : Hash :=
  ((((sampleAddrs.map fun x => (x.1.bytes, x.2)) ++
    (sampleNodes.map fun x => (x.1.encode, x.2))).find? fun x => x.1 = b).map Prod.snd).getD 0

def sampleState : List (Bytes × StateAccount) := [
  (addrKey sampleKeccak 5, sampleAccount 1 5),
  (addrKey sampleKeccak 15, sampleAccount 0 9),
  (addrKey sampleKeccak 1, sampleAccount 2 3)]

def sampleTrie : Node := (overwrite .nil sampleState).getD .nil

/-- The accounts the committee asked for. -/
def sampleData : List (Address × Bytes) :=
  [(1, (encodeAccount (sampleAccount 2 3)).getD []), (5, (encodeAccount (sampleAccount 1 5)).getD [])]

def sampleProofs (addr : Address) : List Bytes :=
  ((prove sampleKeccak sampleTrie (addrKey sampleKeccak addr)).getD []).reverse

def sampleUpdates (key : Bytes) : Option StateAccount :=
  if key = addrKey sampleKeccak 5 then some (sampleAccount 2 4) else none

theorem isState_sampleTrie : IsState 65 sampleTrie := by
  have hok : ∀ x ∈ sampleState, x.1.length = 32 ∧ (encodeAccount x.2).isSome := by decide +kernel
  rcases @IsRoot.overwrite_spec .nil (.inl rfl) sampleState hok with ⟨root, hover, -, hstate, -⟩
  rw [sampleTrie, hover]
  exact hstate (by simp [sampleState])

theorem distinct_sampleTrie : Distinct sampleKeccak sampleTrie := by
  have hhashes : ((encodings sampleKeccak sampleTrie).map sampleKeccak).Nodup := by
    decide +kernel
  refine ⟨?_, hhashes.of_map, by decide +kernel⟩
  intro e he e' he' heq
  exact List.inj_on_of_nodup_map hhashes he he' heq

theorem answer_sample : Answer sampleKeccak sampleTrie sampleData sampleProofs := by
  refine ⟨by decide +kernel, by decide +kernel, ?_⟩
  have hprove : ∀ x ∈ sampleData,
      (prove sampleKeccak sampleTrie (addrKey sampleKeccak x.1)).isSome := by
    decide +kernel
  intro x hx
  rcases Option.isSome_iff_exists.mp (hprove x hx) with ⟨proof, hproof⟩
  exact ⟨proof, hproof, fun e => by simp [sampleProofs, hproof]⟩

/-- One account of three is overwritten; the committee gets the root of the new trie. -/
theorem rebuildTrie_eq_overwrite_sample :
    (∃ addr2State h2n, analyseStates sampleKeccak sampleData sampleProofs = some (addr2State, h2n) ∧
      ∀ fuel ≥ 65, rebuildTrie sampleKeccak sampleUpdates fuel (rootHash sampleKeccak sampleTrie) h2n =
        (overwrite sampleTrie [(addrKey sampleKeccak 5, sampleAccount 2 4)]).map
          (rootHash sampleKeccak)) ∧
    (overwrite sampleTrie [(addrKey sampleKeccak 5, sampleAccount 2 4)]).map
      (rootHash sampleKeccak) =
        some 0x2d7cfedf1ed7a7513b7f2c476f1f07ec3209f1f52bc28730b6f3decc2c7c02bc := by
  refine ⟨rebuildTrie_eq_overwrite isState_sampleTrie distinct_sampleTrie answer_sample ?_ ?_,
    by decide +kernel⟩
  · intro key acc
    rw [sampleUpdates, Option.ite_none_right_eq_some, List.mem_singleton, Prod.mk.injEq,
      Option.some.injEq]
    exact and_congr_right fun _ => eq_comm
  · intro x hx
    rw [List.mem_singleton] at hx
    exact ⟨(5, (encodeAccount (sampleAccount 1 5)).getD []), by simp [sampleData], by rw [hx]⟩

end LessChain
