import LessChain.Lib.Fold
import LessChain.Trie.Update

/-!
# `analyseStates` and `rebuildTrie`

A committee holds no state. It gets from the shard the accounts a block needs together
with their Merkle proofs, decodes the proofs into a table from hashes to nodes, and walks
that table from the root to compute the root after the block. The walk rewrites the nodes
of the table in place. The main lemma `rebuildHelper_spec` says that the walk computes the
hash of the patched trie, whatever part of the trie the table holds, as long as it holds
the paths to all updated accounts.
-/

namespace LessChain

open Trie

/-- `hash2Node`. Every entry is decoded on its own, so two hashes never share a node. -/
def Hash2Node : Type := Bytes → Option Node

namespace Hash2Node

/-- `hash2Node[hash] = node`. -/
def store (h2n : Hash2Node) (hash : Bytes) (node : Node) : Hash2Node :=
  Function.update h2n hash (some node)

@[simp] theorem store_self (h2n : Hash2Node) (hash : Bytes) (node : Node) :
    h2n.store hash node hash = some node :=
  Function.update_self ..

theorem store_of_ne (h2n : Hash2Node) {hash h : Bytes} (node : Node) (hne : h ≠ hash) :
    h2n.store hash node h = h2n h :=
  Function.update_of_ne hne ..

/-- A write through the node pointer stored under `hash`. -/
def modify (h2n : Hash2Node) (hash : Bytes) (f : Node → Node) : Hash2Node :=
  Function.update h2n hash ((h2n hash).map f)

@[simp] theorem modify_self (h2n : Hash2Node) (hash : Bytes) (f : Node → Node) :
    h2n.modify hash f hash = (h2n hash).map f :=
  Function.update_self ..

theorem modify_of_ne (h2n : Hash2Node) {hash h : Bytes} (f : Node → Node) (hne : h ≠ hash) :
    h2n.modify hash f h = h2n h :=
  Function.update_of_ne hne ..

end Hash2Node

/-! ## Reading the proofs -/

section Analyse

variable (keccak : Bytes → Hash)

/-- One round of the inner loop of `analyseStates`. -/
def analyseProof (hash2Node : Hash2Node) (proof : Bytes) : Option Hash2Node :=
  let hash := (keccak proof).bytes
  if (hash2Node hash).isSome then some hash2Node
  else do
    let node ← mustDecodeNode proof
    some (hash2Node.store hash node)

/-- `analyseStates`. The list holds the entries of `AccountData` in the order in which the
loop meets them. -/
def analyseStates (accountData : List (Address × Bytes)) (accountsProofs : Address → List Bytes) :
    Option ((Address → Option StateAccount) × Hash2Node) :=
  accountData.foldlM (fun (addr2State, hash2Node) (addr, encodedState) => do
    let state ← decodeAccount encodedState
    let hash2Node ← (accountsProofs addr).foldlM (analyseProof keccak) hash2Node
    some (Function.update addr2State addr (some state), hash2Node)) (fun _ => none, fun _ => none)

end Analyse

/-! ## Computing the new root -/

/-- `getCurrentKey`. -/
def getCurrentKey (keyPrefix nodeKey : Bytes) : Bytes := keyPrefix ++ nodeKey

/-- `fullNode.Children[i] = ...`. -/
def setChild (i : Fin 17) (child : Node) : Node → Node
  | .full children => .full (Function.update children i child)
  | n => n

/-- `shortNode.Val = ...`. -/
def setVal (val : Node) : Node → Node
  | .short key _ => .short key val
  | n => n

/-- `shortNode.Key = HexToCompact(shortNode.Key)`. -/
def compactKey : Node → Node
  | .short key val => .short (hexToCompact key) val
  | n => n

section Rebuild

variable (keccak : Bytes → Hash) (updatedStates : Bytes → Option StateAccount)

/-- `utils.GetHash(NodeToBytes(node))` for the node stored under `hash`. -/
def hashEntry (hash : Bytes) (hash2Node : Hash2Node) : Option (Bytes × Hash2Node) := do
  let node ← hash2Node hash
  some ((keccak node.encode).bytes, hash2Node)

/-- One round of the loop over the children of a full node. `children` is the copy of the
array that `range` makes. -/
def rebuildChild (rec : Bytes → Hash2Node → Bytes → Option (Bytes × Hash2Node)) (hash : Bytes)
    (keyPrefix : Bytes) (children : Fin 17 → Node) (hash2Node : Hash2Node) (i : Fin 17) :
    Option Hash2Node :=
  match children i with
  | .nil => some hash2Node
  | .hash childHash => do
      let (temp, hash2Node) ← rec childHash hash2Node (getCurrentKey keyPrefix [UInt8.ofNat i])
      some (hash2Node.modify hash (setChild i (.hash temp)))
  | _ => none

/-- `rebuildHelper`; `fuel` bounds the depth of the recursion. -/
def rebuildHelper : ℕ → Bytes → Hash2Node → Bytes → Option (Bytes × Hash2Node)
  | 0, _, _, _ => none
  | fuel + 1, hash, hash2Node, keyPrefix =>
      match hash2Node hash with
      | none => some (hash, hash2Node)
      | some (.full children) => do
          let hash2Node ← (List.finRange 17).foldlM
            (rebuildChild (rebuildHelper fuel) hash keyPrefix children) hash2Node
          hashEntry keccak hash hash2Node
      | some (.short key (.hash childHash)) => do
          let (temp, hash2Node) ←
            rebuildHelper fuel childHash hash2Node (getCurrentKey keyPrefix key)
          let hash2Node := hash2Node.modify hash (setVal (.hash temp))
          hashEntry keccak hash (hash2Node.modify hash compactKey)
      | some (.short key (.value _)) => do
          let recoverAddressHash ← hexToKeybytes (getCurrentKey keyPrefix key)
          let hash2Node ← match updatedStates recoverAddressHash with
            | some stateAccount => do
                let encodedBytes ← encodeAccount stateAccount
                some (hash2Node.modify hash (setVal (.value encodedBytes)))
            | none => some hash2Node
          hashEntry keccak hash (hash2Node.modify hash compactKey)
      | _ => none

/-- `rebuildTrie`. -/
def rebuildTrie (fuel : ℕ) (trieRoot : Hash) (hash2Node : Hash2Node) : Option Hash := do
  let (rootHash, _) ← rebuildHelper keccak updatedStates fuel trieRoot.bytes hash2Node []
  some (bytesToHash rootHash)

/-! ## More fuel -/

variable {keccak updatedStates}

variable {k : Bytes} {i : Fin 17} {d : ℕ}

theorem rebuildChild_mono {rec rec' : Bytes → Hash2Node → Bytes → Option (Bytes × Hash2Node)}
    (h : ∀ hash t keyPrefix res, rec hash t keyPrefix = some res → rec' hash t keyPrefix = some res)
    {hash keyPrefix : Bytes} {children : Fin 17 → Node} {t t' : Hash2Node}
    (hround : rebuildChild rec hash keyPrefix children t i = some t') :
    rebuildChild rec' hash keyPrefix children t i = some t' := by
  unfold rebuildChild at hround ⊢
  split at hround
  · exact hround
  · rcases Option.bind_eq_some_iff.mp hround with ⟨res, hres, hrest⟩
    rw [h _ _ _ res hres]
    exact hrest
  · cases hround

/-- A walk that gets through does so with more fuel as well. -/
theorem rebuildHelper_mono {n m : ℕ} (hle : n ≤ m) {hash keyPrefix : Bytes} {t : Hash2Node}
    {res : Bytes × Hash2Node}
    (h : rebuildHelper keccak updatedStates n hash t keyPrefix = some res) :
    rebuildHelper keccak updatedStates m hash t keyPrefix = some res := by
  induction n generalizing m hash keyPrefix t res with
  | zero => cases h
  | succ n ih =>
      rcases Nat.exists_eq_succ_of_ne_zero (show m ≠ 0 by omega) with ⟨m, rfl⟩
      have hle : n ≤ m := Nat.le_of_succ_le_succ hle
      rw [rebuildHelper] at h ⊢
      split at h
      · exact h
      · rcases Option.bind_eq_some_iff.mp h with ⟨t', hloop, hrest⟩
        have hloop' := Sys.foldlM_mono
          (fun s i s' => rebuildChild_mono fun _ _ _ _ hres => ih hle hres) hloop
        rw [hloop']
        exact hrest
      · rcases Option.bind_eq_some_iff.mp h with ⟨below, hbelow, hrest⟩
        rw [ih hle hbelow]
        exact hrest
      · exact h
      · cases h

variable (keccak updatedStates)

/-! ## The walk computes the patched trie -/

/-- The new account for the key `r` below `keyPrefix`. -/
def newState (keyPrefix r : Bytes) : Option StateAccount :=
  (hexToKeybytes (keyPrefix ++ r)).bind updatedStates

/-- The value that goes with it. -/
def newValue (keyPrefix r : Bytes) : Option Bytes :=
  (newState updatedStates keyPrefix r).bind encodeAccount

/-- Every new account below the node has an encoding. -/
def Encodable (keyPrefix : Bytes) (d : ℕ) (n : Node) : Prop :=
  ∀ r u acc, r.length = d → tryGet n r = some u → newState updatedStates keyPrefix r = some acc →
    (encodeAccount acc).isSome

/-- The hashes of a node and all nodes below it. -/
def hashes (n : Node) : List Bytes := (subnodes n).map (nodeHash keccak)

/-- An entry for a node of the trie is what decoding gives for it. -/
def Loaded (h2n : Hash2Node) (n : Node) : Prop :=
  ∀ m ∈ subnodes n, h2n (nodeHash keccak m) = none ∨ h2n (nodeHash keccak m) = some (shallow keccak m)

/-- The table holds the path to a key. -/
def Proved (h2n : Hash2Node) (n : Node) (r : Bytes) : Prop :=
  ∃ nodes, proofNodes n r = some nodes ∧ ∀ m ∈ nodes, h2n (nodeHash keccak m) ≠ none

/-- What the walk needs to know about the table below a node. -/
structure Ready (h2n : Hash2Node) (keyPrefix : Bytes) (d : ℕ) (n : Node) : Prop where
  nodup : (hashes keccak n).Nodup
  loaded : Loaded keccak h2n n
  proved : ∀ r u, r.length = d → tryGet n r = some u →
    newState updatedStates keyPrefix r ≠ none → Proved keccak h2n n r

/-- The result of the walk below a node: the hash of the patched node, and a table that
differs below the node only. If an account has no encoding, the process ends. -/
def Rebuilds (h2n : Hash2Node) (keyPrefix : Bytes) (d : ℕ) (n : Node)
    (result : Option (Bytes × Hash2Node)) : Prop :=
  (Encodable updatedStates keyPrefix d n → ∃ h2n',
    result = some (nodeHash keccak (patch n (newValue updatedStates keyPrefix)), h2n') ∧
    ∀ h, h ∉ hashes keccak n → h2n' h = h2n h) ∧
  (¬ Encodable updatedStates keyPrefix d n → result = none)

variable {keccak updatedStates}

theorem isAccount_of_newValue {keyPrefix r v : Bytes}
    (h : newValue updatedStates keyPrefix r = some v) : IsAccount v := by
  rcases Option.bind_eq_some_iff.mp h with ⟨acc, -, hacc⟩
  exact ⟨acc, hacc⟩

theorem newState_append (keyPrefix k r : Bytes) :
    newState updatedStates keyPrefix (k ++ r) = newState updatedStates (keyPrefix ++ k) r := by
  rw [newState, newState, List.append_assoc]

theorem newValue_append (keyPrefix k : Bytes) :
    (fun r => newValue updatedStates keyPrefix (k ++ r)) =
      newValue updatedStates (keyPrefix ++ k) := by
  funext r
  rw [newValue, newValue, newState_append]

/-- A node that is not in the table has no new account below it, and keeps its hash. -/
theorem rebuilds_of_missing {h2n : Hash2Node} {keyPrefix : Bytes} {n : Node} (fuel : ℕ)
    (h : IsState d n) (hready : Ready keccak updatedStates h2n keyPrefix d n)
    (hmissing : h2n (nodeHash keccak n) = none) :
    Rebuilds keccak updatedStates h2n keyPrefix d n
      (rebuildHelper keccak updatedStates (fuel + 1) (nodeHash keccak n) h2n keyPrefix) := by
  have hnone : ∀ r u, r.length = d → tryGet n r = some u →
      newState updatedStates keyPrefix r = none := by
    intro r u hr hget
    by_contra hnew
    rcases hready.proved r u hr hget hnew with ⟨nodes, hnodes, hmem⟩
    exact hmem n (h.mem_proofNodes hget hnodes) hmissing
  have hpatch : patch n (newValue updatedStates keyPrefix) = n := by
    apply h.patch_eq_self
    intro r u hr hget
    rw [newValue, hnone r u hr hget]
    rfl
  rw [rebuildHelper, hmissing]
  constructor
  · intro _
    exact ⟨h2n, by rw [hpatch], fun _ _ => rfl⟩
  · intro hnot
    apply absurd _ hnot
    intro r u acc hr hget hacc
    rw [hnone r u hr hget] at hacc
    cases hacc

/-- Only the entries of the nodes below matter. -/
theorem Ready.congr {h2n h2n' : Hash2Node} {keyPrefix : Bytes} {n : Node}
    (h : IsState d n) (hready : Ready keccak updatedStates h2n keyPrefix d n)
    (heq : ∀ x ∈ hashes keccak n, h2n' x = h2n x) :
    Ready keccak updatedStates h2n' keyPrefix d n := by
  have hmem : ∀ m ∈ subnodes n, h2n' (nodeHash keccak m) = h2n (nodeHash keccak m) :=
    fun m hm => heq _ (List.mem_map_of_mem hm)
  refine ⟨hready.nodup, ?_, ?_⟩
  · intro m hm
    rw [hmem m hm]
    exact hready.loaded m hm
  · intro r u hr hget hnew
    rcases h.proofNodes_spec hr hget with ⟨nodes, hnodes, hsub⟩
    rcases hready.proved r u hr hget hnew with ⟨nodes', hnodes', hentry⟩
    rw [hnodes] at hnodes'
    cases hnodes'
    refine ⟨nodes, hnodes, fun m hm => ?_⟩
    rw [hmem m (hsub m hm)]
    exact hentry m hm

theorem hashes_short (k : Bytes) (val : Node) :
    hashes keccak (.short k val) = nodeHash keccak (.short k val) :: hashes keccak val := rfl

theorem hashes_full (children : Fin 17 → Node) :
    hashes keccak (.full children) = nodeHash keccak (.full children) ::
      (List.finRange 17).flatMap fun i => hashes keccak (children i) := by
  simp [hashes, subnodes, List.map_flatMap]

/-- Going down at an extension node. -/
theorem Ready.ext {h2n : Hash2Node} {keyPrefix : Bytes} {val : Node} (hne : k ≠ [])
    (hready : Ready keccak updatedStates h2n keyPrefix (k.length + d) (.short k val)) :
    Ready keccak updatedStates h2n (keyPrefix ++ k) d val := by
  refine ⟨?_, ?_, ?_⟩
  · have hnodup := hready.nodup
    rw [hashes_short, List.nodup_cons] at hnodup
    exact hnodup.2
  · exact fun m hm => hready.loaded m (List.mem_cons_of_mem _ hm)
  · intro r u hr hget hnew
    rw [← newState_append] at hnew
    rcases hready.proved (k ++ r) u (by simp [hr]) (tryGet_short.mpr ⟨r, rfl, hget⟩) hnew with
      ⟨nodes, hnodes, hentry⟩
    rw [proofNodes_short_append hne, Option.map_eq_some_iff] at hnodes
    rcases hnodes with ⟨rest, hrest, rfl⟩
    exact ⟨rest, hrest, fun m hm => hentry m (List.mem_cons_of_mem _ hm)⟩

/-- Going down at a full node. -/
theorem Ready.child {h2n : Hash2Node} {keyPrefix : Bytes} {children : Fin 17 → Node}
    (hready : Ready keccak updatedStates h2n keyPrefix (d + 1) (.full children)) (i : Fin 17) :
    Ready keccak updatedStates h2n (keyPrefix ++ [UInt8.ofNat i]) d (children i) := by
  refine ⟨?_, ?_, ?_⟩
  · have hnodup := hready.nodup
    rw [hashes_full, List.nodup_cons] at hnodup
    exact (List.nodup_flatMap.mp hnodup.2).1 i (List.mem_finRange i)
  · intro m hm
    apply hready.loaded m
    exact List.mem_cons_of_mem _ (List.mem_flatMap.mpr ⟨i, List.mem_finRange i, hm⟩)
  · intro r u hr hget hnew
    rw [← newState_append] at hnew
    rcases hready.proved (UInt8.ofNat i :: r) u (by simp [hr])
      (tryGet_full.mpr ⟨i, r, rfl, hget⟩) hnew with ⟨nodes, hnodes, hentry⟩
    rw [proofNodes_full, Option.map_eq_some_iff] at hnodes
    rcases hnodes with ⟨rest, hrest, rfl⟩
    exact ⟨rest, hrest, fun m hm => hentry m (List.mem_cons_of_mem _ hm)⟩

/-- The subtrees of two children have no hash in common. -/
theorem Ready.disjoint {h2n : Hash2Node} {keyPrefix : Bytes} {children : Fin 17 → Node}
    (hready : Ready keccak updatedStates h2n keyPrefix d (.full children)) {j : Fin 17}
    (hij : i ≠ j) {x : Bytes} (hi : x ∈ hashes keccak (children i)) :
    x ∉ hashes keccak (children j) := by
  have hnodup := hready.nodup
  rw [hashes_full, List.nodup_cons] at hnodup
  have : Std.Symm (Function.onFun List.Disjoint fun i => hashes keccak (children i)) :=
    ⟨fun _ _ h => h.symm⟩
  have hdisjoint := (List.nodup_flatMap.mp hnodup.2).2.forall (List.mem_finRange i)
    (List.mem_finRange j) hij
  exact fun hj => hdisjoint hi hj

/-- The hash of a full node is not a hash below one of its children. -/
theorem Ready.root_not_mem {h2n : Hash2Node} {keyPrefix : Bytes}
    {children : Fin 17 → Node} (hready : Ready keccak updatedStates h2n keyPrefix d (.full children))
    : nodeHash keccak (.full children) ∉ hashes keccak (children i) := by
  have hnodup := hready.nodup
  rw [hashes_full, List.nodup_cons] at hnodup
  exact fun hi => hnodup.1 (List.mem_flatMap.mpr ⟨i, List.mem_finRange i, hi⟩)

/-- `hexToKeybytes` does not panic on the path to a leaf. -/
theorem exists_hexToKeybytes {keyPrefix : Bytes}
    (hparity : (keyPrefix.length + (k.length + 1)) % 2 = 1) :
    ∃ key, hexToKeybytes (keyPrefix ++ (k ++ [16])) = some key := by
  rw [← List.append_assoc]
  have heven : (keyPrefix ++ k).length % 2 ≠ 1 := by
    rw [List.length_append]
    omega
  refine ⟨decodeNibbles (keyPrefix ++ k), ?_⟩
  simp only [hexToKeybytes, hasTerm_concat, if_true, List.dropLast_concat, if_neg heven]

/-- The walk at a leaf. -/
theorem rebuilds_leaf {h2n : Hash2Node} {keyPrefix v : Bytes} (fuel : ℕ)
    (hparity : (keyPrefix.length + (k.length + 1)) % 2 = 1)
    (hentry : h2n (nodeHash keccak (.short (k ++ [16]) (.value v))) =
      some (.short (k ++ [16]) (.value v))) :
    Rebuilds keccak updatedStates h2n keyPrefix (k.length + 1) (.short (k ++ [16]) (.value v))
      (rebuildHelper keccak updatedStates (fuel + 1)
        (nodeHash keccak (.short (k ++ [16]) (.value v))) h2n keyPrefix) := by
  rcases exists_hexToKeybytes hparity with ⟨key, hkey⟩
  have hstate : newState updatedStates keyPrefix (k ++ [16]) = updatedStates key := by
    rw [newState, hkey]
    rfl
  have hpatch : patch (.short (k ++ [16]) (.value v)) (newValue updatedStates keyPrefix) =
      .short (k ++ [16]) (.value (((updatedStates key).bind encodeAccount).getD v)) := by
    rw [patch_leaf, newValue, hstate]
  -- the only key of the leaf
  have hencodable : Encodable updatedStates keyPrefix (k.length + 1)
      (.short (k ++ [16]) (.value v)) ↔
        ∀ acc, updatedStates key = some acc → (encodeAccount acc).isSome := by
    constructor
    · intro h acc hacc
      exact h (k ++ [16]) v acc (by simp) (by simp [tryGet]) (hstate.trans hacc)
    · intro h r u acc hr hget hacc
      rcases tryGet_short.mp hget with ⟨r', rfl, -⟩
      have hnil : r' = [] := by simpa using hr
      subst hnil
      rw [List.append_nil, hstate] at hacc
      exact h acc hacc
  rw [Rebuilds, hencodable, hpatch]
  generalize hroot : nodeHash keccak (.short (k ++ [16]) (.value v)) = root at hentry
  have hframe : ∀ h, h ∉ hashes keccak (.short (k ++ [16]) (.value v)) → h ≠ root := by
    intro h hnot
    rw [hashes_short, hroot] at hnot
    exact fun heq => hnot (heq ▸ List.mem_cons_self)
  cases hupdate : updatedStates key with
  | none =>
      constructor
      · intro _
        refine ⟨h2n.modify root compactKey, ?_, fun h hnot => h2n.modify_of_ne _ (hframe h hnot)⟩
        simp [rebuildHelper, hentry, getCurrentKey, hkey, hupdate, hashEntry, compactKey, nodeHash,
          enc_leaf]
      · intro hnot
        exact absurd (by simp) hnot
  | some acc =>
      cases hdata : encodeAccount acc with
      | none =>
          constructor
          · intro h
            have := h acc rfl
            simp [hdata] at this
          · intro _
            simp [rebuildHelper, hentry, getCurrentKey, hkey, hupdate, hdata]
      | some data =>
          constructor
          · intro _
            refine ⟨(h2n.modify root (setVal (.value data))).modify root compactKey, ?_, ?_⟩
            · simp [rebuildHelper, hentry, getCurrentKey, hkey, hupdate, hdata, hashEntry, setVal,
                compactKey, nodeHash, enc_leaf]
            · intro h hnot
              rw [Hash2Node.modify_of_ne _ _ (hframe h hnot),
                Hash2Node.modify_of_ne _ _ (hframe h hnot)]
          · intro hnot
            apply absurd _ hnot
            intro acc' hacc'
            cases hacc'
            rw [hdata]
            rfl

theorem encodable_short {keyPrefix : Bytes} {val : Node} :
    Encodable updatedStates keyPrefix (k.length + d) (.short k val) ↔
      Encodable updatedStates (keyPrefix ++ k) d val := by
  constructor
  · intro h r u acc hr hget hacc
    rw [← newState_append] at hacc
    exact h (k ++ r) u acc (by simp [hr]) (tryGet_short.mpr ⟨r, rfl, hget⟩) hacc
  · intro h r u acc hr hget hacc
    rcases tryGet_short.mp hget with ⟨r', rfl, hval⟩
    rw [newState_append] at hacc
    exact h r' u acc (by simpa using hr) hval hacc

theorem encodable_full {keyPrefix : Bytes} {children : Fin 17 → Node} :
    Encodable updatedStates keyPrefix (d + 1) (.full children) ↔
      ∀ i : Fin 17, Encodable updatedStates (keyPrefix ++ [UInt8.ofNat i]) d (children i) := by
  constructor
  · intro h i r u acc hr hget hacc
    rw [← newState_append] at hacc
    exact h (UInt8.ofNat i :: r) u acc (by simp [hr]) (tryGet_full.mpr ⟨i, r, rfl, hget⟩) hacc
  · intro h r u acc hr hget hacc
    rcases tryGet_full.mp hget with ⟨i, r', rfl, hval⟩
    rw [← List.singleton_append, newState_append] at hacc
    exact h i r' u acc (by simpa using hr) hval hacc

/-- The walk at an extension node, given the walk below it. -/
theorem rebuilds_ext {h2n : Hash2Node} {keyPrefix : Bytes} {fuel : ℕ}
    {children : Fin 17 → Node} (hchild : IsState d (.full children))
    (hnot : nodeHash keccak (.short k (.full children)) ∉ hashes keccak (.full children))
    (hentry : h2n (nodeHash keccak (.short k (.full children))) =
      some (.short k (.hash (nodeHash keccak (.full children)))))
    (hrec : Rebuilds keccak updatedStates h2n (keyPrefix ++ k) d (.full children)
      (rebuildHelper keccak updatedStates fuel (nodeHash keccak (.full children)) h2n
        (keyPrefix ++ k))) :
    Rebuilds keccak updatedStates h2n keyPrefix (k.length + d) (.short k (.full children))
      (rebuildHelper keccak updatedStates (fuel + 1)
        (nodeHash keccak (.short k (.full children))) h2n keyPrefix) := by
  have hpatched : IsState d (patch (.full children) (newValue updatedStates (keyPrefix ++ k))) :=
    hchild.patched fun _ _ => isAccount_of_newValue
  rw [Rebuilds, encodable_short, patch_ext, newValue_append]
  generalize hroot : nodeHash keccak (.short k (.full children)) = root at hnot hentry
  constructor
  · intro hok
    rcases hrec.1 hok with ⟨h2n₁, hwalk, hframe⟩
    -- the walk below has left the entry of the node alone
    have hentry₁ := (hframe root hnot).trans hentry
    generalize htemp : nodeHash keccak (patch (.full children)
      (newValue updatedStates (keyPrefix ++ k))) = temp at hwalk
    have hhash : nodeHash keccak (.short k (patch (.full children)
        (newValue updatedStates (keyPrefix ++ k)))) =
          (keccak (Node.short (hexToCompact k) (.hash temp)).encode).bytes := by
      rw [nodeHash, hpatched.enc_ext, htemp]
    refine ⟨(h2n₁.modify root (setVal (.hash temp))).modify root compactKey, ?_, ?_⟩
    · simp [rebuildHelper, hentry, getCurrentKey, hwalk, hashEntry, hentry₁, setVal, compactKey,
        hhash]
    · intro h hh
      rw [hashes_short, hroot, List.mem_cons, not_or] at hh
      rw [Hash2Node.modify_of_ne _ _ hh.1, Hash2Node.modify_of_ne _ _ hh.1, hframe h hh.2]
  · intro hbad
    simp [rebuildHelper, hentry, getCurrentKey, hrec.2 hbad]

variable (keccak updatedStates) in
/-- The entry of a full node while the loop runs: the children in `rest` are still to come. -/
def partly (keyPrefix : Bytes) (children : Fin 17 → Node) (rest : List (Fin 17)) : Node :=
  .full fun i => if i ∈ rest then ref keccak (children i) else
    ref keccak (patch (children i) (newValue updatedStates (keyPrefix ++ [UInt8.ofNat i])))

variable (keccak updatedStates) in
/-- The table while the loop over the children runs. -/
structure Partly (h2n : Hash2Node) (keyPrefix : Bytes) (children : Fin 17 → Node)
    (rest : List (Fin 17)) (s : Hash2Node) : Prop where
  nodup : rest.Nodup
  entry : s (nodeHash keccak (.full children)) =
    some (partly keccak updatedStates keyPrefix children rest)
  frame : ∀ x, x ≠ nodeHash keccak (.full children) →
    (∀ i, i ∉ rest → x ∉ hashes keccak (children i)) → s x = h2n x

section Loop

variable {h2n s : Hash2Node} {keyPrefix : Bytes} {d fuel : ℕ} {children : Fin 17 → Node}
  {i : Fin 17} {rest : List (Fin 17)}

/-- An empty slot is skipped. -/
theorem Partly.skip (h : Partly keccak updatedStates h2n keyPrefix children (i :: rest) s)
    (hnil : children i = .nil) : Partly keccak updatedStates h2n keyPrefix children rest s := by
  refine ⟨(List.nodup_cons.mp h.nodup).2, ?_, ?_⟩
  · rw [h.entry, partly, partly]
    congr 2
    funext j
    by_cases hj : j = i
    · simp [hj, hnil]
    · simp [hj]
  · intro x hx hnot
    exact h.frame x hx fun j hj => hnot j fun hmem => hj (List.mem_cons_of_mem _ hmem)

/-- The walk below the next child starts from entries that are untouched. -/
theorem Partly.ready (h : Partly keccak updatedStates h2n keyPrefix children (i :: rest) s)
    (hready : Ready keccak updatedStates h2n keyPrefix (d + 1) (.full children))
    (hchild : IsState d (children i)) :
    Ready keccak updatedStates s (keyPrefix ++ [UInt8.ofNat i]) d (children i) := by
  apply (hready.child i).congr hchild
  intro x hx
  apply h.frame x
  · intro hroot
    rw [hroot] at hx
    exact hready.root_not_mem hx
  · intro j hj
    have hij : i ≠ j := fun hij => hj (hij ▸ List.mem_cons_self)
    exact hready.disjoint hij hx

/-- Writing the new hash of a child. -/
theorem Partly.write (h : Partly keccak updatedStates h2n keyPrefix children (i :: rest) s)
    (hready : Ready keccak updatedStates h2n keyPrefix (d + 1) (.full children))
    (hchild : IsState d (children i)) {s₁ : Hash2Node}
    (hframe : ∀ x, x ∉ hashes keccak (children i) → s₁ x = s x) :
    Partly keccak updatedStates h2n keyPrefix children rest
      (s₁.modify (nodeHash keccak (.full children)) (setChild i (.hash (nodeHash keccak
        (patch (children i) (newValue updatedStates (keyPrefix ++ [UInt8.ofNat i]))))))) := by
  have hpatched : IsState d (patch (children i)
      (newValue updatedStates (keyPrefix ++ [UInt8.ofNat i]))) :=
    hchild.patched fun _ _ => isAccount_of_newValue
  have hi : i ∉ rest := (List.nodup_cons.mp h.nodup).1
  refine ⟨(List.nodup_cons.mp h.nodup).2, ?_, ?_⟩
  · rw [Hash2Node.modify_self, hframe _ hready.root_not_mem, h.entry, partly, partly]
    simp only [Option.map_some, setChild]
    congr 2
    funext j
    by_cases hj : j = i
    · subst hj
      rw [Function.update_self, if_neg hi, ref, hpatched.isNil_eq]
      rfl
    · rw [Function.update_of_ne hj]
      simp [hj]
  · intro x hx hnot
    rw [Hash2Node.modify_of_ne _ _ hx, hframe x (hnot i hi)]
    exact h.frame x hx fun j hj => hnot j fun hmem => hj (List.mem_cons_of_mem _ hmem)

/-- The walk at a full node, given the walk below each child. -/
theorem rebuilds_full (hfull : IsState (d + 1) (.full children))
    (hchild : ∀ i, children i ≠ .nil → IsState d (children i))
    (hready : Ready keccak updatedStates h2n keyPrefix (d + 1) (.full children))
    (hentry : h2n (nodeHash keccak (.full children)) = some (shallow keccak (.full children)))
    (hrec : ∀ i, children i ≠ .nil → ∀ h2n',
      Ready keccak updatedStates h2n' (keyPrefix ++ [UInt8.ofNat i.val]) d (children i) →
      Rebuilds keccak updatedStates h2n' (keyPrefix ++ [UInt8.ofNat i.val]) d (children i)
        (rebuildHelper keccak updatedStates fuel (nodeHash keccak (children i)) h2n'
          (keyPrefix ++ [UInt8.ofNat i.val]))) :
    Rebuilds keccak updatedStates h2n keyPrefix (d + 1) (.full children)
      (rebuildHelper keccak updatedStates (fuel + 1) (nodeHash keccak (.full children)) h2n
        keyPrefix) := by
  have hloop := Sys.foldlM_good_or_bad
    (f := rebuildChild (rebuildHelper keccak updatedStates fuel) (nodeHash keccak (.full children))
      keyPrefix fun i => ref keccak (children i))
    (Partly keccak updatedStates h2n keyPrefix children)
    (fun i => Encodable updatedStates (keyPrefix ++ [UInt8.ofNat i.val]) d (children i))
    (by
      intro i rest s hs hok
      by_cases hnil : children i = .nil
      · exact ⟨s, by simp [rebuildChild, hnil, ref, Node.isNil], hs.skip hnil⟩
      · have hstate := hchild i hnil
        rcases (hrec i hnil s (hs.ready hready hstate)).1 hok with ⟨s₁, hwalk, hframe⟩
        refine ⟨_, ?_, hs.write hready hstate hframe⟩
        simp [rebuildChild, ref, hstate.isNil_eq, getCurrentKey, hwalk])
    (by
      intro i rest s hs hbad
      by_cases hnil : children i = .nil
      · -- an empty slot has no account
        apply absurd _ hbad
        intro r u acc _ hget
        rw [hnil, tryGet_nil] at hget
        cases hget
      · have hstate := hchild i hnil
        have hwalk := (hrec i hnil s (hs.ready hready hstate)).2 hbad
        simp [rebuildChild, ref, hstate.isNil_eq, getCurrentKey, hwalk])
    (List.finRange 17) h2n
    ⟨List.nodup_finRange 17, by rw [hentry, shallow, partly]; simp, fun _ _ _ => rfl⟩
  have hpatched : IsState (d + 1) (patch (.full children) (newValue updatedStates keyPrefix)) :=
    hfull.patched fun _ _ => isAccount_of_newValue
  have hdone : partly keccak updatedStates keyPrefix children [] = .full fun i => ref keccak
      (patch (children i) fun rest => newValue updatedStates keyPrefix (UInt8.ofNat i :: rest)) := by
    rw [partly]
    congr 1
    funext i
    rw [← newValue_append]
    simp
  rw [patch_full] at hpatched
  rw [Rebuilds, encodable_full, patch_full]
  constructor
  · intro hok
    rcases hloop.1 fun i _ => hok i with ⟨s, hfold, hs⟩
    refine ⟨s, ?_, ?_⟩
    · rw [rebuildHelper, hentry]
      simp only [shallow, hfold, Option.bind_eq_bind, Option.bind_some, hashEntry, hs.entry]
      rw [hdone, nodeHash, hpatched.enc_full]
    · intro x hx
      rw [hashes_full, List.mem_cons, not_or] at hx
      refine hs.frame x hx.1 fun i _ hi => hx.2 ?_
      exact List.mem_flatMap.mpr ⟨i, List.mem_finRange i, hi⟩
  · intro hbad
    rcases not_forall.mp hbad with ⟨i, hi⟩
    have hfold := hloop.2 ⟨i, List.mem_finRange i, hi⟩
    rw [rebuildHelper, hentry]
    simp only [shallow, hfold, Option.bind_eq_bind, Option.bind_none]

end Loop

/-- The walk below a node of the trie. -/
theorem rebuildHelper_spec {n : Node} (h : IsState d n) {fuel : ℕ} {h2n : Hash2Node}
    {keyPrefix : Bytes} (hfuel : d ≤ fuel) (hparity : (keyPrefix.length + d) % 2 = 1)
    (hready : Ready keccak updatedStates h2n keyPrefix d n) :
    Rebuilds keccak updatedStates h2n keyPrefix d n
      (rebuildHelper keccak updatedStates fuel (nodeHash keccak n) h2n keyPrefix) := by
  -- on the trie, for any table: the loop over the children of a full node changes it
  induction h generalizing fuel h2n keyPrefix with
  | @leaf k v hk hv =>
      have hleaf : IsState (k.length + 1) (.short (k ++ [16]) (.value v)) := .leaf hk hv
      rcases Nat.exists_eq_add_of_le' (show 1 ≤ fuel by omega) with ⟨fuel, rfl⟩
      rcases hready.loaded _ hleaf.mem_subnodes with hmissing | hentry
      · exact rebuilds_of_missing fuel hleaf hready hmissing
      · exact rebuilds_leaf fuel hparity hentry
  | @ext k children d hk hne hchild ih =>
      have hext : IsState (k.length + d) (.short k (.full children)) := .ext hk hne hchild
      have hpos : 1 ≤ k.length := List.length_pos_iff.mpr hne
      rcases Nat.exists_eq_add_of_le' (show 1 ≤ fuel by omega) with ⟨fuel, rfl⟩
      rcases hready.loaded _ hext.mem_subnodes with hmissing | hentry
      · exact rebuilds_of_missing fuel hext hready hmissing
      · have hnodup := hready.nodup
        rw [hashes_short, List.nodup_cons] at hnodup
        have hrec := @ih fuel h2n (keyPrefix ++ k) (by omega) (by rw [List.length_append]; omega)
          (hready.ext hne)
        exact rebuilds_ext hchild hnodup.1 hentry hrec
  | @full children d hvalue hsome hchild ih =>
      have hfull : IsState (d + 1) (.full children) := .full hvalue hsome hchild
      rcases Nat.exists_eq_add_of_le' (show 1 ≤ fuel by omega) with ⟨fuel, rfl⟩
      rcases hready.loaded _ hfull.mem_subnodes with hmissing | hentry
      · exact rebuilds_of_missing fuel hfull hready hmissing
      · apply rebuilds_full hfull hchild hready hentry
        intro i hi h2n' hready'
        apply ih i hi (by omega) _ hready'
        simp only [List.length_append, List.length_cons, List.length_nil]
        omega

end Rebuild

end LessChain
