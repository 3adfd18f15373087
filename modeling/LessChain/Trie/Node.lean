import LessChain.Core.Account
import LessChain.Trie.Encoding
import Mathlib.Algebra.Order.BigOperators.Group.List

/-!
# `trie/node.go`, `node_enc.go` and `hasher.go`

Trie nodes in memory, their stored form and the hash of a trie. `keccak` is a parameter.
Cached hashes and dirty flags are left out: a cached hash is the hash of the node.

`IsState` describes the nodes of a state trie: keys of one length, accounts at the leaves.
Their encodings have at least 32 bytes, so no node is embedded in its parent, and decoding
the encoding of a node gives the node with its children replaced by their hashes.
-/

namespace LessChain

namespace Trie

open Sys.Rlp (encodeString encodeList split splitString splitList countValues Kind)

/-- `trie.Node`: `ValueNode`, `HashNode`, `ShortNode` and `FullNode`. -/
inductive Node where
  | nil
  | value (v : Bytes)
  | hash (h : Bytes)
  | short (key : Bytes) (val : Node)
  | full (children : Fin 17 → Node)

namespace Node

def isNil : Node → Bool
  | .nil => true
  | _ => false

/-- `*ShortNode` or `*FullNode`. -/
def isInner : Node → Bool
  | .short _ _ | .full _ => true
  | _ => false

theorem isNil_iff {n : Node} : n.isNil = true ↔ n = .nil := by
  cases n <;> simp [isNil]

theorem isNil_of_isInner {n : Node} (h : n.isInner = true) : n.isNil = false := by
  cases n <;> first | rfl | cases h

/-- `nodeToBytes`. -/
def encode : Node → Bytes
  | .nil => [0x80]
  | .value v => encodeString v
  | .hash h => encodeString h
  | .short key val => encodeList (encodeString key ++ val.encode)
  | .full children => encodeList ((List.finRange 17).flatMap fun i => (children i).encode)

end Node

/-! ## Hashing -/

section Hashing

variable (keccak : Bytes → Hash)

/-- `shortnodeToHash` and `fullnodeToHash` on a collapsed node. -/
def toHash (n : Node) (force : Bool) : Node :=
  if n.encode.length < 32 ∧ force = false then n else .hash (keccak n.encode).bytes

/-- `hashShortNodeChildren` and `hashFullNodeChildren`: the node with its children hashed.
A missing child of a full node becomes `nilValueNode`. -/
def collapse : Node → Node
  | .short key val =>
      .short (hexToCompact key)
        (if val.isInner then toHash keccak (collapse val) false else val)
  | .full children => .full fun i =>
      if i = 16 then children i
      else if (children i).isNil then .value []
      else if (children i).isInner then toHash keccak (collapse (children i)) false
      else children i
  | n => n

/-- The stored form of a node. -/
def enc (n : Node) : Bytes := (collapse keccak n).encode

/-- The hash of the stored form. -/
def nodeHash (n : Node) : Bytes := (keccak (enc keccak n)).bytes

/-- `Trie.Hash`: the root is hashed whatever its size. -/
def rootHash (root : Node) : Hash :=
  if root.isNil then emptyRoot else keccak (enc keccak root)

end Hashing

/-! ## Decoding -/

/-- `decodeRef`: an embedded node, an empty one, or a hash. -/
def decodeRef (decodeNode : Bytes → Option Node) (buf : Bytes) : Option (Node × Bytes) := do
  let (kind, val, rest) ← split buf
  match kind with
  | .list =>
      if buf.length - rest.length > 32 then none
      else do
        let n ← decodeNode buf
        some (n, rest)
  | .string =>
      if val = [] then some (.nil, rest)
      else if val.length = 32 then some (.hash val, rest)
      else none
  | .byte => none

/-- `decodeShort`. -/
def decodeShort (decodeNode : Bytes → Option Node) (elems : Bytes) : Option Node := do
  let (kbuf, rest) ← splitString elems
  let key := compactToHex kbuf
  if hasTerm key then do
    let (val, _) ← splitString rest
    some (.short key (.value val))
  else do
    let (r, _) ← decodeRef decodeNode rest
    some (.short key r)

/-- The loop of `decodeFull`. -/
def decodeChildren (decodeNode : Bytes → Option Node) : ℕ → Bytes → Option (List Node × Bytes)
  | 0, elems => some ([], elems)
  | n + 1, elems => do
      let (cld, rest) ← decodeRef decodeNode elems
      let (clds, rest') ← decodeChildren decodeNode n rest
      some (cld :: clds, rest')

/-- `decodeFull`. -/
def decodeFull (decodeNode : Bytes → Option Node) (elems : Bytes) : Option Node := do
  let (clds, rest) ← decodeChildren decodeNode 16 elems
  let (val, _) ← splitString rest
  some (.full fun i =>
    if i = 16 then (if val = [] then .nil else .value val) else clds.getD i .nil)

/-- `decodeNode`; `fuel` bounds the nesting of embedded nodes. -/
def decodeNode : ℕ → Bytes → Option Node
  | 0, _ => none
  | fuel + 1, buf => do
      let (elems, _) ← splitList buf
      match countValues elems with
      | some 2 => decodeShort (decodeNode fuel) elems
      | some 17 => decodeFull (decodeNode fuel) elems
      | _ => none

/-- `MustDecodeNode`: an error panics. An embedded node is smaller than its parent. -/
def mustDecodeNode (buf : Bytes) : Option Node := decodeNode (buf.length + 1) buf

/-! ## Nodes of a state trie -/

/-- The values of a state trie: encoded accounts. -/
def IsAccount (v : Bytes) : Prop := ∃ acc, encodeAccount acc = some v

/-- `IsState d n`: below the node `n`, every key has `d` symbols left, the terminator
included, and leads to an account. -/
inductive IsState : ℕ → Node → Prop
  | leaf {k v : Bytes} (hk : IsNibbles k) (hv : IsAccount v) :
      IsState (k.length + 1) (.short (k ++ [16]) (.value v))
  | ext {k : Bytes} {children : Fin 17 → Node} {d : ℕ} (hk : IsNibbles k) (hne : k ≠ [])
      (hchild : IsState d (.full children)) :
      IsState (k.length + d) (.short k (.full children))
  | full {children : Fin 17 → Node} {d : ℕ} (hvalue : children 16 = .nil)
      (hsome : ∃ i, children i ≠ .nil) (hchild : ∀ i, children i ≠ .nil → IsState d (children i)) :
      IsState (d + 1) (.full children)

theorem IsState.isInner {d : ℕ} {n : Node} (h : IsState d n) : n.isInner = true := by
  cases h <;> rfl

theorem IsState.isNil_eq {d : ℕ} {n : Node} (h : IsState d n) : n.isNil = false := by
  cases h <;> rfl

/-- An encoded account is longer than a hash: it holds one. -/
theorem length_encodeAccount {acc : StateAccount} {v : Bytes} (h : encodeAccount acc = some v) :
    32 < v.length := by
  unfold encodeAccount at h
  split at h
  · cases h
  · cases h
    have hroot := Sys.Rlp.length_lt_encodeString (show acc.root.bytes.length ≠ 1 by simp)
    have hlist := Sys.Rlp.length_lt_encodeList (Sys.Rlp.encodeString (Sys.minBE acc.nonce.toNat) ++
      Sys.Rlp.encodeString (Sys.minBE acc.balance.toNat) ++
      Sys.Rlp.encodeString acc.root.bytes ++ Sys.Rlp.encodeString acc.codeHash)
    simp only [List.length_append, Hash.length_bytes] at hroot hlist
    omega

theorem length_le_flatMap {α β : Type*} {l : List α} {f : α → List β} {a : α} (ha : a ∈ l) :
    (f a).length ≤ (l.flatMap f).length := by
  induction l with
  | nil => cases ha
  | cons b l ih =>
      rw [List.flatMap_cons, List.length_append]
      rcases List.mem_cons.mp ha with rfl | ha
      · omega
      · have := ih ha
        omega

section Hashing

variable (keccak : Bytes → Hash)

@[simp] theorem length_nodeHash (n : Node) : (nodeHash keccak n).length = 32 :=
  Hash.length_bytes _

theorem length_encodeString_nodeHash (n : Node) :
    32 < (encodeString (nodeHash keccak n)).length := by
  have := Sys.Rlp.length_lt_encodeString (show (nodeHash keccak n).length ≠ 1 by simp)
  simpa using this

/-- How a parent refers to a child. -/
def ref (n : Node) : Node := if n.isNil then .nil else .hash (nodeHash keccak n)

variable {keccak}

theorem toHash_of_le {n : Node} (h : 32 ≤ (enc keccak n).length) :
    toHash keccak (collapse keccak n) false = .hash (nodeHash keccak n) := by
  rw [toHash, if_neg]
  · rfl
  · exact fun hlt => absurd hlt.1 (Nat.not_lt.mpr h)

theorem enc_leaf (key v : Bytes) :
    enc keccak (.short key (.value v)) = (Node.short (hexToCompact key) (.value v)).encode := rfl

theorem enc_ext_of_le {key : Bytes} {n : Node} (hinner : n.isInner = true)
    (h : 32 ≤ (enc keccak n).length) :
    enc keccak (.short key n) =
      (Node.short (hexToCompact key) (.hash (nodeHash keccak n))).encode := by
  rw [enc, collapse, if_pos hinner, toHash_of_le h]

variable {children : Fin 17 → Node}

theorem enc_full_of_le (hvalue : children 16 = .nil)
    (h : ∀ i, children i ≠ .nil →
      (children i).isInner = true ∧ 32 ≤ (enc keccak (children i)).length) :
    enc keccak (.full children) = (Node.full fun i => ref keccak (children i)).encode := by
  have hchild : ∀ i, (if i = 16 then children i else if (children i).isNil then Node.value []
      else if (children i).isInner then toHash keccak (collapse keccak (children i)) false
      else children i).encode = (ref keccak (children i)).encode := by
    intro i
    by_cases hnil : children i = .nil
    · -- an empty slot is written as the empty string, as a value or not
      rw [hnil]
      by_cases hi : i = 16
      · simp [hi, ref, Node.isNil, Node.encode]
      · simp only [if_neg hi, ref, Node.isNil, if_true]
        rfl
    · have hi : i ≠ 16 := by
        rintro rfl
        exact hnil hvalue
      have hnil' : (children i).isNil = false := by
        rw [Bool.eq_false_iff]
        exact fun hn => hnil (Node.isNil_iff.mp hn)
      rcases h i hnil with ⟨hinner, hle⟩
      simp [hi, hnil', hinner, ref, toHash_of_le hle]
  rw [enc, collapse, Node.encode, Node.encode]
  simp only [hchild]

/-- No node of a state trie is embedded in its parent. -/
theorem IsState.le_length_enc {d : ℕ} {n : Node} (h : IsState d n) :
    32 ≤ (enc keccak n).length := by
  -- the account of a leaf is long enough; an inner node holds the hash of a child, which is
  -- a hash because the child is long enough
  induction h with
  | @leaf k v hk hv =>
      rcases hv with ⟨acc, hacc⟩
      have hlen := length_encodeAccount hacc
      have hstr := Sys.Rlp.length_le_encodeString v
      have hlist := Sys.Rlp.length_lt_encodeList
        (encodeString (hexToCompact (k ++ [16])) ++ encodeString v)
      rw [enc_leaf, Node.encode, Node.encode]
      simp only [List.length_append] at hlist
      omega
  | @ext k children d hk hne hchild ih =>
      rw [enc_ext_of_le hchild.isInner ih, Node.encode, Node.encode]
      have hstr := length_encodeString_nodeHash keccak (.full children)
      have hlist := Sys.Rlp.length_lt_encodeList
        (encodeString (hexToCompact k) ++ encodeString (nodeHash keccak (.full children)))
      simp only [List.length_append] at hlist
      omega
  | @full children d hvalue hsome hchild ih =>
      rw [enc_full_of_le hvalue fun i hi => ⟨(hchild i hi).isInner, ih i hi⟩, Node.encode]
      rcases hsome with ⟨i, hi⟩
      have hlist := Sys.Rlp.length_lt_encodeList
        ((List.finRange 17).flatMap fun i => (ref keccak (children i)).encode)
      have hslot := length_le_flatMap (f := fun i => (ref keccak (children i)).encode)
        (List.mem_finRange i)
      have hstr := length_encodeString_nodeHash keccak (children i)
      have href : (ref keccak (children i)).encode = encodeString (nodeHash keccak (children i)) := by
        simp [ref, (hchild i hi).isNil_eq, Node.encode]
      rw [href] at hslot
      omega

theorem IsState.enc_ext {d : ℕ} {key : Bytes} {n : Node} (h : IsState d n) :
    enc keccak (.short key n) =
      (Node.short (hexToCompact key) (.hash (nodeHash keccak n))).encode :=
  enc_ext_of_le h.isInner h.le_length_enc

theorem IsState.enc_full {d : ℕ} (h : IsState d (.full children)) :
    enc keccak (.full children) = (Node.full fun i => ref keccak (children i)).encode := by
  cases h with
  | full hvalue hsome hchild =>
      exact enc_full_of_le hvalue fun i hi => ⟨(hchild i hi).isInner, (hchild i hi).le_length_enc⟩

/-! ## Children in the stored form of their parent -/

variable (keccak) in
/-- How a child stands in its parent: not at all, embedded, or by its hash. -/
def slotEnc (n : Node) : Bytes :=
  if n.isNil then encodeString [] else (toHash keccak (collapse keccak n) false).encode

theorem castSucc_ne (i : Fin 16) : i.castSucc ≠ (16 : Fin 17) := by
  intro h
  have hval : i.val = 16 := congrArg Fin.val h
  have := i.isLt
  omega

/-- The slots of a full node: sixteen children and the value. -/
theorem flatMap_finRange_17 (f : Fin 17 → Bytes) :
    (List.finRange 17).flatMap f =
      ((List.finRange 16).flatMap fun i => f i.castSucc) ++ f 16 := by
  rw [List.finRange_succ_last, List.flatMap_append, List.flatMap_map]
  simp

theorem enc_short {key : Bytes} {n : Node} (h : n.isInner = true) :
    enc keccak (.short key n) =
      encodeList (encodeString (hexToCompact key) ++ slotEnc keccak n) := by
  rw [enc, collapse, if_pos h, Node.encode, slotEnc, Node.isNil_of_isInner h]
  rfl

theorem enc_full
    (h : ∀ i : Fin 16, children i.castSucc = .nil ∨ (children i.castSucc).isInner = true) :
    enc keccak (.full children) = encodeList
      (((List.finRange 16).flatMap fun i => slotEnc keccak (children i.castSucc)) ++
        (children 16).encode) := by
  rw [enc, collapse, Node.encode, flatMap_finRange_17]
  congr 2
  refine List.flatMap_congr fun i _ => ?_
  rw [if_neg (castSucc_ne i), slotEnc]
  rcases h i with hnil | hinner
  · simp [hnil, Node.isNil, Node.encode]
  · simp [hinner, Node.isNil_of_isInner hinner]

/-! ## Reading stored nodes back -/

variable (keccak) in
/-- A node with its children replaced by their hashes. -/
def shallow : Node → Node
  | .short key (.value v) => .short key (.value v)
  | .short key val => .short key (.hash (nodeHash keccak val))
  | .full children => .full fun i => ref keccak (children i)
  | n => n

/-- What a slot of a stored full node can be: empty, or a hash. -/
def IsSlot : Node → Prop
  | .nil => True
  | .hash h => h.length = 32
  | _ => False

variable (keccak) in
theorem isSlot_ref (n : Node) : IsSlot (ref keccak n) := by
  unfold ref
  split
  · trivial
  · exact length_nodeHash keccak n

/-- A slot is an empty string or a string of 32 bytes. -/
theorem IsSlot.cases {n : Node} (h : IsSlot n) :
    (n = .nil ∧ n.encode = encodeString []) ∨ ∃ hash, n = .hash hash ∧ hash.length = 32 := by
  cases n with
  | nil => exact .inl ⟨rfl, rfl⟩
  | hash hash => exact .inr ⟨hash, rfl, h⟩
  | value => exact absurd h id
  | short => exact absurd h id
  | full => exact absurd h id

/-- A slot in front of other data is read back. -/
theorem IsSlot.decodeRef {n : Node} (h : IsSlot n) (dec : Bytes → Option Node) (rest : Bytes) :
    Trie.decodeRef dec (n.encode ++ rest) = some (n, rest) := by
  rcases h.cases with ⟨rfl, hempty⟩ | ⟨hash, rfl, hlen⟩
  · have hsplit := Sys.Rlp.split_encodeString (show ([] : Bytes).length < 2 ^ 64 by simp) rest
    rw [Trie.decodeRef, hempty, hsplit]
    rfl
  · have hsplit := Sys.Rlp.split_encodeString
      (show hash.length < 2 ^ 64 by rw [hlen]; decide) rest
    -- 32 bytes are no single byte and not empty
    have hkind : Sys.Rlp.stringKind hash = .string := by
      simp [Sys.Rlp.stringKind, Sys.Rlp.isByte, hlen]
    have hne : hash ≠ [] := by
      intro hnil
      rw [hnil] at hlen
      cases hlen
    simp [Trie.decodeRef, Node.encode, hsplit, hkind, hlen, hne]

variable (keccak) in
theorem decodeRef_ref (dec : Bytes → Option Node) (n : Node) (rest : Bytes) :
    decodeRef dec ((ref keccak n).encode ++ rest) = some (ref keccak n, rest) :=
  (isSlot_ref keccak n).decodeRef dec rest

theorem IsSlot.decodeChildren (dec : Bytes → Option Node) {ns : List Node}
    (h : ∀ n ∈ ns, IsSlot n) (rest : Bytes) :
    Trie.decodeChildren dec ns.length ((ns.flatMap Node.encode) ++ rest) = some (ns, rest) := by
  induction ns with
  | nil => rfl
  | cons n ns ih =>
      rw [List.flatMap_cons, List.append_assoc, List.length_cons, Trie.decodeChildren,
        (h n List.mem_cons_self).decodeRef]
      simp [ih fun m hm => h m (List.mem_cons_of_mem _ hm)]

theorem IsSlot.length_encode_le {n : Node} (h : IsSlot n) : n.encode.length ≤ 33 := by
  rcases h.cases with ⟨rfl, hempty⟩ | ⟨hash, rfl, hlen⟩
  · rw [hempty]
    decide
  · simp [Node.encode, encodeString, Sys.Rlp.isByte, Sys.Rlp.header, hlen]

theorem IsSlot.isValue {n : Node} (h : IsSlot n) : Sys.Rlp.IsValue n.encode := by
  rcases h.cases with ⟨rfl, hempty⟩ | ⟨hash, rfl, hlen⟩
  · rw [hempty]
    exact Sys.Rlp.isValue_encodeString (show ([] : Bytes).length < 2 ^ 64 by decide)
  · exact Sys.Rlp.isValue_encodeString (by rw [hlen]; decide)

/-- `decodeNode` on a list of two or seventeen values, once the outer list is read. -/
theorem mustDecodeNode_encodeList {payload : Bytes} (hlen : payload.length < 2 ^ 64) :
    mustDecodeNode (encodeList payload) =
      match countValues payload with
      | some 2 => decodeShort (decodeNode (encodeList payload).length) payload
      | some 17 => decodeFull (decodeNode (encodeList payload).length) payload
      | _ => none := by
  have hsplit := Sys.Rlp.splitList_encodeList hlen []
  rw [List.append_nil] at hsplit
  rw [mustDecodeNode, decodeNode, hsplit]
  rfl

/-- The slots of a full node without value are read back one by one. -/
theorem decodeFull_slots (dec : Bytes → Option Node)
    (hslots : ∀ i, IsSlot (children i)) (hvalue : children 16 = .nil) :
    decodeFull dec ((List.finRange 17).flatMap fun i => (children i).encode) =
      some (.full children) := by
  have hfirst : ∀ n ∈ (List.finRange 16).map fun i => children i.castSucc, IsSlot n := by
    simpa using fun i : Fin 16 => hslots i.castSucc
  have hread := IsSlot.decodeChildren dec hfirst (encodeString [])
  have hlast : (children 16).encode = encodeString [] := by
    rw [hvalue]
    rfl
  have hempty := Sys.Rlp.splitString_encodeString (show ([] : Bytes).length < 2 ^ 64 by decide) []
  rw [List.append_nil] at hempty
  rw [List.length_map, List.length_finRange, List.flatMap_map] at hread
  rw [flatMap_finRange_17, hlast]
  simp only [decodeFull, hread, hempty, Option.bind_eq_bind, Option.bind_some, if_true,
    Option.some.injEq, Node.full.injEq]
  funext i
  by_cases hi : i = 16
  · rw [if_pos hi, hi, hvalue]
  · have hlt : i.val < 16 := by
      have := i.isLt
      have hne : i.val ≠ 16 := fun h => hi (Fin.ext h)
      omega
    rw [if_neg hi]
    simp [List.getD, hlt]

/-- The encoding of a full node with slots only is decoded to the node. -/
theorem mustDecodeNode_full (hslots : ∀ i, IsSlot (children i))
    (hvalue : children 16 = .nil) :
    mustDecodeNode (Node.full children).encode = some (.full children) := by
  have hpayload : ((List.finRange 17).flatMap fun i => (children i).encode).length < 2 ^ 64 := by
    have hle := List.sum_le_card_nsmul ((List.finRange 17).map fun i => (children i).encode.length)
      33 (by simpa using fun i => (hslots i).length_encode_le)
    rw [List.length_flatMap]
    rw [List.length_map, List.length_finRange] at hle
    exact hle.trans_lt (by decide)
  rw [Node.encode, mustDecodeNode_encodeList hpayload]
  have hvalues : ∀ v ∈ (List.finRange 17).map fun i => (children i).encode,
      Sys.Rlp.IsValue v := by
    intro v hv
    rcases List.mem_map.mp hv with ⟨i, -, rfl⟩
    exact (hslots i).isValue
  have hcount : countValues ((List.finRange 17).flatMap fun i => (children i).encode) =
      some 17 := by
    simpa [List.flatMap] using Sys.Rlp.countValues_flatten hvalues
  rw [hcount]
  exact decodeFull_slots _ hslots hvalue

/-! ### Hashes in decoded nodes -/

theorem short_of_decodeShort {dec : Bytes → Option Node} {elems : Bytes} {n : Node}
    (h : decodeShort dec elems = some n) : ∃ key val, n = .short key val := by
  rcases Option.bind_eq_some_iff.mp h with ⟨⟨kbuf, rest⟩, -, hshort⟩
  dsimp only at hshort
  split at hshort
  · rcases Option.bind_eq_some_iff.mp hshort with ⟨_, -, hval⟩
    cases hval
    exact ⟨_, _, rfl⟩
  · rcases Option.bind_eq_some_iff.mp hshort with ⟨_, -, href⟩
    cases href
    exact ⟨_, _, rfl⟩

theorem decodeNode_ne_hash (fuel : ℕ) (buf hash : Bytes) : decodeNode fuel buf ≠ some (.hash hash) := by
  intro h
  cases fuel with
  | zero => cases h
  | succ fuel =>
      rcases Option.bind_eq_some_iff.mp h with ⟨⟨elems, rest⟩, -, hnode⟩
      dsimp only at hnode
      split at hnode
      · rcases short_of_decodeShort hnode with ⟨_, _, hshort⟩
        cases hshort
      · rcases Option.bind_eq_some_iff.mp hnode with ⟨_, -, hfull⟩
        rcases Option.bind_eq_some_iff.mp hfull with ⟨_, -, hval⟩
        cases hval
      · cases hnode

/-- A hash is read from a string of 32 bytes. -/
theorem length_of_decodeRef {dec : Bytes → Option Node} (hdec : ∀ buf hash, dec buf ≠ some (.hash hash))
    {buf hash rest : Bytes} (h : decodeRef dec buf = some (.hash hash, rest)) :
    hash.length = 32 := by
  rcases Option.bind_eq_some_iff.mp h with ⟨⟨kind, val, rest'⟩, -, hkind⟩
  cases kind with
  | byte => cases hkind
  | list =>
      dsimp only at hkind
      split at hkind
      · cases hkind
      · rcases Option.bind_eq_some_iff.mp hkind with ⟨n, hn, heq⟩
        cases heq
        exact absurd hn (hdec _ _)
  | string =>
      dsimp only at hkind
      split at hkind
      · cases hkind
      · split at hkind
        · rename_i hlen
          cases hkind
          exact hlen
        · cases hkind

theorem length_of_decodeChildren {dec : Bytes → Option Node}
    (hdec : ∀ buf hash, dec buf ≠ some (.hash hash)) {n : ℕ} {elems rest : Bytes} {clds : List Node}
    (h : decodeChildren dec n elems = some (clds, rest)) :
    ∀ hash, .hash hash ∈ clds → hash.length = 32 := by
  induction n generalizing elems clds with
  | zero =>
      cases h
      exact fun _ hmem => nomatch hmem
  | succ n ih =>
      rcases Option.bind_eq_some_iff.mp h with ⟨⟨cld, rest₁⟩, hcld, htail⟩
      rcases Option.bind_eq_some_iff.mp htail with ⟨⟨clds', rest₂⟩, hclds, heq⟩
      cases heq
      intro hash hmem
      rcases List.mem_cons.mp hmem with rfl | hmem
      · exact length_of_decodeRef hdec hcld
      · exact ih hclds hash hmem

/-- The hashes in a decoded full node have 32 bytes, and there is none in the place of the
value. -/
theorem length_of_mustDecodeNode {buf : Bytes}
    (h : mustDecodeNode buf = some (.full children)) :
    (∀ i hash, children i = .hash hash → hash.length = 32) ∧
      ∀ hash, children 16 ≠ .hash hash := by
  rcases Option.bind_eq_some_iff.mp h with ⟨⟨elems, rest⟩, -, hnode⟩
  dsimp only at hnode
  split at hnode
  · rcases short_of_decodeShort hnode with ⟨_, _, hshort⟩
    cases hshort
  · rcases Option.bind_eq_some_iff.mp hnode with ⟨⟨clds, rest₁⟩, hclds, hfull⟩
    rcases Option.bind_eq_some_iff.mp hfull with ⟨⟨val, _⟩, -, heq⟩
    cases heq
    have hvalue : ∀ hash, (if val = [] then Node.nil else .value val) ≠ .hash hash := by
      intro hash heq
      split at heq
      · cases heq
      · cases heq
    refine ⟨fun i hash hi => ?_, hvalue⟩
    dsimp only at hi
    split_ifs at hi with hlast
    refine length_of_decodeChildren (decodeNode_ne_hash _) hclds hash ?_
    rw [List.getD_eq_getElem?_getD] at hi
    cases hget : clds[i.val]? with
    | none =>
        rw [hget] at hi
        cases hi
    | some n =>
        rw [hget] at hi
        cases hi
        exact List.mem_of_getElem? hget
  · cases hnode

/-- Decoding what is stored for a node gives the node with hashes for children. The bound
is what the size field of an RLP header can hold. -/
theorem IsState.decode_enc {d : ℕ} {n : Node} (h : IsState d n)
    (hlen : (enc keccak n).length < 2 ^ 64) :
    mustDecodeNode (enc keccak n) = some (shallow keccak n) := by
  cases h with
  | @leaf k v hk hv =>
      rw [enc_leaf, Node.encode, Node.encode] at hlen ⊢
      have hpayload := Sys.Rlp.length_lt_encodeList
        (encodeString (hexToCompact (k ++ [16])) ++ encodeString v)
      have hkey := Sys.Rlp.length_le_encodeString (hexToCompact (k ++ [16]))
      have hval := Sys.Rlp.length_le_encodeString v
      rw [mustDecodeNode_encodeList (by omega)]
      rw [List.length_append] at hpayload
      -- two strings, and the terminator of the key says that the second is a value
      have hsplit := Sys.Rlp.splitString_encodeString (show v.length < 2 ^ 64 by omega) []
      rw [List.append_nil] at hsplit
      rw [Sys.Rlp.countValues_pair (Sys.Rlp.isValue_encodeString (by omega))
        (Sys.Rlp.isValue_encodeString (by omega))]
      simp only [decodeShort]
      rw [Sys.Rlp.splitString_encodeString (by omega)]
      simp [(compactToHex_hexToCompact hk).2, hasTerm_concat, hsplit, shallow]
  | @ext k children d hk hne hchild =>
      have href : Node.hash (nodeHash keccak (.full children)) = ref keccak (.full children) := rfl
      rw [hchild.enc_ext, Node.encode, href] at hlen ⊢
      have hpayload := Sys.Rlp.length_lt_encodeList
        (encodeString (hexToCompact k) ++ (ref keccak (.full children)).encode)
      have hkey := Sys.Rlp.length_le_encodeString (hexToCompact k)
      rw [mustDecodeNode_encodeList (by omega)]
      rw [List.length_append] at hpayload
      -- without terminator it is a reference
      have hval := decodeRef_ref keccak (decodeNode (encodeList (encodeString (hexToCompact k) ++
        (ref keccak (.full children)).encode)).length) (.full children) []
      rw [List.append_nil] at hval
      rw [Sys.Rlp.countValues_pair (Sys.Rlp.isValue_encodeString (by omega))
        (isSlot_ref keccak _).isValue]
      simp only [decodeShort]
      rw [Sys.Rlp.splitString_encodeString (by omega)]
      simp [(compactToHex_hexToCompact hk).1, hk.hasTerm_eq, hval, shallow, href]
  | @full children d hvalue hsome hchild =>
      have hfull : IsState (d + 1) (.full children) := .full hvalue hsome hchild
      rw [hfull.enc_full] at hlen ⊢
      exact mustDecodeNode_full (fun i => isSlot_ref keccak _) (by rw [hvalue]; rfl)

end Hashing

end Trie

end LessChain
