import LessChain.Trie.Delete

/-!
# `trie/stacktrie.go`

A trie for keys that come in increasing order. Once a key leaves a subtree, no later key can
enter it, so the subtree is replaced by its hash at once; only the right edge is kept open.

`Rep` says which trie a stack trie stands for, hashed parts included. Inserting a key that
comes after all others follows `insert` of the plain trie step by step (`insert_rep`), and
never reaches a part that is hashed already. So the two agree on the root hash
(`Stands.rootHash_eq`).

Nodes are taken from a pool and given back after use; here they are values. `db` is nil
wherever the program makes a stack trie, so nothing is written while hashing.
-/

namespace LessChain

namespace Trie

open Sys (Before)
open Sys.Rlp (encodeString encodeList)

/-- `StackTrie`, one constructor for each `nodeType`. A child that is a nil pointer is `nil`. -/
inductive StackTrie where
  | nil
  | empty
  | branch (children : Fin 16 → StackTrie)
  | ext (key : Bytes) (child : StackTrie)
  | leaf (key val : Bytes)
  | hashed (val : Bytes)

namespace StackTrie

def isNil : StackTrie → Bool
  | .nil => true
  | _ => false

theorem isNil_iff {st : StackTrie} : st.isNil = true ↔ st = .nil := by
  cases st <;> simp [isNil]

theorem isNil_eq_false {st : StackTrie} (h : st ≠ .nil) : st.isNil = false := by
  rw [Bool.eq_false_iff]
  exact fun hn => h (isNil_iff.mp hn)

/-- `rawNode` or `HashNode`: how a hashed child stands in its parent. -/
def item (val : Bytes) : Bytes := if val.length < 32 then val else encodeString val

section Hashing

variable (keccak : Bytes → Hash)

/-- What `hashRec` leaves in `val`. -/
def sealed (encodedNode : Bytes) : Bytes :=
  if encodedNode.length < 32 then encodedNode else (keccak encodedNode).bytes

/-- `hashRec`: the new `val`. A nil pointer panics, as does an empty key of an extension. -/
def hashRec : StackTrie → Option Bytes
  | .nil => none
  | .hashed val => some val
  | .empty => some emptyRoot.bytes
  | .branch children => do
      let nodes ← (List.finRange 16).mapM fun i =>
        if (children i).isNil then some (encodeString [])
        else (hashRec (children i)).map item
      some (sealed keccak (encodeList (nodes.flatten ++ encodeString [])))
  | .ext key child => do
      let val ← hashRec child
      let compact ← hexToCompactInPlace key
      some (sealed keccak (encodeList (encodeString compact ++ item val)))
  | .leaf key val => do
      let compact ← hexToCompactInPlace (key ++ [16])
      some (sealed keccak (encodeList (encodeString compact ++ encodeString val)))

/-- `hash`. -/
def hash (st : StackTrie) : Option StackTrie := (hashRec keccak st).map .hashed

/-- `Hash`: a short encoding is hashed here. -/
def rootHash (st : StackTrie) : Option Hash := do
  let val ← hashRec keccak st
  some (if val.length = 32 then bytesToHash val else keccak val)

end Hashing

/-! ## Inserting -/

/-- `getDiffIndex`: a key that ends too early is an index out of range. -/
def getDiffIndex : Bytes → Bytes → Option ℕ
  | [], _ => some 0
  | _ :: _, [] => none
  | a :: stKey, b :: key => if a = b then (getDiffIndex stKey key).map (· + 1) else some 0

/-- An index into `children`. -/
def nibble (x : UInt8) : Option (Fin 16) :=
  if h : x.toNat < 16 then some ⟨x.toNat, h⟩ else none

/-- The elder sibling nearest to `idx`. -/
def elder (children : Fin 16 → StackTrie) (idx : Fin 16) : Option (Fin 16) :=
  (List.finRange 16).reverse.find? fun i => i < idx ∧ (children i).isNil = false

/-- "Unresolve elder siblings": the nearest one is hashed; those before it have been. -/
def unresolve (keccak : Bytes → Hash) (children : Fin 16 → StackTrie) (idx : Fin 16) :
    Option (Fin 16 → StackTrie) :=
  match elder children idx with
  | none => some children
  | some i => (hash keccak (children i)).map fun h => Function.update children i h

/-- A branch with the original part and the new leaf, behind the common prefix. -/
def split (diffidx : ℕ) (stKey key : Bytes) (orig new : StackTrie) : Option StackTrie := do
  let origIdx ← stKey[diffidx]?.bind nibble
  let newIdx ← key[diffidx]?.bind nibble
  let p := branch (Function.update (Function.update (fun _ => .nil) origIdx orig) newIdx new)
  some (if diffidx = 0 then p else .ext (stKey.take diffidx) p)

/-- `insert`. -/
def insert (keccak : Bytes → Hash) (value : Bytes) : StackTrie → Bytes → Option StackTrie
  | .branch children, x :: key => do
      let idx ← nibble x
      let elders ← unresolve keccak children idx
      -- only elder siblings are hashed, so the child is still the one of `children`
      let child ← (if (children idx).isNil then some (.leaf key value)
        else insert keccak value (children idx) key)
      some (.branch (Function.update elders idx child))
  | .branch _, [] => none
  | .ext stKey child, key => do
      let diffidx ← getDiffIndex stKey key
      if diffidx = stKey.length then do
        let child ← insert keccak value child (key.drop diffidx)
        some (.ext stKey child)
      else do
        let n ← hash keccak
          (if diffidx < stKey.length - 1 then .ext (stKey.drop (diffidx + 1)) child else child)
        split diffidx stKey key n (.leaf (key.drop (diffidx + 1)) value)
  | .leaf stKey val, key => do
      let diffidx ← getDiffIndex stKey key
      -- "Trying to insert into existing key"
      if diffidx ≥ stKey.length then none
      else do
        let orig ← hash keccak (.leaf (stKey.drop (diffidx + 1)) val)
        split diffidx stKey key orig (.leaf (key.drop (diffidx + 1)) value)
  | .empty, key => some (.leaf key value)
  -- "trying to insert into hash"
  | .hashed _, _ => none
  | .nil, _ => none

/-- `TryUpdate`: "deletion not supported". -/
def tryUpdate (keccak : Bytes → Hash) (st : StackTrie) (key value : Bytes) : Option StackTrie :=
  if value = [] then none else insert keccak value st (keybytesToHex key).dropLast

/-! ## The trie a stack trie stands for -/

/-- `st` stands for the trie `n`. -/
inductive Rep (keccak : Bytes → Hash) : StackTrie → Node → Prop
  | nil : Rep keccak .nil .nil
  | leaf {k v : Bytes} : Rep keccak (.leaf k v) (.short (k ++ [16]) (.value v))
  | ext {k : Bytes} {st : StackTrie} {cs : Fin 17 → Node} (hne : k ≠ [])
      (h : Rep keccak st (.full cs)) : Rep keccak (.ext k st) (.short k (.full cs))
  | branch {sts : Fin 16 → StackTrie} {cs : Fin 17 → Node} (hvalue : cs 16 = .nil)
      (h : ∀ i : Fin 16, Rep keccak (sts i) (cs i.castSucc)) : Rep keccak (.branch sts) (.full cs)
  | hashed {n : Node} (hinner : n.isInner = true) :
      Rep keccak (.hashed (sealed keccak (enc keccak n))) n

/-- The right edge is not hashed. -/
inductive Open : StackTrie → Prop
  | leaf {k v : Bytes} : Open (.leaf k v)
  | ext {k : Bytes} {st : StackTrie} (h : Open st) : Open (.ext k st)
  | branch {sts : Fin 16 → StackTrie} (i : Fin 16) (h : Open (sts i))
      (hlast : ∀ j, i < j → sts j = .nil) : Open (.branch sts)

section Hashing

variable {keccak : Bytes → Hash} {k v key : Bytes} {i j : Fin 16} {sts : Fin 16 → StackTrie}
  {cs : Fin 17 → Node} {kvs : List (Bytes × Bytes)} {n : Node} {st : StackTrie} {x : UInt8}

theorem Rep.isInner (h : Rep keccak st n) (hne : st ≠ .nil) :
    n.isInner = true := by
  cases h with
  | nil => exact absurd rfl hne
  | leaf => rfl
  | ext => rfl
  | branch => rfl
  | hashed hinner => exact hinner

theorem Rep.eq_nil (h : Rep keccak .nil n) : n = .nil := by
  cases h
  rfl

/-- A node stands in its parent as the plain trie writes it. -/
theorem item_sealed (h : n.isInner = true) :
    item (sealed keccak (enc keccak n)) = slotEnc keccak n := by
  rw [slotEnc, Node.isNil_of_isInner h]
  unfold item sealed toHash
  by_cases hlen : (enc keccak n).length < 32
  · have hlen' : (collapse keccak n).encode.length < 32 := hlen
    simp only [hlen, hlen', if_true, and_self, Bool.false_eq_true, if_false]
    rfl
  · have hlen' : ¬ (collapse keccak n).encode.length < 32 := hlen
    simp only [hlen, hlen', if_false, false_and, Hash.length_bytes, lt_irrefl,
      Bool.false_eq_true]
    rfl

/-- Hashing gives the hash of the trie that is stood for. -/
theorem Rep.hashRec_eq (h : Rep keccak st n) (hne : st ≠ .nil) :
    hashRec keccak st = some (sealed keccak (enc keccak n)) := by
  induction h with
  | nil => exact absurd rfl hne
  | @leaf k v =>
      rw [hashRec, hexToCompactInPlace_eq (show k ++ [16] ≠ [] by simp), enc_leaf]
      rfl
  | @ext k st cs hk h ih =>
      have hst : st ≠ .nil := by
        rintro rfl
        cases h
      have hinner := h.isInner hst
      rw [hashRec, ih hst, hexToCompactInPlace_eq hk, enc_short hinner, ← item_sealed hinner]
      rfl
  | @branch sts cs hvalue h ih =>
      have hchild : ∀ i : Fin 16, cs i.castSucc = .nil ∨ (cs i.castSucc).isInner = true := by
        intro i
        by_cases hi : sts i = .nil
        · have hrep := h i
          rw [hi] at hrep
          exact .inl hrep.eq_nil
        · exact .inr ((h i).isInner hi)
      -- each child is hashed, or written as an empty string
      have hitem : ∀ i : Fin 16, (if (sts i).isNil then some (encodeString [])
          else (hashRec keccak (sts i)).map item) = some (slotEnc keccak (cs i.castSucc)) := by
        intro i
        by_cases hi : sts i = .nil
        · have hrep := h i
          rw [hi] at hrep
          simp [hi, hrep.eq_nil, isNil, slotEnc, Node.isNil]
        · simp [isNil_eq_false hi, ih i hi, item_sealed ((h i).isInner hi)]
      have hnodes : (List.finRange 16).mapM (fun i => if (sts i).isNil then some (encodeString [])
          else (hashRec keccak (sts i)).map item) =
          some ((List.finRange 16).map fun i => slotEnc keccak (cs i.castSucc)) := by
        simp only [hitem]
        exact List.mapM_pure
      rw [hashRec, hnodes, enc_full hchild, hvalue, List.flatMap]
      rfl
  | hashed hinner => rfl

theorem Rep.hash_eq (h : Rep keccak st n) (hne : st ≠ .nil) :
    ∃ st', hash keccak st = some st' ∧ Rep keccak st' n := by
  refine ⟨.hashed (sealed keccak (enc keccak n)), ?_, .hashed (h.isInner hne)⟩
  rw [hash, h.hashRec_eq hne]
  rfl

/-! ## Inserting a key that comes after all others -/

theorem nibble_eq_some : nibble x = some i ↔ x = UInt8.ofNat i := by
  unfold nibble
  constructor
  · intro h
    split at h
    · cases h
      simp
    · cases h
  · rintro rfl
    have hi : (UInt8.ofNat i).toNat = i := by
      rw [UInt8.toNat_ofNat']
      exact Nat.mod_eq_of_lt (by omega)
    simp [hi]

theorem exists_nibble (hx : x.toNat < 16) : ∃ i, nibble x = some i := by
  unfold nibble
  rw [dif_pos hx]
  exact ⟨_, rfl⟩

theorem slot_of_nibble (h : nibble x = some i) :
    slot x = some i.castSucc := by
  rw [slot_eq_some, nibble_eq_some.mp h]
  rfl

theorem lt_of_nibble {y : UInt8} (hi : nibble x = some i) (hj : nibble y = some j)
    (hxy : x < y) : i < j := by
  rw [nibble_eq_some] at hi hj
  have htoNat : ∀ i : Fin 16, (UInt8.ofNat i).toNat = i := by
    intro i
    rw [UInt8.toNat_ofNat']
    exact Nat.mod_eq_of_lt (by omega)
  have hlt : x.toNat < y.toNat := UInt8.lt_iff_toNat_lt.mp hxy
  rwa [hi, hj, htoNat, htoNat] at hlt

theorem getDiffIndex_append (k r : Bytes) : getDiffIndex k (k ++ r) = some k.length := by
  induction k with
  | nil => simp [getDiffIndex]
  | cons x k ih => simp [getDiffIndex, ih]

theorem getDiffIndex_parting (c : Bytes) {y : UInt8} (hxy : x ≠ y) (a b : Bytes) :
    getDiffIndex (c ++ x :: a) (c ++ y :: b) = some c.length := by
  induction c with
  | nil => simp [getDiffIndex, hxy]
  | cons z c ih => simp [getDiffIndex, ih]

/-- The node that replaces a leaf or an extension. -/
def pair (c : Bytes) (i j : Fin 16) (orig new : StackTrie) : StackTrie :=
  if c = [] then .branch (Function.update (Function.update (fun _ => .nil) i orig) j new)
  else .ext c (.branch (Function.update (Function.update (fun _ => .nil) i orig) j new))

theorem split_parting {c a b : Bytes} {y : UInt8} (hi : nibble x = some i)
    (hj : nibble y = some j) (orig new : StackTrie) :
    split c.length (c ++ x :: a) (c ++ y :: b) orig new = some (pair c i j orig new) := by
  have hget : ∀ z l, (c ++ z :: l)[c.length]? = some z := by
    intro z l
    simp
  rw [split, hget, hget]
  simp only [Option.bind_some, hi, hj, Option.bind_eq_bind, List.take_left,
    List.length_eq_zero_iff]
  rfl

theorem Rep.pair {c : Bytes} {orig new : StackTrie} {a b : Node}
    (ha : Rep keccak orig a) (hb : Rep keccak new b) :
    Rep keccak (pair c i j orig new) (insertNil c (fork i.castSucc j.castSucc a b)) := by
  have hbranch : Rep keccak
      (.branch (Function.update (Function.update (fun _ => .nil) i orig) j new))
      (fork i.castSucc j.castSucc a b) := by
    refine .branch ?_ ?_
    · rw [Function.update_of_ne (castSucc_ne j).symm, Function.update_of_ne (castSucc_ne i).symm]
    · intro l
      by_cases hlj : l = j
      · rw [hlj, Function.update_self, Function.update_self]
        exact hb
      · have hlj' : l.castSucc ≠ j.castSucc := fun h => hlj (Fin.castSucc_inj.mp h)
        rw [Function.update_of_ne hlj, Function.update_of_ne hlj']
        by_cases hli : l = i
        · rw [hli, Function.update_self, Function.update_self]
          exact ha
        · have hli' : l.castSucc ≠ i.castSucc := fun h => hli (Fin.castSucc_inj.mp h)
          rw [Function.update_of_ne hli, Function.update_of_ne hli']
          exact .nil
  unfold StackTrie.pair insertNil
  by_cases hc : c = []
  · rw [if_pos hc, if_pos hc]
    exact hbranch
  · rw [if_neg hc, if_neg hc]
    exact .ext hc hbranch

theorem open_pair {c : Bytes} (hij : i < j) (orig : StackTrie) {new : StackTrie}
    (h : Open new) : Open (pair c i j orig new) := by
  have hbranch : Open
      (.branch (Function.update (Function.update (fun _ => .nil) i orig) j new)) := by
    refine .branch j (by rwa [Function.update_self]) ?_
    intro l hl
    rw [Function.update_of_ne (Fin.ne_of_gt hl), Function.update_of_ne]
    exact Fin.ne_of_gt (Fin.lt_trans hij hl)
  unfold pair
  split
  · exact hbranch
  · exact .ext hbranch

/-- Every key of `n` comes before `k` and is no prefix of it. -/
def Below (n : Node) (k : Bytes) : Prop := ∀ r u, Has n (r ++ [16]) u → Before r k

theorem Below.ext (h : Below (.short k n) (k ++ key)) :
    Below n key := by
  intro r u hr
  have hbefore := h (k ++ r) u (by rw [List.append_assoc]; exact has_short_append.mpr hr)
  exact Sys.before_append_left.mp hbefore

theorem Below.child {i : Fin 17}
    (h : Below (.full cs) (UInt8.ofNat i :: key)) : Below (cs i) key := by
  intro r u hr
  have hbefore := h (UInt8.ofNat i :: r) u (has_full_cons.mpr hr)
  exact (Sys.before_append_left (c := [UInt8.ofNat i])).mp hbefore

/-- A stack trie with an open edge is not empty. -/
theorem Open.exists_has (h : Open st) (hrep : Rep keccak st n) :
    ∃ r u, Has n (r ++ [16]) u := by
  induction h generalizing n with
  | @leaf k v =>
      cases hrep
      exact ⟨k, v, has_leaf.mpr ⟨rfl, rfl⟩⟩
  | @ext k st h ih =>
      cases hrep with
      | ext hne hchild =>
          rcases ih hchild with ⟨r, u, hr⟩
          exact ⟨k ++ r, u, by rw [List.append_assoc]; exact has_short_append.mpr hr⟩
  | @branch sts i h hlast ih =>
      cases hrep with
      | branch hvalue hchild =>
          rcases ih (hchild i) with ⟨r, u, hr⟩
          exact ⟨_ :: r, u, has_full_cons.mpr hr⟩

/-- What an insertion gives: the stack trie follows the trie. -/
def Follows (keccak : Bytes → Hash) (st : StackTrie) (n : Node) (k v : Bytes) : Prop :=
  ∃ st' n', insert keccak v st k = some st' ∧ Trie.insert v n (k ++ [16]) = some (true, n') ∧
    Rep keccak st' n' ∧ Open st' ∧ ((∃ cs, n = .full cs) → ∃ cs, n' = .full cs)

/-- A leaf is split. -/
theorem follows_leaf {k₀ v₀ : Bytes} (hk₀ : IsNibbles k₀) (hk : IsNibbles k)
    (hbefore : Before k₀ k) :
    Follows keccak (.leaf k₀ v₀) (.short (k₀ ++ [16]) (.value v₀)) k v := by
  rcases hbefore with ⟨c, x, y, a, b, rfl, rfl, hlt⟩
  have hxy : x ≠ y := by
    rintro rfl
    exact Std.Irrefl.irrefl x hlt
  rcases exists_nibble hk₀.parts.2.1 with ⟨i, hi⟩
  rcases exists_nibble hk.parts.2.1 with ⟨j, hj⟩
  have hij := lt_of_nibble hi hj hlt
  have horig : Rep keccak (.leaf a v₀) (insertNil (a ++ [16]) (.value v₀)) := by
    rw [insertNil, if_neg (by simp)]
    exact .leaf
  have hnew : Rep keccak (.leaf b v) (insertNil (b ++ [16]) (.value v)) := by
    rw [insertNil, if_neg (by simp)]
    exact .leaf
  rcases horig.hash_eq (by simp) with ⟨orig, hhash, horig⟩
  refine ⟨pair c i j orig (.leaf b v), _, ?_, ?_, horig.pair hnew,
    open_pair hij orig .leaf, by simp⟩
  · have hdrop : ∀ z l, (c ++ z :: l).drop (c.length + 1) = l := by
      intro z l
      simp [List.drop_append]
    have hlen : ¬ c.length ≥ (c ++ x :: a).length := by simp
    rw [insert, getDiffIndex_parting c hxy]
    simp only [Option.bind_eq_bind, Option.bind_some, if_neg hlen, hdrop, hhash]
    exact split_parting hi hj orig _
  · rw [List.append_assoc, List.append_assoc]
    exact insert_short_parting v _ c hxy (a ++ [16]) (b ++ [16]) (slot_of_nibble hi)
      (slot_of_nibble hj)

/-- An extension is split. -/
theorem follows_ext_parting {c a b : Bytes} {y : UInt8}
    (hst : Rep keccak st (.full cs)) (hx : x.toNat < 16) (hy : y.toNat < 16) (hlt : x < y) :
    Follows keccak (.ext (c ++ x :: a) st) (.short (c ++ x :: a) (.full cs)) (c ++ y :: b) v := by
  have hxy : x ≠ y := by
    rintro rfl
    exact Std.Irrefl.irrefl x hlt
  rcases exists_nibble hx with ⟨i, hi⟩
  rcases exists_nibble hy with ⟨j, hj⟩
  have hij := lt_of_nibble hi hj hlt
  have hstne : st ≠ .nil := by
    rintro rfl
    cases hst
  have hnew : Rep keccak (.leaf b v) (insertNil (b ++ [16]) (.value v)) := by
    rw [insertNil, if_neg (by simp)]
    exact .leaf
  have hdrop : ∀ z l, (c ++ z :: l).drop (c.length + 1) = l := by
    intro z l
    simp [List.drop_append]
  have hlen : c.length ≠ (c ++ x :: a).length := by simp
  -- the rest of the extension, or its child where nothing is left
  have horig : ∃ n, (if c.length < (c ++ x :: a).length - 1 then .ext a st else st) = n ∧
      n ≠ .nil ∧ Rep keccak n (insertNil a (.full cs)) := by
    by_cases ha : a = []
    · refine ⟨st, ?_, hstne, ?_⟩
      · rw [if_neg (by simp [ha])]
      · rw [insertNil, if_pos ha]
        exact hst
    · have hpos := List.length_pos_iff.mpr ha
      refine ⟨.ext a st, ?_, by simp, ?_⟩
      · rw [if_pos]
        simp only [List.length_append, List.length_cons]
        omega
      · rw [insertNil, if_neg ha]
        exact .ext ha hst
  rcases horig with ⟨n, hn, hnne, hrep⟩
  rcases hrep.hash_eq hnne with ⟨orig, hhash, horig⟩
  refine ⟨pair c i j orig (.leaf b v), _, ?_, ?_, horig.pair hnew,
    open_pair hij orig .leaf, by simp⟩
  · rw [insert, getDiffIndex_parting c hxy]
    simp only [Option.bind_eq_bind, Option.bind_some, if_neg hlen, hdrop, hn, hhash]
    exact split_parting hi hj orig _
  · rw [List.append_assoc]
    exact insert_short_parting v _ c hxy a (b ++ [16]) (slot_of_nibble hi) (slot_of_nibble hj)

/-- The key goes on below an extension. -/
theorem Follows.ext {k₀ : Bytes} (hne : k₀ ≠ [])
    (h : Follows keccak st (.full cs) k v) :
    Follows keccak (.ext k₀ st) (.short k₀ (.full cs)) (k₀ ++ k) v := by
  rcases h with ⟨st', n', hins, hins', hrep, hopen, hfull⟩
  rcases hfull ⟨cs, rfl⟩ with ⟨cs', rfl⟩
  refine ⟨.ext k₀ st', .short k₀ (.full cs'), ?_, ?_, .ext hne hrep, .ext hopen, by simp⟩
  · rw [insert, getDiffIndex_append]
    simp only [Option.bind_eq_bind, Option.bind_some, if_true, List.drop_left, hins]
  · rw [List.append_assoc, insert_short_append v hne, hins']
    rfl

/-- Hashing an elder sibling changes neither what is stood for nor the later children. -/
theorem unresolve_spec (h : ∀ i : Fin 16, Rep keccak (sts i) (cs i.castSucc)) (idx : Fin 16) :
    ∃ elders, unresolve keccak sts idx = some elders ∧
      (∀ i : Fin 16, Rep keccak (elders i) (cs i.castSucc)) ∧
      ∀ i, idx ≤ i → elders i = sts i := by
  unfold unresolve
  cases helder : elder sts idx with
  | none => exact ⟨sts, rfl, h, fun _ _ => rfl⟩
  | some i =>
      have hi : i < idx ∧ (sts i).isNil = false := by
        simpa [elder] using List.find?_some helder
      have hne : sts i ≠ .nil := by
        intro hnil
        rw [hnil] at hi
        exact absurd hi.2 (by simp [isNil])
      rcases (h i).hash_eq hne with ⟨st', hhash, hrep⟩
      refine ⟨Function.update sts i st', by simp [hhash], ?_, ?_⟩
      · intro l
        by_cases hl : l = i
        · rw [hl, Function.update_self]
          exact hrep
        · rw [Function.update_of_ne hl]
          exact h l
      · intro l hl
        rw [Function.update_of_ne]
        exact Fin.ne_of_gt (Nat.lt_of_lt_of_le hi.1 hl)

/-- A changed child of a branch. -/
theorem Rep.update (hvalue : cs 16 = .nil) (h : ∀ i : Fin 16, Rep keccak (sts i) (cs i.castSucc))
    (hst : Rep keccak st n) :
    Rep keccak (.branch (Function.update sts i st))
      (.full (Function.update cs i.castSucc n)) := by
  refine .branch ?_ ?_
  · rw [Function.update_of_ne (castSucc_ne i).symm, hvalue]
  · intro l
    by_cases hl : l = i
    · rw [hl, Function.update_self, Function.update_self]
      exact hst
    · rw [Function.update_of_ne hl,
        Function.update_of_ne fun h => hl (Fin.castSucc_inj.mp h)]
      exact h l

/-- The key goes on below a child of a branch, or begins a new one. -/
theorem Follows.branch (hvalue : cs 16 = .nil)
    (h : ∀ i : Fin 16, Rep keccak (sts i) (cs i.castSucc))
    (hlast : ∀ l, i < l → sts l = .nil) (hij : i ≤ j)
    (hchild : i = j → Open (sts i) ∧ Follows keccak (sts i) (cs i.castSucc) k v) :
    Follows keccak (.branch sts) (.full cs) (UInt8.ofNat j :: k) v := by
  rcases unresolve_spec h j with ⟨elders, hun, helders, hsame⟩
  have hj : nibble (UInt8.ofNat j) = some j := nibble_eq_some.mpr rfl
  -- the child, below which the key goes on
  have hdown : ∃ st' n', (if (sts j).isNil then some (StackTrie.leaf k v)
      else insert keccak v (sts j) k) = some st' ∧
      Trie.insert v (cs j.castSucc) (k ++ [16]) = some (true, n') ∧ Rep keccak st' n' ∧
      Open st' := by
    by_cases heq : i = j
    · subst heq
      rcases hchild rfl with ⟨hopen, st', n', hins, hins', hrep, hopen', -⟩
      have hne : (sts i).isNil = false := by
        apply isNil_eq_false
        intro hnil
        rw [hnil] at hopen
        cases hopen
      exact ⟨st', n', by rw [hne]; exact hins, hins', hrep, hopen'⟩
    · have hnil := hlast j (Nat.lt_of_le_of_ne hij fun h => heq (Fin.ext h))
      have hrep := h j
      rw [hnil] at hrep
      refine ⟨.leaf k v, .short (k ++ [16]) (.value v), by rw [hnil]; rfl, ?_, .leaf, .leaf⟩
      rw [hrep.eq_nil]
      cases k <;> rfl
  rcases hdown with ⟨st', n', hins, hins', hrep, hopen⟩
  refine ⟨.branch (Function.update elders j st'), .full (Function.update cs j.castSucc n'), ?_, ?_,
    .update hvalue helders hrep, .branch j (by rwa [Function.update_self]) ?_, fun _ => ⟨_, rfl⟩⟩
  · rw [insert, hj]
    simp only [Option.bind_eq_bind, Option.bind_some, hun, hins]
  · have hfull := insert_full v cs j.castSucc (k ++ [16])
    rw [hins'] at hfull
    exact hfull
  · intro l hl
    rw [Function.update_of_ne (Fin.ne_of_gt hl), hsame l (Nat.le_of_lt hl)]
    exact hlast l (Nat.lt_of_le_of_lt hij hl)

/-- The keys of `n` are HEX keys. -/
def Hex (n : Node) : Prop := ∀ r u, Has n r u → Tail r

theorem Hex.short (h : Hex (.short k n)) : Hex n :=
  fun _ _ hr => (h _ _ (has_short_append.mpr hr)).of_append

theorem Hex.child (h : Hex (.full cs)) (i : Fin 17) : Hex (cs i) :=
  fun _ _ hr => Tail.of_append (c := [UInt8.ofNat i]) (h _ _ (has_full_cons.mpr hr))

/-- Inserting a key that comes after all others. -/
theorem insert_rep (hrep : Rep keccak st n) (hopen : Open st)
    (hhex : Hex n) (hk : IsNibbles k) (hbelow : Below n k) :
    Follows keccak st n k v := by
  -- a node that was hashed is not open: the keys come in order
  induction hrep generalizing k with
  | nil => cases hopen
  | hashed => cases hopen
  | @leaf k₀ v₀ =>
      have htail := hhex _ _ (has_leaf.mpr ⟨rfl, rfl⟩)
      exact follows_leaf htail.isNibbles hk (hbelow k₀ v₀ (has_leaf.mpr ⟨rfl, rfl⟩))
  | @ext k₀ st cs hne hst ih =>
      cases hopen with
      | ext hopen =>
          rcases hopen.exists_has hst with ⟨r, u, hr⟩
          have hkey : Has (.short k₀ (.full cs)) (k₀ ++ r ++ [16]) u := by
            rw [List.append_assoc]
            exact has_short_append.mpr hr
          have hbefore := hbelow _ _ hkey
          have hk₀ : IsNibbles k₀ := by
            have := (hhex _ _ hkey).isNibbles
            exact fun z hz => this z (List.mem_append_left _ hz)
          rcases Sys.prefix_or_parting k₀ k with ⟨k', rfl⟩ | hp | ⟨c, x, y, a, b, rfl, rfl, hxy⟩
          · exact .ext hne (ih hopen hhex.short (fun z hz => hk z (List.mem_append_right _ hz))
              hbelow.ext)
          · -- no key is a prefix of another
            exact absurd (hp.trans (List.prefix_append ..)) hbefore.apart.2
          · rw [List.append_assoc, Sys.before_append_left, List.cons_append,
              Sys.before_cons] at hbefore
            rcases hbefore with hlt | ⟨heq, -⟩
            · exact follows_ext_parting hst hk₀.parts.2.1 hk.parts.2.1 hlt
            · exact absurd heq hxy
  | @branch sts cs hvalue h ih =>
      cases hopen with
      | branch i hopen hlast =>
          rcases hopen.exists_has (h i) with ⟨r, u, hr⟩
          have hbefore := hbelow (UInt8.ofNat i.castSucc :: r) u (has_full_cons.mpr hr)
          cases k with
          | nil => exact absurd hbefore Sys.not_before_nil
          | cons y k =>
              rcases exists_nibble (hk y List.mem_cons_self) with ⟨j, hj⟩
              cases nibble_eq_some.mp hj
              -- the new key goes to the last child or after it
              have hij : i ≤ j := by
                rcases Sys.before_cons.mp hbefore with hlt | ⟨heq, -⟩
                · exact Nat.le_of_lt (lt_of_nibble (nibble_eq_some.mpr rfl) hj hlt)
                · have hi : nibble (UInt8.ofNat i) = some i := nibble_eq_some.mpr rfl
                  have heq' : UInt8.ofNat i = UInt8.ofNat j := heq
                  rw [heq', hj] at hi
                  exact Nat.le_of_eq (congrArg Fin.val (Option.some.inj hi).symm)
              refine .branch hvalue h hlast hij ?_
              rintro rfl
              exact ⟨hopen, ih i hopen (hhex.child _) (fun z hz => hk z (List.mem_cons_of_mem _ hz))
                (Below.child (i := i.castSucc) hbelow)⟩

/-! ## Runs -/

theorem before_nibbles {a b : Bytes} (h : Before a b) : Before (nibbles a) (nibbles b) := by
  rcases h with ⟨c, x, y, a', b', rfl, rfl, hlt⟩
  have hparts : ∀ z l, nibbles (c ++ z :: l) = nibbles c ++ z / 16 :: z % 16 :: nibbles l := by
    intro z l
    simp [nibbles]
  have hlt' : x.toNat < y.toNat := UInt8.lt_iff_toNat_lt.mp hlt
  rw [hparts, hparts, Sys.before_append_left, Sys.before_cons]
  -- the high halves differ, or the low ones
  by_cases hhigh : x / 16 = y / 16
  · refine .inr ⟨hhigh, Sys.before_cons.mpr (.inl ?_)⟩
    have hdiv := congrArg UInt8.toNat hhigh
    rw [UInt8.lt_iff_toNat_lt]
    simp only [UInt8.toNat_div, UInt8.toNat_mod, UInt8.reduceToNat] at hdiv ⊢
    omega
  · left
    rw [UInt8.lt_iff_toNat_lt]
    have hdiv : (x / 16).toNat ≠ (y / 16).toNat := fun h => hhigh (UInt8.toNat_inj.mp h)
    simp only [UInt8.toNat_div, UInt8.reduceToNat] at hdiv ⊢
    omega

/-- The stack trie after a list of updates. -/
def updates (keccak : Bytes → Hash) (kvs : List (Bytes × Bytes)) : Option StackTrie :=
  kvs.foldlM (fun st kv => tryUpdate keccak st kv.1 kv.2) .empty

/-- The same updates for a plain trie. -/
def writes (kvs : List (Bytes × Bytes)) : List Write := kvs.map fun kv => .update kv.1 kv.2

/-- `st` and the trie with root `n` are at the same point. -/
def Stands (keccak : Bytes → Hash) (st : StackTrie) (n : Node) : Prop :=
  (st = .empty ∧ n = .nil) ∨ (Rep keccak st n ∧ Open st)

theorem mem_of_contents_writes {u : Bytes}
    (h : contents (writes kvs) key = some u) : key ∈ kvs.map Prod.fst := by
  induction kvs using List.reverseRecOn with
  | nil => cases h
  | append_singleton kvs kv ih =>
      rw [contents, writes, List.map_append, List.foldl_append] at h
      rw [List.map_append, List.mem_append]
      by_cases heq : key = kv.1
      · exact .inr (by simp [heq])
      · have h' : contents (writes kvs) key = some u := by
          simpa [contents, writes, Write.apply, Function.update_of_ne heq] using h
        exact .inl (ih h')

/-- Different keys: the map has each of them with its value. -/
theorem contents_writes_eq_some (hkeys : (kvs.map Prod.fst).Nodup)
    (hvals : ∀ kv ∈ kvs, kv.2 ≠ []) :
    contents (writes kvs) key = some v ↔ (key, v) ∈ kvs := by
  induction kvs using List.reverseRecOn with
  | nil => simp [contents, writes]
  | append_singleton kvs kv ih =>
      rw [List.map_append, List.nodup_append'] at hkeys
      have ih' := ih hkeys.1 fun x hx => hvals x (List.mem_append_left _ hx)
      have hv : kv.2 ≠ [] := hvals kv (by simp)
      have hstep : contents (writes (kvs ++ [kv])) key =
          if key = kv.1 then some kv.2 else contents (writes kvs) key := by
        simp [contents, writes, Write.apply, hv, Function.update_apply]
      rw [hstep, List.mem_append, List.mem_singleton]
      by_cases heq : key = kv.1
      · -- the last key occurs nowhere else
        have hnot : (key, v) ∉ kvs := by
          intro hmem
          exact hkeys.2.2 (List.mem_map_of_mem hmem) (by simp [heq])
        simp only [if_pos heq, Option.some.injEq, hnot, false_or]
        constructor
        · rintro rfl
          exact Prod.ext heq rfl
        · rintro rfl
          rfl
      · rw [if_neg heq, ih', or_iff_left]
        rintro rfl
        exact heq rfl

/-- The order of updates with different keys does not matter. -/
theorem contents_writes_perm {kvs' : List (Bytes × Bytes)} (hp : kvs.Perm kvs')
    (hkeys : (kvs.map Prod.fst).Nodup) (hvals : ∀ kv ∈ kvs, kv.2 ≠ []) :
    contents (writes kvs) = contents (writes kvs') := by
  funext key
  apply Option.ext
  intro v
  rw [contents_writes_eq_some hkeys hvals,
    contents_writes_eq_some ((hp.map _).nodup_iff.mp hkeys) fun kv hkv => hvals kv (hp.mem_iff.mpr hkv),
    hp.mem_iff]

/-- One more update, with a key after all others. -/
theorem Stands.update {m : Bytes → Option Bytes}
    (h : Stands keccak st n) (href : Refines n m)
    (hkeys : ∀ key' u, m key' = some u → Before key' key) (hv : v ≠ []) :
    ∃ st' n', tryUpdate keccak st key v = some st' ∧ Trie.tryUpdate n key v = some n' ∧
      Stands keccak st' n' := by
  have hdrop : (keybytesToHex key).dropLast = nibbles key := List.dropLast_concat
  rw [tryUpdate, Trie.tryUpdate, if_neg hv, if_neg hv, hdrop]
  rcases h with ⟨rfl, rfl⟩ | ⟨hrep, hopen⟩
  · refine ⟨.leaf (nibbles key) v, .short (nibbles key ++ [16]) (.value v), rfl, ?_,
      .inr ⟨.leaf, .leaf⟩⟩
    rw [keybytesToHex]
    cases nibbles key <;> rfl
  · have hhex : Hex n := by
      intro r u hr
      rcases (href.has r u).mp hr with ⟨key', rfl, -⟩
      exact tail_keybytesToHex key'
    have hbelow : Below n (nibbles key) := by
      intro r u hr
      rcases (href.has _ u).mp hr with ⟨key', heq, hkey'⟩
      rw [List.append_cancel_right heq]
      exact before_nibbles (hkeys key' u hkey')
    rcases insert_rep hrep hopen hhex (isNibbles_nibbles key) (v := v) hbelow with
      ⟨st', n', hins, hins', hrep', hopen', -⟩
    exact ⟨st', n', hins, by rw [keybytesToHex, hins']; rfl, .inr ⟨hrep', hopen'⟩⟩

theorem stands_updates (hkeys : (kvs.map Prod.fst).Pairwise Before)
    (hvals : ∀ kv ∈ kvs, kv.2 ≠ []) :
    ∃ st n, updates keccak kvs = some st ∧ runWrites (writes kvs) = some n ∧
      Stands keccak st n := by
  induction kvs using List.reverseRecOn with
  | nil => exact ⟨.empty, .nil, rfl, rfl, .inl ⟨rfl, rfl⟩⟩
  | append_singleton kvs kv ih =>
      rw [List.map_append, List.pairwise_append] at hkeys
      rcases ih hkeys.1 fun x hx => hvals x (List.mem_append_left _ hx) with
        ⟨st, n, hst, hn, hstands⟩
      rcases refines_runWrites (writes kvs) with ⟨n₀, hn₀, href⟩
      rw [hn] at hn₀
      cases hn₀
      have hbefore : ∀ key' u, contents (writes kvs) key' = some u → Before key' kv.1 :=
        fun key' u h => hkeys.2.2 key' (mem_of_contents_writes h) kv.1 (by simp)
      rcases hstands.update href hbefore (hvals kv (by simp)) with ⟨st', n', hst', hn', hstands'⟩
      refine ⟨st', n', ?_, ?_, hstands'⟩
      · rw [updates] at hst ⊢
        rw [List.foldlM_append, hst]
        simpa using hst'
      · rw [runWrites, writes] at hn ⊢
        rw [List.map_append, List.foldlM_append, hn]
        simpa [Write.run] using hn'

theorem Stands.rootHash_eq (h : Stands keccak st n) :
    st.rootHash keccak = some (Trie.rootHash keccak n) := by
  rcases h with ⟨rfl, rfl⟩ | ⟨hrep, hopen⟩
  · simp [rootHash, hashRec, Trie.rootHash, Node.isNil]
  · have hne : st ≠ .nil := by
      rintro rfl
      cases hopen
    have hnil : n.isNil = false := Node.isNil_of_isInner (hrep.isInner hne)
    rw [rootHash, hrep.hashRec_eq hne, Trie.rootHash, hnil]
    simp only [Option.bind_eq_bind, Option.bind_some, sealed, Bool.false_eq_true, if_false]
    by_cases hlen : (enc keccak n).length < 32
    · rw [if_pos hlen, if_neg (Nat.ne_of_lt hlen)]
    · rw [if_neg hlen, if_pos (Hash.length_bytes _), bytesToHash_bytes]

/-- A stack trie that gets its keys in increasing order, none of them a prefix of a later one,
takes them all, and its hash is the root hash of the trie with the same contents, in whatever
order that one was written. -/
theorem rootHash_updates_eq (keccak : Bytes → Hash) (kvs : List (Bytes × Bytes))
    (hkeys : (kvs.map Prod.fst).Pairwise fun a b => a < b ∧ ¬ a <+: b)
    (hvals : ∀ kv ∈ kvs, kv.2 ≠ []) (ws : List Write)
    (hws : contents ws = contents (writes kvs)) :
    ∃ st root, updates keccak kvs = some st ∧ runWrites ws = some root ∧
      st.rootHash keccak = some (Trie.rootHash keccak root) := by
  have hbefore := hkeys.imp fun h => Sys.before_iff.mpr h
  rcases @stands_updates keccak kvs hbefore hvals with ⟨st, n, hst, hn, hstands⟩
  exact ⟨st, n, hst, by rw [runWrites_congr hws, hn], hstands.rootHash_eq⟩

/-- Three keys, two of them with a common nibble, against a trie written the other way round. -/
theorem rootHash_updates_three :
    ∃ st root, updates (fun _ => 0) [([0x12], [1]), ([0x13], [2]), ([0x80, 0], [3])] = some st ∧
      runWrites [.update [0x80, 0] [3], .update [0x13] [2], .update [0x12] [1]] = some root ∧
      st.rootHash (fun _ => 0) = some (Trie.rootHash (fun _ => 0) root) := by
  refine rootHash_updates_eq _ [([0x12], [1]), ([0x13], [2]), ([0x80, 0], [3])] (by decide)
    (by decide) _ ?_
  funext key
  simp only [contents, writes, List.foldl_cons, List.foldl_nil, List.map_cons, List.map_nil,
    Write.apply, Function.update_apply]
  split_ifs <;> simp_all

end Hashing

end StackTrie

end Trie

end LessChain
