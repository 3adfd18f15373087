import LessChain.Committee.MerkleProof
import LessChain.Trie.Database

/-!
# A trie that is loaded on demand behaves as one that is in memory

`Rep` relates a node in memory, with hashes in place of some nodes below it, to the whole trie
it stands for: the database has every node that is behind a hash, a hash that a node carries
is its own, and a node that is not dirty is in the database with all that is below it. Every
operation on the one gives the result of the operation on the other and keeps the relation.

The database holds the stored forms of nodes under their hashes. So what it returns for a hash
is the node that was stored, unless two stored forms collide. As elsewhere this is assumed for
the byte strings that were in fact stored (`Separated`).
-/

namespace LessChain

namespace Trie

open Sys.Rlp (encodeString encodeList)

variable {keccak : Bytes → Hash}

/-! ## Stored nodes -/

variable (keccak) in
/-- A node as `commit` stores it. -/
def stored : Node → Node
  | .short key val => .short (hexToCompact key)
      (if val.isInner then
        if (enc keccak val).length < 32 then stored val else .hash (nodeHash keccak val)
      else val)
  | .full children => .full fun i =>
      if (children i).isInner then
        if (enc keccak (children i)).length < 32 then stored (children i)
        else .hash (nodeHash keccak (children i))
      else children i
  | n => n

variable (keccak) in
/-- A child of a stored node. -/
def storedRef (n : Node) : Node :=
  if n.isInner then
    if (enc keccak n).length < 32 then stored keccak n else .hash (nodeHash keccak n)
  else n

theorem stored_short (key : Bytes) (val : Node) :
    stored keccak (.short key val) = .short (hexToCompact key) (storedRef keccak val) := rfl

theorem stored_full (children : Fin 17 → Node) :
    stored keccak (.full children) = .full fun i => storedRef keccak (children i) := rfl

/-- A node as it stands in its parent, in the two stages of hashing. -/
theorem encode_storedRef {n : Node} (h : (stored keccak n).encode = enc keccak n) :
    (storedRef keccak n).encode =
      (if n.isInner then toHash keccak (collapse keccak n) false else n).encode := by
  rw [storedRef]
  by_cases hinner : n.isInner = true
  · rw [if_pos hinner, if_pos hinner]
    by_cases hlen : (enc keccak n).length < 32
    · have hsmall : toHash keccak (collapse keccak n) false = collapse keccak n :=
        if_pos ⟨hlen, rfl⟩
      rw [if_pos hlen, h, hsmall]
      rfl
    · rw [if_neg hlen, toHash_of_le (Nat.not_lt.mp hlen)]
  · rw [if_neg hinner, if_neg hinner]

/-- The encoding of what is stored is what was hashed. -/
theorem IsHex.encode_stored {n : Node} (h : IsHex n) : (stored keccak n).encode = enc keccak n := by
  induction h with
  | leaf hk => rfl
  | @ext k cs hk hcs ih =>
      rw [stored_short, Node.encode, encode_storedRef ih]
      rfl
  | @full cs h16 hcs ih =>
      -- `hashChildren` leaves the value slot alone and writes an empty slot as an empty value
      have hchild : ∀ i, (storedRef keccak (cs i)).encode =
          (if i = 16 then cs i
            else if (cs i).isNil then .value []
            else if (cs i).isInner then toHash keccak (collapse keccak (cs i)) false
            else cs i).encode := by
        intro i
        cases i using Fin.lastCases with
        | last =>
            rw [if_pos (show Fin.last 16 = (16 : Fin 17) from rfl)]
            -- the value slot
            rcases h16 with hnil | ⟨v, -, hv⟩
            · rw [hnil]
              rfl
            · rw [hv]
              rfl
        | cast i =>
            rw [if_neg (castSucc_ne i)]
            -- another slot: empty, or a node that was hashed before its parent
            rcases nil_or_isHex (hcs i) with hnil | hchild
            · rw [hnil]
              rfl
            · rw [if_neg (by simp [Node.isNil_of_isInner hchild.isInner]),
                encode_storedRef (ih i (by intro hnil; rw [hnil] at hchild; cases hchild))]
      rw [stored_full, Node.encode]
      simp only [hchild]
      rfl

/-- What is read back from memory is what is read back from disk. -/
theorem IsHex.expandNode_stored {n : Node} (h : IsHex n) (hash : Option Bytes) :
    expandNode hash (stored keccak n) = flagged hash (reread keccak n) := by
  -- a child is either expanded with its parent or stays a hash
  have href : ∀ {n : Node}, (∀ hash, expandNode hash (stored keccak n) =
      flagged hash (reread keccak n)) →
        expandNode none (storedRef keccak n) = flagged none (slotRef keccak n) := by
    intro n ih
    rw [storedRef, slotRef]
    split
    · split
      · exact ih none
      · rfl
    · cases n <;> first | rfl | contradiction
  -- the hash is general: only the root of what is expanded gets one
  induction h generalizing hash with
  | @leaf k v hk =>
      rw [stored_short, expandNode, (compactToHex_hexToCompact hk).2]
      rfl
  | @ext k cs hk hcs ih =>
      rw [stored_short, expandNode, (compactToHex_hexToCompact hk).1, href ih]
      rfl
  | @full cs h16 hcs ih =>
      rw [stored_full, expandNode, reread_full, flagged]
      congr 1
      funext i
      cases i using Fin.lastCases with
      | last =>
          rcases h16 with hnil | ⟨v, -, hv⟩
          · rw [hnil]
            rfl
          · rw [hv]
            rfl
      | cast i =>
          rcases nil_or_isHex (hcs i) with hnil | hchild
          · rw [hnil]
            rfl
          · exact href (ih i (by intro hnil; rw [hnil] at hchild; cases hchild))

/-! ## What the database holds -/

variable (keccak) in
/-- The hashes of these byte strings tell them apart, and none is one of the two hashes that
stand for an empty trie. The size fields of RLP headers can hold their sizes. -/
structure Separated (S : Set Bytes) : Prop where
  small : ∀ b ∈ S, b.length < 2 ^ 64
  inj : Set.InjOn keccak S
  ne_zero : ∀ b ∈ S, keccak b ≠ 0
  ne_emptyRoot : ∀ b ∈ S, keccak b ≠ emptyRoot

variable (keccak) in
/-- A trie whose nodes are stored as byte strings of `S`. -/
structure Known (S : Set Bytes) (n : Node) : Prop where
  isHex : IsHex n
  mem : ∀ m ∈ subnodes n, enc keccak m ∈ S

variable {S : Set Bytes}

theorem Known.small {n : Node} (hS : Separated keccak S) (h : Known keccak S n) :
    Small keccak n :=
  fun m hm => hS.small _ (h.mem m hm)

theorem Known.enc_mem {n : Node} (h : Known keccak S n) : enc keccak n ∈ S :=
  h.mem n h.isHex.mem_subnodes

variable {key : Bytes} {cs : Fin 17 → Node}

theorem Known.below {k : Bytes} (h : Known keccak S (.short k (.full cs))) :
    Known keccak S (.full cs) := by
  refine ⟨?_, fun m hm => h.mem m (List.mem_cons_of_mem _ hm)⟩
  cases h.isHex with
  | ext _ hcs => exact hcs

theorem Known.child (h : Known keccak S (.full cs)) (i : Fin 16)
    (hi : cs i.castSucc ≠ .nil) : Known keccak S (cs i.castSucc) := by
  refine ⟨?_, fun m hm => h.mem m (mem_subnodes_child hm)⟩
  cases h.isHex with
  | full _ hcs => exact hcs i hi

/-- The database has a node under the hash. -/
def Database.Has (db : Database) (h : Hash) : Prop :=
  (db.dirties h).isSome = true ∨ (db.diskdb h).isSome = true

variable (keccak S) in
/-- The database holds stored forms of nodes, under their hashes. -/
structure Database.Ok (db : Database) : Prop where
  dirties : ∀ {h : Hash} {r : Node}, db.dirties h = some r →
    ∃ m, Known keccak S m ∧ h = keccak (enc keccak m) ∧ r = stored keccak m
  diskdb : ∀ {h : Hash} {b : Bytes}, db.diskdb h = some b →
    ∃ m, Known keccak S m ∧ h = keccak (enc keccak m) ∧ b = enc keccak m

variable (keccak) in
/-- The node that `resolveHash` returns. -/
def loaded (n : Node) : Live := flagged (some (nodeHash keccak n)) (reread keccak n)

theorem reread_eq_of_enc_eq (hS : Separated keccak S) {n m : Node} (hn : Known keccak S n)
    (hm : Known keccak S m) (h : enc keccak n = enc keccak m) :
    reread keccak n = reread keccak m := by
  have hread := hn.isHex.mustDecodeNode_enc (hn.small hS)
  rw [h, hm.isHex.mustDecodeNode_enc (hm.small hS)] at hread
  exact (Option.some.inj hread).symm

/-- What the database has for the hash of a node is that node. -/
theorem Database.Ok.resolveHash_eq {db : Database} (hdb : db.Ok keccak S)
    (hS : Separated keccak S) {n : Node} (hn : Known keccak S n)
    (hhas : db.Has (keccak (enc keccak n))) :
    db.resolveHash (nodeHash keccak n) = some (loaded keccak n) := by
  have hne := hS.ne_zero _ hn.enc_mem
  rw [Database.resolveHash, nodeHash, bytesToHash_bytes, Database.node, if_neg hne]
  cases hdirty : db.dirties (keccak (enc keccak n)) with
  -- in memory: `expandNode` of the stored form
  | some r =>
      rcases hdb.dirties hdirty with ⟨m, hm, hhash, rfl⟩
      have henc := hS.inj hn.enc_mem hm.enc_mem hhash
      rw [loaded, reread_eq_of_enc_eq hS hn hm henc]
      exact congrArg some (hm.isHex.expandNode_stored _)
  | none =>
      rcases hhas with hhas | hhas
      · rw [hdirty] at hhas
        cases hhas
      · -- on disk: the stored bytes are decoded
        rcases Option.isSome_iff_exists.mp hhas with ⟨b, hb⟩
        rcases hdb.diskdb hb with ⟨m, hm, hhash, rfl⟩
        have henc := hS.inj hn.enc_mem hm.enc_mem hhash
        simp only [hb, Option.bind_some]
        rw [← henc, hn.isHex.mustDecodeNode_enc (hn.small hS)]
        rfl

variable (keccak) in
/-- The nodes of the trie that are not in their parents are in the database. -/
def Kept (db : Database) (n : Node) : Prop :=
  ∀ m ∈ subnodes n, 32 ≤ (enc keccak m).length → db.Has (keccak (enc keccak m))

variable (keccak) in
/-- The trie is in the database, with its root. -/
def Stored (db : Database) (n : Node) : Prop :=
  db.Has (keccak (enc keccak n)) ∧ Kept keccak db n

variable {db db' : Database}

theorem Kept.mono {n : Node} (h : Kept keccak db n) (hle : ∀ h, db.Has h → db'.Has h) :
    Kept keccak db' n :=
  fun m hm hlen => hle _ (h m hm hlen)

theorem Stored.mono {n : Node} (h : Stored keccak db n) (hle : ∀ h, db.Has h → db'.Has h) :
    Stored keccak db' n :=
  ⟨hle _ h.1, h.2.mono hle⟩

theorem Kept.below {k : Bytes} {n : Node} (h : Kept keccak db (.short k n)) : Kept keccak db n :=
  fun m hm => h m (List.mem_cons_of_mem _ hm)

theorem Kept.child (h : Kept keccak db (.full cs)) (i : Fin 17) :
    Kept keccak db (cs i) :=
  fun m hm => h m (mem_subnodes_child hm)

theorem Kept.stored {n : Node} (h : Kept keccak db n) (hn : IsHex n)
    (hlen : 32 ≤ (enc keccak n).length) : Stored keccak db n :=
  ⟨h n hn.mem_subnodes hlen, h⟩

/-! ## The trie behind a node in memory -/

variable (keccak) in
/-- The node has a hash: it is the root, or too large for its parent. -/
def Sized (force : Bool) (n : Node) : Prop := force = true ∨ 32 ≤ (enc keccak n).length

variable (keccak S) in
/-- What the flags say of the node. If the nodes are `hashed`, none is without the hash that it
has. A node without a hash that is not dirty was read as a part of its parent. -/
structure FlagsOk (db : Database) (force hashed : Bool) (flags : NodeFlag) (n : Node) : Prop where
  hash : ∀ h, flags.hash = some h → h = nodeHash keccak n
  sized : flags.hash.isSome = true → Sized keccak force n
  clean : flags.hash.isSome = true → flags.dirty = false →
    Known keccak S n ∧ Stored keccak db n
  hashed : hashed = true → Sized keccak force n → flags.hash.isSome = true
  embedded : flags.hash = none → flags.dirty = false → ¬ Sized keccak force n

variable (keccak S) in
/-- The node in memory stands for the trie. Below a node that has its hash, all nodes are
hashed. -/
inductive Rep (db : Database) : Bool → Bool → Live → Node → Prop
  | nil {force hashed : Bool} : Rep db force hashed .nil .nil
  | value {force hashed : Bool} {v : Bytes} : Rep db force hashed (.value v) (.value v)
  | hash {force hashed : Bool} {n : Node} (hn : Known keccak S n) (hsize : Sized keccak force n)
      (hst : Stored keccak db n) : Rep db force hashed (.hash (nodeHash keccak n)) n
  | short {force hashed : Bool} {k : Bytes} {l : Live} {flags : NodeFlag} {n : Node}
      (hf : FlagsOk keccak S db force hashed flags (.short k n))
      (h : Rep db false (hashed || flags.hash.isSome) l n) :
      Rep db force hashed (.short k l flags) (.short k n)
  | full {force hashed : Bool} {ls : Fin 17 → Live} {flags : NodeFlag} {ns : Fin 17 → Node}
      (hf : FlagsOk keccak S db force hashed flags (.full ns))
      (h : ∀ i, Rep db false (hashed || flags.hash.isSome) (ls i) (ns i)) :
      Rep db force hashed (.full ls flags) (.full ns)

variable {force hashed : Bool} {l : Live} {n : Node} {flags : NodeFlag}

theorem FlagsOk.mono (h : FlagsOk keccak S db force hashed flags n) {hashed' : Bool}
    (himp : hashed' = true → hashed = true) (hle : ∀ h, db.Has h → db'.Has h) :
    FlagsOk keccak S db' force hashed' flags n :=
  ⟨h.hash, h.sized, fun hsome hclean => ⟨(h.clean hsome hclean).1, (h.clean hsome hclean).2.mono hle⟩,
    fun hh => h.hashed (himp hh), h.embedded⟩

/-- The relation is kept when the database grows, and when less is said about hashes. -/
theorem Rep.mono (h : Rep keccak S db force hashed l n) {hashed' : Bool}
    (himp : hashed' = true → hashed = true) (hle : ∀ h, db.Has h → db'.Has h) :
    Rep keccak S db' force hashed' l n := by
  induction h generalizing hashed' with
  | nil => exact .nil
  | value => exact .value
  | hash hn hsize hst => exact .hash hn hsize (hst.mono hle)
  | short hf h ih =>
      refine .short (hf.mono himp hle) (ih ?_)
      -- the node has its hash, or one above it has
      intro hor
      rw [Bool.or_eq_true] at hor ⊢
      exact hor.imp himp id
  | full hf h ih =>
      refine .full (hf.mono himp hle) fun i => ih i ?_
      intro hor
      rw [Bool.or_eq_true] at hor ⊢
      exact hor.imp himp id

theorem Rep.weaken (h : Rep keccak S db force hashed l n) : Rep keccak S db force false l n :=
  h.mono (by simp) fun _ => id

/-- A node without a hash: it is dirty and nothing is said of hashes, or it is too small. -/
theorem flagsOk_none {dirty : Bool}
    (h : hashed = true ∨ dirty = false → ¬ Sized keccak force n) :
    FlagsOk keccak S db force hashed ⟨none, dirty⟩ n where
  hash := nofun
  sized := nofun
  clean := nofun
  hashed hh hsize := absurd hsize (h (.inl hh))
  embedded _ hclean := h (.inr hclean)

theorem flagsOk_newFlag : FlagsOk keccak S db force false newFlag n := flagsOk_none (by simp)

theorem Rep.new_short {k : Bytes} (h : Rep keccak S db false hashed l n) :
    Rep keccak S db force false (.short k l newFlag) (.short k n) :=
  .short flagsOk_newFlag h.weaken

theorem Rep.new_full {ls : Fin 17 → Live} {ns : Fin 17 → Node}
    (h : ∀ i, Rep keccak S db false false (ls i) (ns i)) :
    Rep keccak S db force false (.full ls newFlag) (.full ns) :=
  .full flagsOk_newFlag h

theorem Rep.isNil_eq (h : Rep keccak S db force hashed l n) : l.isNil = n.isNil := by
  cases h with
  | hash hn _ _ => exact (Node.isNil_of_isInner hn.isHex.isInner).symm
  | _ => rfl

/-- The node that was read back stands for the trie. -/
theorem rep_flagged (hn : Known keccak S n) (hkept : Kept keccak db n) {hash : Option Bytes}
    (hf : FlagsOk keccak S db force true ⟨hash, false⟩ n) :
    Rep keccak S db force true (flagged hash (reread keccak n)) n := by
  -- a slot holds a small node itself, without a hash, and of another one the hash
  have hslot : ∀ {n : Node}, Known keccak S n → Kept keccak db n →
      (∀ {force : Bool} {hash : Option Bytes}, FlagsOk keccak S db force true ⟨hash, false⟩ n →
        Rep keccak S db force true (flagged hash (reread keccak n)) n) →
      Rep keccak S db false true (flagged none (slotRef keccak n)) n := by
    intro n hn hkept ih
    rw [slotRef, if_pos hn.isHex.isInner]
    by_cases hlen : (enc keccak n).length < 32
    · rw [if_pos hlen]
      -- so small a node was never hashed
      have hnot : ¬ Sized keccak false n := by
        rintro (hforce | hle)
        · cases hforce
        · omega
      exact ih (flagsOk_none fun _ => hnot)
    · rw [if_neg hlen]
      exact .hash hn (.inr (Nat.not_lt.mp hlen)) (hkept.stored hn.isHex (Nat.not_lt.mp hlen))
  have hhex := hn.isHex
  -- below a node that was read all nodes are hashed
  induction hhex generalizing force hash with
  | @leaf k v hk => exact .short hf .value
  | @ext k cs hk hcs ih =>
      exact .short hf (hslot hn.below hkept.below fun hf' => ih hn.below hkept.below hf')
  | @full cs h16 hcs ih =>
      refine .full hf fun i => ?_
      rw [Bool.true_or]
      show Rep keccak S db false true (flagged none (slotRef keccak (cs i))) (cs i)
      cases i using Fin.lastCases with
      | last =>
          rcases h16 with hnil | ⟨v, -, hv⟩
          · rw [hnil]
            exact .nil
          · rw [hv]
            exact .value
      | cast i =>
          by_cases hi : cs i.castSucc = .nil
          · rw [hi]
            exact .nil
          · exact hslot (hn.child i hi) (hkept.child _) fun hf' =>
              ih i hi (hn.child i hi) (hkept.child _) hf'

theorem rep_loaded (hn : Known keccak S n) (hsize : Sized keccak force n)
    (hst : Stored keccak db n) : Rep keccak S db force true (loaded keccak n) n := by
  refine rep_flagged hn hst.2 ⟨?_, fun _ => hsize, fun _ _ => ⟨hn, hst⟩, fun _ _ => rfl, ?_⟩
  · intro h heq
    exact (Option.some.inj heq).symm
  · intro hnone
    cases hnone

theorem IsHex.isHash_loaded (h : IsHex n) : (loaded keccak n).isHash = false := by
  cases h <;> rfl

/-- A node in memory is no hash, or the database has what it is the hash of. -/
theorem Rep.cases_hash (h : Rep keccak S db force hashed l n) (hS : Separated keccak S)
    (hdb : db.Ok keccak S) : l.isHash = false ∨
      ∃ h, l = .hash h ∧ db.resolveHash h = some (loaded keccak n) ∧ n.isInner = true ∧
        Rep keccak S db force true (loaded keccak n) n ∧ (loaded keccak n).isHash = false := by
  cases h with
  | hash hn hsize hst =>
      exact .inr ⟨_, rfl, hdb.resolveHash_eq hS hn hst.1, hn.isHex.isInner,
        rep_loaded hn hsize hst, hn.isHex.isHash_loaded⟩
  | _ => exact .inl rfl

/-- What holds of a node in memory that is no hash, with two steps for each symbol, holds of a
hash with one step more. -/
theorem Rep.load {P : Live → ℕ → Prop} (h : Rep keccak S db force hashed l n)
    (hS : Separated keccak S) (hdb : db.Ok keccak S) {len fuel : ℕ}
    (hlen : n.isInner = true → 0 < len) (hfuel : 2 * len + 1 ≤ fuel)
    (hcore : ∀ {hashed' : Bool} {l : Live} {k : ℕ}, Rep keccak S db force hashed' l n →
      (hashed = true → hashed' = true) → l.isHash = false → k < fuel → 2 * len ≤ k + 1 →
      P l (k + 1))
    (hhash : ∀ {k : ℕ} {h : Bytes}, n.isInner = true → Rep keccak S db force true (loaded keccak n) n →
      db.resolveHash h = some (loaded keccak n) → P (loaded keccak n) k → P (.hash h) (k + 1)) :
    P l fuel := by
  cases fuel with
  | zero => omega
  | succ fuel =>
      -- one step reads the node of a hash, and the node it gives is none
      rcases h.cases_hash hS hdb with hl | ⟨hash, rfl, hres, hinner, hrep, hnot⟩
      · exact hcore h id hl (by omega) (by omega)
      · have hpos := hlen hinner
        cases fuel with
        | zero => omega
        | succ fuel =>
            exact hhash hinner hrep hres (hcore hrep (fun _ => rfl) hnot (by omega) (by omega))

/-! ## Keys -/

/-- Below a short node a terminated key is still one, where it matters. -/
theorem Canon.term_below {k r : Bytes} (h : Canon (.short k n)) (hr : IsTerm (k ++ r)) :
    n.isInner = true → IsTerm r := by
  intro hinner
  cases h with
  | leaf => cases hinner
  | ext _ hk _ => exact hr.of_append hk

theorem Canon.term_child (h : Canon (.full cs)) {i : Fin 17} {r : Bytes}
    (hr : IsTerm (UInt8.ofNat i :: r)) : (cs i).isInner = true → IsTerm r := by
  intro hinner
  rcases hr.cons_cases with ⟨_, -, hterm⟩ | ⟨hx, -⟩
  · exact hterm
  · have hi : i = Fin.last 16 := ofNat_slot_injective hx
    cases h with
    | full h16 _ _ =>
        have hlast : cs (Fin.last 16) = .nil ∨ ∃ v, cs (Fin.last 16) = .value v := h16
        rw [hi] at hinner
        rcases hlast with hnil | ⟨v, hv⟩
        · rw [hnil] at hinner
          cases hinner
        · rw [hv] at hinner
          cases hinner

theorem Canon.val {k : Bytes} (h : Canon (.short k n)) : n ≠ .nil → Canon n := by
  intro _
  cases h with
  | leaf _ _ hv => exact .value hv
  | ext _ _ hcs => exact hcs

theorem Canon.child (h : Canon (.full cs)) (i : Fin 17) :
    cs i ≠ .nil → Canon (cs i) := by
  cases h with
  | full _ _ hcs => exact hcs i

theorem Canon.key_ne_nil {k : Bytes} (h : Canon (.short k n)) : k ≠ [] := by
  cases h with
  | leaf hk _ _ => exact hk
  | ext hk _ _ => exact hk

theorem IsTerm.pos {r : Bytes} (h : IsTerm r) : 0 < r.length := List.length_pos_iff.mpr h.ne_nil

theorem prefix_of_prefixLen {a k : Bytes} (h : prefixLen a k = k.length) : k <+: a := by
  induction k generalizing a with
  | nil => exact List.nil_prefix
  | cons y k ih =>
      cases a with
      | nil => cases h
      | cons x a =>
          rw [prefixLen] at h
          split at h
          · rename_i hxy
            rw [hxy]
            exact List.cons_prefix_cons.mpr ⟨rfl, ih (Nat.succ.inj h)⟩
          · cases h

theorem prefixLen_le (a k : Bytes) : prefixLen a k ≤ k.length := by
  induction k generalizing a with
  | nil => cases a <;> exact Nat.le_refl _
  | cons y k ih =>
      cases a with
      | nil => exact Nat.zero_le _
      | cons x a =>
          rw [prefixLen]
          split
          · exact Nat.succ_le_succ (ih a)
          · exact Nat.zero_le _

theorem IsTerm.exists_slot {r : Bytes} (h : IsTerm r) :
    ∃ (i : Fin 17) (rest : Bytes), r = UInt8.ofNat i :: rest := by
  rcases List.exists_cons_of_ne_nil h.ne_nil with ⟨x, rest, rfl⟩
  rcases h.cons_cases with ⟨i, hi, -⟩ | ⟨hx, -⟩
  · exact ⟨i.castSucc, rest, by rw [hi]⟩
  · exact ⟨Fin.last 16, rest, by rw [hx]; rfl⟩

/-- One child is replaced. -/
theorem rep_update {ls : Fin 17 → Live} {ns : Fin 17 → Node}
    (h : ∀ i, Rep keccak S db false hashed (ls i) (ns i)) {i : Fin 17}
    (hi : Rep keccak S db false hashed l n) (j : Fin 17) :
    Rep keccak S db false hashed (Function.update ls i l j) (Function.update ns i n j) := by
  by_cases hj : j = i
  · rw [hj, Function.update_self, Function.update_self]
    exact hi
  · rw [Function.update_of_ne hj, Function.update_of_ne hj]
    exact h j

/-! ## Reading -/

variable (keccak S db) in
/-- `tryGet` finds what is in the trie and keeps the relation. -/
def Gets (force hashed : Bool) (n : Node) (r : Bytes) (l : Live) (fuel : ℕ) : Prop :=
  ∃ l' did, l.tryGet db fuel r = some (tryGet n r, l', did) ∧ Rep keccak S db force hashed l' n

theorem Gets.resolve {r h : Bytes} {fuel : ℕ} (hres : db.resolveHash h = some (loaded keccak n))
    (hget : Gets keccak S db force hashed n r (loaded keccak n) fuel) :
    Gets keccak S db force hashed n r (.hash h) (fuel + 1) := by
  rcases hget with ⟨l', did, hget, hrep⟩
  exact ⟨l', true, by simp [Live.tryGet, hres, hget], hrep⟩

/-- One node, if the fuel suffices for the nodes below. -/
theorem Rep.gets_step (h : Rep keccak S db force hashed l n) (hl : l.isHash = false)
    (hn : n ≠ .nil → Canon n) {r : Bytes} {fuel : ℕ} (hr : n.isInner = true → IsTerm r)
    (hfuel : 2 * r.length ≤ fuel + 1)
    (ih : ∀ {m : Node} {hashed : Bool} {l : Live} {r : Bytes},
      Rep keccak S db false hashed l m → (m ≠ .nil → Canon m) → (m.isInner = true → IsTerm r) →
      2 * r.length + 1 ≤ fuel → Gets keccak S db false hashed m r l fuel) :
    Gets keccak S db force hashed n r l (fuel + 1) := by
  cases h with
  | nil => exact ⟨.nil, false, rfl, .nil⟩
  | @value _ _ v => exact ⟨.value v, false, rfl, .value⟩
  | hash => cases hl
  | @short _ _ k l flags m hf h =>
      have hcanon := hn (by simp)
      have hterm := hr rfl
      have hk := List.length_pos_iff.mpr hcanon.key_ne_nil
      rw [Gets, Live.tryGet, tryGet]
      -- the key of the node is a prefix of what is looked for, or the value is not there
      by_cases htake : r.take k.length = k
      · rcases List.prefix_iff_eq_take.mpr htake.symm with ⟨r, rfl⟩
        rw [List.length_append] at hfuel
        rw [if_pos htake, if_pos htake, List.drop_left]
        rcases ih h hcanon.val (hcanon.term_below hterm) (by omega) with ⟨l', did, hget, hrep⟩
        refine ⟨.short k (if did then l' else l) flags, did, by simp [hget], .short hf ?_⟩
        -- the node is written again only if something below it was loaded
        cases did
        · exact h
        · exact hrep
      · rw [if_neg htake, if_neg htake]
        exact ⟨_, false, rfl, .short hf h⟩
  | @full _ _ ls flags cs hf h =>
      have hcanon := hn (by simp)
      rcases (hr rfl).exists_slot with ⟨i, r, rfl⟩
      rw [List.length_cons] at hfuel
      rcases ih (h i) (hcanon.child i) (hcanon.term_child (hr rfl)) (by omega) with
        ⟨l', did, hget, hrep⟩
      rw [Gets, Live.tryGet, tryGet_full_cons, slot_eq_some.mpr rfl]
      refine ⟨.full (if did then Function.update ls i l' else ls) flags, did, by simp [hget],
        .full hf fun j => ?_⟩
      cases did
      · exact h j
      · -- the child in the trie is the old one, so the update changes nothing there
        have hsame := @rep_update keccak S db _ l' (cs i) ls cs h i hrep j
        rwa [Function.update_eq_self] at hsame

theorem Rep.gets (h : Rep keccak S db force hashed l n) (hS : Separated keccak S)
    (hdb : db.Ok keccak S) (hn : n ≠ .nil → Canon n) {r : Bytes} {fuel : ℕ}
    (hr : n.isInner = true → IsTerm r) (hfuel : 2 * r.length + 1 ≤ fuel) :
    Gets keccak S db force hashed n r l fuel := by
  -- strong induction: a hash takes two steps, one to read it and one for the node
  induction fuel using Nat.strong_induction_on generalizing force hashed l n r with
  | h fuel ih =>
      refine h.load hS hdb (fun hinner => (hr hinner).pos) hfuel ?_ fun _ _ => Gets.resolve
      intro hashed' l k hrep himp hl hk hlen
      rcases hrep.gets_step hl hn hr hlen (fun h hn hr hfuel => ih k hk h hn hr hfuel) with
        ⟨l', did, hget, hrep'⟩
      exact ⟨l', did, hget, hrep'.mono himp fun _ => id⟩

/-! ## Writing -/

variable (keccak S db) in
/-- The change of a node in memory is that of the trie. A node that has changed is no hash. -/
def Follows (force : Bool) (res : Option (Bool × Live)) (spec : Option (Bool × Node)) : Prop :=
  ∀ (dirty : Bool) (n' : Node), spec = some (dirty, n') → ∃ l', res = some (dirty, l') ∧
    Rep keccak S db force false l' n' ∧ (dirty = true → l'.isHash = false)

theorem insert_clean {v : Bytes} {n n' : Node}
    (h : insert v n key = some (false, n')) : n' = n := by
  unfold insert at h
  split at h
  · rename_i w
    simp only [Option.some.injEq, Prod.mk.injEq, bne_eq_false_iff_eq] at h
    -- the same value again is no change
    rw [← h.2, h.1]
  · cases h
  · dsimp only at h
    split at h
    · rcases Option.bind_eq_some_iff.mp h with ⟨⟨dirty, nn⟩, -, heq⟩
      -- the node below says if anything has changed
      cases dirty <;> cases heq
      rfl
    · split at h
      · -- a new branch is never clean
        rcases Option.bind_eq_some_iff.mp h with ⟨i, -, h⟩
        rcases Option.bind_eq_some_iff.mp h with ⟨j, -, h⟩
        cases h
      · cases h
  · rcases Option.bind_eq_some_iff.mp h with ⟨i, -, h⟩
    rcases Option.bind_eq_some_iff.mp h with ⟨⟨dirty, nn⟩, -, heq⟩
    cases dirty <;> cases heq
    rfl
  · cases h
  · cases h
  · cases h

theorem Live.insert_short_append {v k : Bytes} (hne : k ≠ []) (val : Live) (flags : NodeFlag)
    (r : Bytes) (fuel : ℕ) : Live.insert db v (fuel + 1) (.short k val flags) (k ++ r) =
      (Live.insert db v fuel val r).map fun (dirty, nn) =>
        if dirty then (true, .short k nn newFlag) else (false, .short k val flags) := by
  rcases List.exists_cons_of_ne_nil hne with ⟨x, k, rfl⟩
  have hmatch := prefixLen_append (x :: k) r
  have hdrop : (x :: k ++ r).drop (x :: k).length = r := List.drop_left
  rw [List.cons_append] at hmatch hdrop ⊢
  rw [Live.insert]
  simp only [hmatch, if_true, hdrop]
  cases Live.insert db v fuel val r <;> rfl

theorem rep_insertNil (h : Rep keccak S db false hashed l n) (key : Bytes) :
    Rep keccak S db false false (Live.insertNil key l) (insertNil key n) := by
  rw [Live.insertNil, insertNil]
  split
  · exact h.weaken
  · exact h.new_short

/-- The keys part at a short node. -/
theorem Rep.insert_parting {v k : Bytes} {x : UInt8} {fuel : ℕ}
    (h : Rep keccak S db false hashed l n) (hnot : ¬ k <+: x :: key) :
    Follows keccak S db force (Live.insert db v (fuel + 1) (.short k l flags) (x :: key))
      (insert v (.short k n) (x :: key)) := by
  intro dirty n' hspec
  have hm : prefixLen (x :: key) k ≠ k.length := fun heq => hnot (prefix_of_prefixLen heq)
  rw [insert] at hspec
  rw [Live.insert]
  simp only [if_neg hm] at hspec ⊢
  generalize k.drop (prefixLen (x :: key) k) = krest at hspec ⊢
  generalize (x :: key).drop (prefixLen (x :: key) k) = rest at hspec ⊢
  -- each key has a symbol left where they part
  rcases krest with _ | ⟨y, nrest⟩
  · cases hspec
  rcases rest with _ | ⟨z, rest⟩
  · cases hspec
  rcases Option.bind_eq_some_iff.mp hspec with ⟨i, hi, hspec⟩
  rcases Option.bind_eq_some_iff.mp hspec with ⟨j, hj, hspec⟩
  cases hspec
  -- two children, with what is left of each key
  have hbranch : ∀ {force : Bool}, Rep keccak S db force false
      (.full (Function.update (Function.update (fun _ => .nil) i (Live.insertNil nrest l)) j
        (Live.insertNil rest (.value v))) newFlag)
      (.full (Function.update (Function.update (fun _ => .nil) i (insertNil nrest n)) j
        (insertNil rest (.value v)))) := by
    intro force
    refine .new_full (rep_update (rep_update (fun _ => .nil) ?_) ?_)
    · exact rep_insertNil h nrest
    · have hvalue : Rep keccak S db false false (.value v) (.value v) := .value
      exact rep_insertNil hvalue rest
  simp only [hi, hj, Option.bind_eq_bind, Option.bind_some]
  refine ⟨_, rfl, ?_, ?_⟩
  · -- without a common prefix the branch is not below a short node
    split
    · exact hbranch
    · exact hbranch.new_short
  · intro _
    split <;> rfl

theorem Rep.insert_step (h : Rep keccak S db force hashed l n) (hl : l.isHash = false)
    (hn : n ≠ .nil → Canon n) {v : Bytes} {fuel : ℕ} (hr : n.isInner = true → IsTerm key)
    (hfuel : 2 * key.length ≤ fuel + 1)
    (ih : ∀ {m : Node} {hashed : Bool} {l : Live} {r : Bytes},
      Rep keccak S db false hashed l m → (m ≠ .nil → Canon m) → (m.isInner = true → IsTerm r) →
      2 * r.length + 1 ≤ fuel →
      Follows keccak S db false (l.insert db v fuel r) (insert v m r)) :
    Follows keccak S db force (l.insert db v (fuel + 1) key) (insert v n key) := by
  cases h with
  -- split as `insert` is: an empty place, a value, a short node, a full node;
  -- a hash was resolved before
  | nil =>
      intro dirty n' hspec
      cases key with
      | nil =>
          cases hspec
          exact ⟨.value v, rfl, .value, fun _ => rfl⟩
      | cons x key =>
          cases hspec
          have hvalue : Rep keccak S db false false (.value v) (.value v) := .value
          exact ⟨_, rfl, hvalue.new_short, fun _ => rfl⟩
  | @value _ _ w =>
      intro dirty n' hspec
      cases key with
      | nil =>
          cases hspec
          exact ⟨.value v, rfl, .value, fun _ => rfl⟩
      | cons x key => cases hspec
  | hash => cases hl
  | @short _ _ k l flags m hf h =>
      have hcanon := hn (by simp)
      have hk := List.length_pos_iff.mpr hcanon.key_ne_nil
      -- the key of the node matches to its end, or a branch is made where it departs
      by_cases hpre : k <+: key
      · rcases hpre with ⟨r, rfl⟩
        intro dirty n' hspec
        rw [insert_short_append v hcanon.key_ne_nil] at hspec
        rcases Option.map_eq_some_iff.mp hspec with ⟨⟨d, nn⟩, hsub, heq⟩
        rw [List.length_append] at hfuel
        rcases ih h hcanon.val (hcanon.term_below (hr rfl)) (by omega) _ _ hsub with
          ⟨l', hins, hrep, -⟩
        rw [Live.insert_short_append hcanon.key_ne_nil, hins, Option.map_some]
        -- a clean insertion gives the node back with its flags, another one a new flag
        cases d
        · cases heq
          exact ⟨_, rfl, Rep.weaken (.short hf h), fun _ => rfl⟩
        · cases heq
          exact ⟨_, rfl, hrep.new_short, fun _ => rfl⟩
      · rcases List.exists_cons_of_ne_nil (hr rfl).ne_nil with ⟨x, key, rfl⟩
        exact h.insert_parting hpre
  | @full _ _ ls flags cs hf h =>
      have hcanon := hn (by simp)
      rcases (hr rfl).exists_slot with ⟨i, r, rfl⟩
      rw [List.length_cons] at hfuel
      intro dirty n' hspec
      rw [insert_full] at hspec
      rcases Option.map_eq_some_iff.mp hspec with ⟨⟨d, nn⟩, hsub, heq⟩
      rcases ih (h i) (hcanon.child i) (hcanon.term_child (hr rfl)) (by omega) _ _ hsub with
        ⟨l', hins, hrep, -⟩
      rw [Live.insert, slot_eq_some.mpr rfl]
      simp only [hins, Option.bind_eq_bind, Option.bind_some]
      -- the same for the child of a full node
      cases d
      · cases heq
        exact ⟨_, rfl, Rep.weaken (.full hf h), fun _ => rfl⟩
      · cases heq
        exact ⟨_, rfl, .new_full (rep_update (fun j => (h j).weaken) hrep), fun _ => rfl⟩

/-- A hash is resolved, and the node is changed or left as it was read. -/
theorem follows_resolve {op : ℕ → Live → Option (Bool × Live)} {spec : Option (Bool × Node)}
    {h : Bytes} {fuel : ℕ} (hrep : Rep keccak S db force true (loaded keccak n) n)
    (hres : db.resolveHash h = some (loaded keccak n))
    (hop : op (fuel + 1) (.hash h) = (db.resolveHash h).bind fun rn =>
      (op fuel rn).bind fun (dirty, nn) => some (if dirty then (true, nn) else (false, rn)))
    (hclean : ∀ {n'}, spec = some (false, n') → n' = n)
    (hfollows : Follows keccak S db force (op fuel (loaded keccak n)) spec) :
    Follows keccak S db force (op (fuel + 1) (.hash h)) spec := by
  intro dirty n' hspec
  rcases hfollows _ _ hspec with ⟨l', hl', hrep', hdirty⟩
  rw [hop, hres, Option.bind_some, hl', Option.bind_some]
  cases dirty
  · -- nothing has changed: the node stays in memory as it was read
    rw [hclean hspec]
    exact ⟨_, rfl, hrep.weaken, fun htrue => by cases htrue⟩
  · exact ⟨l', rfl, hrep', hdirty⟩

theorem Rep.insert_follows (h : Rep keccak S db force hashed l n) (hS : Separated keccak S)
    (hdb : db.Ok keccak S) (hn : n ≠ .nil → Canon n) {v : Bytes} {fuel : ℕ}
    (hr : n.isInner = true → IsTerm key) (hfuel : 2 * key.length + 1 ≤ fuel) :
    Follows keccak S db force (l.insert db v fuel key) (insert v n key) := by
  -- as for reading, two steps for each symbol
  induction fuel using Nat.strong_induction_on generalizing force hashed l n key with
  | h fuel ih =>
      refine h.load (P := fun l fuel => Follows keccak S db force (l.insert db v fuel key)
        (insert v n key)) hS hdb (fun hinner => (hr hinner).pos) hfuel ?_ ?_
      · intro hashed' l k hrep _ hl hk hlen
        exact hrep.insert_step hl hn hr hlen fun h hn hr hfuel => ih k hk h hn hr hfuel
      · intro k hash hinner hrep hres hfollows
        rcases List.exists_cons_of_ne_nil (hr hinner).ne_nil with ⟨x, key, rfl⟩
        exact @follows_resolve keccak S db force n (fun fuel l => l.insert db v fuel (x :: key))
          _ hash k hrep hres rfl insert_clean hfollows

/-! ## Deleting -/

theorem live_pos_eq {ls : Fin 17 → Live}
    (h : ∀ i, (ls i).isNil = (cs i).isNil) : Live.pos ls = pos cs := by
  refine congrArg (fun f => (List.finRange 17).foldl f Pos.unset) ?_
  funext p i
  exact if_congr (by rw [h i]) rfl rfl

theorem Rep.resolve_eq (h : Rep keccak S db force hashed l n) (hS : Separated keccak S)
    (hdb : db.Ok keccak S) : ∃ l', db.resolve l = some l' ∧ Rep keccak S db force hashed l' n ∧
      l'.isHash = false := by
  rcases h.cases_hash hS hdb with hl | ⟨hash, rfl, hres, -, hrep, hnot⟩
  · refine ⟨l, ?_, h, hl⟩
    cases l <;> first | rfl | cases hl
  · exact ⟨_, hres, hrep.mono (fun _ => rfl) fun _ => id, hnot⟩

/-- The child that is left over is loaded to see what it is. -/
theorem reduce_follows (hS : Separated keccak S) (hdb : db.Ok keccak S) {ls : Fin 17 → Live}
    (h : ∀ i, Rep keccak S db false false (ls i) (cs i)) {n' : Node}
    (hspec : reduce cs = some n') : ∃ l', Live.reduce db ls = some l' ∧
      Rep keccak S db force false l' n' ∧ l'.isHash = false := by
  rw [reduce] at hspec
  rw [Live.reduce, live_pos_eq fun i => (h i).isNil_eq]
  cases hpos : pos cs with
  | «at» i =>
      simp only [hpos] at hspec ⊢
      -- a value that is left over is not loaded, it becomes a leaf
      by_cases hi : i = Fin.last 16
      · rw [if_pos hi] at hspec ⊢
        cases hspec
        exact ⟨_, rfl, (h i).new_short, rfl⟩
      · rw [if_neg hi] at hspec ⊢
        rcases (h i).resolve_eq hS hdb with ⟨l', hres, hrep, hnot⟩
        have hchild := h i
        rw [hres]
        revert hspec hchild hrep
        generalize cs i = child
        intro hspec hrep hchild
        -- a short node takes the nibble into its key, another one is put below a new short node
        cases hrep with
        | nil =>
            cases hspec
            exact ⟨_, rfl, hchild.new_short, rfl⟩
        | value =>
            cases hspec
            exact ⟨_, rfl, hchild.new_short, rfl⟩
        | hash => cases hnot
        | short _ hval =>
            cases hspec
            exact ⟨_, rfl, hval.new_short, rfl⟩
        | full _ _ =>
            cases hspec
            exact ⟨_, rfl, hchild.new_short, rfl⟩
  | unset =>
      -- no child is left: `pos` has stayed at -1
      simp only [hpos] at hspec ⊢
      cases hspec
      exact ⟨_, rfl, .new_full h, rfl⟩
  | many =>
      -- two or more: the node stays full
      simp only [hpos] at hspec ⊢
      cases hspec
      exact ⟨_, rfl, .new_full h, rfl⟩

theorem delete_clean {n n' : Node} (h : delete n key = some (false, n')) :
    n' = n := by
  cases n with
  | nil =>
      cases h
      rfl
  | value v => cases h
  | hash h' => cases h
  -- clean in a short node: the key is not there, or nothing has changed below
  | short k val =>
      rw [delete] at h
      dsimp only at h
      split at h
      · cases h
        rfl
      · split at h
        · cases h
        · rcases Option.bind_eq_some_iff.mp h with ⟨⟨dirty, child⟩, -, h⟩
          cases dirty
          · cases h
            rfl
          · dsimp only at h
            rw [if_pos rfl] at h
            split at h <;> cases h
  | full cs =>
      cases key with
      | nil => cases h
      | cons x key =>
          rw [delete] at h
          -- in a full node only the child decides
          rcases Option.bind_eq_some_iff.mp h with ⟨i, -, h⟩
          rcases Option.bind_eq_some_iff.mp h with ⟨⟨dirty, nn⟩, -, h⟩
          cases dirty
          · cases h
            rfl
          · dsimp only at h
            rw [if_pos rfl] at h
            split at h
            · rcases Option.bind_eq_some_iff.mp h with ⟨n, -, h⟩
              cases h
            · cases h

theorem Rep.delete_step (h : Rep keccak S db force hashed l n) (hl : l.isHash = false)
    (hS : Separated keccak S) (hdb : db.Ok keccak S) (hn : n ≠ .nil → Canon n)
    {fuel : ℕ} (hr : n.isInner = true → IsTerm key) (hfuel : 2 * key.length ≤ fuel + 1)
    (ih : ∀ {m : Node} {hashed : Bool} {l : Live} {r : Bytes},
      Rep keccak S db false hashed l m → (m ≠ .nil → Canon m) → (m.isInner = true → IsTerm r) →
      2 * r.length + 1 ≤ fuel →
      Follows keccak S db false (l.delete db fuel r) (delete m r)) :
    Follows keccak S db force (l.delete db (fuel + 1) key) (delete n key) := by
  intro dirty n' hspec
  cases h with
  -- the cases of `delete`; only here may a sibling have to be loaded
  | nil =>
      cases hspec
      exact ⟨.nil, rfl, .nil, fun _ => rfl⟩
  | @value _ _ w =>
      cases hspec
      exact ⟨.nil, rfl, .nil, fun _ => rfl⟩
  | hash => cases hl
  | @short _ _ k l flags m hf h =>
      have hcanon := hn (by simp)
      have hk := List.length_pos_iff.mpr hcanon.key_ne_nil
      rw [delete] at hspec
      rw [Live.delete]
      dsimp only at hspec ⊢
      -- the key departs: not found
      by_cases hlt : prefixLen key k < k.length
      · rw [if_pos hlt] at hspec ⊢
        cases hspec
        exact ⟨_, rfl, Rep.weaken (.short hf h), fun _ => rfl⟩
      · have hle := prefixLen_le key k
        have heq : prefixLen key k = k.length := by omega
        rw [if_neg hlt] at hspec ⊢
        rcases prefix_of_prefixLen heq with ⟨r, rfl⟩
        -- the whole key: the leaf goes
        by_cases hwhole : prefixLen (k ++ r) k = (k ++ r).length
        · rw [if_pos hwhole] at hspec ⊢
          cases hspec
          exact ⟨.nil, rfl, .nil, fun _ => rfl⟩
        · rw [if_neg hwhole, List.drop_left] at hspec
          rw [if_neg hwhole, List.drop_left]
          -- otherwise the deletion goes on below
          rcases Option.bind_eq_some_iff.mp hspec with ⟨⟨d, child⟩, hsub, hspec⟩
          rw [List.length_append] at hfuel
          rcases ih h hcanon.val (hcanon.term_below (hr rfl)) (by omega) _ _ hsub with
            ⟨l', hdel, hrep, hnot⟩
          simp only [hdel, Option.bind_eq_bind, Option.bind_some]
          cases d
          · cases hspec
            exact ⟨_, rfl, Rep.weaken (.short hf h), fun _ => rfl⟩
          · -- what is left below is merged with this node if it is short
            have hkept := hrep
            cases hrep with
            | nil =>
                cases hspec
                exact ⟨_, rfl, hkept.new_short, fun _ => rfl⟩
            | value =>
                cases hspec
                exact ⟨_, rfl, hkept.new_short, fun _ => rfl⟩
            -- a node that has changed is in memory
            | hash => exact absurd (hnot rfl) (by simp [Live.isHash])
            | short _ hval =>
                cases hspec
                exact ⟨_, rfl, hval.new_short, fun _ => rfl⟩
            | full _ _ =>
                cases hspec
                exact ⟨_, rfl, hkept.new_short, fun _ => rfl⟩
  | @full _ _ ls flags cs hf h =>
      have hcanon := hn (by simp)
      rcases (hr rfl).exists_slot with ⟨i, r, rfl⟩
      rw [List.length_cons] at hfuel
      rw [delete, slot_eq_some.mpr rfl, Option.bind_eq_bind, Option.bind_some] at hspec
      rcases Option.bind_eq_some_iff.mp hspec with ⟨⟨d, nn⟩, hsub, hspec⟩
      rcases ih (h i) (hcanon.child i) (hcanon.term_child (hr rfl)) (by omega) _ _ hsub with
        ⟨l', hdel, hrep, -⟩
      have hchildren := rep_update (fun j => (h j).weaken) (i := i) hrep
      rw [Live.delete, slot_eq_some.mpr rfl]
      simp only [hdel, Option.bind_eq_bind, Option.bind_some]
      cases d
      · cases hspec
        exact ⟨_, rfl, Rep.weaken (.full hf h), fun _ => rfl⟩
      · dsimp only at hspec
        rw [if_pos rfl] at hspec
        rw [if_pos rfl, hrep.isNil_eq]
        -- the child is gone: `reduce` sees how many are left
        by_cases hnil : nn.isNil = true
        · rw [if_pos hnil] at hspec ⊢
          rcases Option.bind_eq_some_iff.mp hspec with ⟨n, hred, hspec⟩
          cases hspec
          rcases @reduce_follows keccak S _ db force hS hdb _ hchildren _ hred with
            ⟨l', hred', hrep', hnot⟩
          exact ⟨l', by rw [hred']; rfl, hrep', fun _ => hnot⟩
        · rw [if_neg hnil] at hspec ⊢
          cases hspec
          exact ⟨_, rfl, .new_full hchildren, fun _ => rfl⟩

theorem Rep.delete_follows (h : Rep keccak S db force hashed l n) (hS : Separated keccak S)
    (hdb : db.Ok keccak S) (hn : n ≠ .nil → Canon n) {fuel : ℕ}
    (hr : n.isInner = true → IsTerm key) (hfuel : 2 * key.length + 1 ≤ fuel) :
    Follows keccak S db force (l.delete db fuel key) (delete n key) := by
  -- as for insertion; `delete_clean` is what a resolved hash needs
  induction fuel using Nat.strong_induction_on generalizing force hashed l n key with
  | h fuel ih =>
      refine h.load (P := fun l fuel => Follows keccak S db force (l.delete db fuel key)
        (delete n key)) hS hdb (fun hinner => (hr hinner).pos) hfuel ?_ ?_
      · intro hashed' l k hrep _ hl hk hlen
        exact hrep.delete_step hl hS hdb hn hr hlen fun h hn hr hfuel => ih k hk h hn hr hfuel
      · intro k hash _ hrep hres hfollows
        exact @follows_resolve keccak S db force n (fun fuel l => l.delete db fuel key)
          _ hash k hrep hres rfl delete_clean hfollows

/-! ## Hashing -/

theorem toHash_of_sized (hsize : Sized keccak force n) :
    toHash keccak (collapse keccak n) force = .hash (nodeHash keccak n) := by
  refine if_neg ?_
  rintro ⟨hlen, hforce⟩
  rcases hsize with htrue | hle
  · rw [htrue] at hforce
    cases hforce
  · exact absurd hle (Nat.not_le.mpr hlen)

theorem toHash_of_not_sized (hsize : ¬ Sized keccak force n) :
    toHash keccak (collapse keccak n) force = collapse keccak n := by
  refine if_pos ⟨?_, ?_⟩
  · exact Nat.not_le.mp fun hle => hsize (.inr hle)
  · -- a root is always hashed
    cases force
    · rfl
    · exact absurd (.inl rfl) hsize

variable (keccak) in
/-- A node as it stands in its parent, or a root. -/
def hashedForm (force : Bool) (n : Node) : Node :=
  if n.isInner then toHash keccak (collapse keccak n) force else n

variable (keccak S db) in
/-- `hasher.hash` computes what the trie hashes to, and keeps the relation. -/
def Hashes (force : Bool) (l : Live) (n : Node) : Prop :=
  (l.hasher keccak force).1 = hashedForm keccak force n ∧
    Rep keccak S db force true (l.hasher keccak force).2 n

theorem asHash_collapse (hn : n.isInner = true) : (collapse keccak n).asHash = none := by
  cases n <;> first | rfl | cases hn

/-- The flags of a node that was hashed now. -/
theorem flagsOk_hashed (hn : n.isInner = true) (hf : FlagsOk keccak S db force hashed flags n)
    (hnone : flags.hash = none) : FlagsOk keccak S db force true
      ⟨(toHash keccak (collapse keccak n) force).asHash, flags.dirty⟩ n := by
  by_cases hsize : Sized keccak force n
  · rw [toHash_of_sized hsize]
    refine ⟨?_, fun _ => hsize, ?_, fun _ _ => rfl, ?_⟩
    · intro h heq
      exact (Option.some.inj heq).symm
    · -- a clean node without a hash is a part of its parent, and that one is too large
      intro _ hclean
      exact absurd hsize (hf.embedded hnone hclean)
    · intro hnone'
      cases hnone'
  · -- too small: the encoding goes into the parent and no hash is kept
    rw [toHash_of_not_sized hsize, asHash_collapse hn]
    exact flagsOk_none fun _ => hsize

/-- A hash that is known is not computed again. -/
theorem hasher_cached {h : Bytes} (hcache : l.cache.1 = some h) :
    l.hasher keccak force = (.hash h, l) := by
  cases l with
  | short k val flags =>
      have hhash : flags.hash = some h := hcache
      simp only [Live.hasher, hhash]
  | full cs flags =>
      have hhash : flags.hash = some h := hcache
      simp only [Live.hasher, hhash]
  | _ => cases hcache

/-- A node that is not inner hashes to itself. -/
theorem hasher_of_not_isInner (hl : ¬ l.isInner = true) :
    l.hasher keccak force = (l.simplifyNode, l) := by
  cases l <;> first | rfl | exact absurd rfl hl

theorem hasher_short {k : Bytes} (hnone : flags.hash = none) :
    (Live.short k l flags).hasher keccak force =
      (toHash keccak ((Live.short k l flags).hashChildren keccak) force,
        .short k (l.hasher keccak false).2
          ⟨(toHash keccak ((Live.short k l flags).hashChildren keccak) force).asHash,
            flags.dirty⟩) := by
  simp only [Live.hasher, hnone, Live.hashChildren]
  by_cases hl : l.isInner = true
  · simp only [if_pos hl]
  · simp only [if_neg hl, hasher_of_not_isInner hl]

theorem hasher_full {ls : Fin 17 → Live} (hnone : flags.hash = none) :
    (Live.full ls flags).hasher keccak force =
      (toHash keccak ((Live.full ls flags).hashChildren keccak) force,
        .full (fun i => if i = Fin.last 16 then ls i else ((ls i).hasher keccak false).2)
          ⟨(toHash keccak ((Live.full ls flags).hashChildren keccak) force).asHash,
            flags.dirty⟩) := by
  simp only [Live.hasher, hnone, Live.hashChildren]

theorem hashChildren_short {k : Bytes} (h : Hashes keccak S db false l n) :
    (Live.short k l flags).hashChildren keccak = collapse keccak (.short k n) := by
  have hchild : (if l.isInner then (l.hasher keccak false).1 else l.simplifyNode) =
      hashedForm keccak false n := by
    by_cases hl : l.isInner = true
    · rw [if_pos hl, h.1]
    · rw [if_neg hl, ← h.1, hasher_of_not_isInner hl]
  rw [Live.hashChildren, hchild]
  rfl

/-- A value, or nothing, is always in memory. -/
theorem Rep.of_not_isInner (h : Rep keccak S db force hashed l n) (hn : n.isInner = false) :
    l.simplifyNode = n ∧ Rep keccak S db force true l n := by
  cases h with
  | nil => exact ⟨rfl, .nil⟩
  | value => exact ⟨rfl, .value⟩
  | hash hk =>
      rw [hk.isHex.isInner] at hn
      cases hn
  | short => cases hn
  | full => cases hn

theorem Canon.isInner_last (h : Canon (.full cs)) :
    (cs (Fin.last 16)).isInner = false := by
  cases h with
  | full h16 _ _ =>
      have hlast : cs (Fin.last 16) = .nil ∨ ∃ v, cs (Fin.last 16) = .value v := h16
      rcases hlast with hnil | ⟨v, hv⟩
      · rw [hnil]
        rfl
      · rw [hv]
        rfl

theorem hashChildren_full {ls : Fin 17 → Live} (hcanon : Canon (.full cs))
    (hrep : ∀ i, Rep keccak S db false hashed (ls i) (cs i))
    (h : ∀ i, Hashes keccak S db false (ls i) (cs i)) :
    (Live.full ls flags).hashChildren keccak = collapse keccak (.full cs) := by
  rw [Live.hashChildren, collapse]
  congr 1
  funext i
  -- `hashFullNodeChildren` goes over the first sixteen children only
  by_cases hi : i = Fin.last 16
  · rw [if_pos hi, if_pos (show i = 16 from hi), hi]
    exact ((hrep _).of_not_isInner hcanon.isInner_last).1
  · rw [if_neg hi, if_neg (show ¬ i = 16 from hi), (hrep i).isNil_eq, (h i).1]
    rfl

/-- A node that has its hash already. -/
theorem hashes_cached {h : Bytes} (hcache : l.cache.1 = some h) (hn : n.isInner = true)
    (hsize : Sized keccak force n) (hhash : h = nodeHash keccak n)
    (hrep : Rep keccak S db force true l n) : Hashes keccak S db force l n := by
  rw [Hashes, hasher_cached hcache, hashedForm, if_pos hn, toHash_of_sized hsize, hhash]
  exact ⟨rfl, hrep⟩

theorem Rep.hashes (h : Rep keccak S db force hashed l n) (hn : n ≠ .nil → Canon n) :
    Hashes keccak S db force l n := by
  induction h with
  | nil => exact ⟨rfl, .nil⟩
  | value => exact ⟨rfl, .value⟩
  | @hash force hashed n hk hsize hst =>
      -- a hash that was not loaded stands for itself
      refine ⟨?_, .hash hk hsize hst⟩
      rw [hashedForm, if_pos hk.isHex.isInner, toHash_of_sized hsize]
      rfl
  | @short force hashed k l flags m hf h ih =>
      have hcanon := hn (by simp)
      have ih := ih hcanon.val
      -- a cached hash is that of the node, and below it all nodes are hashed;
      -- without one the children are hashed first
      cases hhash : flags.hash with
      | some hash =>
          have hsome : flags.hash.isSome = true := by simp [hhash]
          refine hashes_cached hhash rfl (hf.sized hsome) (hf.hash _ hhash) ?_
          refine .short ⟨hf.hash, hf.sized, hf.clean, fun _ _ => hsome, hf.embedded⟩ ?_
          rw [hsome, Bool.or_true] at h ⊢
          exact h
      | none =>
          rw [Hashes, hasher_short hhash, hashChildren_short ih]
          refine ⟨rfl, .short (flagsOk_hashed rfl hf hhash) ?_⟩
          rw [Bool.true_or]
          exact ih.2
  | @full force hashed ls flags cs hf h ih =>
      have hcanon := hn (by simp)
      have ih := fun i => ih i (hcanon.child i)
      cases hhash : flags.hash with
      | some hash =>
          have hsome : flags.hash.isSome = true := by simp [hhash]
          refine hashes_cached hhash rfl (hf.sized hsome) (hf.hash _ hhash) ?_
          refine .full ⟨hf.hash, hf.sized, hf.clean, fun _ _ => hsome, hf.embedded⟩ ?_
          rw [hsome, Bool.or_true] at h ⊢
          exact h
      | none =>
          rw [Hashes, hasher_full hhash, hashChildren_full hcanon h ih]
          refine ⟨rfl, .full (flagsOk_hashed rfl hf hhash) fun i => ?_⟩
          rw [Bool.true_or]
          -- the value is not hashed
          by_cases hi : i = Fin.last 16
          · rw [if_pos hi]
            exact ((h i).of_not_isInner (hi ▸ hcanon.isInner_last)).2
          · rw [if_neg hi]
            exact (ih i).2

/-! ## Proofs -/

theorem Rep.hashChildren_eq (h : Rep keccak S db force hashed l n) (hl : l.isHash = false)
    (hn : n ≠ .nil → Canon n) : l.hashChildren keccak = collapse keccak n := by
  cases h with
  | nil => rfl
  | value => rfl
  | hash => cases hl
  | short _ h => exact hashChildren_short (h.hashes (hn (by simp)).val)
  | full _ h =>
      have hcanon := hn (by simp)
      exact hashChildren_full hcanon h fun i => (h i).hashes (hcanon.child i)

variable (keccak db) in
/-- `Prove` collects the nodes on the path. -/
def Proves (n : Node) (r : Bytes) (l : Live) (fuel : ℕ) : Prop :=
  ∀ ns, proofNodes n r = some ns → ∃ ls, l.proofNodes db fuel r = some ls ∧
    ls.map (Live.hashChildren keccak) = ns.map (collapse keccak)

theorem Rep.proves_step (h : Rep keccak S db force hashed l n) (hl : l.isHash = false)
    (hn : n ≠ .nil → Canon n) {r : Bytes} {fuel : ℕ} (hr : n.isInner = true → IsTerm r)
    (hfuel : 2 * r.length ≤ fuel + 1)
    (ih : ∀ {m : Node} {hashed : Bool} {l : Live} {r : Bytes},
      Rep keccak S db false hashed l m → (m ≠ .nil → Canon m) → (m.isInner = true → IsTerm r) →
      2 * r.length + 1 ≤ fuel → Proves keccak db m r l fuel) :
    Proves keccak db n r l (fuel + 1) := by
  intro ns hspec
  have hself := h.hashChildren_eq hl hn
  cases h with
  | nil =>
      cases r with
      | nil =>
          cases hspec
          exact ⟨[], rfl, rfl⟩
      | cons x r =>
          cases hspec
          exact ⟨[], rfl, rfl⟩
  | @value _ _ v =>
      cases r with
      | nil =>
          cases hspec
          exact ⟨[], rfl, rfl⟩
      | cons x r => cases hspec
  | hash => cases hl
  | @short _ _ k l flags m hf h =>
      have hcanon := hn (by simp)
      have hterm := hr rfl
      have hk := List.length_pos_iff.mpr hcanon.key_ne_nil
      rcases List.exists_cons_of_ne_nil hterm.ne_nil with ⟨x, key, hcons⟩
      rw [hcons, proofNodes] at hspec
      rw [hcons, Live.proofNodes, ← hcons]
      rw [← hcons] at hspec
      -- the path ends at a short node whose key departs, and that node is the last of the proof
      by_cases htake : r.take k.length = k
      · rw [if_pos htake] at hspec ⊢
        rcases Option.bind_eq_some_iff.mp hspec with ⟨ns, hsub, hspec⟩
        cases hspec
        rcases List.prefix_iff_eq_take.mpr htake.symm with ⟨r, rfl⟩
        rw [List.length_append] at hfuel
        rw [List.drop_left] at hsub ⊢
        rcases ih h hcanon.val (hcanon.term_below hterm) (by omega) ns hsub with ⟨ls, hls, hmap⟩
        exact ⟨.short k l flags :: ls, by simp [hls], by simp [hself, hmap]⟩
      · rw [if_neg htake] at hspec ⊢
        cases hspec
        exact ⟨_, rfl, by simp [hself]⟩
  | @full _ _ ls flags cs hf h =>
      have hcanon := hn (by simp)
      rcases (hr rfl).exists_slot with ⟨i, r, rfl⟩
      rw [List.length_cons] at hfuel
      rw [proofNodes_full] at hspec
      rcases Option.map_eq_some_iff.mp hspec with ⟨ns, hsub, hspec⟩
      cases hspec
      rcases ih (h i) (hcanon.child i) (hcanon.term_child (hr rfl)) (by omega) ns hsub with
        ⟨nodes, hnodes, hmap⟩
      rw [Live.proofNodes, slot_eq_some.mpr rfl]
      -- a full node is always a node of the proof
      exact ⟨.full ls flags :: nodes, by simp [hnodes], by simp [hself, hmap]⟩

theorem Rep.proves (h : Rep keccak S db force hashed l n) (hS : Separated keccak S)
    (hdb : db.Ok keccak S) (hn : n ≠ .nil → Canon n) {r : Bytes} {fuel : ℕ}
    (hr : n.isInner = true → IsTerm r) (hfuel : 2 * r.length + 1 ≤ fuel) :
    Proves keccak db n r l fuel := by
  induction fuel using Nat.strong_induction_on generalizing force hashed l n r with
  | h fuel ih =>
      refine h.load hS hdb (fun hinner => (hr hinner).pos) hfuel ?_ ?_
      · intro hashed' l k hrep _ hl hk hlen
        exact hrep.proves_step hl hn hr hlen fun h hn hr hfuel => ih k hk h hn hr hfuel
      · intro k hash hinner _ hres hproves ns hspec
        rcases List.exists_cons_of_ne_nil (hr hinner).ne_nil with ⟨x, key, rfl⟩
        -- `Prove` goes on with the node it has loaded; the hash adds none to the proof
        rcases hproves ns hspec with ⟨ls, hls, hmap⟩
        exact ⟨ls, by rw [Live.proofNodes, hres]; exact hls, hmap⟩

end Trie

end LessChain
