import LessChain.Trie.Loading

/-!
# Committing a trie and moving it to disk

`Commit` of a trie walks over the nodes that are dirty and puts each one that is not part of its
parent into the database of `trie/database.go`, where it stays in memory. `Commit` of the database
moves a trie to the disk from below, batch by batch, and drops from memory what a batch has
written.

* `Rep.commits`: after `Commit` the trie is in the database, and nothing that was there is lost.
* `Database.commit_spec`: after `Commit` of the database the trie is on the disk. At each moment
  a node on the disk has all that is stored below it on the disk.
-/

namespace LessChain

namespace Trie

variable {keccak : Bytes → Hash} {S : Set Bytes} {db db' : Database} {force hashed : Bool} {l : Live}
  {n : Node} {flags : NodeFlag}

/-! ## Committing -/

theorem Database.Ok.insert (hdb : db.Ok keccak S) (hn : Known keccak S n) :
    (db.insert (keccak (enc keccak n)) (stored keccak n)).Ok keccak S := by
  rw [Database.insert]
  split
  · -- the node is in memory already, or has the hash 0
    exact hdb
  · refine ⟨?_, hdb.diskdb⟩
    intro h r hr
    dsimp only at hr
    by_cases hh : h = keccak (enc keccak n)
    · rw [hh] at hr ⊢
      rw [Function.update_self] at hr
      exact ⟨n, hn, rfl, (Option.some.inj hr).symm⟩
    · rw [Function.update_of_ne hh] at hr
      exact hdb.dirties hr

theorem Database.has_insert {h h' : Hash} {r : Node} (hh : db.Has h') : (db.insert h r).Has h' := by
  rw [Database.insert]
  split
  · exact hh
  · rcases hh with hdirty | hdisk
    · left
      dsimp only
      by_cases heq : h' = h
      · rw [heq, Function.update_self]
        rfl
      · rw [Function.update_of_ne heq]
        exact hdirty
    · exact .inr hdisk

theorem Database.has_insert_self {h : Hash} {r : Node} (hne : h ≠ 0) : (db.insert h r).Has h := by
  rw [Database.insert]
  split
  · rename_i hin
    exact .inl (hin.resolve_left hne)
  · left
    dsimp only
    rw [Function.update_self]
    rfl

theorem Database.diskdb_insert (h : Hash) (r : Node) : (db.insert h r).diskdb = db.diskdb := by
  rw [Database.insert]
  split <;> rfl

variable (keccak S) in
/-- What the committer leaves: the trie is in the database, but for what is part of a parent. -/
structure Committed (db : Database) (force : Bool) (n : Node) (res : Live) (db' : Database) :
    Prop where
  ok : db'.Ok keccak S
  le : ∀ h, db.Has h → db'.Has h
  diskdb : db'.diskdb = db.diskdb
  kept : Kept keccak db' n
  sized : Sized keccak force n → res = .hash (nodeHash keccak n) ∧ db'.Has (keccak (enc keccak n))
  small : ¬ Sized keccak force n → res.simplifyNode = stored keccak n

theorem Committed.simplifyNode_eq {res : Live} (h : Committed keccak S db false n res db')
    (hn : n.isInner = true) : res.simplifyNode = storedRef keccak n := by
  rw [storedRef, if_pos hn]
  by_cases hlen : (enc keccak n).length < 32
  · rw [if_pos hlen]
    refine h.small ?_
    rintro (hforce | hle)
    · cases hforce
    · omega
  · rw [if_neg hlen, (h.sized (.inr (Nat.not_lt.mp hlen))).1]
    rfl

/-- A node that the database has already. -/
theorem committed_of_stored (hdb : db'.Ok keccak S) (hle : ∀ h, db.Has h → db'.Has h)
    (hdisk : db'.diskdb = db.diskdb) (hsize : Sized keccak force n) (hst : Stored keccak db' n) :
    Committed keccak S db force n (.hash (nodeHash keccak n)) db' :=
  ⟨hdb, hle, hdisk, hst.2, fun _ => ⟨rfl, hst.1⟩, fun hnot => absurd hsize hnot⟩

/-- A node is stored when the nodes below it are. -/
theorem committed_store (hS : Separated keccak S) (hn : Known keccak S n) (hdb : db'.Ok keccak S)
    (hle : ∀ h, db.Has h → db'.Has h) (hdisk : db'.diskdb = db.diskdb)
    (hbelow : ∀ m ∈ subnodes n, m ≠ n → 32 ≤ (enc keccak m).length → db'.Has (keccak (enc keccak m)))
    {collapsed : Live} (hform : collapsed.simplifyNode = stored keccak n)
    (hhash : ∀ h, collapsed.cache.1 = some h → h = nodeHash keccak n)
    (hsome : collapsed.cache.1.isSome = true ↔ Sized keccak force n) (committed : ℕ) :
    Committed keccak S db force n (Live.store collapsed committed db').1
      (Live.store collapsed committed db').2.2 := by
  -- `store` keeps a node without a hash in its parent; the hash says where the node goes,
  -- and with it what `Sized` says
  cases hcache : collapsed.cache.1 with
  | none =>
      have hnot : ¬ Sized keccak force n := by
        rw [← hsome, hcache]
        simp
      have heq : Live.store collapsed committed db' = (collapsed, committed, db') := by
        simp only [Live.store, hcache]
      rw [heq]
      refine ⟨hdb, hle, hdisk, ?_, fun hsize => absurd hsize hnot, fun _ => hform⟩
      intro m hm hlen
      -- the node itself is too small to be looked for
      by_cases heq : m = n
      · exact absurd (.inr (heq ▸ hlen)) hnot
      · exact hbelow m hm heq hlen
  | some h =>
      have hsize : Sized keccak force n := hsome.mp (by rw [hcache]; rfl)
      have heq : Live.store collapsed committed db' = (.hash (nodeHash keccak n), committed + 1,
          db'.insert (keccak (enc keccak n)) (stored keccak n)) := by
        simp only [Live.store, hcache, hform, hhash h hcache, nodeHash, bytesToHash_bytes]
      have hself := @Database.has_insert_self db' _ (stored keccak n) (hS.ne_zero _ hn.enc_mem)
      rw [heq]
      refine ⟨hdb.insert hn, fun h hh => Database.has_insert (hle h hh), ?_, ?_,
        fun _ => ⟨rfl, hself⟩, fun hnot => absurd hsize hnot⟩
      · exact (Database.diskdb_insert _ _).trans hdisk
      · intro m hm hlen
        by_cases heq : m = n
        · rw [heq]
          exact hself
        · exact Database.has_insert (hbelow m hm heq hlen)

variable (keccak S) in
/-- `commit` on the node, from any larger database. -/
def Commits (db : Database) (force : Bool) (l : Live) (n : Node) : Prop :=
  ∀ db₁, db₁.Ok keccak S → (∀ h, db.Has h → db₁.Has h) → ∃ res committed db',
    l.commit db₁ = some (res, committed, db') ∧ Committed keccak S db₁ force n res db'

theorem commits_hash (hsize : Sized keccak force n) (hst : Stored keccak db n) :
    Commits keccak S db force (.hash (nodeHash keccak n)) n := by
  intro db₁ hdb hle
  exact ⟨_, 0, db₁, rfl, committed_of_stored hdb (fun _ => id) rfl hsize (hst.mono hle)⟩

/-- A node that is not dirty. -/
theorem commits_clean {h : Bytes} (hf : FlagsOk keccak S db force hashed flags n)
    (hhash : flags.hash = some h) (hclean : flags.dirty = false)
    (hcommit : ∀ db, l.commit db = some (.hash h, 0, db)) :
    Commits keccak S db force l n := by
  intro db₁ hdb hle
  have hsome : flags.hash.isSome = true := by simp [hhash]
  refine ⟨_, 0, db₁, hcommit db₁, ?_⟩
  rw [hf.hash _ hhash]
  exact committed_of_stored hdb (fun _ => id) rfl (hf.sized hsome) ((hf.clean hsome hclean).2.mono hle)

theorem isSome_hash_iff (hf : FlagsOk keccak S db force true flags n) :
    flags.hash.isSome = true ↔ Sized keccak force n :=
  ⟨hf.sized, hf.hashed rfl⟩

theorem commit_short {k : Bytes} (hdirty : ∀ h, flags.hash = some h → flags.dirty = true)
    (db : Database) : (Live.short k l flags).commit db =
      (if l.isFull then l.commit db else some (l, 0, db)).bind fun (val, committed, db) =>
        some (Live.store (.short (hexToCompact k) val flags) committed db) := by
  rw [Live.commit]
  split
  · rename_i h hhash hclean
    -- a clean node is not committed again
    rw [hdirty h hhash] at hclean
    cases hclean
  · by_cases hl : l.isFull = true
    · simp only [if_pos hl]
      rfl
    · simp only [if_neg hl]
      rfl

/-- Body of the loop of `commitChildren`. -/
def commitChild (ls : Fin 17 → Live) (acc : (Fin 17 → Live) × ℕ × Database) (i : Fin 16) :
    Option ((Fin 17 → Live) × ℕ × Database) :=
  if (ls i.castSucc).isNil then some acc
  else ((ls i.castSucc).commit acc.2.2).map fun (hashed, n, db) =>
    (Function.update acc.1 i.castSucc hashed, acc.2.1 + n, db)

theorem commit_full {ls : Fin 17 → Live}
    (hdirty : ∀ h, flags.hash = some h → flags.dirty = true) (db : Database) :
    (Live.full ls flags).commit db =
      ((List.finRange 16).foldlM (commitChild ls) (fun _ => .nil, 0, db)).bind
        fun (kids, committed, db) => some (Live.store
          (.full (Function.update kids (Fin.last 16) (ls (Fin.last 16))) flags) committed db) := by
  -- the loop skips a child that is a hash, and `commit` of a hash gives it back
  have hbody : (fun (acc : (Fin 17 → Live) × ℕ × Database) (i : Fin 16) =>
      if (ls i.castSucc).isNil then some acc
      else if (ls i.castSucc).isHash then
        some (Function.update acc.1 i.castSucc (ls i.castSucc), acc.2)
      else do
        let (hashed, n, db) ← (ls i.castSucc).commit acc.2.2
        some (Function.update acc.1 i.castSucc hashed, acc.2.1 + n, db)) = commitChild ls := by
    funext acc i
    rw [commitChild]
    generalize ls i.castSucc = l
    cases l with
    | hash h => rfl
    | short k l flags =>
        show ((Live.short k l flags).commit acc.2.2).bind _ = _
        cases (Live.short k l flags).commit acc.2.2 <;> rfl
    | full ls flags =>
        show ((Live.full ls flags).commit acc.2.2).bind _ = _
        cases (Live.full ls flags).commit acc.2.2 <;> rfl
    | _ => rfl
  rw [Live.commit]
  split
  · rename_i h hhash hclean
    rw [hdirty h hhash] at hclean
    cases hclean
  · exact congrArg (fun f : (Fin 17 → Live) × ℕ × Database → Fin 16 →
        Option ((Fin 17 → Live) × ℕ × Database) =>
      ((List.finRange 16).foldlM f (fun _ => .nil, 0, db)).bind fun (kids, committed, db) =>
        some (Live.store (.full (Function.update kids (Fin.last 16) (ls (Fin.last 16))) flags)
          committed db)) hbody

section Children

variable {ls : Fin 17 → Live} {cs : Fin 17 → Node}

/-- One round of `commitChildren`. -/
theorem commitChild_spec (hnil : ∀ i, (ls i).isNil = (cs i).isNil) {i : Fin 16}
    (h : cs i.castSucc ≠ .nil → (cs i.castSucc).isInner = true ∧
      Commits keccak S db false (ls i.castSucc) (cs i.castSucc))
    {acc : (Fin 17 → Live) × ℕ × Database} (hdb : acc.2.2.Ok keccak S)
    (hle : ∀ h, db.Has h → acc.2.2.Has h)
    (hacc : cs i.castSucc = .nil → acc.1 i.castSucc = .nil) :
    ∃ acc', commitChild ls acc i = some acc' ∧ acc'.2.2.Ok keccak S ∧
      (∀ h, acc.2.2.Has h → acc'.2.2.Has h) ∧ acc'.2.2.diskdb = acc.2.2.diskdb ∧
      Kept keccak acc'.2.2 (cs i.castSucc) ∧
      (acc'.1 i.castSucc).simplifyNode = storedRef keccak (cs i.castSucc) ∧
      ∀ j, j ≠ i.castSucc → acc'.1 j = acc.1 j := by
  rw [commitChild, hnil]
  -- an empty child is skipped, another one is committed
  by_cases hi : cs i.castSucc = .nil
  · rw [hi]
    refine ⟨acc, rfl, hdb, fun _ => id, rfl, ?_, ?_, fun _ _ => rfl⟩
    · intro m hm
      cases hm
    · rw [hacc hi]
      rfl
  · rcases h hi with ⟨hinner, hcommits⟩
    rcases hcommits acc.2.2 hdb hle with ⟨res, n, db', hres, hcom⟩
    rw [if_neg (by simp [Node.isNil_of_isInner hinner]), hres, Option.map_some]
    refine ⟨_, rfl, hcom.ok, hcom.le, hcom.diskdb, hcom.kept, ?_, ?_⟩
    · dsimp only
      rw [Function.update_self]
      exact hcom.simplifyNode_eq hinner
    · intro j hj
      dsimp only
      rw [Function.update_of_ne hj]

theorem commitChildren_spec (hnil : ∀ i, (ls i).isNil = (cs i).isNil)
    (h : ∀ i : Fin 16, cs i.castSucc ≠ .nil → (cs i.castSucc).isInner = true ∧
      Commits keccak S db false (ls i.castSucc) (cs i.castSucc)) (is : List (Fin 16))
    {acc : (Fin 17 → Live) × ℕ × Database} (hdb : acc.2.2.Ok keccak S)
    (hle : ∀ h, db.Has h → acc.2.2.Has h)
    (hacc : ∀ i, cs i = .nil → acc.1 i = .nil) :
    ∃ acc', is.foldlM (commitChild ls) acc = some acc' ∧ acc'.2.2.Ok keccak S ∧
      (∀ h, acc.2.2.Has h → acc'.2.2.Has h) ∧ acc'.2.2.diskdb = acc.2.2.diskdb ∧
      (∀ i ∈ is, Kept keccak acc'.2.2 (cs i.castSucc) ∧
        (acc'.1 i.castSucc).simplifyNode = storedRef keccak (cs i.castSucc)) ∧
      ∀ j, (∀ i ∈ is, j ≠ i.castSucc) → acc'.1 j = acc.1 j := by
  -- what holds of the accumulator: the database only grows, and a child is set once
  induction is generalizing acc with
  | nil => exact ⟨acc, rfl, hdb, fun _ => id, rfl, by simp, fun _ _ => rfl⟩
  | cons i is ih =>
      rcases commitChild_spec hnil (h i) hdb hle (hacc _) with
        ⟨acc₁, hstep, hdb₁, hle₁, hdisk₁, hkept, hform, hframe⟩
      -- an empty place stays empty
      have hacc₁ : ∀ j, cs j = .nil → acc₁.1 j = .nil := by
        intro j hj
        by_cases hji : j = i.castSucc
        · have hnone : (acc₁.1 j).simplifyNode = .nil := by
            rw [hji, hform, ← hji, hj]
            rfl
          revert hnone
          cases acc₁.1 j <;> intro hnone <;> first | rfl | cases hnone
        · rw [hframe j hji]
          exact hacc j hj
      rcases ih hdb₁ (fun h hh => hle₁ h (hle h hh)) hacc₁ with
        ⟨acc', hrest, hdb', hle', hdisk', hdone, hframe'⟩
      refine ⟨acc', ?_, hdb', fun h hh => hle' h (hle₁ h hh), hdisk'.trans hdisk₁, ?_, ?_⟩
      · rw [List.foldlM_cons, hstep]
        exact hrest
      · intro j hj
        by_cases hin : j ∈ is
        · exact hdone j hin
        · rcases List.mem_cons.mp hj with rfl | hj
          · -- the rounds after this one leave child and database entry alone
            have hsame := hframe' j.castSucc fun i hi heq =>
              hin (Fin.castSucc_injective _ heq ▸ hi)
            rw [hsame]
            exact ⟨hkept.mono hle', hform⟩
          · exact absurd hj hin
      · intro j hj
        rw [hframe' j fun i hi => hj i (List.mem_cons_of_mem _ hi), hframe j (hj i List.mem_cons_self)]

end Children

theorem subnodes_of_not_isInner (h : n.isInner = false) : subnodes n = [] := by
  cases n <;> first | rfl | cases h

theorem IsHex.isInner_last {cs : Fin 17 → Node} (h : IsHex (.full cs)) :
    (cs (Fin.last 16)).isInner = false := by
  cases h with
  | full h16 _ =>
      rcases h16 with hnil | ⟨v, -, hv⟩
      · rw [hnil]
        rfl
      · rw [hv]
        rfl

/-- The child of a short node is a value, or it is committed too. -/
theorem commit_val {k : Bytes} (hn : Known keccak S (.short k n))
    (h : Rep keccak S db false true l n) (ih : Known keccak S n → Commits keccak S db false l n)
    {db₁ : Database} (hdb : db₁.Ok keccak S) (hle : ∀ h, db.Has h → db₁.Has h) :
    ∃ res committed db', (if l.isFull then l.commit db₁ else some (l, 0, db₁)) =
      some (res, committed, db') ∧ db'.Ok keccak S ∧ (∀ h, db₁.Has h → db'.Has h) ∧
      db'.diskdb = db₁.diskdb ∧ Kept keccak db' n ∧ res.simplifyNode = storedRef keccak n := by
  cases hn.isHex with
  | @leaf _ v hk =>
      cases h with
      | value =>
          refine ⟨_, 0, db₁, rfl, hdb, fun _ => id, rfl, ?_, rfl⟩
          intro m hm
          cases hm
      | hash hv => cases hv.isHex
  | @ext _ cs hk hcs =>
      rcases ih hn.below db₁ hdb hle with ⟨res, committed, db', hres, hcom⟩
      refine ⟨res, committed, db', ?_, hcom.ok, hcom.le, hcom.diskdb, hcom.kept,
        hcom.simplifyNode_eq rfl⟩
      -- only a full node is committed below a short one; a hash is there already
      cases h with
      | hash => exact hres
      | full => exact hres

/-- `commit` writes what is not in the database. -/
theorem Rep.commits (h : Rep keccak S db force hashed l n) (hS : Separated keccak S)
    (hhashed : hashed = true) (hn : Known keccak S n) : Commits keccak S db force l n := by
  -- on the node in memory; a value is committed with the node it is in
  induction h with
  | nil => cases hn.isHex
  | value => cases hn.isHex
  | hash _ hsize hst => exact commits_hash hsize hst
  | @short force hashed k l flags m hf h ih =>
      rw [hhashed, Bool.true_or] at h ih
      rw [hhashed] at hf
      -- a clean node is in the database, and so is all below it
      by_cases hclean : ∃ h, flags.hash = some h ∧ flags.dirty = false
      · rcases hclean with ⟨h, hhash, hdirty⟩
        exact commits_clean hf hhash hdirty fun db => by simp only [Live.commit, hhash, hdirty]
      · intro db₁ hdb hle
        rw [commit_short (by
          intro h hhash
          by_contra hdirty
          exact hclean ⟨h, hhash, Bool.eq_false_iff.mpr hdirty⟩)]
        -- dirty: first what is below, then the node
        rcases commit_val hn h (ih rfl) hdb hle with
          ⟨res, committed, db', hres, hdb', hle', hdisk, hkept, hform⟩
        rw [hres]
        refine ⟨_, _, _, rfl, @committed_store _ _ _ _ _ _ hS hn hdb' hle' hdisk ?_
          (.short (hexToCompact k) res flags) ?_ hf.hash (isSome_hash_iff hf) committed⟩
        · -- the nodes below were stored by the recursive call
          intro m' hm' hne hlen
          rcases List.mem_cons.mp hm' with rfl | hm'
          · exact absurd rfl hne
          · exact hkept m' hm' hlen
        · rw [Live.simplifyNode, hform]
          rfl
  | @full force hashed ls flags cs hf h ih =>
      rw [hhashed] at hf
      rw [hhashed, Bool.true_or] at h
      have ih := fun i => ih i (by rw [hhashed, Bool.true_or])
      by_cases hclean : ∃ h, flags.hash = some h ∧ flags.dirty = false
      · rcases hclean with ⟨h, hhash, hdirty⟩
        exact commits_clean hf hhash hdirty fun db => by simp only [Live.commit, hhash, hdirty]
      · intro db₁ hdb hle
        rw [commit_full (by
          intro h hhash
          by_contra hdirty
          exact hclean ⟨h, hhash, Bool.eq_false_iff.mpr hdirty⟩)]
        -- the sixteen children, one after the other, each in the database the last has left
        rcases @commitChildren_spec keccak S db ls cs (fun i => (h i).isNil_eq)
          (fun i hi => ⟨(hn.child i hi).isHex.isInner, ih i.castSucc (hn.child i hi)⟩)
          (List.finRange 16) (fun _ => .nil, 0, db₁) hdb hle (fun _ _ => rfl) with
          ⟨⟨kids, committed, db'⟩, hfold, hdb', hle', hdisk, hdone, -⟩
        rw [hfold]
        have hlast := hn.isHex.isInner_last
        have hvalue := (h (Fin.last 16)).of_not_isInner hlast
        refine ⟨_, _, _, rfl, @committed_store _ _ _ _ _ _ hS hn hdb' hle' hdisk ?_
          (.full (Function.update kids (Fin.last 16) (ls (Fin.last 16))) flags) ?_ hf.hash
          (isSome_hash_iff hf) committed⟩
        · intro m' hm' hne hlen
          rcases List.mem_cons.mp hm' with rfl | hm'
          · exact absurd rfl hne
          · -- a node below a full one is below one of its children
            rcases List.mem_flatMap.mp hm' with ⟨i, -, hm'⟩
            cases i using Fin.lastCases with
            | last =>
                rw [subnodes_of_not_isInner hlast] at hm'
                cases hm'
            | cast i => exact (hdone i (List.mem_finRange i)).1 m' hm' hlen
        · rw [Live.simplifyNode, stored_full]
          congr 1
          funext i
          cases i using Fin.lastCases with
          | last =>
              -- the value goes over as it is
              rw [Function.update_self, hvalue.1, storedRef, if_neg (Bool.eq_false_iff.mp hlast)]
          | cast i =>
              rw [Function.update_of_ne (Fin.castSucc_ne_last i)]
              exact (hdone i (List.mem_finRange i)).2

/-! ## Moving to disk -/

theorem Known.eq_of_hash_eq {m : Node} (hS : Separated keccak S) (hn : Known keccak S n)
    (hm : Known keccak S m) (h : keccak (enc keccak n) = keccak (enc keccak m)) : n = m :=
  hn.isHex.enc_inj hm.isHex (hn.small hS) (hm.small hS)
    (fun a ha b hb => hS.inj (hn.mem a ha) (hm.mem b hb)) (hS.inj hn.enc_mem hm.enc_mem h)

variable (keccak S) in
/-- The hashes are those of nodes among `ns`, and every one of `ns` that is stored on its own is
below one of them. -/
structure Gathers (ns : List Node) (hs : List Hash) : Prop where
  below : ∀ h ∈ hs, ∃ c, Known keccak S c ∧ h = keccak (enc keccak c) ∧ subnodes c ⊆ ns ∧
    32 ≤ (enc keccak c).length ∧ (subnodes c).length ≤ ns.length
  above : ∀ m ∈ ns, 32 ≤ (enc keccak m).length →
    ∃ c, Known keccak S c ∧ keccak (enc keccak c) ∈ hs ∧ m ∈ subnodes c

theorem gathers_nil : Gathers keccak S [] [] := by
  refine ⟨fun _ hh => ?_, fun _ hm => ?_⟩
  · cases hh
  · cases hm

theorem IsHex.subnodes_eq (h : IsHex n) : subnodes n = n :: (subnodes n).tail := by
  cases h <;> rfl

/-- A child stands in the stored node whole, or by its hash. -/
theorem Known.gathers_ref (hn : Known keccak S n)
    (hg : Gathers keccak S (subnodes n).tail (forGatherChildren (stored keccak n))) :
    Gathers keccak S (subnodes n) (forGatherChildren (storedRef keccak n)) := by
  rw [storedRef, if_pos hn.isHex.isInner]
  -- a small child is gone through with its parent
  by_cases hlen : (enc keccak n).length < 32
  · rw [if_pos hlen]
    refine ⟨fun h hh => ?_, fun m hm hle => ?_⟩
    · rcases hg.below h hh with ⟨c, hc, heq, hsub, hle, hsize⟩
      exact ⟨c, hc, heq, fun _ hx => List.mem_of_mem_tail (hsub hx), hle,
        hsize.trans (by simp)⟩
    · rw [hn.isHex.subnodes_eq] at hm
      rcases List.mem_cons.mp hm with rfl | hm
      · omega
      · exact hg.above m hm hle
  · -- a hash is gathered
    have hhash : forGatherChildren (.hash (nodeHash keccak n)) = [keccak (enc keccak n)] := by
      rw [forGatherChildren, nodeHash, bytesToHash_bytes]
    rw [if_neg hlen, hhash]
    refine ⟨fun h hh => ?_, fun m hm _ => ⟨n, hn, List.mem_singleton_self _, hm⟩⟩
    exact ⟨n, hn, List.mem_singleton.mp hh, fun _ => id, Nat.not_lt.mp hlen, le_rfl⟩

theorem length_subnodes_child (cs : Fin 17 → Node) (i : Fin 17) :
    (subnodes (cs i)).length ≤ (subnodes (.full cs)).tail.length := by
  rw [subnodes, List.tail_cons, List.length_flatMap]
  exact List.single_le_sum (by simp) _ (List.mem_map.mpr ⟨i, List.mem_finRange i, rfl⟩)

/-- `forGatherChildren` finds the nodes below a stored node. -/
theorem Known.gathers (hn : Known keccak S n) :
    Gathers keccak S (subnodes n).tail (forGatherChildren (stored keccak n)) := by
  have hhex := hn.isHex
  -- on the trie: `stored` and `forGatherChildren` both go by the node
  induction hhex with
  | leaf hk => exact gathers_nil
  | ext hk hcs ih => exact hn.below.gathers_ref (ih hn.below)
  | @full cs h16 hcs ih =>
      have hchild : ∀ i : Fin 16, Gathers keccak S (subnodes (cs i.castSucc))
          (forGatherChildren (storedRef keccak (cs i.castSucc))) := by
        intro i
        by_cases hi : cs i.castSucc = .nil
        · rw [hi]
          exact gathers_nil
        · exact (hn.child i hi).gathers_ref (ih i hi (hn.child i hi))
      rw [stored_full, forGatherChildren]
      refine ⟨fun h hh => ?_, fun m hm hle => ?_⟩
      · rcases List.mem_flatMap.mp hh with ⟨i, -, hh⟩
        rcases (hchild i).below h hh with ⟨c, hc, heq, hsub, hle, hsize⟩
        refine ⟨c, hc, heq, fun x hx => ?_, hle, hsize.trans (length_subnodes_child cs _)⟩
        exact List.mem_flatMap.mpr ⟨i.castSucc, List.mem_finRange _, hsub hx⟩
      · rcases List.mem_flatMap.mp hm with ⟨i, -, hm⟩
        cases i using Fin.lastCases with
        | last =>
            rw [subnodes_of_not_isInner hn.isHex.isInner_last] at hm
            cases hm
        | cast i =>
            rcases (hchild i).above m hm hle with ⟨c, hc, hmem, hm⟩
            exact ⟨c, hc, List.mem_flatMap.mpr ⟨i, List.mem_finRange i, hmem⟩, hm⟩

/-- A database, and the entries that are to be written to the disk. -/
abbrev Pending := Database × List (Hash × Bytes)

/-- The node is on the disk, or will be when the batch is written. -/
def OnDisk (acc : Pending) (h : Hash) : Prop :=
  (acc.1.diskdb h).isSome = true ∨ ∃ b, (h, b) ∈ acc.2

variable (keccak S) in
/-- While nodes move to the disk: with a node, all that is stored on its own below it is there. -/
structure Flushing (acc : Pending) : Prop where
  ok : acc.1.Ok keccak S
  batch : ∀ e ∈ acc.2, ∃ m, Known keccak S m ∧ e = (keccak (enc keccak m), enc keccak m)
  closed : ∀ m, Known keccak S m → OnDisk acc (keccak (enc keccak m)) →
    ∀ c ∈ subnodes m, 32 ≤ (enc keccak c).length → OnDisk acc (keccak (enc keccak c))

/-- No node is lost, and none leaves the disk. -/
structure Advances (acc acc' : Pending) : Prop where
  has : ∀ h, acc.1.Has h → acc'.1.Has h
  onDisk : ∀ h, OnDisk acc h → OnDisk acc' h

theorem Advances.refl (acc : Pending) : Advances acc acc := ⟨fun _ => id, fun _ => id⟩

theorem Advances.trans {a b c : Pending} (h : Advances a b) (h' : Advances b c) : Advances a c :=
  ⟨fun x hx => h'.has x (h.has x hx), fun x hx => h'.onDisk x (h.onDisk x hx)⟩

/-- One entry of a batch is written. -/
def Database.put (db : Database) (e : Hash × Bytes) : Database :=
  ⟨Function.update db.dirties e.1 none, Function.update db.diskdb e.1 (some e.2)⟩

theorem Database.write_cons (e : Hash × Bytes) (batch : List (Hash × Bytes)) :
    db.write (e :: batch) = (db.put e).write batch := rfl

theorem onDisk_put (e : Hash × Bytes) (batch : List (Hash × Bytes)) (h : Hash) :
    OnDisk (db.put e, batch) h ↔ OnDisk (db, e :: batch) h := by
  by_cases hh : h = e.1
  · subst hh
    refine ⟨fun _ => .inr ⟨e.2, List.mem_cons_self⟩, fun _ => .inl ?_⟩
    simp [Database.put]
  · have hne : ∀ b, (h, b) ≠ e := fun b heq => hh (by rw [← heq])
    simp [OnDisk, Database.put, Function.update_of_ne hh, hne]

theorem Flushing.put {e : Hash × Bytes} {batch : List (Hash × Bytes)}
    (h : Flushing keccak S (db, e :: batch)) : Flushing keccak S (db.put e, batch) ∧
      Advances (db, e :: batch) (db.put e, batch) := by
  -- the entry leaves the memory in the same step as it reaches the disk
  refine ⟨⟨⟨?_, ?_⟩, fun e' he' => h.batch e' (List.mem_cons_of_mem _ he'), ?_⟩, ?_, ?_⟩
  · intro x r hx
    dsimp only [Database.put] at hx
    by_cases hxe : x = e.1
    · rw [hxe, Function.update_self] at hx
      cases hx
    · rw [Function.update_of_ne hxe] at hx
      exact h.ok.dirties hx
  · intro x b hx
    dsimp only [Database.put] at hx
    by_cases hxe : x = e.1
    · rw [hxe, Function.update_self] at hx
      rcases h.batch e List.mem_cons_self with ⟨m, hm, he⟩
      rw [he] at hx hxe
      exact ⟨m, hm, hxe, (Option.some.inj hx).symm⟩
    · rw [Function.update_of_ne hxe] at hx
      exact h.ok.diskdb hx
  · intro m hm hdisk c hc hlen
    rw [onDisk_put] at hdisk ⊢
    exact h.closed m hm hdisk c hc hlen
  · intro x hx
    by_cases hxe : x = e.1
    · right
      simp [Database.put, hxe]
    · simpa [Database.Has, Database.put, Function.update_of_ne hxe] using hx
  · exact fun x hx => (onDisk_put e batch x).mpr hx

theorem Flushing.write {batch : List (Hash × Bytes)} (h : Flushing keccak S (db, batch)) :
    Flushing keccak S (db.write batch, []) ∧ Advances (db, batch) (db.write batch, []) := by
  induction batch generalizing db with
  | nil => exact ⟨h, .refl _⟩
  | cons e batch ih =>
      rw [Database.write_cons]
      have hput := h.put
      have hrest := ih hput.1
      exact ⟨hrest.1, hput.2.trans hrest.2⟩

variable (keccak S) in
/-- `commitNode` brings the node to the disk. -/
def FlushesNode (res : Option Pending) (acc : Pending) (hs : List Hash) : Prop :=
  ∃ acc', res = some acc' ∧ Flushing keccak S acc' ∧ Advances acc acc' ∧ ∀ h ∈ hs, OnDisk acc' h

variable {batchFull : List (Hash × Bytes) → Bool} {fuel : ℕ}

/-- The loop over the children. -/
theorem commitChildNodes_spec {hs : List Hash} {acc : Pending} (hf : Flushing keccak S acc)
    (hchild : ∀ h ∈ hs, ∀ acc₁, Flushing keccak S acc₁ → Advances acc acc₁ →
      FlushesNode keccak S (Database.commitNode batchFull fuel h acc₁) acc₁ [h]) :
    FlushesNode keccak S
      (hs.foldlM (fun acc child => Database.commitNode batchFull fuel child acc) acc) acc hs := by
  induction hs generalizing acc with
  | nil => exact ⟨acc, rfl, hf, .refl acc, fun _ hh => by cases hh⟩
  | cons h hs ih =>
      rcases hchild h List.mem_cons_self acc hf (.refl acc) with ⟨acc₁, hres, hf₁, hadv, hdisk⟩
      rcases ih hf₁ fun x hx acc₂ hf₂ hadv₂ =>
        hchild x (List.mem_cons_of_mem _ hx) acc₂ hf₂ (hadv.trans hadv₂) with
        ⟨acc', hfold, hf', hadv', hdisk'⟩
      refine ⟨acc', ?_, hf', hadv.trans hadv', fun x hx => ?_⟩
      · rw [List.foldlM_cons, hres]
        exact hfold
      · rcases List.mem_cons.mp hx with rfl | hx
        · exact hadv'.onDisk _ (hdisk _ List.mem_cons_self)
        · exact hdisk' x hx

/-- The node goes into the batch when those below it have. -/
theorem Flushing.append {acc : Pending} (hf : Flushing keccak S acc) (hS : Separated keccak S)
    (hn : Known keccak S n)
    (hbelow : ∀ h ∈ forGatherChildren (stored keccak n), OnDisk acc h) :
    Flushing keccak S (acc.1, acc.2 ++ [(keccak (enc keccak n), enc keccak n)]) ∧
      Advances acc (acc.1, acc.2 ++ [(keccak (enc keccak n), enc keccak n)]) ∧
      OnDisk (acc.1, acc.2 ++ [(keccak (enc keccak n), enc keccak n)]) (keccak (enc keccak n)) := by
  have hself : OnDisk (acc.1, acc.2 ++ [(keccak (enc keccak n), enc keccak n)])
      (keccak (enc keccak n)) := .inr ⟨_, List.mem_append_right _ (List.mem_singleton_self _)⟩
  have hadv : Advances acc (acc.1, acc.2 ++ [(keccak (enc keccak n), enc keccak n)]) :=
    ⟨fun _ => id, fun h hh => hh.imp id fun ⟨b, hb⟩ => ⟨b, List.mem_append_left _ hb⟩⟩
  refine ⟨⟨hf.ok, fun e he => ?_, fun m hm hdisk c hc hlen => ?_⟩, hadv, hself⟩
  · rcases List.mem_append.mp he with he | he
    · exact hf.batch e he
    · exact ⟨n, hn, List.mem_singleton.mp he⟩
  · -- a node that was on the disk before, or the one that is added
    by_cases hold : OnDisk acc (keccak (enc keccak m))
    · exact hadv.onDisk _ (hf.closed m hm hold c hc hlen)
    · have hhash : keccak (enc keccak m) = keccak (enc keccak n) := by
        rcases hdisk with hdisk | ⟨b, hb⟩
        · exact absurd (.inl hdisk) hold
        · rcases List.mem_append.mp hb with hb | hb
          · exact absurd (.inr ⟨b, hb⟩) hold
          · exact congrArg Prod.fst (List.mem_singleton.mp hb)
      rw [hm.eq_of_hash_eq hS hn hhash, hn.isHex.subnodes_eq] at hc
      rcases List.mem_cons.mp hc with rfl | hc
      · exact hself
      · -- below it: the child that it is below is on the disk, and closed
        rcases hn.gathers.above c hc hlen with ⟨d, hd, hmem, hc⟩
        exact hadv.onDisk _ (hf.closed d hd (hbelow _ hmem) c hc hlen)

theorem commitNode_spec (hS : Separated keccak S) {acc : Pending} (hf : Flushing keccak S acc)
    (hn : Known keccak S n) (hst : Stored keccak acc.1 n) (hfuel : (subnodes n).length ≤ fuel) :
    FlushesNode keccak S (Database.commitNode batchFull fuel (keccak (enc keccak n)) acc) acc
      [keccak (enc keccak n)] := by
  -- on the fuel, which counts the nodes of the trie
  induction fuel generalizing n acc with
  | zero =>
      have hpos := List.length_pos_of_mem hn.isHex.mem_subnodes
      omega
  | succ fuel ih =>
      rcases acc with ⟨db, batch⟩
      rw [Database.commitNode, if_neg (hS.ne_zero _ hn.enc_mem)]
      cases hdirty : db.dirties (keccak (enc keccak n)) with
      | none =>
          -- not in memory: it is on the disk and nothing is done
          refine ⟨(db, batch), rfl, hf, .refl _, fun h hh => ?_⟩
          rw [List.mem_singleton.mp hh]
          refine .inl (hst.1.resolve_left fun hsome => ?_)
          rw [hdirty] at hsome
          cases hsome
      | some r =>
          rcases hf.ok.dirties hdirty with ⟨m, hm, hhash, rfl⟩
          rw [← hn.eq_of_hash_eq hS hm hhash]
          have hlen := congrArg List.length hn.isHex.subnodes_eq
          rw [List.length_cons] at hlen
          -- the children first; what the earlier ones do keeps the later ones in the database
          have hloop := @commitChildNodes_spec keccak S batchFull fuel
            (forGatherChildren (stored keccak n)) (db, batch) hf fun h hh acc₁ hf₁ hadv => by
              rcases hn.gathers.below h hh with ⟨c, hc, rfl, hsub, hle, hsize⟩
              have hkept : Kept keccak acc₁.1 c := fun x hx hxlen =>
                hadv.has _ (hst.2 x (List.mem_of_mem_tail (hsub hx)) hxlen)
              exact ih hf₁ hc (hkept.stored hc.isHex hle) (by omega)
          rcases hloop with ⟨⟨db₁, batch₁⟩, hfold, hf₁, hadv₁, hdisk₁⟩
          rcases hf₁.append hS hn hdisk₁ with ⟨hf₂, hadv₂, hself⟩
          simp only [hfold, hn.isHex.encode_stored, Option.bind_eq_bind, Option.bind_some]
          -- a batch that is large enough is written at once
          by_cases hfull : batchFull (batch₁ ++ [(keccak (enc keccak n), enc keccak n)]) = true
          · rw [if_pos hfull]
            refine ⟨_, rfl, hf₂.write.1, hadv₁.trans (hadv₂.trans hf₂.write.2), fun h hh => ?_⟩
            rw [List.mem_singleton.mp hh]
            exact hf₂.write.2.onDisk _ hself
          · rw [if_neg hfull]
            refine ⟨_, rfl, hf₂, hadv₁.trans hadv₂, fun h hh => ?_⟩
            rw [List.mem_singleton.mp hh]
            exact hself

/-- `Commit` of the database moves a stored trie to the disk. -/
theorem Database.commit_spec (hS : Separated keccak S) (hf : Flushing keccak S (db, []))
    (hn : Known keccak S n) (hst : Stored keccak db n) (hfuel : (subnodes n).length ≤ fuel) :
    ∃ db', db.commit batchFull fuel (keccak (enc keccak n)) = some db' ∧
      Flushing keccak S (db', []) ∧ Advances (db, []) (db', []) ∧
      OnDisk (db', []) (keccak (enc keccak n)) := by
  rcases @commitNode_spec keccak S n batchFull fuel hS (db, []) hf hn hst hfuel with
    ⟨⟨db₁, batch⟩, hnode, hf₁, hadv, hdisk⟩
  refine ⟨db₁.write batch, ?_, hf₁.write.1, hadv.trans hf₁.write.2, ?_⟩
  · rw [Database.commit, hnode]
    rfl
  · exact hf₁.write.2.onDisk _ (hdisk _ (List.mem_singleton_self _))

end Trie

end LessChain
