import LessChain.Committee.Rebuild

/-!
# Full nodes that `rebuildTrie` comes to again

`rebuildHelper` rewrites the entries of its table on its way. A short node is spoiled by this:
its key is compacted. A full node with nothing but full nodes below it is not: the walk puts the
new hashes of its children in the place of the old ones. If it comes to the node again it finds
the new hashes, and under them nothing, or the nodes it has made itself (`Renews`). So it goes
the same way and computes the same hash (`Renews.walk`).
-/

namespace LessChain

open Trie

namespace Reply

/-- An empty slot or a hash. -/
def isRef : Node → Bool
  | .nil | .hash _ => true
  | _ => false

/-- A child under its new hash. -/
def renewSlot (new : Bytes → Bytes) : Node → Node
  | .hash h => .hash (new h)
  | n => n

/-- A full node with the new hashes of its children. -/
def renew (new : Bytes → Bytes) : Node → Node
  | .full children => .full fun i => renewSlot new (children i)
  | n => n

theorem isRef_cases {n : Node} (h : isRef n = true) : n = .nil ∨ ∃ hash, n = .hash hash := by
  cases n with
  | nil => exact .inl rfl
  | hash hash => exact .inr ⟨hash, rfl⟩
  | value => cases h
  | short => cases h
  | full => cases h

theorem isRef_renewSlot {n : Node} (h : isRef n = true) (new : Bytes → Bytes) :
    isRef (renewSlot new n) = true := by
  rcases isRef_cases h with rfl | ⟨hash, rfl⟩
  · rfl
  · rfl

theorem renewSlot_eq_hash {new : Bytes → Bytes} {n : Node} {hash : Bytes}
    (h : renewSlot new n = .hash hash) : ∃ c, n = .hash c ∧ hash = new c := by
  cases n with
  | hash c =>
      cases h
      exact ⟨c, rfl, rfl⟩
  | nil => cases h
  | value => cases h
  | short => cases h
  | full => cases h

theorem renewSlot_id (n : Node) : renewSlot id n = n := by
  cases n <;> rfl

theorem renewSlot_congr {new new' : Bytes → Bytes} {n : Node}
    (h : ∀ c, n = .hash c → new c = new' c) : renewSlot new n = renewSlot new' n := by
  cases n with
  | hash c => exact congrArg Node.hash (h c rfl)
  | nil => rfl
  | value => rfl
  | short => rfl
  | full => rfl

section Renewal

variable (keccak : Bytes → Hash) (table : Hash2Node)

/-- The second hash is the one that the walk computes for the first, each time. There are at
most `k` nodes on a way down, and all of them are full. -/
inductive Renews : ℕ → Bytes → Bytes → Prop
  | missing {k : ℕ} {hash : Bytes} (h : table hash = none) : Renews (k + 1) hash hash
  | full {k : ℕ} {hash : Bytes} {children : Fin 17 → Node} {new : Bytes → Bytes}
      (h : table hash = some (.full children)) (hrefs : ∀ i, isRef (children i) = true)
      (hbelow : ∀ i c, children i = .hash c → Renews k c (new c))
      (hsame : ∀ n, table (keccak (renew new (.full children)).encode).bytes = some n →
        n = renew new (.full children)) :
      Renews (k + 1) hash (keccak (renew new (.full children)).encode).bytes

/-- The walk may come to this hash again. -/
def Renewable (hash : Bytes) : Prop := ∃ k hash', Renews keccak table k hash hash'

/-- A child before and after a part of the walk. -/
def Stepped (n n' : Node) : Prop :=
  n' = n ∨ ∃ k c c', n = .hash c ∧ n' = .hash c' ∧ Renews keccak table k c c'

/-- An entry before and after a part of the walk: in a node that can be walked again, some of
the children may have got their new hashes. -/
def Kept (t t' : Hash2Node) (y : Bytes) : Prop :=
  t' y = t y ∨ Renewable keccak table y ∧ ∃ children children', t y = some (.full children) ∧
    t' y = some (.full children') ∧ ∀ i, Stepped keccak table (children i) (children' i)

/-- The table that the walk has made of the first one, where it can be walked again. -/
def Current (t : Hash2Node) : Prop := ∀ y, Renewable keccak table y → Kept keccak table table t y

variable {keccak table} {k m : ℕ} {hash hash' hash'' y : Bytes}

theorem Renews.unique (h : Renews keccak table k hash hash')
    (h' : Renews keccak table m hash hash'') : hash' = hash'' := by
  induction h generalizing m hash'' with
  | missing hnone =>
      cases h' with
      | missing => rfl
      | full hfull =>
          rw [hnone] at hfull
          cases hfull
  | @full k hash children new hfull hrefs hbelow hsame ih =>
      cases h' with
      | missing hnone =>
          rw [hnone] at hfull
          cases hfull
      | @full m _ _ new' hfull' _ hbelow' _ =>
          rw [hfull] at hfull'
          cases hfull'
          have hslots : ∀ i, renewSlot new (children i) = renewSlot new' (children i) :=
            fun i => renewSlot_congr fun c hc => ih i c hc (hbelow' i c hc)
          simp only [renew, hslots]

/-- The new hash stays what it is. -/
theorem Renews.again (h : Renews keccak table k hash hash') : Renews keccak table k hash' hash' := by
  induction h with
  | missing hnone => exact .missing hnone
  | @full k hash children new hfull hrefs hbelow hsame ih =>
      cases hentry : table (keccak (renew new (.full children)).encode).bytes with
      | none => exact .missing hentry
      | some n =>
          -- under the new hash stands the new node, whose children are their own new hashes
          rw [hsame n hentry] at hentry
          have hfixed : renew id (renew new (.full children)) = renew new (.full children) := by
            simp only [renew, renewSlot_id]
          have hagain := @Renews.full keccak table k _ _ id hentry
            (fun i => isRef_renewSlot (hrefs i) new)
            (fun i c hc => by
              rcases renewSlot_eq_hash hc with ⟨c₀, hc₀, rfl⟩
              exact ih i c₀ hc₀)
            (fun n hn => by
              rw [show Node.full (fun i => renewSlot new (children i)) =
                renew new (.full children) from rfl, hfixed] at hn ⊢
              exact hsame n hn)
          rwa [show Node.full (fun i => renewSlot new (children i)) =
            renew new (.full children) from rfl, hfixed] at hagain

/-! ## Children and entries -/

theorem Stepped.refl (n : Node) : Stepped keccak table n n := .inl rfl

theorem Stepped.trans {n n' n'' : Node} (h : Stepped keccak table n n')
    (h' : Stepped keccak table n' n'') : Stepped keccak table n n'' := by
  rcases h with rfl | ⟨k, c, c', rfl, rfl, hc⟩
  · exact h'
  · rcases h' with rfl | ⟨k', d, d', hd, rfl, hd'⟩
    · exact .inr ⟨k, c, c', rfl, rfl, hc⟩
    · -- a new hash is not replaced by another one
      cases hd
      rw [hd'.unique hc.again]
      exact .inr ⟨k, c, c', rfl, rfl, hc⟩

theorem Stepped.eq_nil {n : Node} (h : Stepped keccak table .nil n) : n = .nil := by
  rcases h with rfl | ⟨_, _, _, hnil, -, -⟩
  · rfl
  · cases hnil

/-- Whichever of the two hashes a child has, it leads to the new one. -/
theorem Stepped.renews {n : Node} (h : Stepped keccak table (.hash hash) n)
    (hr : Renews keccak table k hash hash') :
    ∃ d, n = .hash d ∧ Renews keccak table k d hash' := by
  rcases h with rfl | ⟨m, c, c', hc, rfl, hcc'⟩
  · exact ⟨hash, rfl, hr⟩
  · cases hc
    rw [hcc'.unique hr]
    exact ⟨hash', rfl, hr.again⟩

/-- A child with its new hash stays as it is. -/
theorem Stepped.eq_of_renewed {new : Bytes → Bytes} {n n' : Node} (href : isRef n = true)
    (hnew : ∀ c, n = .hash c → Renews keccak table k c (new c))
    (h : Stepped keccak table (renewSlot new n) n') : n' = renewSlot new n := by
  rcases isRef_cases href with rfl | ⟨c, rfl⟩
  · exact h.eq_nil
  · rcases h with h | ⟨m, d, d', hd, rfl, hdd'⟩
    · exact h
    · cases hd
      rw [hdd'.unique (hnew c rfl).again]
      rfl

theorem Kept.refl (t : Hash2Node) (y : Bytes) : Kept keccak table t t y := .inl rfl

theorem Kept.trans {t t' t'' : Hash2Node} (h : Kept keccak table t t' y)
    (h' : Kept keccak table t' t'' y) : Kept keccak table t t'' y := by
  rcases h with h | ⟨hy, ch, ch', ht, ht', hch⟩
  · rw [Kept, ← h]
    exact h'
  · rcases h' with h' | ⟨-, ch₁, ch₂, ht₁, ht₂, hch'⟩
    · exact .inr ⟨hy, ch, ch', ht, h'.trans ht', hch⟩
    · rw [ht'] at ht₁
      cases ht₁
      exact .inr ⟨hy, ch, ch₂, ht, ht₂, fun i => (hch i).trans (hch' i)⟩

/-- Other entries do not change at all. -/
theorem Kept.eq {t t' : Hash2Node} (h : Kept keccak table t t' y)
    (hy : ¬ Renewable keccak table y) : t' y = t y := by
  rcases h with h | ⟨hy', -⟩
  · exact h
  · exact absurd hy' hy

theorem Kept.none {t t' : Hash2Node} (h : Kept keccak table t t' y) (hnone : t y = none) :
    t' y = none := by
  rcases h with h | ⟨-, ch, ch', ht, -⟩
  · exact h.trans hnone
  · rw [hnone] at ht
    cases ht

theorem Kept.full {t t' : Hash2Node} (h : Kept keccak table t t' y) {children : Fin 17 → Node}
    (hfull : t y = some (.full children)) : ∃ children', t' y = some (.full children') ∧
      ∀ i, Stepped keccak table (children i) (children' i) := by
  rcases h with h | ⟨-, ch, ch', ht, ht', hch⟩
  · exact ⟨children, h.trans hfull, fun i => .refl _⟩
  · rw [hfull] at ht
    cases ht
    exact ⟨ch', ht', hch⟩

theorem Current.kept {t t' : Hash2Node} (h : Current keccak table t)
    (hkept : ∀ y, Renewable keccak table y → Kept keccak table t t' y) :
    Current keccak table t' :=
  fun y hy => (h y hy).trans (hkept y hy)

/-! ## The walk -/

variable (keccak table) in
/-- The table while the loop over the children runs; those in `rest` are still to come. At the
start of the loop the children are `before`; in the first table they were `children`. -/
structure Renewing (t : Hash2Node) (hash : Bytes) (children before : Fin 17 → Node)
    (new : Bytes → Bytes) (rest : List (Fin 17)) (s : Hash2Node) : Prop where
  entry : ∃ now, s hash = some (.full now) ∧
    (∀ i, Stepped keccak table (before i) (now i)) ∧
    ∀ i, i ∉ rest → now i = renewSlot new (children i)
  kept : ∀ y, y ≠ hash → Kept keccak table t s y

section Loop

variable {t s : Hash2Node} {children before : Fin 17 → Node} {new : Bytes → Bytes}
  {rest : List (Fin 17)}

theorem Renewing.all_kept (h : Renewing keccak table t hash children before new rest s)
    (hstart : t hash = some (.full before)) (hr : Renewable keccak table hash) (y : Bytes) :
    Kept keccak table t s y := by
  by_cases hy : y = hash
  · rcases h.entry with ⟨now, hnow, hstepped, -⟩
    rw [hy]
    exact .inr ⟨hr, before, now, hstart, hnow, hstepped⟩
  · exact h.kept y hy

/-- One round. Whether the child has its old or its new hash, the walk below it ends with the
new one. -/
theorem Renewing.round {rec : Bytes → Hash2Node → Bytes → Option (Bytes × Hash2Node)}
    {keyPrefix : Bytes} {i : Fin 17}
    (h : Renewing keccak table t hash children before new (i :: rest) s)
    (hcurrent : Current keccak table t) (hstart : t hash = some (.full before))
    (hr : Renewable keccak table hash) (hrefs : ∀ i, isRef (children i) = true)
    (hnew : ∀ i c, children i = .hash c → Renews keccak table k c (new c))
    (hbefore : ∀ i, Stepped keccak table (children i) (before i))
    (hrec : ∀ c c' s p, Renews keccak table k c c' → Current keccak table s →
      ∃ s', rec c s p = some (c', s') ∧ ∀ y, Kept keccak table s s' y) :
    ∃ s', rebuildChild rec hash keyPrefix before s i = some s' ∧
      Renewing keccak table t hash children before new rest s' := by
  rcases h.entry with ⟨now, hnow, hstepped, hdone⟩
  have hi := hbefore i
  rcases isRef_cases (hrefs i) with hnil | ⟨c, hc⟩
  · -- an empty slot stays empty
    rw [hnil] at hi
    have hslot : now i = renewSlot new (children i) := by
      have := hstepped i
      rw [hi.eq_nil] at this
      rw [this.eq_nil, hnil]
      rfl
    refine ⟨s, by rw [rebuildChild, hi.eq_nil], ⟨now, hnow, hstepped, fun j hj => ?_⟩, h.kept⟩
    by_cases hji : j = i
    · rw [hji]
      exact hslot
    · exact hdone j (List.not_mem_cons_of_ne_of_not_mem hji hj)
  · rw [hc] at hi
    rcases hi.renews (hnew i c hc) with ⟨d, hd, hdc⟩
    have hs := hcurrent.kept fun y _ => h.all_kept hstart hr y
    rcases hrec d (new c) s (getCurrentKey keyPrefix [UInt8.ofNat i]) hdc hs with
      ⟨s', hwalk, hkept⟩
    rcases (hkept hash).full hnow with ⟨now', hnow', hstepped'⟩
    refine ⟨s'.modify hash (setChild i (.hash (new c))), ?_,
      ⟨Function.update now' i (.hash (new c)), ?_, fun j => ?_, fun j hj => ?_⟩, fun y hy => ?_⟩
    · rw [rebuildChild, hd]
      simp only [hwalk, Option.bind_eq_bind, Option.bind_some]
    · rw [Hash2Node.modify_self, hnow', Option.map_some, setChild]
    · by_cases hji : j = i
      · rw [hji, Function.update_self, hd]
        exact .inr ⟨k, d, new c, rfl, rfl, hdc⟩
      · rw [Function.update_of_ne hji]
        exact (hstepped j).trans (hstepped' j)
    · by_cases hji : j = i
      · rw [hji, Function.update_self, hc]
        rfl
      · have hj' := hdone j (List.not_mem_cons_of_ne_of_not_mem hji hj)
        have hkeeps := hstepped' j
        rw [hj'] at hkeeps
        rw [Function.update_of_ne hji]
        exact hkeeps.eq_of_renewed (hrefs j) (hnew j)
    · rw [Kept, Hash2Node.modify_of_ne _ _ hy]
      exact (h.kept y hy).trans (hkept y)

end Loop

/-- The walk from a hash that can be walked again: it gets through, computes the new hash and
keeps the table walkable. -/
theorem Renews.walk (updates : Bytes → Option StateAccount)
    (h : Renews keccak table k hash hash') {t : Hash2Node} (ht : Current keccak table t) {n : ℕ}
    (hle : k ≤ n) (keyPrefix : Bytes) :
    ∃ t', rebuildHelper keccak updates n hash t keyPrefix = some (hash', t') ∧
      ∀ y, Kept keccak table t t' y := by
  -- on the depth: below a child the walk starts from the old or from the new hash
  induction k generalizing hash hash' t n keyPrefix with
  | zero => cases h
  | succ k ih =>
      rcases Nat.exists_eq_succ_of_ne_zero (show n ≠ 0 by omega) with ⟨n, rfl⟩
      have hr : Renewable keccak table hash := ⟨k + 1, hash', h⟩
      cases h with
      | missing hnone =>
          have hentry := (ht _ hr).none hnone
          exact ⟨t, by rw [rebuildHelper, hentry], .refl t⟩
      | @full _ _ children new hfull hrefs hbelow hsame =>
          rcases (ht _ hr).full hfull with ⟨before, hstart, hbefore⟩
          have hloop : Renewing keccak table t hash children before new (List.finRange 17) t :=
            ⟨⟨before, hstart, fun i => .refl _, fun i hi => absurd (List.mem_finRange i) hi⟩,
              fun y _ => .refl t y⟩
          rcases Sys.foldlM_exists
              (f := rebuildChild (rebuildHelper keccak updates n) hash keyPrefix before)
              (Renewing keccak table t hash children before new)
              (fun i rest s hs => hs.round ht hstart hr hrefs hbelow hbefore
                fun c c' s p hc hs => ih hc hs (Nat.le_of_succ_le_succ hle) p)
              (List.finRange 17) t hloop with ⟨t', hrun, hend⟩
          rcases hend.entry with ⟨now, hnow, -, hdone⟩
          have hnode : Node.full now = renew new (.full children) :=
            congrArg Node.full (funext fun i => hdone i List.not_mem_nil)
          refine ⟨t', ?_, hend.all_kept hstart hr⟩
          rw [rebuildHelper, hstart]
          simp only [hrun, hashEntry, hnow, hnode, Option.bind_eq_bind, Option.bind_some]

end Renewal

end Reply

end LessChain
