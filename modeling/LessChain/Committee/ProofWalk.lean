import LessChain.Committee.Renewal
import Mathlib.Algebra.Order.BigOperators.Group.Finset
import Mathlib.Algebra.BigOperators.Fin

/-!
# The walk of `rebuildTrie` over any table

`met` lists the nodes of a table in the order of the walk, each as often as the walk comes to
it. A node that is met again must be one that the walk has not spoiled, or have a full node
below it at which the walk has panicked before (`Repeats`). Then the walk gets through exactly
if all nodes met are well shaped (`walks_of_met`). Nothing is assumed about where the table
comes from.

`repeats_of_nodup` is about tables in which only full nodes are met twice.
-/

namespace LessChain

open Trie

namespace Reply

/-- A node and the key that leads to it. -/
structure Met where
  hash : Bytes
  keyPrefix : Bytes
  node : Node

/-- The nodes below a child of a full node. -/
def metChild (rec : Bytes → Bytes → Option (List Met)) (keyPrefix : Bytes)
    (children : Fin 17 → Node) (i : Fin 17) : Option (List Met) :=
  match children i with
  | .hash childHash => rec (getCurrentKey keyPrefix [UInt8.ofNat i]) childHash
  | _ => some []

/-- The nodes of the table that one meets from `hash` on; `fuel` bounds the depth. -/
def met (table : Hash2Node) : ℕ → Bytes → Bytes → Option (List Met)
  | 0, _, _ => none
  | fuel + 1, keyPrefix, hash =>
      match table hash with
      | none => some []
      | some (.full children) =>
          if ∀ i, (metChild (met table fuel) keyPrefix children i).isSome then
            some (⟨hash, keyPrefix, .full children⟩ :: (List.finRange 17).flatMap fun i =>
              (metChild (met table fuel) keyPrefix children i).getD [])
          else none
      | some (.short key (.hash childHash)) => do
          let below ← met table fuel (getCurrentKey keyPrefix key) childHash
          some (⟨hash, keyPrefix, .short key (.hash childHash)⟩ :: below)
      | some node => some [⟨hash, keyPrefix, node⟩]

/-- A node that the walk can deal with: no node is embedded in it, a full node has no value,
and the key of a value has whole bytes. -/
def Met.wellShaped (x : Met) : Bool :=
  match x.node with
  | .full children => ∀ i, isRef (children i) = true
  | .short _ (.hash _) => true
  | .short key (.value _) => (hexToKeybytes (getCurrentKey x.keyPrefix key)).isSome
  | _ => false

/-- The hashes of the nodes met. -/
def hashesOf (l : List Met) : List Bytes := l.map (·.hash)

/-! ## The nodes met -/

section Met

variable {table table' : Hash2Node} {fuel : ℕ} {keyPrefix hash : Bytes} {l : List Met}

/-- Neither a full node nor one with a hash below it. -/
def stops : Node → Bool
  | .full _ | .short _ (.hash _) => false
  | _ => true

theorem met_none (h : table hash = none) : met table (fuel + 1) keyPrefix hash = some [] := by
  rw [met, h]

theorem met_stop {node : Node} (h : table hash = some node) (hstop : stops node = true) :
    met table (fuel + 1) keyPrefix hash = some [⟨hash, keyPrefix, node⟩] := by
  rw [met, h]
  unfold stops at hstop
  split at hstop
  · cases hstop
  · cases hstop
  · rename_i hfull hshort
    split
    · rename_i heq
      cases heq
    · rename_i heq
      cases heq
      exact absurd rfl (hfull _)
    · rename_i heq
      cases heq
      exact absurd rfl (hshort _ _)
    · rename_i heq
      cases heq
      rfl

/-- What the list of the nodes met can be. -/
theorem met_cases (h : met table (fuel + 1) keyPrefix hash = some l) :
    (table hash = none ∧ l = []) ∨
    (∃ children below, table hash = some (.full children) ∧
      (∀ i, metChild (met table fuel) keyPrefix children i = some (below i)) ∧
      l = ⟨hash, keyPrefix, .full children⟩ :: (List.finRange 17).flatMap below) ∨
    (∃ key childHash below, table hash = some (.short key (.hash childHash)) ∧
      met table fuel (getCurrentKey keyPrefix key) childHash = some below ∧
      l = ⟨hash, keyPrefix, .short key (.hash childHash)⟩ :: below) ∨
    (∃ node, table hash = some node ∧ stops node = true ∧ l = [⟨hash, keyPrefix, node⟩]) := by
  rw [met] at h
  split at h
  · rename_i hnone
    cases h
    exact .inl ⟨hnone, rfl⟩
  · -- a full node: the list is there only if that of each child is
    rename_i children hfull
    split at h
    · rename_i hall
      cases h
      refine .inr (.inl ⟨children, _, hfull, fun i => ?_, rfl⟩)
      rcases Option.isSome_iff_exists.mp (hall i) with ⟨below, hbelow⟩
      rw [hbelow, Option.getD_some]
    · cases h
  · rename_i key childHash hshort
    rcases Option.bind_eq_some_iff.mp h with ⟨below, hbelow, hl⟩
    cases hl
    exact .inr (.inr (.inl ⟨key, childHash, below, hshort, hbelow, rfl⟩))
  · rename_i node hnfull hnshort hnode
    cases h
    refine .inr (.inr (.inr ⟨node, hnode, ?_, rfl⟩))
    unfold stops
    split
    · exact absurd rfl (hnfull _)
    · exact absurd rfl (hnshort _ _)
    · rfl

variable {keyPrefix' : Bytes} {children : Fin 17 → Node} {fuel' : ℕ}

/-- Below a child. -/
theorem metChild_cases {rec : Bytes → Bytes → Option (List Met)}
    {i : Fin 17} (h : metChild rec keyPrefix children i = some l) :
    (∃ childHash, children i = .hash childHash ∧
      rec (getCurrentKey keyPrefix [UInt8.ofNat i]) childHash = some l) ∨
    ((∀ childHash, children i ≠ .hash childHash) ∧ l = []) := by
  unfold metChild at h
  split at h
  · rename_i childHash hchild
    exact .inl ⟨childHash, hchild, h⟩
  · rename_i hnot
    cases h
    exact .inr ⟨hnot, rfl⟩

/-- The nodes met are those of the table. -/
theorem entry_of_met (h : met table fuel keyPrefix hash = some l) :
    ∀ x ∈ l, table x.hash = some x.node := by
  induction fuel generalizing keyPrefix hash l with
  | zero => cases h
  | succ fuel ih =>
      rcases met_cases h with ⟨-, rfl⟩ | ⟨children, below, hfull, hbelow, rfl⟩ |
        ⟨key, childHash, below, hshort, hbelow, rfl⟩ | ⟨node, hnode, -, rfl⟩
      · simp
      · refine List.forall_mem_cons.mpr ⟨hfull, fun x hx => ?_⟩
        rcases List.mem_flatMap.mp hx with ⟨i, -, hi⟩
        rcases metChild_cases (hbelow i) with ⟨childHash, -, hchild⟩ | ⟨-, hnil⟩
        · exact ih hchild x hi
        · rw [hnil] at hi
          cases hi
      · exact List.forall_mem_cons.mpr ⟨hshort, ih hbelow⟩
      · exact List.forall_mem_singleton.mpr hnode

@[simp] theorem hashesOf_cons (x : Met) (l : List Met) : hashesOf (x :: l) = x.hash :: hashesOf l :=
  rfl

theorem mem_hashesOf {y : Bytes} : y ∈ hashesOf l ↔ ∃ x ∈ l, x.hash = y := List.mem_map

theorem mem_hashesOf_flatMap {below : Fin 17 → List Met} {y : Bytes} :
    y ∈ hashesOf ((List.finRange 17).flatMap below) ↔ ∃ i, y ∈ hashesOf (below i) := by
  simp only [mem_hashesOf, List.mem_flatMap, List.mem_finRange, true_and]
  constructor
  · rintro ⟨x, ⟨i, hx⟩, hy⟩
    exact ⟨i, x, hx, hy⟩
  · rintro ⟨i, x, hx, hy⟩
    exact ⟨x, ⟨i, hx⟩, hy⟩

theorem count_hashesOf_flatMap (below : Fin 17 → List Met) (y : Bytes) :
    (hashesOf ((List.finRange 17).flatMap below)).count y =
      ∑ i, (hashesOf (below i)).count y := by
  rw [hashesOf, List.map_flatMap, List.count_flatMap, Fin.sum_univ_def]
  rfl

/-! ### What is met from one hash is always the same -/

theorem met_full_inv (hfull : table hash = some (.full children))
    (h : met table (fuel + 1) keyPrefix hash = some l) :
    ∃ below, (∀ i, metChild (met table fuel) keyPrefix children i = some (below i)) ∧
      l = ⟨hash, keyPrefix, .full children⟩ :: (List.finRange 17).flatMap below := by
  rcases met_cases h with ⟨hnone, -⟩ | ⟨children', below, hfull', hbelow, rfl⟩ |
    ⟨_, _, _, hshort, -, -⟩ | ⟨node, hnode, hstop, -⟩
  · rw [hfull] at hnone
    cases hnone
  · rw [hfull] at hfull'
    cases hfull'
    exact ⟨below, hbelow, rfl⟩
  · rw [hfull] at hshort
    cases hshort
  · rw [hfull] at hnode
    cases hnode
    cases hstop

theorem met_short_inv {key childHash : Bytes}
    (hshort : table hash = some (.short key (.hash childHash)))
    (h : met table (fuel + 1) keyPrefix hash = some l) :
    ∃ below, met table fuel (getCurrentKey keyPrefix key) childHash = some below ∧
      l = ⟨hash, keyPrefix, .short key (.hash childHash)⟩ :: below := by
  rw [met, hshort] at h
  rcases Option.bind_eq_some_iff.mp h with ⟨below, hbelow, hl⟩
  cases hl
  exact ⟨below, hbelow, rfl⟩

theorem hashesOf_eq_of_met {l' : List Met}
    (h : met table fuel keyPrefix hash = some l) (h' : met table fuel' keyPrefix' hash = some l') :
    hashesOf l = hashesOf l' := by
  -- on the fuel; the prefix does not matter for the hashes
  induction fuel generalizing fuel' keyPrefix keyPrefix' hash l l' with
  | zero => cases h
  | succ fuel ih =>
      cases fuel' with
      | zero => cases h'
      | succ fuel' =>
          rcases met_cases h with ⟨hnone, rfl⟩ | ⟨children, below, hfull, hbelow, rfl⟩ |
            ⟨key, childHash, below, hshort, hbelow, rfl⟩ | ⟨node, hnode, hstop, rfl⟩
          · rw [met_none hnone] at h'
            cases h'
            rfl
          · rcases met_full_inv hfull h' with ⟨below', hbelow', rfl⟩
            have hsame : ∀ i, hashesOf (below i) = hashesOf (below' i) := by
              intro i
              have hi := hbelow i
              have hi' := hbelow' i
              rcases metChild_cases hi with ⟨c, hc, hmet⟩ | ⟨hnot, hnil⟩
              · rw [metChild, hc] at hi'
                exact ih hmet hi'
              · rcases metChild_cases hi' with ⟨c, hc, -⟩ | ⟨-, hnil'⟩
                · exact absurd hc (hnot c)
                · rw [hnil, hnil']
            simp only [hashesOf, List.map_cons, List.map_flatMap] at hsame ⊢
            simp only [hsame]
          · rcases met_short_inv hshort h' with ⟨below', hbelow', rfl⟩
            simp only [hashesOf_cons, ih hbelow hbelow']
          · rw [met_stop hnode hstop] at h'
            cases h'
            rfl

/-- Below a node that is met, everything is met. -/
theorem met_below (h : met table fuel keyPrefix hash = some l) {x : Met} (hx : x ∈ l) :
    ∃ fuel' l', fuel' ≤ fuel ∧ met table fuel' x.keyPrefix x.hash = some l' ∧
      l'.length ≤ l.length ∧ ∀ z ∈ l', z ∈ l := by
  induction fuel generalizing keyPrefix hash l with
  | zero => cases h
  | succ fuel ih =>
      rcases met_cases h with ⟨-, rfl⟩ | ⟨children, below, hfull, hbelow, rfl⟩ |
        ⟨key, childHash, below, hshort, hbelow, rfl⟩ | ⟨node, hnode, -, rfl⟩
      · cases hx
      · rcases List.mem_cons.mp hx with rfl | hx
        · exact ⟨_, _, le_rfl, h, le_rfl, fun z hz => hz⟩
        · rcases List.mem_flatMap.mp hx with ⟨i, hi, hxi⟩
          rcases metChild_cases (hbelow i) with ⟨c, -, hmet⟩ | ⟨-, hnil⟩
          · rcases ih hmet hxi with ⟨fuel', l', hle, hl', hlen, hsub⟩
            have hbig := length_le_flatMap (f := below) hi
            refine ⟨fuel', l', by omega, hl', ?_, fun z hz => ?_⟩
            · rw [List.length_cons]
              omega
            · exact List.mem_cons_of_mem _ (List.mem_flatMap.mpr ⟨i, hi, hsub z hz⟩)
          · rw [hnil] at hxi
            cases hxi
      · rcases List.mem_cons.mp hx with rfl | hx
        · exact ⟨_, _, le_rfl, h, le_rfl, fun z hz => hz⟩
        · rcases ih hbelow hx with ⟨fuel', l', hle, hl', hlen, hsub⟩
          exact ⟨fuel', l', by omega, hl', by rw [List.length_cons]; omega,
            fun z hz => List.mem_cons_of_mem _ (hsub z hz)⟩
      · rcases List.mem_singleton.mp hx with rfl
        exact ⟨_, _, le_rfl, h, le_rfl, fun z hz => hz⟩

/-- No node is below itself: it would have as many nodes below it as a part of them. -/
theorem not_mem_of_shorter {c : Bytes} {below : List Met}
    (h : met table fuel keyPrefix hash = some l)
    (hbelow : met table fuel' keyPrefix' c = some below) (hlt : below.length < l.length) :
    hash ∉ hashesOf below := by
  intro hmem
  rcases mem_hashesOf.mp hmem with ⟨x, hx, rfl⟩
  rcases met_below hbelow hx with ⟨_, l', -, hl', hle, -⟩
  have hlen := congrArg List.length (hashesOf_eq_of_met h hl')
  rw [hashesOf, hashesOf, List.length_map, List.length_map] at hlen
  omega

theorem not_mem_child {below : Fin 17 → List Met}
    (h : met table (fuel + 1) keyPrefix hash =
      some (⟨hash, keyPrefix, .full children⟩ :: (List.finRange 17).flatMap below))
    (hbelow : ∀ i, metChild (met table fuel) keyPrefix children i = some (below i)) (i : Fin 17) :
    hash ∉ hashesOf (below i) := by
  rcases metChild_cases (hbelow i) with ⟨c, -, hmet⟩ | ⟨-, hnil⟩
  · have hle := length_le_flatMap (f := below) (List.mem_finRange i)
    exact not_mem_of_shorter h hmet (by rw [List.length_cons]; omega)
  · rw [hnil]
    exact List.not_mem_nil

/-- What is below a node is met at least as often as the node. -/
theorem count_le_of_below {y z : Bytes} {below : List Met}
    (h : met table fuel keyPrefix hash = some l)
    (hbelow : met table fuel' keyPrefix' y = some below) (hz : z ∈ hashesOf below) :
    (hashesOf l).count y ≤ (hashesOf l).count z := by
  induction fuel generalizing keyPrefix hash l with
  | zero => cases h
  | succ fuel ih =>
      -- at the node itself: it is met once, and `z` at least once
      have hself : hash = y → ∀ x rest, l = x :: rest → y ∉ hashesOf rest →
          (hashesOf l).count y ≤ (hashesOf l).count z := by
        rintro rfl x rest rfl hnot
        have hpos : 0 < (hashesOf (x :: rest)).count z := by
          rw [List.count_pos_iff, hashesOf_eq_of_met h hbelow]
          exact hz
        have hone : (hashesOf (x :: rest)).count hash ≤ 1 := by
          rw [hashesOf_cons, List.count_cons, List.count_eq_zero_of_not_mem hnot]
          split <;> omega
        exact hone.trans hpos
      rcases met_cases h with ⟨-, rfl⟩ | ⟨children, below', hfull, hbelow', rfl⟩ |
        ⟨key, childHash, below', hshort, hbelow', rfl⟩ | ⟨node, hnode, -, rfl⟩
      · exact le_rfl
      · by_cases hy : hash = y
        · refine hself hy _ _ rfl ?_
          rw [← hy, mem_hashesOf_flatMap]
          rintro ⟨i, hi⟩
          exact not_mem_child h hbelow' i hi
        · rw [hashesOf_cons, List.count_cons_of_ne hy]
          refine le_trans ?_ (List.count_le_count_cons)
          rw [count_hashesOf_flatMap, count_hashesOf_flatMap]
          refine Finset.sum_le_sum fun i _ => ?_
          rcases metChild_cases (hbelow' i) with ⟨c, -, hmet⟩ | ⟨-, hnil⟩
          · exact ih hmet
          · rw [hnil]
            exact le_rfl
      · by_cases hy : hash = y
        · refine hself hy _ _ rfl ?_
          rw [← hy]
          exact not_mem_of_shorter h hbelow' (by rw [List.length_cons]; omega)
        · rw [hashesOf_cons, List.count_cons_of_ne hy]
          exact (ih hbelow').trans List.count_le_count_cons
      · by_cases hy : hash = y
        · exact hself hy _ _ rfl List.not_mem_nil
        · rw [hashesOf_cons, List.count_cons_of_ne hy]
          exact Nat.zero_le _

end Met

/-! ## The walk of `rebuildTrie` -/

section Walk

variable (keccak : Bytes → Hash) (updates : Bytes → Option StateAccount) (table : Hash2Node)

/-- The table is still as it was at the nodes of `l` that cannot be walked again. -/
structure Fresh (l : List Met) (t : Hash2Node) : Prop where
  current : Current keccak table t
  untouched : ∀ x ∈ l, ¬ Renewable keccak table x.hash → t x.hash = table x.hash

/-- What the walk over the nodes of `l` does to the other entries. -/
def Leaves (l : List Met) (t t' : Hash2Node) : Prop :=
  ∀ y, Renewable keccak table y ∨ y ∉ hashesOf l → Kept keccak table t t' y

/-- The walk from a hash on whose nodes below are `l`: it gets through if and only if they
are well shaped. -/
structure Walks (fuel : ℕ) (keyPrefix hash : Bytes) (l : List Met) : Prop where
  shaped : ∀ t, Fresh keccak table l t → ∀ n, fuel ≤ n → ∀ res t',
    rebuildHelper keccak updates n hash t keyPrefix = some (res, t') →
      (∀ x ∈ l, x.wellShaped = true) ∧ Leaves keccak table l t t'
  completes : (∀ x ∈ l, x.wellShaped = true) → ∀ t, Fresh keccak table l t → ∀ n, fuel ≤ n →
    (rebuildHelper keccak updates n hash t keyPrefix).isSome

variable {keccak updates table} {fuel : ℕ} {keyPrefix hash : Bytes} {l : List Met}
  {t t' : Hash2Node}

variable (keccak table l) in
theorem Fresh.initial : Fresh keccak table l table :=
  ⟨fun y _ => .refl table y, fun _ _ _ => rfl⟩

theorem Fresh.mono {l' : List Met} (h : Fresh keccak table l t) (hsub : ∀ x ∈ l', x ∈ l) :
    Fresh keccak table l' t :=
  ⟨h.current, fun x hx => h.untouched x (hsub x hx)⟩

variable {node : Node}

theorem Fresh.entry (h : Fresh keccak table (⟨hash, keyPrefix, node⟩ :: l) t)
    (hr : ¬ Renewable keccak table hash) : t hash = table hash :=
  h.untouched _ List.mem_cons_self hr

/-- Only full nodes and missing ones can be walked again. -/
theorem not_renewable (h : table hash = some node)
    (hfull : ∀ children, node ≠ .full children) : ¬ Renewable keccak table hash := by
  rintro ⟨k, hash', hr⟩
  cases hr with
  | missing hnone =>
      rw [h] at hnone
      cases hnone
  | full hentry =>
      rw [h] at hentry
      cases hentry
      exact hfull _ rfl

/-- It is enough to look at the rounds that are entered. -/
theorem Walks.of_succ (hshaped : ∀ t, Fresh keccak table l t → ∀ n, fuel ≤ n → ∀ res t',
      rebuildHelper keccak updates (n + 1) hash t keyPrefix = some (res, t') →
        (∀ x ∈ l, x.wellShaped = true) ∧ Leaves keccak table l t t')
    (hcompletes : (∀ x ∈ l, x.wellShaped = true) → ∀ t, Fresh keccak table l t → ∀ n, fuel ≤ n →
      (rebuildHelper keccak updates (n + 1) hash t keyPrefix).isSome) :
    Walks keccak updates table (fuel + 1) keyPrefix hash l where
  shaped := by
    intro t ht n hle res t' h
    cases n with
    | zero => cases h
    | succ n => exact hshaped t ht n (Nat.le_of_succ_le_succ hle) res t' h
  completes := by
    intro hall t ht n hle
    cases n with
    | zero => exact absurd hle (Nat.not_succ_le_zero fuel)
    | succ n => exact hcompletes hall t ht n (Nat.le_of_succ_le_succ hle)

theorem walks_none (h : table hash = none) :
    Walks keccak updates table (fuel + 1) keyPrefix hash [] := by
  have hrun : ∀ t, Fresh keccak table [] t → ∀ n,
      rebuildHelper keccak updates (n + 1) hash t keyPrefix = some (hash, t) := by
    intro t ht n
    rw [rebuildHelper, (ht.current hash ⟨1, hash, .missing h⟩).none h]
  apply Walks.of_succ
  · intro t ht n _ res t' hstep
    rw [hrun t ht] at hstep
    cases hstep
    exact ⟨by simp, fun y _ => .refl t y⟩
  · intro _ t ht n _
    rw [hrun t ht]
    rfl

/-- A value is replaced, and the key of its node is compacted. -/
theorem walks_value {key v : Bytes}
    (henc : ∀ key acc, updates key = some acc → (encodeAccount acc).isSome)
    (h : table hash = some (.short key (.value v))) :
    Walks keccak updates table (fuel + 1) keyPrefix hash
      [⟨hash, keyPrefix, .short key (.value v)⟩] := by
  have hr : ¬ Renewable keccak table hash := not_renewable h fun _ heq => nomatch heq
  have hother : ∀ y, Renewable keccak table y ∨
      y ∉ hashesOf [⟨hash, keyPrefix, .short key (.value v)⟩] → y ≠ hash := by
    rintro y (hy | hy) rfl
    · exact hr hy
    · exact hy List.mem_cons_self
  apply Walks.of_succ
  · -- it has run: only this entry was changed, once or twice
    intro t ht n _ res t' hstep
    rw [rebuildHelper, (ht.entry hr).trans h] at hstep
    rcases Option.bind_eq_some_iff.mp hstep with ⟨addrHash, hkey, hrest⟩
    refine ⟨by simp [Met.wellShaped, hkey], fun y hy => .inl ?_⟩
    cases hupdate : updates addrHash with
    | none =>
        simp only [hupdate, hashEntry, Option.bind_eq_bind, Option.bind_eq_some_iff,
          Option.some.injEq, Prod.mk.injEq] at hrest
        rcases hrest with ⟨_, rfl, _, -, -, rfl⟩
        exact Hash2Node.modify_of_ne _ _ (hother y hy)
    | some acc =>
        simp only [hupdate, hashEntry, Option.bind_eq_bind, Option.bind_eq_some_iff,
          Option.some.injEq, Prod.mk.injEq] at hrest
        rcases hrest with ⟨_, _, _, rfl, _, -, -, rfl⟩
        rw [Hash2Node.modify_of_ne _ _ (hother y hy), Hash2Node.modify_of_ne _ _ (hother y hy)]
  · -- it runs: the key is that of an address, and the account has an encoding
    intro hall t ht n _
    have hentry := (ht.entry hr).trans h
    have hkey : (hexToKeybytes (getCurrentKey keyPrefix key)).isSome := by
      simpa [Met.wellShaped] using hall _ List.mem_cons_self
    rcases Option.isSome_iff_exists.mp hkey with ⟨addrHash, haddr⟩
    rw [rebuildHelper, hentry]
    simp only [haddr, Option.bind_eq_bind, Option.bind_some]
    cases hupdate : updates addrHash with
    | none => simp [hashEntry, hentry]
    | some acc =>
        rcases Option.isSome_iff_exists.mp (henc _ _ hupdate) with ⟨data, hdata⟩
        simp [hdata, hashEntry, hentry]

/-- At any other node the walk panics. -/
theorem walks_panic (h : table hash = some node) (hstop : stops node = true)
    (hvalue : ∀ key v, node ≠ .short key (.value v)) :
    Walks keccak updates table (fuel + 1) keyPrefix hash [⟨hash, keyPrefix, node⟩] := by
  have hr : ¬ Renewable keccak table hash := by
    apply not_renewable h
    rintro children rfl
    cases hstop
  -- the last case of `rebuildHelper`
  have hpanic : ∀ t, Fresh keccak table [⟨hash, keyPrefix, node⟩] t → ∀ n,
      rebuildHelper keccak updates (n + 1) hash t keyPrefix = none := by
    intro t ht n
    rw [rebuildHelper, (ht.entry hr).trans h]
    split
    all_goals rename_i heq
    · cases heq
    · cases heq
      cases hstop
    · cases heq
      cases hstop
    · cases heq
      exact absurd rfl (hvalue _ _)
    · rfl
  have hbad : Met.wellShaped ⟨hash, keyPrefix, node⟩ = false := by
    unfold Met.wellShaped
    split
    all_goals rename_i heq
    · simp only at heq
      subst heq
      cases hstop
    · simp only at heq
      subst heq
      cases hstop
    · exact absurd heq (hvalue _ _)
    · rfl
  apply Walks.of_succ
  · intro t ht n _ res t' hstep
    rw [hpanic t ht] at hstep
    cases hstep
  · intro hall
    have := hall _ List.mem_cons_self
    rw [hbad] at this
    cases this

theorem walks_short {key childHash : Bytes} {below : List Met}
    (h : table hash = some (.short key (.hash childHash))) (hnot : hash ∉ hashesOf below)
    (hrec : Walks keccak updates table fuel (getCurrentKey keyPrefix key) childHash below) :
    Walks keccak updates table (fuel + 1) keyPrefix hash
      (⟨hash, keyPrefix, .short key (.hash childHash)⟩ :: below) := by
  have hr : ¬ Renewable keccak table hash := not_renewable h fun _ heq => nomatch heq
  have hbelow : ∀ {t}, Fresh keccak table
      (⟨hash, keyPrefix, .short key (.hash childHash)⟩ :: below) t → Fresh keccak table below t :=
    fun ht => ht.mono fun x hx => List.mem_cons_of_mem _ hx
  apply Walks.of_succ
  · intro t ht n hle res t' hstep
    rw [rebuildHelper, (ht.entry hr).trans h] at hstep
    simp only [Option.bind_eq_bind, Option.bind_eq_some_iff, hashEntry, Option.some.injEq,
      Prod.mk.injEq, Prod.exists] at hstep
    rcases hstep with ⟨temp, t₁, hwalk, -, -, -, rfl⟩
    rcases hrec.shaped t (hbelow ht) n hle temp t₁ hwalk with ⟨hall, hleaves⟩
    refine ⟨List.forall_mem_cons.mpr ⟨rfl, hall⟩, fun y hy => ?_⟩
    have hne : y ≠ hash := by
      rintro rfl
      rcases hy with hy | hy
      · exact hr hy
      · exact hy List.mem_cons_self
    rw [Kept, Hash2Node.modify_of_ne _ _ hne, Hash2Node.modify_of_ne _ _ hne]
    exact hleaves y (hy.imp id fun hy hmem => hy (List.mem_cons_of_mem _ hmem))
  · intro hall t ht n hle
    have hentry := (ht.entry hr).trans h
    rcases Option.isSome_iff_exists.mp
      (hrec.completes (List.forall_mem_cons.mp hall).2 t (hbelow ht) n hle) with
      ⟨⟨temp, t₁⟩, hwalk⟩
    -- the node is not below itself, so its entry is still there
    have hleaves := (hrec.shaped t (hbelow ht) n hle temp t₁ hwalk).2
    have hentry₁ := ((hleaves hash (.inr hnot)).eq hr).trans hentry
    rw [rebuildHelper, hentry]
    simp [hwalk, hashEntry, hentry₁]

/-! ### A full node that can be walked again -/

/-- There is nothing but full nodes below it, as deep as the nodes met. -/
theorem Renews.met {k : ℕ} {hash' : Bytes} (hr : Renews keccak table k hash hash')
    (h : met table fuel keyPrefix hash = some l) :
    Renews keccak table fuel hash hash' ∧ ∀ x ∈ l, x.wellShaped = true := by
  induction fuel generalizing k keyPrefix hash hash' l with
  | zero => cases h
  | succ fuel ih =>
      cases hr with
      | missing hnone =>
          rw [met_none hnone] at h
          cases h
          exact ⟨.missing hnone, by simp⟩
      | @full k _ children new hfull hrefs hbelow hsame =>
          rcases met_full_inv hfull h with ⟨below, hmet, rfl⟩
          have hchild : ∀ i c, children i = .hash c →
              Renews keccak table fuel c (new c) ∧ ∀ x ∈ below i, x.wellShaped = true := by
            intro i c hc
            have hi := hmet i
            rw [metChild, hc] at hi
            exact ih (hbelow i c hc) hi
          refine ⟨.full hfull hrefs (fun i c hc => (hchild i c hc).1) hsame,
            List.forall_mem_cons.mpr ⟨by simpa [Met.wellShaped] using hrefs, fun x hx => ?_⟩⟩
          rcases List.mem_flatMap.mp hx with ⟨i, -, hxi⟩
          rcases metChild_cases (hmet i) with ⟨c, hc, -⟩ | ⟨-, hnil⟩
          · exact (hchild i c hc).2 x hxi
          · rw [hnil] at hxi
            cases hxi

theorem walks_renewable (hr : Renewable keccak table hash)
    (h : met table fuel keyPrefix hash = some l) :
    Walks keccak updates table fuel keyPrefix hash l := by
  rcases hr with ⟨k, hash', hr⟩
  rcases hr.met h with ⟨hr, hall⟩
  constructor
  · intro t ht n hle res t' hstep
    rcases hr.walk updates ht.current hle keyPrefix with ⟨t₁, hwalk, hkept⟩
    rw [hwalk] at hstep
    cases hstep
    exact ⟨hall, fun y _ => hkept y⟩
  · intro _ t ht n hle
    rcases hr.walk updates ht.current hle keyPrefix with ⟨t₁, hwalk, -⟩
    rw [hwalk]
    rfl

/-! ### Any other full node -/

variable (keccak table) in
/-- The nodes below the children of a node: what is met below two of them can be walked again,
once the walk has got through below the first. -/
structure Apart (hash : Bytes) (below : Fin 17 → List Met) : Prop where
  root : ∀ i, hash ∉ hashesOf (below i)
  again : ∀ i j, i ≠ j → (∀ x ∈ below i, x.wellShaped = true) → ∀ y ∈ hashesOf (below j),
    ¬ Renewable keccak table y → y ∉ hashesOf (below i)

variable (keccak table) in
/-- The table while the loop over the children runs; those in `rest` are still to come. -/
structure Looped (t : Hash2Node) (hash : Bytes) (below : Fin 17 → List Met)
    (rest : List (Fin 17)) (s : Hash2Node) : Prop where
  nodup : rest.Nodup
  entry : (s hash).isSome
  fresh : ∀ i ∈ rest, Fresh keccak table (below i) s
  leaves : ∀ y, y ≠ hash → Renewable keccak table y ∨ (∀ i, y ∉ hashesOf (below i)) →
    Kept keccak table t s y

section Loop

variable {children : Fin 17 → Node} {below : Fin 17 → List Met} {i : Fin 17}
  {rest : List (Fin 17)} {s : Hash2Node}

theorem Looped.skip (h : Looped keccak table t hash below (i :: rest) s) :
    Looped keccak table t hash below rest s where
  nodup := (List.nodup_cons.mp h.nodup).2
  entry := h.entry
  fresh := fun j hj => h.fresh j (List.mem_cons_of_mem _ hj)
  leaves := h.leaves

/-- The walk below a child and the write of its new hash. -/
theorem Looped.write (h : Looped keccak table t hash below (i :: rest) s)
    (hapart : Apart keccak table hash below) (hr : ¬ Renewable keccak table hash)
    (hall : ∀ x ∈ below i, x.wellShaped = true) {s₁ : Hash2Node}
    (hleaves : Leaves keccak table (below i) s s₁) (f : Node → Node) :
    Looped keccak table t hash below rest (s₁.modify hash f) where
  nodup := (List.nodup_cons.mp h.nodup).2
  entry := by
    rw [Hash2Node.modify_self, (hleaves hash (.inr (hapart.root i))).eq hr, Option.isSome_map]
    exact h.entry
  fresh := by
    intro j hj
    have hfresh := h.fresh j (List.mem_cons_of_mem _ hj)
    have hij : i ≠ j := by
      rintro rfl
      exact (List.nodup_cons.mp h.nodup).1 hj
    refine ⟨hfresh.current.kept fun y hy => ?_, fun x hx hxr => ?_⟩
    · rw [Kept, Hash2Node.modify_of_ne _ _ (by rintro rfl; exact hr hy)]
      exact hleaves y (.inl hy)
    · have hmem : x.hash ∈ hashesOf (below j) := List.mem_map_of_mem hx
      have hne : x.hash ≠ hash := fun heq => hapart.root j (heq ▸ hmem)
      rw [Hash2Node.modify_of_ne _ _ hne,
        (hleaves _ (.inr (hapart.again i j hij hall _ hmem hxr))).eq hxr]
      exact hfresh.untouched x hx hxr
  leaves := by
    intro y hy hor
    rw [Kept, Hash2Node.modify_of_ne _ _ hy]
    exact (h.leaves y hy hor).trans (hleaves y (hor.imp id fun hnot => hnot i))

/-- A round that got through. -/
theorem Looped.shaped {n : ℕ} {s' : Hash2Node}
    (h : Looped keccak table t hash below (i :: rest) s) (hapart : Apart keccak table hash below)
    (hr : ¬ Renewable keccak table hash) (hnil : (∀ c, children i ≠ .hash c) → below i = [])
    (hrec : ∀ c, children i = .hash c →
      Walks keccak updates table fuel (getCurrentKey keyPrefix [UInt8.ofNat i]) c (below i))
    (hle : fuel ≤ n)
    (hround : rebuildChild (rebuildHelper keccak updates n) hash keyPrefix children s i = some s') :
    Looped keccak table t hash below rest s' ∧ isRef (children i) = true ∧
      ∀ x ∈ below i, x.wellShaped = true := by
  unfold rebuildChild at hround
  split at hround
  · rename_i hi
    cases hround
    refine ⟨h.skip, by rw [hi, isRef], ?_⟩
    rw [hnil fun c hc => by rw [hi] at hc; cases hc]
    simp
  · rename_i c hi
    simp only [Option.bind_eq_bind, Option.bind_eq_some_iff, Option.some.injEq,
      Prod.exists] at hround
    rcases hround with ⟨temp, s₁, hwalk, rfl⟩
    rcases (hrec c hi).shaped s (h.fresh i List.mem_cons_self) n hle temp s₁ hwalk with
      ⟨hall, hleaves⟩
    exact ⟨h.write hapart hr hall hleaves _, by rw [hi, isRef], hall⟩
  · cases hround

/-- A round that gets through. -/
theorem Looped.completes {n : ℕ} (h : Looped keccak table t hash below (i :: rest) s)
    (hapart : Apart keccak table hash below) (hr : ¬ Renewable keccak table hash)
    (hrec : ∀ c, children i = .hash c →
      Walks keccak updates table fuel (getCurrentKey keyPrefix [UInt8.ofNat i]) c (below i))
    (href : isRef (children i) = true) (hall : ∀ x ∈ below i, x.wellShaped = true)
    (hle : fuel ≤ n) :
    ∃ s', rebuildChild (rebuildHelper keccak updates n) hash keyPrefix children s i = some s' ∧
      Looped keccak table t hash below rest s' := by
  have hfresh := h.fresh i List.mem_cons_self
  rcases isRef_cases href with hi | ⟨c, hi⟩
  · exact ⟨s, by rw [rebuildChild, hi], h.skip⟩
  · rcases Option.isSome_iff_exists.mp ((hrec c hi).completes hall s hfresh n hle) with
      ⟨⟨temp, s₁⟩, hwalk⟩
    have hleaves := ((hrec c hi).shaped s hfresh n hle temp s₁ hwalk).2
    refine ⟨_, ?_, h.write hapart hr hall hleaves (setChild i (.hash temp))⟩
    rw [rebuildChild, hi]
    simp only [hwalk, Option.bind_eq_bind, Option.bind_some]

/-- A full node, given the walks below its children. -/
theorem walks_full (hfull : table hash = some (.full children))
    (hr : ¬ Renewable keccak table hash) (hapart : Apart keccak table hash below)
    (hbelow : ∀ j, metChild (met table fuel) keyPrefix children j = some (below j))
    (hrec : ∀ i c, children i = .hash c →
      Walks keccak updates table fuel (getCurrentKey keyPrefix [UInt8.ofNat i]) c (below i)) :
    Walks keccak updates table (fuel + 1) keyPrefix hash
      (⟨hash, keyPrefix, .full children⟩ :: (List.finRange 17).flatMap below) := by
  have hstart : ∀ t, Fresh keccak table
      (⟨hash, keyPrefix, .full children⟩ :: (List.finRange 17).flatMap below) t →
      t hash = some (.full children) ∧ Looped keccak table t hash below (List.finRange 17) t := by
    intro t ht
    have hentry := (ht.entry hr).trans hfull
    refine ⟨hentry, List.nodup_finRange 17, by rw [hentry]; rfl, fun i hi => ?_,
      fun y _ _ => .refl t y⟩
    exact ht.mono fun x hx => List.mem_cons_of_mem _ (List.mem_flatMap.mpr ⟨i, hi, hx⟩)
  -- nothing is met below a child that is no hash
  have hnil : ∀ i, (∀ c, children i ≠ .hash c) → below i = [] := by
    intro i hnot
    rcases metChild_cases (hbelow i) with ⟨c, hc, -⟩ | ⟨-, hnil⟩
    · exact absurd hc (hnot c)
    · exact hnil
  apply Walks.of_succ
  · intro t ht n hle res t' hstep
    rcases hstart t ht with ⟨hentry, hlooped⟩
    rw [rebuildHelper, hentry] at hstep
    simp only [Option.bind_eq_bind, Option.bind_eq_some_iff, hashEntry, Option.some.injEq,
      Prod.mk.injEq] at hstep
    rcases hstep with ⟨t₁, hloop, node, -, -, rfl⟩
    -- along the loop: the children already visited were in order
    have hend := Sys.foldlM_induction
      (fun rest s => Looped keccak table t hash below rest s ∧
        ∀ i, i ∉ rest → isRef (children i) = true ∧ ∀ x ∈ below i, x.wellShaped = true)
      (by
        rintro i rest s s' ⟨hlooped, hdone⟩ hround
        rcases hlooped.shaped hapart hr (hnil i) (hrec i) hle hround with ⟨hnext, hi⟩
        refine ⟨hnext, fun j hj => ?_⟩
        by_cases hji : j = i
        · rw [hji]
          exact hi
        · exact hdone j (List.not_mem_cons_of_ne_of_not_mem hji hj))
      _ _ _ ⟨hlooped, fun i hi => absurd (List.mem_finRange i) hi⟩ hloop
    refine ⟨List.forall_mem_cons.mpr ⟨?_, fun x hx => ?_⟩, fun y hy => ?_⟩
    · simpa [Met.wellShaped] using fun i => (hend.2 i List.not_mem_nil).1
    · rcases List.mem_flatMap.mp hx with ⟨i, -, hi⟩
      exact (hend.2 i List.not_mem_nil).2 x hi
    · apply hend.1.leaves y
      · rintro rfl
        rcases hy with hy | hy
        · exact hr hy
        · exact hy List.mem_cons_self
      · refine hy.imp id fun hy i hi => hy (List.mem_cons_of_mem _ ?_)
        exact mem_hashesOf_flatMap.mpr ⟨i, hi⟩
  · intro hall t ht n hle
    rcases hstart t ht with ⟨hentry, hlooped⟩
    rcases List.forall_mem_cons.mp hall with ⟨hrefs, hall⟩
    have hrefs : ∀ i, isRef (children i) = true := by simpa [Met.wellShaped] using hrefs
    rcases Sys.foldlM_exists (f := rebuildChild (rebuildHelper keccak updates n) hash keyPrefix
        children) (Looped keccak table t hash below)
      (fun i rest s hlooped => hlooped.completes hapart hr (hrec i) (hrefs i)
        (fun x hx => hall x (List.mem_flatMap.mpr ⟨i, List.mem_finRange i, hx⟩)) hle)
      (List.finRange 17) t hlooped with ⟨t₁, hloop, hend⟩
    rcases Option.isSome_iff_exists.mp hend.entry with ⟨node, hnode⟩
    rw [rebuildHelper, hentry]
    simp [hloop, hashEntry, hnode]

end Loop

/-! ## Nodes that are met again -/

variable (table) in
/-- Somewhere below the hash there is a full node at which the walk panics. -/
def Broken (y : Bytes) : Prop :=
  ∃ fuel keyPrefix l, met table fuel keyPrefix y = some l ∧
    ∃ x ∈ l, ∃ children, x.node = .full children ∧ ∃ i, isRef (children i) = false

variable (keccak table) in
/-- The nodes that are met more than once. -/
def Repeats (l : List Met) : Prop :=
  ∀ y, 2 ≤ (hashesOf l).count y → Renewable keccak table y ∨ Broken table y

/-- A broken node is not met by a walk that gets through. -/
theorem Broken.exists_not_wellShaped {y : Bytes} (hy : Broken table y)
    (h : met table fuel keyPrefix hash = some l) (hmem : y ∈ hashesOf l) :
    ∃ x ∈ l, x.wellShaped = false := by
  rcases hy with ⟨fuel', keyPrefix', l', hl', z, hz, children, hnode, i, hi⟩
  rcases mem_hashesOf.mp hmem with ⟨x, hx, rfl⟩
  rcases met_below h hx with ⟨fuel'', l'', -, hl'', -, hsub⟩
  -- the same node is met there, possibly with another key
  have hzmem : z.hash ∈ hashesOf l'' := by
    rw [← hashesOf_eq_of_met hl' hl'']
    exact List.mem_map_of_mem hz
  rcases mem_hashesOf.mp hzmem with ⟨z', hz', hhash⟩
  have hsame := entry_of_met hl'' z' hz'
  rw [hhash, entry_of_met hl' z hz, hnode, Option.some.injEq] at hsame
  refine ⟨z', hsub z' hz', ?_⟩
  rw [Met.wellShaped, ← hsame]
  simp only [decide_eq_false_iff_not, not_forall]
  exact ⟨i, by rw [hi]; simp⟩

theorem Repeats.child {below : Fin 17 → List Met} {x : Met}
    (h : Repeats keccak table (x :: (List.finRange 17).flatMap below)) (i : Fin 17) :
    Repeats keccak table (below i) := by
  intro y hy
  apply h y
  rw [hashesOf_cons]
  refine (hy.trans ?_).trans List.count_le_count_cons
  rw [count_hashesOf_flatMap]
  exact Finset.single_le_sum (f := fun i => (hashesOf (below i)).count y)
    (fun _ _ => Nat.zero_le _) (Finset.mem_univ i)

theorem Repeats.apart {children : Fin 17 → Node} {below : Fin 17 → List Met}
    (hmet : met table (fuel + 1) keyPrefix hash =
      some (⟨hash, keyPrefix, .full children⟩ :: (List.finRange 17).flatMap below))
    (hbelow : ∀ i, metChild (met table fuel) keyPrefix children i = some (below i))
    (h : Repeats keccak table
      (⟨hash, keyPrefix, .full children⟩ :: (List.finRange 17).flatMap below)) :
    Apart keccak table hash below where
  root := not_mem_child hmet hbelow
  again := by
    intro i j hij hall y hyj hr hyi
    have htwice : 2 ≤ (hashesOf (⟨hash, keyPrefix, .full children⟩ ::
        (List.finRange 17).flatMap below)).count y := by
      rw [hashesOf_cons]
      refine le_trans ?_ List.count_le_count_cons
      rw [count_hashesOf_flatMap]
      have hsum := Finset.add_le_sum (f := fun i => (hashesOf (below i)).count y)
        (fun _ _ => Nat.zero_le _) (Finset.mem_univ i) (Finset.mem_univ j) hij
      have hi := List.count_pos_iff.mpr hyi
      have hj := List.count_pos_iff.mpr hyj
      omega
    rcases h y htwice with hy | hy
    · exact hr hy
    · rcases metChild_cases (hbelow i) with ⟨c, -, hc⟩ | ⟨-, hnil⟩
      · rcases hy.exists_not_wellShaped hc hyi with ⟨x, hx, hbad⟩
        rw [hall x hx] at hbad
        cases hbad
      · rw [hnil] at hyi
        cases hyi

/-- The walk from any hash on. -/
theorem walks_of_met (henc : ∀ key acc, updates key = some acc → (encodeAccount acc).isSome)
    (h : met table fuel keyPrefix hash = some l) (hrep : Repeats keccak table l) :
    Walks keccak updates table fuel keyPrefix hash l := by
  induction fuel generalizing keyPrefix hash l with
  | zero => cases h
  | succ fuel ih =>
      rcases met_cases h with ⟨hnone, rfl⟩ | ⟨children, below, hfull, hbelow, rfl⟩ |
        ⟨key, childHash, below, hshort, hbelow, rfl⟩ | ⟨node, hnode, hstop, rfl⟩
      · exact walks_none hnone
      · by_cases hr : Renewable keccak table hash
        · exact walks_renewable hr h
        · refine walks_full hfull hr (hrep.apart h hbelow) hbelow fun i c hc => ?_
          have hi := hbelow i
          rw [metChild, hc] at hi
          exact ih hi (hrep.child i)
      · refine walks_short hshort ?_ (ih hbelow fun y hy => hrep y (hy.trans List.count_le_count_cons))
        exact not_mem_of_shorter h hbelow (by rw [List.length_cons]; omega)
      · by_cases hvalue : ∃ key v, node = .short key (.value v)
        · rcases hvalue with ⟨key, v, rfl⟩
          exact walks_value henc hnode
        · exact walks_panic hnode hstop fun key v heq => hvalue ⟨key, v, heq⟩

end Walk

/-! ## Tables in which only full nodes are met twice -/

section Twice

variable (keccak : Bytes → Hash) (table : Hash2Node)

def isFull : Node → Bool
  | .full _ => true
  | _ => false

/-- The hash that the walk computes for a node with full nodes only below it. -/
def newHash : ℕ → Bytes → Bytes
  | 0, hash => hash
  | fuel + 1, hash =>
      match table hash with
      | some (.full children) => (keccak (renew (newHash fuel) (.full children)).encode).bytes
      | _ => hash

variable {keccak table} {fuel : ℕ} {keyPrefix hash : Bytes} {l : List Met}

theorem newHash_full {children : Fin 17 → Node} (h : table hash = some (.full children)) :
    newHash keccak table (fuel + 1) hash =
      (keccak (renew (newHash keccak table fuel) (.full children)).encode).bytes := by
  rw [newHash, h]

theorem newHash_of_not_full (h : ∀ children, table hash ≠ some (.full children)) :
    newHash keccak table fuel hash = hash := by
  cases fuel with
  | zero => rfl
  | succ fuel =>
      rw [newHash]
      split
      · rename_i hfull
        exact absurd hfull (h _)
      · rfl

theorem length_newHash (h : hash.length = 32) : (newHash keccak table fuel hash).length = 32 := by
  cases fuel with
  | zero => exact h
  | succ fuel =>
      rw [newHash]
      split
      · exact Hash.length_bytes _
      · exact h

/-- More fuel than there are nodes on a way down makes no difference. -/
theorem newHash_stable {k m : ℕ} (h : met table fuel keyPrefix hash = some l) (hk : fuel ≤ k)
    (hm : fuel ≤ m) : newHash keccak table k hash = newHash keccak table m hash := by
  induction fuel generalizing k m keyPrefix hash l with
  | zero => cases h
  | succ fuel ih =>
      rcases Nat.exists_eq_succ_of_ne_zero (show k ≠ 0 by omega) with ⟨k, rfl⟩
      rcases Nat.exists_eq_succ_of_ne_zero (show m ≠ 0 by omega) with ⟨m, rfl⟩
      by_cases hfull : ∃ children, table hash = some (.full children)
      · rcases hfull with ⟨children, hfull⟩
        rcases met_full_inv hfull h with ⟨below, hbelow, -⟩
        have hslots : ∀ i, renewSlot (newHash keccak table k) (children i) =
            renewSlot (newHash keccak table m) (children i) := by
          intro i
          refine renewSlot_congr fun c hc => ?_
          have hi := hbelow i
          rw [metChild, hc] at hi
          exact ih hi (by omega) (by omega)
        rw [newHash_full hfull, newHash_full hfull, renew, renew]
        simp only [hslots]
      · have hnot : ∀ children, table hash ≠ some (.full children) :=
          fun children heq => hfull ⟨children, heq⟩
        rw [newHash_of_not_full hnot, newHash_of_not_full hnot]

/-- Nothing but well-shaped full nodes below: the walk may come again. -/
theorem renews_of_met {bound : ℕ} (hle : fuel ≤ bound)
    (h : met table fuel keyPrefix hash = some l)
    (hrefs : ∀ x ∈ l, ∃ children, x.node = .full children ∧ ∀ i, isRef (children i) = true)
    (hsame : ∀ x ∈ l, ∀ n,
      table (keccak (renew (newHash keccak table bound) x.node).encode).bytes = some n →
        n = renew (newHash keccak table bound) x.node) :
    Renews keccak table fuel hash (newHash keccak table bound hash) := by
  induction fuel generalizing keyPrefix hash l with
  | zero => cases h
  | succ fuel ih =>
      rcases met_cases h with ⟨hnone, rfl⟩ | ⟨children, below, hfull, hbelow, rfl⟩ |
        ⟨key, childHash, below, hshort, hbelow, rfl⟩ | ⟨node, hnode, hstop, rfl⟩
      · rw [newHash_of_not_full fun children => by rw [hnone]; exact fun heq => nomatch heq]
        exact .missing hnone
      · rcases Nat.exists_eq_succ_of_ne_zero (show bound ≠ 0 by omega) with ⟨b, rfl⟩
        have hchild : ∀ i c, children i = .hash c → met table fuel
            (getCurrentKey keyPrefix [UInt8.ofNat i]) c = some (below i) := by
          intro i c hc
          have hi := hbelow i
          rwa [metChild, hc] at hi
        have hsub : ∀ i, ∀ x ∈ below i, x ∈ (⟨hash, keyPrefix, .full children⟩ : Met) ::
            (List.finRange 17).flatMap below := fun i x hx =>
          List.mem_cons_of_mem _ (List.mem_flatMap.mpr ⟨i, List.mem_finRange i, hx⟩)
        -- the children have the same new hashes with one unit of fuel less
        have hrenew : renew (newHash keccak table b) (.full children) =
            renew (newHash keccak table (b + 1)) (.full children) := by
          rw [renew, renew, Node.full.injEq]
          funext i
          exact renewSlot_congr fun c hc => newHash_stable (hchild i c hc) (by omega) (by omega)
        rcases hrefs _ List.mem_cons_self with ⟨children', hnode, hrefs₀⟩
        cases hnode
        rw [newHash_full hfull]
        refine .full hfull hrefs₀ (fun i c hc => ?_) (fun n hn => ?_)
        · rw [newHash_stable (m := b + 1) (hchild i c hc) (by omega) (by omega)]
          exact ih (by omega) (hchild i c hc) (fun x hx => hrefs x (hsub i x hx))
            fun x hx => hsame x (hsub i x hx)
        · rw [hrenew] at hn ⊢
          exact hsame _ List.mem_cons_self n hn
      · rcases hrefs _ List.mem_cons_self with ⟨children, hnode, -⟩
        cases hnode
      · rcases hrefs _ List.mem_cons_self with ⟨children, heq, -⟩
        dsimp only at heq
        subst heq
        cases hstop

/-- A node that is not full and met twice stands twice in the list of such nodes. -/
theorem count_hashesOf_filter (h : met table fuel keyPrefix hash = some l) {x : Met} (hx : x ∈ l)
    (hfull : isFull x.node = false) : (hashesOf l).count x.hash =
      (hashesOf (l.filter fun x => !isFull x.node)).count x.hash := by
  have hsame : ∀ z ∈ l, z.hash = x.hash → isFull z.node = false := by
    intro z hz heq
    have hnode := entry_of_met h z hz
    rw [heq, entry_of_met h x hx, Option.some.injEq] at hnode
    rw [← hnode, hfull]
  rw [List.count_eq_countP, List.count_eq_countP, hashesOf, hashesOf, List.countP_map,
    List.countP_map, List.countP_filter]
  refine List.countP_congr fun z hz => ?_
  simp only [Function.comp_apply, beq_iff_eq, Bool.and_eq_true, Bool.not_eq_true']
  exact ⟨fun heq => ⟨heq, hsame z hz heq⟩, And.left⟩

/-- If only full nodes are met twice, and the table holds no other nodes under the hashes that
the walk makes of them. -/
theorem repeats_of_nodup (h : met table fuel keyPrefix hash = some l)
    (hnodup : (hashesOf (l.filter fun x => !isFull x.node)).Nodup)
    (hsame : ∀ x ∈ l, 2 ≤ (hashesOf l).count x.hash → ∀ children, x.node = .full children →
      (∀ i, isRef (children i) = true) → ∀ n,
        table (keccak (renew (newHash keccak table fuel) x.node).encode).bytes = some n →
          n = renew (newHash keccak table fuel) x.node) : Repeats keccak table l := by
  intro y hy
  have hmem : y ∈ hashesOf l := List.count_pos_iff.mp (by omega)
  rcases mem_hashesOf.mp hmem with ⟨x, hx, rfl⟩
  rcases met_below h hx with ⟨fuel', l', hle, hl', -, hsub⟩
  have htwice : ∀ z ∈ l', 2 ≤ (hashesOf l).count z.hash := fun z hz =>
    hy.trans (count_le_of_below h hl' (List.mem_map_of_mem hz))
  -- so all of them are full
  have hall : ∀ z ∈ l', ∃ children, z.node = .full children := by
    intro z hz
    cases hfull : isFull z.node with
    | true =>
        unfold isFull at hfull
        split at hfull
        · rename_i children hnode
          exact ⟨children, hnode⟩
        · cases hfull
    | false =>
        have hcount := htwice z hz
        rw [count_hashesOf_filter h (hsub z hz) hfull] at hcount
        have hle := List.nodup_iff_count_le_one.mp hnodup z.hash
        omega
  by_cases hrefs : ∀ z ∈ l', ∃ children, z.node = .full children ∧ ∀ i, isRef (children i) = true
  · refine .inl ⟨fuel', _, renews_of_met hle hl' hrefs fun z hz => ?_⟩
    rcases hrefs z hz with ⟨children, hnode, hslots⟩
    exact hsame z (hsub z hz) (htwice z hz) children hnode hslots
  · right
    simp only [not_forall] at hrefs
    rcases hrefs with ⟨z, hz, hbad⟩
    rcases hall z hz with ⟨children, hnode⟩
    refine ⟨fuel', x.keyPrefix, l', hl', z, hz, children, hnode, ?_⟩
    by_contra hnone
    refine hbad ⟨children, hnode, fun i => ?_⟩
    by_contra hi
    exact hnone ⟨i, by simpa using hi⟩

end Twice

end Reply

end LessChain
