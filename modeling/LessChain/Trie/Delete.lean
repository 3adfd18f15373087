import LessChain.Trie.Canonical

/-!
# `delete` of `trie/trie.go`, and tries as maps

Deleting a key removes its leaf, and on the way up a full node with a single child left
becomes a short node, which is merged with the short nodes above and below it. So deletion
keeps a trie canonical (`Canon.delete_spec`).

HEX keys end in a terminator, so no key is a prefix of another, and `TryUpdate` and
`TryDelete` work for byte strings of any length. `run_refines_map` says what follows for whole
runs: the trie is a map, and its root depends on the final contents only.
-/

namespace LessChain

namespace Trie

open Sys (Apart)

/-! ## Deleting -/

/-- `pos` of the loop that counts the children left: -1, an index, or -2. -/
inductive Pos where
  | unset
  | at (i : Fin 17)
  | many
deriving DecidableEq, Repr

/-- Body of the loop over the children. -/
def posStep (children : Fin 17 → Node) (p : Pos) (i : Fin 17) : Pos :=
  if (children i).isNil then p
  else match p with
    | .unset => .at i
    -- here the loop breaks off, as nothing changes any more
    | _ => .many

/-- The loop over the children. -/
def pos (children : Fin 17 → Node) : Pos := (List.finRange 17).foldl (posStep children) .unset

/-- A full node that lost a child: with a single child left it becomes a short node. -/
def reduce (children : Fin 17 → Node) : Option Node :=
  match pos children with
  | .at i =>
      if i = Fin.last 16 then some (.short [UInt8.ofNat i] (children i))
      else match children i with
        | .short key val => some (.short (UInt8.ofNat i :: key) val)
        -- `resolve` of a node that is not loaded
        | .hash _ => none
        | child => some (.short [UInt8.ofNat i] child)
  | _ => some (.full children)

/-- `delete`: whether the node changed, and the new node. -/
def delete : Node → Bytes → Option (Bool × Node)
  | .short nkey val, key =>
      let matchlen := prefixLen key nkey
      if matchlen < nkey.length then some (false, .short nkey val)
      else if matchlen = key.length then some (true, .nil)
      else do
        let (dirty, child) ← delete val (key.drop nkey.length)
        if dirty then
          match child with
          | .short ckey cval => some (true, .short (nkey ++ ckey) cval)
          | child => some (true, .short nkey child)
        else some (false, .short nkey val)
  | .full children, x :: key => do
      let i ← slot x
      let (dirty, nn) ← delete (children i) key
      if dirty then
        if nn.isNil then do
          let n ← reduce (Function.update children i nn)
          some (true, n)
        else some (true, .full (Function.update children i nn))
      else some (false, .full children)
  | .full _, [] => none
  | .value _, _ => some (true, .nil)
  | .nil, _ => some (false, .nil)
  | .hash _, _ => none

/-- `TryUpdate`: an empty value deletes. -/
def tryUpdate (root : Node) (key value : Bytes) : Option Node :=
  if value = [] then (delete root (keybytesToHex key)).map Prod.snd
  else (insert value root (keybytesToHex key)).map Prod.snd

/-- `TryDelete`. -/
def tryDelete (root : Node) (key : Bytes) : Option Node :=
  (delete root (keybytesToHex key)).map Prod.snd

/-! ## Deleting keeps the form -/

theorem foldl_posStep_many (cs : Fin 17 → Node) (l : List (Fin 17)) :
    l.foldl (posStep cs) .many = .many := by
  induction l with
  | nil => rfl
  | cons i l ih =>
      have hstep : posStep cs .many i = .many := by
        unfold posStep
        split <;> rfl
      rw [List.foldl_cons, hstep, ih]

theorem foldl_posStep_at (cs : Fin 17 → Node) (i : Fin 17) (l : List (Fin 17)) :
    l.foldl (posStep cs) (.at i) =
      if l.filter (fun j => !(cs j).isNil) = [] then .at i else .many := by
  induction l with
  | nil => rfl
  | cons j l ih =>
      by_cases hj : (cs j).isNil
      · simp [posStep, hj, ih]
      · simp [posStep, hj, foldl_posStep_many]

theorem pos_eq (cs : Fin 17 → Node) : pos cs =
    match (List.finRange 17).filter fun j => !(cs j).isNil with
    | [] => .unset
    | [i] => .at i
    | _ => .many := by
  have hloop : ∀ l : List (Fin 17), l.foldl (posStep cs) .unset =
      match l.filter fun j => !(cs j).isNil with
      | [] => .unset
      | [i] => .at i
      | _ => .many := by
    intro l
    induction l with
    | nil => rfl
    | cons j l ih =>
        by_cases hj : (cs j).isNil
        · simp [posStep, hj, ih]
        · simp only [List.foldl_cons, posStep, hj, Bool.false_eq_true, if_false,
            foldl_posStep_at, List.filter_cons, Bool.not_false, if_true]
          cases l.filter fun j => !(cs j).isNil <;> simp
  exact hloop _

variable {key : Bytes} {m : Bytes → Option Bytes} {cs : Fin 17 → Node} {n : Node}

/-- With one child left, the full node holds what a short node with its symbol holds. -/
theorem has_full_sole {i : Fin 17} (h : ∀ j, j ≠ i → cs j = .nil)
    (r u : Bytes) : Has (.short [UInt8.ofNat i] (cs i)) r u ↔ Has (.full cs) r u := by
  rw [has_short, has_full]
  constructor
  · rintro ⟨r', rfl, hr⟩
    exact ⟨i, r', rfl, hr⟩
  · rintro ⟨j, r', rfl, hr⟩
    by_cases hj : j = i
    · subst hj
      exact ⟨r', rfl, hr⟩
    · rw [h j hj] at hr
      exact absurd hr (has_nil _ _)

theorem has_short_short {k k' r u : Bytes} :
    Has (.short (k ++ k') n) r u ↔ Has (.short k (.short k' n)) r u := by
  simp only [has_short]
  constructor
  · rintro ⟨r', rfl, hr⟩
    exact ⟨k' ++ r', List.append_assoc .., r', rfl, hr⟩
  · rintro ⟨_, rfl, r', rfl, hr⟩
    exact ⟨r', (List.append_assoc ..).symm, hr⟩

theorem isNibbles_slot {i : Fin 17} (hi : i ≠ 16) : IsNibbles [UInt8.ofNat i] := by
  intro x hx
  have hne : i.val ≠ 16 := fun h => hi (Fin.ext h)
  have hlt := i.isLt
  rw [List.mem_singleton.mp hx, UInt8.toNat_ofNat', Nat.mod_eq_of_lt (by omega)]
  omega

/-- A short node in front of an inner node: two short nodes become one. -/
theorem Canon.merge {k k' : Bytes} (hk : IsNibbles k) (h : Canon (.short k' n)) :
    Canon (.short (k ++ k') n) := by
  cases h with
  | leaf hne ht hv => exact .leaf (by simp [hne]) (tail_append hk ht) hv
  | ext hne hn h => exact .ext (by simp [hne]) (hk.append hn) h

/-- What is left of a full node. -/
theorem reduce_spec (h16 : cs 16 = .nil ∨ ∃ v, cs 16 = .value v)
    (hsome : ∃ i, cs i ≠ .nil) (hcs : ∀ i, cs i ≠ .nil → Canon (cs i)) :
    ∃ n', reduce cs = some n' ∧ Canon n' ∧ n'.isInner = true ∧
      ∀ r u, Has n' r u ↔ Has (.full cs) r u := by
  have hmem : ∀ i, i ∈ (List.finRange 17).filter (fun j => !(cs j).isNil) ↔ cs i ≠ .nil := by
    intro i
    simp [← Node.isNil_iff]
  have hnodup : ((List.finRange 17).filter fun j => !(cs j).isNil).Nodup :=
    (List.nodup_finRange 17).filter _
  rw [reduce, pos_eq]
  cases hl : (List.finRange 17).filter fun j => !(cs j).isNil with
  | nil =>
      rcases hsome with ⟨i, hi⟩
      have := (hmem i).mpr hi
      rw [hl] at this
      cases this
  | cons i l =>
      rw [hl] at hmem hnodup
      have hi : cs i ≠ .nil := (hmem i).mp List.mem_cons_self
      cases l with
      | nil =>
          have hsole : ∀ j, j ≠ i → cs j = .nil := by
            intro j hj
            by_contra hne
            exact hj (List.mem_singleton.mp ((hmem j).mpr hne))
          by_cases hi16 : i = Fin.last 16
          · -- the value that ends here
            subst hi16
            rcases h16 with h | ⟨v, hv⟩
            · exact absurd h hi
            · have hlast : cs (Fin.last 16) = .value v := hv
              have hcanon := hcs _ hi
              refine ⟨_, rfl, ?_, rfl, has_full_sole hsole⟩
              rw [hlast] at hcanon ⊢
              cases hcanon with
              | value hne => exact .leaf (by simp) (.inr ⟨rfl, rfl⟩) hne
          · have hnib := isNibbles_slot hi16
            have hcanon := hcs _ hi
            have hhas := has_full_sole hsole
            simp only [if_neg hi16]
            cases hchild : cs i with
            | nil => exact absurd hchild hi
            | hash w =>
                rw [hchild] at hcanon
                cases hcanon
            | value v =>
                rw [hchild] at hcanon hhas
                refine ⟨_, rfl, ?_, rfl, hhas⟩
                cases hcanon with
                | value hne => exact .leaf (by simp) hnib.tail hne
            | short k n =>
                rw [hchild] at hcanon hhas
                refine ⟨_, rfl, Canon.merge hnib hcanon, rfl, fun r u => ?_⟩
                rw [← hhas]
                exact has_short_short (k := [UInt8.ofNat i])
            | full cs' =>
                rw [hchild] at hcanon hhas
                exact ⟨_, rfl, .ext (by simp) hnib hcanon, rfl, hhas⟩
      | cons j l =>
          have hij : i ≠ j := by
            rintro rfl
            simp at hnodup
          have hj : cs j ≠ .nil := (hmem j).mp (by simp)
          exact ⟨_, rfl, .full h16 ⟨i, j, hij, hi, hj⟩ hcs, rfl, fun _ _ => Iff.rfl⟩

/-- What a deletion gives. -/
def Deleted (n : Node) (key : Bytes) : Prop :=
  ∃ b n', delete n key = some (b, n') ∧ (n' = .nil ∨ Canon n') ∧ Drops n key n' ∧
    (b = false → n' = n) ∧ ((∃ cs, n = .full cs) → Canon n' ∧ n'.isInner = true)

/-- A short node whose whole key is deleted. -/
theorem deleted_leaf (k w : Bytes) : Deleted (.short k (.value w)) k := by
  have hmatch : prefixLen k k = k.length := by
    simpa using prefixLen_append k []
  refine ⟨true, .nil, by simp [delete, hmatch], .inl rfl, ?_, by simp, by simp⟩
  intro r u
  rw [has_leaf]
  simp only [has_nil, false_iff]
  tauto

/-- A short node whose key departs from the one to delete stays as it is. -/
theorem deleted_parting {c a b : Bytes} {x y : UInt8} {val : Node} (hxy : x ≠ y)
    (h : Canon (.short (c ++ x :: a) val)) : Deleted (.short (c ++ x :: a) val) (c ++ y :: b) := by
  have hmatch := prefixLen_parting c hxy.symm b a
  refine ⟨false, _, by simp [delete, hmatch], .inr h, ?_, fun _ => rfl, by simp⟩
  intro r u
  refine ⟨fun hr => ⟨?_, hr⟩, fun hr => hr.2⟩
  rintro rfl
  rcases has_short.mp hr with ⟨r', heq, -⟩
  rw [List.append_assoc] at heq
  exact hxy (List.cons.inj (List.append_cancel_left heq)).1.symm

theorem Drops.short {k : Bytes} {n' : Node} (h : Drops n key n') :
    Drops (.short k n) (k ++ key) (.short k n') := by
  intro r u
  rw [has_short, has_short]
  constructor
  · rintro ⟨r', rfl, hr⟩
    rcases (h r' u).mp hr with ⟨hne, hr⟩
    exact ⟨fun heq => hne (List.append_cancel_left heq), r', rfl, hr⟩
  · rintro ⟨hne, r', rfl, hr⟩
    exact ⟨r', rfl, (h _ _).mpr ⟨fun heq => hne (by rw [heq]), hr⟩⟩

/-- Deleting below an extension node. -/
theorem Deleted.ext {k : Bytes} (hk : k ≠ []) (hn : IsNibbles k)
    (hkey : key ≠ []) (hcs : Canon (.full cs)) (h : Deleted (.full cs) key) :
    Deleted (.short k (.full cs)) (k ++ key) := by
  rcases h with ⟨b, n', hdel, -, hdrops, hclean, hfull⟩
  rcases hfull ⟨cs, rfl⟩ with ⟨hn', hinner⟩
  have hmatch := prefixLen_append k key
  have hlen : k.length ≠ (k ++ key).length := by simp [hkey]
  have hdel' : delete (.short k (.full cs)) (k ++ key) =
      if b then
        match n' with
        | .short ckey cval => some (true, .short (k ++ ckey) cval)
        | child => some (true, .short k child)
      else some (false, .short k (.full cs)) := by
    rw [delete]
    simp only [hmatch, lt_irrefl, if_false, if_neg hlen, List.drop_left, hdel,
      Option.bind_eq_bind, Option.bind_some]
  cases b with
  | false =>
      rw [hclean rfl] at hdrops
      exact ⟨false, _, hdel', .inr (.ext hk hn hcs), hdrops.short, fun _ => rfl, by simp⟩
  | true =>
      -- two short nodes in a row are merged
      cases hn' with
      | value => cases hinner
      | @leaf k' v hk' ht hv =>
          refine ⟨true, _, hdel', .inr (Canon.merge hn (.leaf hk' ht hv)), ?_, by simp, by simp⟩
          exact fun r u => has_short_short.trans (hdrops.short r u)
      | @ext k' cs' hk' hn' hcs' =>
          refine ⟨true, _, hdel', .inr (Canon.merge hn (.ext hk' hn' hcs')), ?_, by simp, by simp⟩
          exact fun r u => has_short_short.trans (hdrops.short r u)
      | @full cs' h16 htwo hcs' =>
          exact ⟨true, _, hdel', .inr (.ext hk hn (.full h16 htwo hcs')), hdrops.short, by simp,
            by simp⟩

/-- Deleting below one child of a full node. -/
theorem Deleted.full {i : Fin 17} (hcs : Canon (.full cs))
    (hkey : i = 16 → key = []) (h : Deleted (cs i) key) :
    Deleted (.full cs) (UInt8.ofNat i :: key) := by
  rcases h with ⟨b, nn, hdel, hnn, hdrops, hclean, -⟩
  have hdel' : delete (.full cs) (UInt8.ofNat i :: key) =
      if b then
        if nn.isNil then (reduce (Function.update cs i nn)).bind fun n => some (true, n)
        else some (true, .full (Function.update cs i nn))
      else some (false, .full cs) := by
    rw [delete, slot_eq_some.mpr rfl]
    simp only [Option.bind_eq_bind, Option.bind_some, hdel]
  have hcs' := hcs
  cases hcs with
  | full h16 htwo hchild =>
      have h16' : Function.update cs i nn 16 = .nil ∨
          ∃ v, Function.update cs i nn 16 = .value v := by
        by_cases hi : (16 : Fin 17) = i
        · subst hi
          rw [Function.update_self]
          rcases h16 with h | ⟨v, h⟩
          · rw [h, delete] at hdel
            cases hdel
            exact .inl rfl
          · rw [h, delete] at hdel
            cases hdel
            exact .inl rfl
        · rw [Function.update_of_ne hi]
          exact h16
      have hchild' : ∀ j, Function.update cs i nn j ≠ .nil →
          Canon (Function.update cs i nn j) := by
        intro j hj
        by_cases hji : j = i
        · rw [hji, Function.update_self] at hj ⊢
          exact hnn.resolve_left hj
        · rw [Function.update_of_ne hji] at hj ⊢
          exact hchild j hj
      cases b with
      | false =>
          have hdrops' := hdrops.full
          rw [hclean rfl, Function.update_eq_self] at hdrops'
          exact ⟨false, _, hdel', .inr hcs', hdrops', fun _ => rfl, fun _ => ⟨hcs', rfl⟩⟩
      | true =>
          by_cases hnil : nn = .nil
          · -- the other child stays
            have hsome : ∃ j, Function.update cs i nn j ≠ .nil := by
              rcases htwo with ⟨l, m, hlm, hl, hm⟩
              by_cases hli : l = i
              · refine ⟨m, ?_⟩
                rwa [Function.update_of_ne fun h => hlm (hli.trans h.symm)]
              · refine ⟨l, ?_⟩
                rwa [Function.update_of_ne hli]
            rcases reduce_spec h16' hsome hchild' with ⟨n', hred, hn', hinner, hhas⟩
            refine ⟨true, n', ?_, .inr hn', fun r u => (hhas r u).trans (hdrops.full r u), by simp,
              fun _ => ⟨hn', hinner⟩⟩
            simp [hdel', hred, Node.isNil_iff.mpr hnil]
          · have hisNil : nn.isNil = false := by
              rw [Bool.eq_false_iff]
              exact fun h => hnil (Node.isNil_iff.mp h)
            have htwo' : ∃ l m, l ≠ m ∧ Function.update cs i nn l ≠ .nil ∧
                Function.update cs i nn m ≠ .nil := by
              have hstay : ∀ l, cs l ≠ .nil → Function.update cs i nn l ≠ .nil := by
                intro l hl
                by_cases hli : l = i
                · rwa [hli, Function.update_self]
                · rwa [Function.update_of_ne hli]
              rcases htwo with ⟨l, m, hlm, hl, hm⟩
              exact ⟨l, m, hlm, hstay l hl, hstay m hm⟩
            have hn' := Canon.full h16' htwo' hchild'
            exact ⟨true, _, by simp [hdel', hisNil], .inr hn', hdrops.full, by simp,
              fun _ => ⟨hn', rfl⟩⟩

theorem deleted_nil (key : Bytes) : Deleted .nil key :=
  ⟨false, .nil, by simp [delete], .inl rfl, by simp [Drops], fun _ => rfl, by simp⟩

/-- Deleting a key that is present or apart from those that are. -/
theorem Canon.delete_spec (h : Canon n) (hkey : Tail key)
    (hclear : Clear n key) : Deleted n key := by
  -- on the trie; a key that is apart from all others leaves some node on the way
  induction h generalizing key with
  | @value w hw =>
      rcases hclear [] w ⟨rfl, rfl⟩ with rfl | hapart
      · refine ⟨true, .nil, by simp [delete], .inl rfl, ?_, by simp, by simp⟩
        intro r u
        simp only [has_nil, has_value, false_iff]
        tauto
      · exact absurd List.nil_prefix hapart.1
  | @leaf k w hk ht hw =>
      rcases hclear k w (has_leaf.mpr ⟨rfl, rfl⟩) with rfl | hapart
      · exact deleted_leaf k w
      · rcases Sys.apart_iff.mp hapart with ⟨c, x, y, a, b, rfl, rfl, hxy⟩
        exact deleted_parting hxy (.leaf hk ht hw)
  | @ext k cs hk hn hcs ih =>
      rcases Sys.prefix_or_parting k key with ⟨r, rfl⟩ | hp | ⟨c, x, y, a, b, rfl, rfl, hxy⟩
      · exact .ext hk hn (hcs.ne_nil_of_clear hclear.below) hcs (ih hkey.of_append hclear.below)
      · exact absurd hp (hcs.not_prefix_of_clear hclear)
      · exact deleted_parting hxy (.ext hk hn hcs)
  | @full cs h16 htwo hcs ih =>
      have hfull : Canon (.full cs) := .full h16 htwo hcs
      rcases hfull.exists_child hkey hclear with ⟨i, key, rfl, hi16, hkey'⟩
      refine Deleted.full hfull hi16 ?_
      by_cases hnil : cs i = .nil
      · rw [hnil]
        exact deleted_nil key
      · exact ih i hnil hkey' hclear.child

/-! ## Tries as maps -/

/-- Calls that change a trie. -/
inductive Write where
  | update (key value : Bytes)
  | delete (key : Bytes)
deriving DecidableEq, Repr

/-- `TryUpdate` and `TryDelete`. -/
def Write.run (root : Node) : Write → Option Node
  | .update key value => tryUpdate root key value
  | .delete key => tryDelete root key

/-- What the call does to a map from keys to values. An empty value removes the key. -/
def Write.apply (m : Bytes → Option Bytes) : Write → Bytes → Option Bytes
  | .update key value => Function.update m key (if value = [] then none else some value)
  | .delete key => Function.update m key none

/-- `Get`. -/
def get (root : Node) (key : Bytes) : Option Bytes := tryGet root (keybytesToHex key)

/-- The trie with root `n` stands for the map `m`. -/
structure Refines (n : Node) (m : Bytes → Option Bytes) : Prop where
  canon : n = .nil ∨ Canon n
  has : ∀ r u, Has n r u ↔ ∃ key, r = keybytesToHex key ∧ m key = some u

theorem refines_nil : Refines .nil fun _ => none :=
  ⟨.inl rfl, by simp⟩

/-- No HEX key of a byte string is a prefix of another. -/
theorem eq_of_prefix_keybytesToHex {a b : Bytes} (h : keybytesToHex a <+: keybytesToHex b) :
    a = b := by
  rcases h with ⟨t, ht⟩
  have htail := tail_keybytesToHex b
  rw [← ht, keybytesToHex, List.append_assoc] at htail
  rcases htail.of_append with ⟨h16, -⟩ | ⟨-, hnil⟩
  · exact absurd h16 (by decide)
  · have : t = [] := by simpa using hnil
    rw [this, List.append_nil] at ht
    exact keybytesToHex_injective ht

theorem apart_keybytesToHex {a b : Bytes} (h : a ≠ b) :
    Apart (keybytesToHex a) (keybytesToHex b) :=
  ⟨fun hp => h (eq_of_prefix_keybytesToHex hp), fun hp => h (eq_of_prefix_keybytesToHex hp).symm⟩

theorem Refines.clear (h : Refines n m) (key : Bytes) :
    Clear n (keybytesToHex key) := by
  intro r u hr
  rcases (h.has r u).mp hr with ⟨key', rfl, -⟩
  by_cases heq : key' = key
  · exact .inl (by rw [heq])
  · exact .inr (apart_keybytesToHex heq)

theorem Refines.get_eq (h : Refines n m) (key : Bytes) :
    get n key = m key := by
  apply Option.ext
  intro u
  rw [get, tryGet_iff_has]
  constructor
  · rintro ⟨p, hp, hhas⟩
    rcases (h.has p u).mp hhas with ⟨key', rfl, hkey'⟩
    rwa [← eq_of_prefix_keybytesToHex hp]
  · exact fun hkey => ⟨_, List.prefix_rfl, (h.has _ _).mpr ⟨key, rfl, hkey⟩⟩

theorem Refines.insert (h : Refines n m) (key : Bytes)
    {v : Bytes} (hv : v ≠ []) : ∃ b n', Trie.insert v n (keybytesToHex key) = some (b, n') ∧
      Refines n' (Function.update m key (some v)) := by
  have htail := tail_keybytesToHex key
  have hins : Inserted Canon n (keybytesToHex key) v := by
    rcases h.canon with rfl | hcanon
    · exact inserted_nil (canon_insertNil_value htail hv)
    · exact hcanon.insert_spec htail hv (h.clear key)
  rcases hins with ⟨b, n', hins, hn', hsets, -, -⟩
  refine ⟨b, n', hins, .inr hn', ?_⟩
  intro r u
  rw [hsets r u, h.has]
  constructor
  · rintro (⟨rfl, rfl⟩ | ⟨hne, key', rfl, hkey'⟩)
    · exact ⟨key, rfl, Function.update_self ..⟩
    · refine ⟨key', rfl, ?_⟩
      rwa [Function.update_of_ne fun heq => hne (by rw [heq])]
  · rintro ⟨key', rfl, hkey'⟩
    by_cases heq : key' = key
    · subst heq
      rw [Function.update_self] at hkey'
      exact .inl ⟨rfl, (Option.some.inj hkey').symm⟩
    · rw [Function.update_of_ne heq] at hkey'
      exact .inr ⟨fun h => heq (keybytesToHex_injective h), key', rfl, hkey'⟩

theorem Refines.delete (h : Refines n m) (key : Bytes) :
    ∃ b n', Trie.delete n (keybytesToHex key) = some (b, n') ∧
      Refines n' (Function.update m key none) := by
  have hdel : Deleted n (keybytesToHex key) := by
    rcases h.canon with rfl | hcanon
    · exact deleted_nil _
    · exact hcanon.delete_spec (tail_keybytesToHex key) (h.clear key)
  rcases hdel with ⟨b, n', hdel, hn', hdrops, -, -⟩
  refine ⟨b, n', hdel, hn', ?_⟩
  intro r u
  rw [hdrops r u, h.has]
  constructor
  · rintro ⟨hne, key', rfl, hkey'⟩
    refine ⟨key', rfl, ?_⟩
    rwa [Function.update_of_ne fun heq => hne (by rw [heq])]
  · rintro ⟨key', rfl, hkey'⟩
    by_cases heq : key' = key
    · rw [heq, Function.update_self] at hkey'
      cases hkey'
    · rw [Function.update_of_ne heq] at hkey'
      exact ⟨fun h => heq (keybytesToHex_injective h), key', rfl, hkey'⟩

/-- One call. -/
theorem Refines.write (h : Refines n m) (w : Write) :
    ∃ n', w.run n = some n' ∧ Refines n' (w.apply m) := by
  have hdelete : ∀ key, ∃ n', tryDelete n key = some n' ∧
      Refines n' (Function.update m key none) := by
    intro key
    rcases h.delete key with ⟨b, n', hdel, hn'⟩
    exact ⟨n', by simp [tryDelete, hdel], hn'⟩
  cases w with
  | delete key => exact hdelete key
  | update key value =>
      by_cases hv : value = []
      · rcases hdelete key with ⟨n', hdel, hn'⟩
        refine ⟨n', ?_, by simpa [Write.apply, hv] using hn'⟩
        rw [Write.run, tryUpdate, if_pos hv]
        exact hdel
      · rcases h.insert key hv with ⟨b, n', hins, hn'⟩
        refine ⟨n', by simp [Write.run, tryUpdate, hv, hins], ?_⟩
        simpa [Write.apply, hv] using hn'

/-- A map has one trie. -/
theorem Refines.unique {n' : Node} (h : Refines n m)
    (h' : Refines n' m) : n = n' := by
  have hsame : ∀ r u, Has n r u ↔ Has n' r u := fun r u => (h.has r u).trans (h'.has r u).symm
  have hempty : ∀ {a b : Node}, a = .nil → Canon b → (∀ r u, Has a r u ↔ Has b r u) → False := by
    rintro a b rfl hb hab
    rcases hb.exists_has with ⟨r, u, hr⟩
    exact has_nil r u ((hab r u).mpr hr)
  rcases h.canon with hn | hn
  · rcases h'.canon with hn' | hn'
    · rw [hn, hn']
    · exact (hempty hn hn' hsame).elim
  · rcases h'.canon with hn' | hn'
    · exact (hempty hn' hn fun r u => (hsame r u).symm).elim
    · exact hn.unique hn' hsame

/-- The calls one after the other, on an empty trie. -/
def runWrites (ws : List Write) : Option Node := ws.foldlM Write.run .nil

/-- The map after the calls. -/
def contents (ws : List Write) : Bytes → Option Bytes := ws.foldl Write.apply fun _ => none

theorem refines_runWrites (ws : List Write) :
    ∃ root, runWrites ws = some root ∧ Refines root (contents ws) := by
  have hloop : ∀ (ws : List Write) (n : Node) (m : Bytes → Option Bytes), Refines n m →
      ∃ root, ws.foldlM Write.run n = some root ∧ Refines root (ws.foldl Write.apply m) := by
    intro ws
    induction ws with
    | nil => exact fun n m h => ⟨n, rfl, h⟩
    | cons w ws ih =>
        intro n m h
        rcases h.write w with ⟨n', hrun, hn'⟩
        rcases ih n' _ hn' with ⟨root, hroot, href⟩
        exact ⟨root, by rw [List.foldlM_cons, hrun]; exact hroot, href⟩
  exact hloop ws .nil _ refines_nil

/-- Two runs that leave the same map leave the same trie. -/
theorem runWrites_congr {ws ws' : List Write} (h : contents ws = contents ws') :
    runWrites ws = runWrites ws' := by
  rcases refines_runWrites ws with ⟨root, hrun, href⟩
  rcases refines_runWrites ws' with ⟨root', hrun', href'⟩
  rw [h] at href
  rw [hrun, hrun', href.unique href']

/-- Whatever is written and deleted, the trie is the map of the last writes, and two runs that
leave the same map leave the same trie, node by node. -/
theorem run_refines_map (ws : List Write) :
    ∃ root, runWrites ws = some root ∧ (∀ key, get root key = contents ws key) ∧
      ∀ ws', contents ws' = contents ws → runWrites ws' = some root := by
  rcases refines_runWrites ws with ⟨root, hrun, href⟩
  refine ⟨root, hrun, href.get_eq, fun ws' heq => ?_⟩
  rw [runWrites_congr heq, hrun]

end Trie

end LessChain
