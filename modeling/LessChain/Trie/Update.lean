import LessChain.Trie.Node

/-!
# `trie/trie.go` and `trie/proof.go`

Reading, writing and proving on a trie whose nodes are all loaded: `resolveHash`, which
fetches a node from the database, is not modelled, and a `HashNode` on the way ends the
call. `patch` says what overwriting accounts means without any search: it replaces values
at the leaves and leaves the shape alone. Inserting under a key that is present is a patch.
-/

namespace LessChain

namespace Trie

/-- An index into `FullNode.Children`; beyond the array it panics. -/
def slot (x : UInt8) : Option (Fin 17) :=
  if h : x.toNat < 17 then some ⟨x.toNat, h⟩ else none

/-- `tryGet` on a trie that is loaded. There is one `none` for a key that is absent and for an
index at which the program panics: no key of `TryGet` leads to such an index (`Rep.gets`, where
`Live.tryGet` keeps the two apart and always returns). -/
def tryGet : Node → Bytes → Option Bytes
  | .value v, _ => some v
  | .short nkey val, key =>
      if key.take nkey.length = nkey then tryGet val (key.drop nkey.length) else none
  | .full children, x :: key => do
      let i ← slot x
      tryGet (children i) key
  | _, _ => none

/-- `insert` at an empty slot. -/
def insertNil (key : Bytes) (value : Node) : Node :=
  if key = [] then value else .short key value

/-- `insert`: whether the node changed, and the new node. -/
def insert (v : Bytes) : Node → Bytes → Option (Bool × Node)
  | .value w, [] => some (w != v, .value v)
  | _, [] => some (true, .value v)
  | .short nkey val, x :: key =>
      let matchlen := prefixLen (x :: key) nkey
      if matchlen = nkey.length then do
        let (dirty, nn) ← insert v val ((x :: key).drop matchlen)
        some (if dirty then (true, .short nkey nn) else (false, .short nkey val))
      else
        -- branch out at the index where the keys differ
        match nkey.drop matchlen, (x :: key).drop matchlen with
        | y :: nrest, z :: rest => do
            let i ← slot y
            let j ← slot z
            let branch := Node.full (Function.update
              (Function.update (fun _ => .nil) i (insertNil nrest val)) j
              (insertNil rest (.value v)))
            some (true, if matchlen = 0 then branch else .short ((x :: key).take matchlen) branch)
        | _, _ => none
  | .full children, x :: key => do
      let i ← slot x
      let (dirty, nn) ← insert v (children i) key
      some (if dirty then (true, .full (Function.update children i nn)) else (false, .full children))
  | .nil, x :: key => some (true, .short (x :: key) (.value v))
  | .value _, _ :: _ => none
  | .hash _, _ :: _ => none

/-- `TryUpdateAccount`. An encoded account is not empty, so `TryUpdate` inserts it. -/
def tryUpdateAccount (root : Node) (key : Bytes) (acc : StateAccount) : Option Node := do
  let data ← encodeAccount acc
  let (_, n) ← insert data root (keybytesToHex key)
  some n

/-- The first loop of `Prove`: the nodes on the path to a key. -/
def proofNodes : Node → Bytes → Option (List Node)
  | _, [] => some []
  | .nil, _ :: _ => some []
  | .short nkey val, x :: key =>
      if (x :: key).take nkey.length = nkey then do
        let nodes ← proofNodes val ((x :: key).drop nkey.length)
        some (.short nkey val :: nodes)
      else some [.short nkey val]
  | .full children, x :: key => do
      let i ← slot x
      let nodes ← proofNodes (children i) key
      some (.full children :: nodes)
  | .value _, _ :: _ => none
  | .hash _, _ :: _ => none

/-- `Prove`: the stored forms of the nodes on the path. An embedded node is left out,
unless it is the root. -/
def prove (keccak : Bytes → Hash) (root : Node) (key : Bytes) : Option (List Bytes) := do
  let nodes ← proofNodes root (keybytesToHex key)
  some (nodes.zipIdx.filterMap fun (n, i) =>
    if 32 ≤ (enc keccak n).length ∨ i = 0 then some (enc keccak n) else none)

/-! ## Overwriting accounts -/

/-- The node with new values: `w` gives the value of a key, if it has a new one. -/
def patch : Node → (Bytes → Option Bytes) → Node
  | .short key val, w =>
      match val with
      | .value v => .short key (.value ((w key).getD v))
      | _ => .short key (patch val fun rest => w (key ++ rest))
  | .full children, w =>
      .full fun i => patch (children i) fun rest => w (UInt8.ofNat i :: rest)
  | n, _ => n

theorem slot_eq_some {x : UInt8} {i : Fin 17} : slot x = some i ↔ x = UInt8.ofNat i := by
  unfold slot
  constructor
  · intro h
    split at h
    · cases h
      simp
    · cases h
  · rintro rfl
    have hi : (UInt8.ofNat i).toNat = i := by
      rw [UInt8.toNat_ofNat']
      exact Nat.mod_eq_of_lt (by omega)
    simp [hi]

/-- Different slots have different symbols. -/
theorem ofNat_slot_injective {i j : Fin 17} (h : UInt8.ofNat i = UInt8.ofNat j) : i = j := by
  have hi := slot_eq_some.mpr (rfl : UInt8.ofNat i = UInt8.ofNat i)
  rw [h, slot_eq_some.mpr rfl] at hi
  exact (Option.some.inj hi).symm

theorem prefixLen_append (k r : Bytes) : prefixLen (k ++ r) k = k.length := by
  induction k with
  | nil => cases r <;> rfl
  | cons x k ih => simp [prefixLen, ih]

@[simp] theorem tryGet_nil (key : Bytes) : tryGet .nil key = none := by
  simp [tryGet]

variable {r u key : Bytes} {us : List (Bytes × StateAccount)} {n : Node} {d : ℕ}

theorem tryGet_short {k : Bytes} {val : Node} :
    tryGet (.short k val) r = some u ↔ ∃ r', r = k ++ r' ∧ tryGet val r' = some u := by
  rw [tryGet, Option.ite_none_right_eq_some]
  constructor
  · rintro ⟨hkey, hget⟩
    refine ⟨r.drop k.length, ?_, hget⟩
    conv_lhs => rw [← List.take_append_drop k.length r, hkey]
  · rintro ⟨r', rfl, hget⟩
    simpa using hget

theorem tryGet_full {children : Fin 17 → Node} :
    tryGet (.full children) r = some u ↔
      ∃ i r', r = UInt8.ofNat i.val :: r' ∧ tryGet (children i) r' = some u := by
  cases r with
  | nil => simp [tryGet]
  | cons x r =>
      simp only [tryGet, Option.bind_eq_bind, Option.bind_eq_some_iff, slot_eq_some]
      constructor
      · rintro ⟨i, rfl, hget⟩
        exact ⟨i, r, rfl, hget⟩
      · rintro ⟨i, r', heq, hget⟩
        cases heq
        exact ⟨i, rfl, hget⟩

/-- At a leaf, one key has a value. -/
theorem tryGet_leaf {v : Bytes} (hr : r.length = key.length) :
    tryGet (.short key (.value v)) r = some u ↔ r = key ∧ u = v := by
  rw [tryGet_short]
  constructor
  · rintro ⟨r', rfl, hget⟩
    have hnil : r' = [] := by simpa using hr
    cases hget
    exact ⟨by simp [hnil], rfl⟩
  · rintro ⟨rfl, rfl⟩
    exact ⟨[], by simp, rfl⟩

/-- The child under the first symbol of a key that is present is not empty. -/
theorem ne_nil_of_tryGet (h : tryGet n r = some u) : n ≠ .nil := by
  rintro rfl
  cases h

/-- `insert` at a short node whose whole key matches. -/
theorem insert_short_append (v : Bytes) {k : Bytes} (hne : k ≠ []) (val : Node) (r : Bytes) :
    insert v (.short k val) (k ++ r) = (insert v val r).map fun (dirty, nn) =>
      if dirty then (true, .short k nn) else (false, .short k val) := by
  rcases List.exists_cons_of_ne_nil hne with ⟨x, k, rfl⟩
  have hmatch := prefixLen_append (x :: k) r
  have hdrop : (x :: k ++ r).drop (x :: k).length = r := List.drop_left
  rw [List.cons_append] at hmatch hdrop ⊢
  rw [insert]
  simp only [hmatch, if_true, hdrop]
  cases insert v val r <;> rfl

/-- The keys that are present are nibbles with a terminator. -/
theorem IsState.key_eq (h : IsState d n) (hr : r.length = d)
    (hget : tryGet n r = some u) : ∃ k, IsNibbles k ∧ r = k ++ [16] := by
  induction h generalizing r with
  | @leaf k v hk hv =>
      rcases (tryGet_leaf (by simpa using hr)).mp hget with ⟨rfl, -⟩
      exact ⟨k, hk, rfl⟩
  | @ext k children d hk hne hchild ih =>
      rcases tryGet_short.mp hget with ⟨r', rfl, hval⟩
      rcases ih (by simpa using hr) hval with ⟨k', hk', rfl⟩
      exact ⟨k ++ k', hk.append hk', (List.append_assoc ..).symm⟩
  | @full children d hvalue hsome hchild ih =>
      rcases tryGet_full.mp hget with ⟨i, r', rfl, hval⟩
      have hi := ne_nil_of_tryGet hval
      rcases ih i hi (by simpa using hr) hval with ⟨k', hk', rfl⟩
      refine ⟨UInt8.ofNat i :: k', ?_, rfl⟩
      intro x hx
      rcases List.mem_cons.mp hx with rfl | hx
      · -- the last slot holds no child
        have hne : i.val ≠ 16 := by
          intro h16
          have heq : i = 16 := Fin.ext h16
          rw [heq] at hi
          exact hi hvalue
        have hlt := i.isLt
        rw [UInt8.toNat_ofNat', Nat.mod_eq_of_lt (by omega)]
        omega
      · exact hk' x hx

/-- A key of 32 bytes in HEX that is present. -/
theorem IsState.eq_keybytesToHex (h : IsState 65 n)
    (hr : r.length = 65) (hget : tryGet n r = some u) :
    ∃ key, hexToKeybytes r = some key ∧ r = keybytesToHex key := by
  rcases h.key_eq hr hget with ⟨k, hk, rfl⟩
  have hlen : k.length = 64 := by simpa using hr
  have heven : k.length % 2 = 0 := by rw [hlen]
  rcases hexToKeybytes_concat hk heven with ⟨key, hkey, heq⟩
  exact ⟨key, hkey, heq.symm⟩

section Patch

variable {w w₁ w₂ : Bytes → Option Bytes}

theorem patch_leaf (key v : Bytes) :
    patch (.short key (.value v)) w = .short key (.value ((w key).getD v)) := by
  simp [patch]

theorem patch_ext (key : Bytes) (children : Fin 17 → Node) :
    patch (.short key (.full children)) w =
      .short key (patch (.full children) fun rest => w (key ++ rest)) := by
  simp [patch]

theorem patch_full (children : Fin 17 → Node) :
    patch (.full children) w =
      .full fun i => patch (children i) fun rest => w (UInt8.ofNat i :: rest) := by
  simp [patch]

@[simp] theorem patch_nil : patch .nil w = .nil := by
  simp [patch]

variable {n : Node} {d : ℕ}

/-- A patch that gives every key of the node the value it has changes nothing. -/
theorem IsState.patch_eq_self (h : IsState d n)
    (hw : ∀ r u, r.length = d → tryGet n r = some u → (w r).getD u = u) : patch n w = n := by
  induction h generalizing w with
  | @leaf k v hk hv =>
      have hkey : (w (k ++ [16])).getD v = v := hw _ _ (by simp) (by simp [tryGet])
      rw [patch_leaf, hkey]
  | @ext k children d hk hne hchild ih =>
      rw [patch_ext, ih]
      intro r u hr hget
      exact hw _ _ (by simp [hr]) (by simpa [tryGet] using hget)
  | @full children d hvalue hsome hchild ih =>
      rw [patch_full]
      congr 1
      funext i
      by_cases hi : children i = .nil
      · rw [hi, patch_nil]
      · apply ih i hi
        intro r u hr hget
        refine hw _ _ (by simp [hr]) ?_
        simpa [tryGet, slot_eq_some.mpr rfl] using hget

/-- Only the keys that are present matter. -/
theorem IsState.patch_congr (h : IsState d n)
    (hw : ∀ r u, r.length = d → tryGet n r = some u → w₁ r = w₂ r) : patch n w₁ = patch n w₂ := by
  induction h generalizing w₁ w₂ with
  | @leaf k v hk hv =>
      rw [patch_leaf, patch_leaf, hw (k ++ [16]) v (by simp) (by simp [tryGet])]
  | @ext k children d hk hne hchild ih =>
      rw [patch_ext, patch_ext]
      congr 1
      apply ih
      intro r u hr hget
      exact hw _ u (by simp [hr]) (tryGet_short.mpr ⟨r, rfl, hget⟩)
  | @full children d hvalue hsome hchild ih =>
      rw [patch_full, patch_full]
      congr 1
      funext i
      by_cases hi : children i = .nil
      · rw [hi, patch_nil, patch_nil]
      · apply ih i hi
        intro r u hr hget
        exact hw _ u (by simp [hr]) (tryGet_full.mpr ⟨i, r, rfl, hget⟩)

/-- A patched trie is a state trie of the same shape. -/
theorem IsState.patched (h : IsState d n)
    (hw : ∀ r v, w r = some v → IsAccount v) : IsState d (patch n w) := by
  induction h generalizing w with
  | @leaf k v hk hv =>
      rw [patch_leaf]
      apply IsState.leaf hk
      cases hnew : w (k ++ [16]) with
      | none => exact hv
      | some v' => exact hw _ _ hnew
  | @ext k children d hk hne hchild ih =>
      -- `ext` asks for a full node below, which a patch leaves full
      have hstate := ih (w := fun rest => w (k ++ rest)) fun r v => hw _ _
      rw [patch_full] at hstate
      rw [patch_ext, patch_full]
      exact .ext hk hne hstate
  | @full children d hvalue hsome hchild ih =>
      rw [patch_full]
      have hnil : ∀ i, patch (children i) (fun rest => w (UInt8.ofNat i :: rest)) ≠ .nil →
          children i ≠ .nil := by
        intro i hi hc
        rw [hc, patch_nil] at hi
        exact hi rfl
      refine .full ?_ ?_ fun i hi => ih i (hnil i hi) fun r v => hw _ _
      · show patch (children 16) _ = .nil
        rw [hvalue, patch_nil]
      · rcases hsome with ⟨i, hi⟩
        refine ⟨i, ?_⟩
        show patch (children i) _ ≠ .nil
        intro hnil'
        have hstate := ih i hi (w := fun rest => w (UInt8.ofNat i :: rest)) fun r v => hw _ _
        rw [hnil'] at hstate
        cases hstate

theorem IsState.patch_patch (h : IsState d n) :
    patch (patch n w₁) w₂ = patch n fun r => (w₂ r).or (w₁ r) := by
  induction h generalizing w₁ w₂ with
  | @leaf k v hk hv =>
      simp only [patch_leaf]
      cases w₂ (k ++ [16]) <;> rfl
  | @ext k children d hk hne hchild ih =>
      rw [patch_ext, patch_ext, ← ih, patch_full, patch_ext]
  | @full children d hvalue hsome hchild ih =>
      simp only [patch_full]
      congr 1
      funext i
      by_cases hi : children i = .nil
      · rw [hi, patch_nil, patch_nil, patch_nil]
      · exact ih i hi

/-- A value read after a patch: the new one, or the old one. -/
theorem IsState.tryGet_patch (h : IsState d n) {r u : Bytes}
    (hr : r.length = d) (hget : tryGet n r = some u) :
    tryGet (patch n w) r = some ((w r).getD u) := by
  induction h generalizing w r with
  | @leaf k v hk hv =>
      rcases (tryGet_leaf (by simpa using hr)).mp hget with ⟨rfl, rfl⟩
      rw [patch_leaf]
      exact (tryGet_leaf rfl).mpr ⟨rfl, rfl⟩
  | @ext k children d hk hne hchild ih =>
      rcases tryGet_short.mp hget with ⟨r', rfl, hval⟩
      rw [patch_ext]
      exact tryGet_short.mpr ⟨r', rfl, ih (by simpa using hr) hval⟩
  | @full children d hvalue hsome hchild ih =>
      rcases tryGet_full.mp hget with ⟨i, r', rfl, hval⟩
      rw [patch_full]
      exact tryGet_full.mpr ⟨i, r', rfl, ih i (ne_nil_of_tryGet hval) (by simpa using hr) hval⟩

/-- Writing the value that is there changes nothing. -/
theorem IsState.patch_eq_self_of_eq (h : IsState d n) {r u v : Bytes}
    (hget : tryGet n r = some u) (huv : u = v) :
    patch n (fun r' => if r' = r then some v else none) = n := by
  apply h.patch_eq_self
  intro r' u' hr' hget'
  by_cases hrr : r' = r
  · rw [hrr, hget] at hget'
    cases hget'
    simp [hrr, huv]
  · simp [hrr]

/-- A patch of a single key of a full node reaches one child. -/
theorem patch_full_single {children : Fin 17 → Node}
    (hchild : ∀ i, children i ≠ .nil → IsState d (children i)) (i : Fin 17) (r v : Bytes) :
    patch (.full children) (fun r' => if r' = UInt8.ofNat i :: r then some v else none) =
      .full (Function.update children i
        (patch (children i) fun r' => if r' = r then some v else none)) := by
  rw [patch_full]
  congr 1
  funext j
  by_cases hj : j = i
  · subst hj
    simp
  · have hne : UInt8.ofNat j ≠ UInt8.ofNat i := fun h => hj (ofNat_slot_injective h)
    rw [Function.update_of_ne hj]
    by_cases hjn : children j = .nil
    · rw [hjn, patch_nil]
    · exact (hchild j hjn).patch_eq_self fun _ _ _ _ => by simp [hne]

/-- Inserting under a key that is present replaces its value and nothing else. -/
theorem IsState.insert_of_tryGet (h : IsState d n) {r u : Bytes} (v : Bytes)
    (hr : r.length = d) (hget : tryGet n r = some u) :
    insert v n r = some (u != v, patch n fun r' => if r' = r then some v else none) := by
  induction h generalizing r with
  | @leaf k u' hk hv =>
      rcases (tryGet_leaf (by simpa using hr)).mp hget with ⟨rfl, rfl⟩
      have hins := insert_short_append v (show k ++ [16] ≠ [] by simp) (.value u) []
      rw [List.append_nil, insert] at hins
      rw [patch_leaf, hins]
      by_cases hv' : u = v
      · simp [hv']
      · simp [hv']
  | @ext k children d hk hne hchild ih =>
      rcases tryGet_short.mp hget with ⟨r', rfl, hval⟩
      rw [patch_ext, insert_short_append v hne, ih (by simpa using hr) hval]
      simp only [List.append_cancel_left_eq]
      by_cases hv : u = v
      · -- a clean insertion returns the old node
        simp [hv, hchild.patch_eq_self_of_eq hval hv]
      · simp [hv]
  | @full children d hvalue hsome hchild ih =>
      rcases tryGet_full.mp hget with ⟨i, r', rfl, hval⟩
      have hi := ne_nil_of_tryGet hval
      rw [patch_full_single hchild]
      simp only [insert, slot_eq_some.mpr rfl, ih i hi (by simpa using hr) hval,
        Option.bind_eq_bind, Option.bind_some]
      by_cases hv : u = v
      · simp [hv, (hchild i hi).patch_eq_self_of_eq hval hv]
      · simp [hv]

end Patch

/-- Overwriting accounts one after another. -/
def overwrite (root : Node) (us : List (Bytes × StateAccount)) : Option Node :=
  us.foldlM (fun root (key, acc) => tryUpdateAccount root key acc) root

/-- The values that a list of accounts gives to HEX keys. The last entry of a key counts. -/
def written : List (Bytes × StateAccount) → Bytes → Option Bytes
  | [], _ => none
  | (key, acc) :: us, r =>
      (written us r).or (if r = keybytesToHex key then encodeAccount acc else none)

theorem written_of_not_mem (h : ∀ x ∈ us, x.1 ≠ key) : written us (keybytesToHex key) = none := by
  induction us with
  | nil => rfl
  | cons x us ih =>
      have hne : keybytesToHex key ≠ keybytesToHex x.1 :=
        fun heq => h x List.mem_cons_self (keybytesToHex_injective heq).symm
      rw [written, ih fun y hy => h y (List.mem_cons_of_mem _ hy), if_neg hne]
      rfl

/-- A key with one account gets its encoding. -/
theorem written_of_mem {data : Bytes} {acc : StateAccount}
    (hmem : (key, acc) ∈ us) (huniq : ∀ x ∈ us, x.1 = key → x.2 = acc)
    (hdata : encodeAccount acc = some data) :
    written us (keybytesToHex key) = some data := by
  induction us with
  | nil => cases hmem
  | cons x us ih =>
      have huniq' : ∀ y ∈ us, y.1 = key → y.2 = acc :=
        fun y hy => huniq y (List.mem_cons_of_mem _ hy)
      rw [written, Option.or_eq_some_iff]
      -- a later entry of the key takes precedence, and has the same account
      by_cases hlater : (key, acc) ∈ us
      · exact .inl (ih hlater huniq')
      · rcases List.mem_cons.mp hmem with rfl | hmem
        · refine .inr ⟨written_of_not_mem ?_, by rw [if_pos rfl, hdata]⟩
          intro y hy hkey
          exact hlater (huniq' y hy hkey ▸ hkey ▸ hy)
        · exact absurd hmem hlater

theorem isAccount_of_written {v : Bytes}
    (h : written us r = some v) : IsAccount v := by
  induction us with
  | nil => cases h
  | cons x us ih =>
      rw [written, Option.or_eq_some_iff] at h
      rcases h with h | ⟨-, h⟩
      · exact ih h
      · split at h
        · exact ⟨x.2, h⟩
        · cases h

theorem IsState.tryUpdateAccount_eq {root : Node} (h : IsState d root)
    {acc : StateAccount} (hlen : (keybytesToHex key).length = d)
    (hget : tryGet root (keybytesToHex key) = some u) :
    tryUpdateAccount root key acc = (encodeAccount acc).map fun data =>
      patch root fun r => if r = keybytesToHex key then some data else none := by
  unfold tryUpdateAccount
  cases encodeAccount acc with
  | none => rfl
  | some data => simp [h.insert_of_tryGet data hlen hget]

/-- Overwriting accounts that are present is one patch; it fails if one of them has no
encoding. -/
theorem IsState.overwrite_eq {root : Node} (h : IsState d root)
    (hus : ∀ x ∈ us, (keybytesToHex x.1).length = d ∧ tryGet root (keybytesToHex x.1) ≠ none) :
    overwrite root us =
      if us.all fun x => (encodeAccount x.2).isSome then some (patch root (written us))
      else none := by
  induction us generalizing root with
  | nil =>
      have hself : patch root (written []) = root := h.patch_eq_self fun _ _ _ _ => rfl
      simp [overwrite, hself]
  | cons x us ih =>
      rcases x with ⟨key, acc⟩
      rcases hus _ List.mem_cons_self with ⟨hlen, hget⟩
      rcases Option.ne_none_iff_exists'.mp hget with ⟨u, hu⟩
      rw [overwrite, List.foldlM_cons]
      show (tryUpdateAccount root key acc).bind _ = _
      rw [h.tryUpdateAccount_eq hlen hu]
      cases hdata : encodeAccount acc with
      | none => simp [hdata]
      | some data =>
          rw [Option.map_some, Option.bind_some]
          have hstate : IsState d (patch root fun r => if r = keybytesToHex key then
              some data else none) := by
            apply h.patched
            intro r v hv
            split at hv
            · cases hv
              exact ⟨acc, hdata⟩
            · cases hv
          -- the keys that are still to come are present in the patched trie
          have hrest := ih hstate fun y hy => by
            rcases hus y (List.mem_cons_of_mem _ hy) with ⟨hylen, hyget⟩
            rcases Option.ne_none_iff_exists'.mp hyget with ⟨u', hu'⟩
            refine ⟨hylen, ?_⟩
            rw [h.tryGet_patch hylen hu']
            simp
          rw [overwrite] at hrest
          rw [hrest, h.patch_patch, List.all_cons, hdata, Option.isSome_some, Bool.true_and]
          simp only [written, hdata]

/-! ## The nodes of a trie -/

@[simp] theorem proofNodes_nil (n : Node) : proofNodes n [] = some [] := by
  cases n <;> rfl

theorem proofNodes_short_append {k : Bytes} (hne : k ≠ []) (val : Node) (r : Bytes) :
    proofNodes (.short k val) (k ++ r) = (proofNodes val r).map (.short k val :: ·) := by
  rcases List.exists_cons_of_ne_nil hne with ⟨x, k, rfl⟩
  have htake : (x :: k ++ r).take (x :: k).length = x :: k := List.take_left
  have hdrop : (x :: k ++ r).drop (x :: k).length = r := List.drop_left
  rw [List.cons_append] at htake hdrop ⊢
  rw [proofNodes, if_pos htake, hdrop]
  cases proofNodes val r <;> rfl

theorem proofNodes_full (children : Fin 17 → Node) (i : Fin 17) (r : Bytes) :
    proofNodes (.full children) (UInt8.ofNat i :: r) =
      (proofNodes (children i) r).map (.full children :: ·) := by
  rw [proofNodes, slot_eq_some.mpr rfl]
  show (proofNodes (children i) r).bind _ = _
  cases proofNodes (children i) r <;> rfl

/-- The nodes of a trie that have a stored form of their own, with the root first. -/
def subnodes : Node → List Node
  | .short key val => .short key val :: subnodes val
  | .full children => .full children :: (List.finRange 17).flatMap fun i => subnodes (children i)
  | _ => []

theorem IsState.mem_subnodes (h : IsState d n) : n ∈ subnodes n := by
  cases h <;> exact List.mem_cons_self

/-- The nodes below a state node are state nodes. -/
theorem IsState.of_mem_subnodes {m : Node} (h : IsState d n) (hm : m ∈ subnodes n) :
    ∃ d', IsState d' m := by
  induction h with
  | @leaf k v hk hv =>
      rcases List.mem_cons.mp hm with rfl | hm
      · exact ⟨_, .leaf hk hv⟩
      · cases hm
  | @ext k children d hk hne hchild ih =>
      rcases List.mem_cons.mp hm with rfl | hm
      · exact ⟨_, .ext hk hne hchild⟩
      · exact ih hm
  | @full children d hvalue hsome hchild ih =>
      rcases List.mem_cons.mp hm with rfl | hm
      · exact ⟨_, .full hvalue hsome hchild⟩
      · rcases List.mem_flatMap.mp hm with ⟨i, -, hi⟩
        by_cases hnil : children i = .nil
        · rw [hnil] at hi
          cases hi
        · exact ih i hnil hi

/-- The proof of a key that is present consists of nodes of the trie. -/
theorem IsState.proofNodes_spec (h : IsState d n)
    (hr : r.length = d) (hget : tryGet n r = some u) :
    ∃ nodes, proofNodes n r = some nodes ∧ ∀ m ∈ nodes, m ∈ subnodes n := by
  induction h generalizing r with
  | @leaf k v hk hv =>
      rcases (tryGet_leaf (by simpa using hr)).mp hget with ⟨rfl, -⟩
      have hproof := proofNodes_short_append (show k ++ [16] ≠ [] by simp) (.value v) []
      rw [List.append_nil, proofNodes_nil] at hproof
      exact ⟨_, hproof, fun m hm => by simpa [subnodes] using hm⟩
  | @ext k children d hk hne hchild ih =>
      rcases tryGet_short.mp hget with ⟨r', rfl, hval⟩
      rcases ih (by simpa using hr) hval with ⟨nodes, hnodes, hmem⟩
      rw [proofNodes_short_append hne, hnodes]
      refine ⟨_, rfl, ?_⟩
      intro m hm
      rcases List.mem_cons.mp hm with rfl | hm
      · exact List.mem_cons_self
      · exact List.mem_cons_of_mem _ (hmem m hm)
  | @full children d hvalue hsome hchild ih =>
      rcases tryGet_full.mp hget with ⟨i, r', rfl, hval⟩
      rcases ih i (ne_nil_of_tryGet hval) (by simpa using hr) hval with ⟨nodes, hnodes, hmem⟩
      rw [proofNodes_full, hnodes]
      refine ⟨_, rfl, ?_⟩
      intro m hm
      rcases List.mem_cons.mp hm with rfl | hm
      · exact List.mem_cons_self
      · apply List.mem_cons_of_mem
        exact List.mem_flatMap.mpr ⟨i, List.mem_finRange i, hmem m hm⟩

/-- The first node of a proof is the node it starts at. -/
theorem IsState.mem_proofNodes (h : IsState d n)
    (hget : tryGet n r = some u) {nodes : List Node} (hnodes : proofNodes n r = some nodes) :
    n ∈ nodes := by
  cases h with
  | @leaf k v hk hv =>
      rcases tryGet_short.mp hget with ⟨r', rfl, -⟩
      rw [proofNodes_short_append (by simp), Option.map_eq_some_iff] at hnodes
      rcases hnodes with ⟨rest, -, rfl⟩
      exact List.mem_cons_self
  | @ext k children d hk hne hchild =>
      rcases tryGet_short.mp hget with ⟨r', rfl, -⟩
      rw [proofNodes_short_append hne, Option.map_eq_some_iff] at hnodes
      rcases hnodes with ⟨rest, -, rfl⟩
      exact List.mem_cons_self
  | @full children d hvalue hsome hchild =>
      rcases tryGet_full.mp hget with ⟨i, r', rfl, -⟩
      rw [proofNodes_full, Option.map_eq_some_iff] at hnodes
      rcases hnodes with ⟨rest, -, rfl⟩
      exact List.mem_cons_self

/-- `Prove` for a key that is present: no node of the path is left out. -/
theorem IsState.prove_eq (keccak : Bytes → Hash) {root : Node} (h : IsState d root)
    (hlen : (keybytesToHex key).length = d)
    (hget : tryGet root (keybytesToHex key) = some u) :
    ∃ nodes, proofNodes root (keybytesToHex key) = some nodes ∧
      (∀ m ∈ nodes, m ∈ subnodes root) ∧
      prove keccak root key = some (nodes.map (enc keccak)) := by
  rcases h.proofNodes_spec hlen hget with ⟨nodes, hnodes, hmem⟩
  refine ⟨nodes, hnodes, hmem, ?_⟩
  -- a node of a state trie is too long to be embedded
  have hall : ∀ x ∈ nodes.zipIdx, (if 32 ≤ (enc keccak x.1).length ∨ x.2 = 0 then
      some (enc keccak x.1) else none) = some (enc keccak x.1) := by
    rintro ⟨m, i⟩ hx
    rcases h.of_mem_subnodes (hmem m (List.fst_mem_of_mem_zipIdx hx)) with ⟨d', hm⟩
    rw [if_pos (Or.inl hm.le_length_enc)]
  have hlist : nodes.zipIdx.map (fun x => enc keccak x.1) = nodes.map (enc keccak) := by
    conv_rhs => rw [← List.zipIdx_map_fst 0 nodes, List.map_map]
    rfl
  rw [prove, hnodes]
  show some _ = some _
  rw [← hlist, ← List.filterMap_eq_map]
  congr 1
  exact List.filterMap_congr hall

end Trie

end LessChain
