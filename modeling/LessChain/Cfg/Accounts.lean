import Mathlib.Data.List.Dedup
import Mathlib.Data.List.Nodup
import Mathlib.Data.Fintype.EquivFin
import LessChain.Lib.Order

/-!
# Accounts on the beacon chain

Every node signs its transactions on the beacon chain with a key of its own, which it looks up
by its address (`cfg/account.go`, `GetGethChainPrivateKey`). Each process makes the table of
keys itself, on the first call: it lists the addresses of `NodeTable` and the keys of a file,
and gives the `i`-th address the `i`-th key. Both lists come from walking Go maps, and a
process walks a map in an order of its own.

So two processes agree on the keys exactly when the two walks of one are the walks of the
other rearranged by one and the same permutation: `sameKeys_iff`.
-/

namespace LessChain.Cfg

/-- `NodeTable`: for each shard the addresses of its nodes. No two nodes have the same
address. -/
structure NodeTable where
  shards : List (ℕ × List (ℕ × String))
  ids_nodup : (shards.map Prod.fst).Nodup
  addrs_nodup : (shards.flatMap fun e => e.2.map Prod.snd).Nodup

/-- The addresses of all nodes. -/
def NodeTable.addrs (table : NodeTable) : List String :=
  table.shards.flatMap fun e => e.2.map Prod.snd

/-- The orders in which a process walks `NodeTable`, the table of each shard and the map in
the file of keys. -/
structure Walks where
  table : Sys.Order
  shard : ℕ → Sys.Order
  file : Sys.Order

/-- `getAllAddrs`. -/
def getAllAddrs (w : Walks) (table : NodeTable) : List String :=
  (w.table.iter table.shards).flatMap fun e => ((w.shard e.1).iter e.2).map Prod.snd

/-- `getAllPrivateKey`, on what the file holds. -/
def getAllPrivateKey (w : Walks) (file : List (String × String)) : List String :=
  (w.file.iter file).map Prod.snd

/-- Loop of `GetGethChainPrivateKey`; none where the index is out of range. The last entry
made for an address is found first. -/
def assignKeys : List String → List String → List (String × String) →
    Option (List (String × String))
  | [], _, gethChainPriKeys => some gethChainPriKeys
  | _ :: _, [], _ => none
  | addr :: addrs, key :: keys, gethChainPriKeys =>
      assignKeys addrs keys ((addr, key) :: gethChainPriKeys)

/-- `GetGethChainPrivateKey`, with the variable `gethChainPriKeys` of the process before and
after. -/
def getGethChainPrivateKey (w : Walks) (table : NodeTable) (file : List (String × String))
    (gethChainPriKeys : Option (List (String × String))) (nodeAddr : String) :
    Option (String × Option (List (String × String))) := do
  let keys ← match gethChainPriKeys with
    | some keys => some keys
    | none => assignKeys (getAllAddrs w table) (getAllPrivateKey w file) []
  return ((keys.lookup nodeAddr).getD "", some keys)

/-- `gethChainPriKeys` after a process has asked for the keys of some addresses. -/
def afterCalls (w : Walks) (table : NodeTable) (file : List (String × String))
    (earlier : List String) : Option (Option (List (String × String))) :=
  earlier.foldlM (fun keys addr => (getGethChainPrivateKey w table file keys addr).map Prod.snd)
    none

/-- The key a process gets for an address after some other calls. -/
def keyOf (w : Walks) (table : NodeTable) (file : List (String × String))
    (earlier : List String) (nodeAddr : String) : Option String := do
  let keys ← afterCalls w table file earlier
  let r ← getGethChainPrivateKey w table file keys nodeAddr
  return r.1

section Walks

variable (w : Walks) (table : NodeTable) (file : List (String × String))

theorem getAllAddrs_perm :
    (getAllAddrs w table).Perm table.addrs := by
  refine (List.Perm.flatMap_right _ (w.table.perm _)).trans ?_
  refine List.Perm.flatMap_left _ fun e _ => ?_
  exact ((w.shard e.1).perm e.2).map Prod.snd

theorem getAllAddrs_nodup : (getAllAddrs w table).Nodup :=
  (getAllAddrs_perm w table).nodup_iff.mpr table.addrs_nodup

theorem length_getAllAddrs : (getAllAddrs w table).length = table.addrs.length :=
  (getAllAddrs_perm w table).length_eq

theorem length_getAllPrivateKey : (getAllPrivateKey w file).length = file.length := by
  simp [getAllPrivateKey, (w.file.perm file).length_eq]

/-- With enough keys every address gets the key at its place. -/
theorem assignKeys_spec {addrs keys : List String} (hnodup : addrs.Nodup)
    (hlen : addrs.length ≤ keys.length) (m : List (String × String)) :
    ∃ m', assignKeys addrs keys m = some m' ∧
      (∀ i (hi : i < addrs.length), m'.lookup addrs[i] = keys[i]?) ∧
      ∀ a, a ∉ addrs → m'.lookup a = m.lookup a := by
  induction addrs generalizing keys m with
  | nil => exact ⟨m, rfl, by simp, fun _ _ => rfl⟩
  | cons addr addrs ih =>
      cases keys with
      | nil => simp at hlen
      | cons key keys =>
          obtain ⟨hfresh, hrest⟩ := List.nodup_cons.mp hnodup
          rcases ih hrest (by simpa using hlen) ((addr, key) :: m) with ⟨m', hm', hin, hout⟩
          refine ⟨m', hm', ?_, ?_⟩
          · intro i hi
            cases i with
            -- later rounds are for other addresses
            | zero => simp [hout addr hfresh]
            | succ i => simpa using hin i (by simpa using hi)
          · intro a ha
            rw [List.mem_cons, not_or] at ha
            rw [hout a ha.2, List.lookup_cons, beq_eq_false_iff_ne.mpr ha.1]

variable {table file}

/-- In a process that has enough keys, every call gives an address the key at its place. -/
theorem keyOf_getElem (hlen : table.addrs.length ≤ file.length)
    (earlier : List String) (i : ℕ) (hi : i < (getAllAddrs w table).length) :
    keyOf w table file earlier (getAllAddrs w table)[i] = (getAllPrivateKey w file)[i]? := by
  rw [← length_getAllAddrs w] at hlen
  have hkeys : i < (getAllPrivateKey w file).length := by
    rw [length_getAllPrivateKey]
    omega
  rcases assignKeys_spec (getAllAddrs_nodup w table)
    (hlen.trans (length_getAllPrivateKey w file).ge) [] with ⟨m, hm, hin, -⟩
  -- the table is made once, and never changed
  have hcalls : afterCalls w table file earlier = some none ∨
      afterCalls w table file earlier = some (some m) := by
    induction earlier using List.reverseRecOn with
    | nil => exact .inl rfl
    | append_singleton earlier addr ih =>
        right
        rw [afterCalls, List.foldlM_append, ← afterCalls]
        rcases ih with ih | ih
        · simp [ih, getGethChainPrivateKey, hm]
        · simp [ih, getGethChainPrivateKey]
  rcases hcalls with h | h
  · simp [keyOf, h, getGethChainPrivateKey, hm, hin i hi, hkeys]
  · simp [keyOf, h, getGethChainPrivateKey, hin i hi, hkeys]

end Walks

/-- Two processes get the same key for each address, at any time, and different keys for
different addresses. -/
def SameKeys (w₁ w₂ : Walks) (table : NodeTable) (file : List (String × String)) : Prop :=
  (∀ earlier₁ earlier₂, ∀ addr ∈ table.addrs, ∃ key,
    keyOf w₁ table file earlier₁ addr = some key ∧
      keyOf w₂ table file earlier₂ addr = some key) ∧
  ∀ earlier₁ earlier₂, ∀ addr₁ ∈ table.addrs, ∀ addr₂ ∈ table.addrs, addr₁ ≠ addr₂ →
    keyOf w₁ table file earlier₁ addr₁ ≠ keyOf w₂ table file earlier₂ addr₂

/-- The walks of the second process are those of the first, both rearranged by the same
permutation of the places, and the keys that are given out are pairwise different. -/
def MoveTogether (w₁ w₂ : Walks) (table : NodeTable) (file : List (String × String)) : Prop :=
  ((getAllPrivateKey w₁ file).take (getAllAddrs w₁ table).length).Nodup ∧
  ∃ σ : Equiv.Perm (Fin (getAllAddrs w₁ table).length),
    ∀ i : Fin (getAllAddrs w₁ table).length,
      (getAllAddrs w₂ table)[(σ i : ℕ)]? = (getAllAddrs w₁ table)[(i : ℕ)]? ∧
        (getAllPrivateKey w₂ file)[(σ i : ℕ)]? = (getAllPrivateKey w₁ file)[(i : ℕ)]?

section Agreement

variable {w₁ w₂ : Walks} {table : NodeTable} {file : List (String × String)}

theorem exists_place (w : Walks) {addr : String} (h : addr ∈ table.addrs) :
    ∃ i, ∃ hi : i < (getAllAddrs w table).length, (getAllAddrs w table)[i] = addr :=
  List.getElem_of_mem ((getAllAddrs_perm w table).mem_iff.mpr h)

theorem getElem_mem_addrs (w : Walks) {i : ℕ} (hi : i < (getAllAddrs w table).length) :
    (getAllAddrs w table)[i] ∈ table.addrs :=
  (getAllAddrs_perm w table).mem_iff.mp (List.getElem_mem hi)

/-- The second process gives the address at place `i` of the first one's walk the key at the
place to which the address moves. -/
theorem keyOf_moved (hlen : table.addrs.length ≤ file.length) {i j : ℕ}
    (hi : i < (getAllAddrs w₁ table).length)
    (hmove : (getAllAddrs w₂ table)[j]? = (getAllAddrs w₁ table)[i]?) (earlier : List String) :
    keyOf w₂ table file earlier (getAllAddrs w₁ table)[i] = (getAllPrivateKey w₂ file)[j]? := by
  rw [List.getElem?_eq_getElem hi] at hmove
  obtain ⟨hj, haddr⟩ := List.getElem?_eq_some_iff.mp hmove
  rw [← haddr]
  exact keyOf_getElem w₂ hlen earlier j hj

/-- Different places among those that get an address hold different keys. -/
theorem getElem_ne_of_nodup
    (h : ((getAllPrivateKey w₁ file).take (getAllAddrs w₁ table).length).Nodup)
    (hlen : table.addrs.length ≤ file.length) {i j : ℕ}
    (hi : i < (getAllAddrs w₁ table).length) (hj : j < (getAllAddrs w₁ table).length)
    (hij : i ≠ j) : (getAllPrivateKey w₁ file)[i]? ≠ (getAllPrivateKey w₁ file)[j]? := by
  intro heq
  rw [← length_getAllAddrs w₁, ← length_getAllPrivateKey w₁] at hlen
  rw [← List.getElem?_take_of_lt hi, ← List.getElem?_take_of_lt hj] at heq
  refine hij ((List.getElem?_inj ?_ h).mp heq)
  rw [List.length_take]
  omega

/-- Places that get an address in the first process hold different keys, if the two agree. -/
theorem SameKeys.nodup (hlen : table.addrs.length ≤ file.length)
    (h : SameKeys w₁ w₂ table file) :
    ((getAllPrivateKey w₁ file).take (getAllAddrs w₁ table).length).Nodup := by
  rw [List.nodup_iff_getElem?_ne_getElem?]
  intro i j hij hj heq
  rw [List.length_take] at hj
  have hi₁ : i < (getAllAddrs w₁ table).length := by omega
  have hj₁ : j < (getAllAddrs w₁ table).length := by omega
  rw [List.getElem?_take_of_lt hi₁, List.getElem?_take_of_lt hj₁,
    ← keyOf_getElem w₁ hlen [] i hi₁, ← keyOf_getElem w₁ hlen [] j hj₁] at heq
  -- the second process would give the address at `j` the key of the address at `i`
  rcases h.1 [] [] _ (getElem_mem_addrs w₁ hj₁) with ⟨key, hkey₁, hkey₂⟩
  refine h.2 [] [] _ (getElem_mem_addrs w₁ hi₁) _ (getElem_mem_addrs w₁ hj₁) ?_
    (heq.trans (hkey₁.trans hkey₂.symm))
  intro haddr
  have hplace := (getAllAddrs_nodup w₁ table).getElem_inj_iff.mp haddr
  omega

/-- With as many different keys as there are addresses, two processes agree on the keys, and
no two nodes have the same one, exactly when the walks of the two move together. -/
theorem sameKeys_iff (w₁ w₂ : Walks) (table : NodeTable) (file : List (String × String))
    (hkeys : table.addrs.length ≤ (file.map Prod.snd).dedup.length) :
    SameKeys w₁ w₂ table file ↔ MoveTogether w₁ w₂ table file := by
  have hlen : table.addrs.length ≤ file.length := by
    have := (List.dedup_sublist (file.map Prod.snd)).length_le
    rw [List.length_map] at this
    omega
  constructor
  · intro hsame
    -- the addresses move by some permutation, and the keys must move with them
    rcases Sys.exists_rearrangement (getAllAddrs_nodup w₁ table)
      ((getAllAddrs_perm w₁ table).trans (getAllAddrs_perm w₂ table).symm) with ⟨σ, hσ⟩
    refine ⟨hsame.nodup hlen, σ, fun i => ⟨hσ i, ?_⟩⟩
    rcases hsame.1 [] [] _ (getElem_mem_addrs w₁ i.isLt) with ⟨key, hkey₁, hkey₂⟩
    rw [← keyOf_moved hlen i.isLt (hσ i) [], ← keyOf_getElem w₁ hlen [] i i.isLt, hkey₁, hkey₂]
  · rintro ⟨hnodup, σ, hσ⟩
    -- both processes give an address the key at its place in the first one's walk
    have hkey₂ : ∀ earlier i (hi : i < (getAllAddrs w₁ table).length),
        keyOf w₂ table file earlier (getAllAddrs w₁ table)[i] =
          (getAllPrivateKey w₁ file)[i]? := by
      intro earlier i hi
      rw [keyOf_moved hlen hi (hσ ⟨i, hi⟩).1, (hσ ⟨i, hi⟩).2]
    refine ⟨?_, ?_⟩
    · intro earlier₁ earlier₂ addr haddr
      rcases exists_place w₁ haddr with ⟨i, hi, rfl⟩
      have hin : i < (getAllPrivateKey w₁ file).length := by
        rw [length_getAllPrivateKey]
        rw [length_getAllAddrs] at hi
        omega
      refine ⟨(getAllPrivateKey w₁ file)[i], ?_, ?_⟩
      · rw [keyOf_getElem w₁ hlen, List.getElem?_eq_getElem hin]
      · rw [hkey₂, List.getElem?_eq_getElem hin]
    · intro earlier₁ earlier₂ addr₁ haddr₁ addr₂ haddr₂ hne
      rcases exists_place w₁ haddr₁ with ⟨i, hi, rfl⟩
      rcases exists_place w₁ haddr₂ with ⟨j, hj, rfl⟩
      rw [keyOf_getElem w₁ hlen, hkey₂]
      refine getElem_ne_of_nodup hnodup hlen hi hj ?_
      rintro rfl
      exact hne rfl

/-- Backwards and forwards, where there are as many keys as addresses. -/
theorem moveTogether_of_reverse
    (haddrs : getAllAddrs w₂ table = (getAllAddrs w₁ table).reverse)
    (hkeys : getAllPrivateKey w₂ file = (getAllPrivateKey w₁ file).reverse)
    (hsize : (getAllAddrs w₁ table).length = file.length)
    (hnodup : (file.map Prod.snd).Nodup) : MoveTogether w₁ w₂ table file := by
  have hfile : (getAllPrivateKey w₁ file).Nodup :=
    ((w₁.file.perm file).map Prod.snd).nodup_iff.mpr hnodup
  have hlen := length_getAllPrivateKey w₁ file
  refine ⟨hfile.sublist (List.take_sublist _ _), Fin.revPerm, fun i => ?_⟩
  have hback : (getAllAddrs w₁ table).length - 1 - i.rev.val = i.val := by
    rw [Fin.val_rev]
    omega
  rw [haddrs, hkeys, Fin.revPerm_apply, List.getElem?_reverse i.rev.isLt,
    List.getElem?_reverse (by omega), hlen, ← hsize, hback]
  exact ⟨rfl, rfl⟩

end Agreement

/-! ## The table of the program -/

/-- The hosts the nodes of the first eight shards run on (`cfg/node.go`). -/
def hosts : List String :=
  ["192.168.3.3", "192.168.3.4", "192.168.3.5", "192.168.3.6", "192.168.3.7", "192.168.3.8",
    "192.168.3.9", "192.168.3.10"]

/-- The address of node `j` of shard `i`: the hosts are used again for each eight shards, with
ports that start twenty higher. -/
def nodeAddr (i j : ℕ) : String :=
  hosts.getD (i % 8) "" ++ (":" ++ (20000 + 20 * (i / 8) + j).repr)

theorem append_colon_inj {h₁ h₂ : List Char} (hcolon₁ : ':' ∉ h₁) (hcolon₂ : ':' ∉ h₂)
    {p₁ p₂ : List Char} (h : h₁ ++ ':' :: p₁ = h₂ ++ ':' :: p₂) : h₁ = h₂ ∧ p₁ = p₂ := by
  have htake : ∀ {g p : List Char}, ':' ∉ g → (g ++ ':' :: p).takeWhile (· ≠ ':') = g := by
    intro g p hg
    rw [List.takeWhile_append_of_pos (by
      intro c hc
      rw [decide_eq_true_eq]
      rintro rfl
      exact hg hc)]
    simp
  have hhosts : h₁ = h₂ := by rw [← htake hcolon₁ (p := p₁), h, htake hcolon₂]
  rw [hhosts, List.append_cancel_left_eq] at h
  exact ⟨hhosts, (List.cons.inj h).2⟩

theorem nodeAddr_inj {i j i' j' : ℕ} (hj : j < 20) (hj' : j' < 20)
    (h : nodeAddr i j = nodeAddr i' j') : i = i' ∧ j = j' := by
  have hcolon : ∀ k < 8, ':' ∉ (hosts.getD k "").toList := by decide
  have hhost : ∀ k < 8, ∀ k' < 8,
      (hosts.getD k "").toList = (hosts.getD k' "").toList → k = k' := by decide
  have hlt : i % 8 < 8 := Nat.mod_lt i (by decide)
  have hlt' : i' % 8 < 8 := Nat.mod_lt i' (by decide)
  have hlists := congrArg String.toList h
  simp only [nodeAddr, String.toList_append] at hlists
  rcases append_colon_inj (hcolon _ hlt) (hcolon _ hlt') hlists with ⟨hhosts, hports⟩
  have hmod := hhost _ hlt _ hlt' hhosts
  have hport : 20000 + 20 * (i / 8) + j = 20000 + 20 * (i' / 8) + j' := by
    have := congrArg (fun digits => Nat.ofDigitChars 10 digits 0) hports
    simpa using this
  omega

/-- `NodeTable` as the `init` function of the package makes it. -/
def NodeTable.init : NodeTable where
  shards := (List.range 32).map fun i => (i, (List.range 20).map fun j => (j, nodeAddr i j))
  ids_nodup := by simpa [Function.comp_def] using List.nodup_range
  addrs_nodup := by
    simp only [List.flatMap_map, List.map_map]
    rw [List.nodup_flatMap]
    refine ⟨fun i _ => ?_, ?_⟩
    · refine List.Nodup.map_on ?_ List.nodup_range
      intro j hj j' hj' h
      exact (nodeAddr_inj (List.mem_range.mp hj) (List.mem_range.mp hj') h).2
    · refine List.nodup_range.imp fun {i i'} hne => ?_
      intro addr haddr haddr'
      obtain ⟨j, hj, rfl⟩ := List.mem_map.mp haddr
      obtain ⟨j', hj', h⟩ := List.mem_map.mp haddr'
      exact hne (nodeAddr_inj (List.mem_range.mp hj') (List.mem_range.mp hj) h).1.symm

theorem nodeAddr_mem {i j : ℕ} (hi : i < 32) (hj : j < 20) :
    nodeAddr i j ∈ NodeTable.init.addrs := by
  simp only [NodeTable.addrs, NodeTable.init, List.flatMap_map, List.map_map, List.mem_flatMap,
    List.mem_map, List.mem_range]
  exact ⟨i, hi, j, hj, rfl⟩

/-- A file with as many different keys as there are nodes. -/
def keyFile : List (String × String) :=
  (List.range 640).map fun i => (i.repr, i.repr)

theorem nodup_keyFile : (keyFile.map Prod.snd).Nodup := by
  rw [keyFile, List.map_map]
  refine List.nodup_range.map fun i j h => ?_
  have := congrArg (fun key => Nat.ofDigitChars 10 key.toList 0) h
  simpa using this

theorem length_addrs_le : NodeTable.init.addrs.length ≤ (keyFile.map Prod.snd).dedup.length := by
  rw [nodup_keyFile.dedup]
  decide +kernel

/-- A process that walks every map as it is listed. -/
def Walks.listed : Walks := ⟨.listed, fun _ => .listed, .listed⟩

/-- A process that walks every map backwards. -/
def Walks.backwards : Walks := ⟨.backwards, fun _ => .backwards, .backwards⟩

theorem getAllAddrs_backwards {table : NodeTable} :
    getAllAddrs .backwards table = (getAllAddrs .listed table).reverse := by
  simp [getAllAddrs, Walks.backwards, Walks.listed, Sys.Order.backwards, Sys.Order.listed,
    List.reverse_flatMap, Function.comp_def]

theorem getAllPrivateKey_backwards {file : List (String × String)} :
    getAllPrivateKey .backwards file = (getAllPrivateKey .listed file).reverse :=
  List.map_reverse

/-- A process that walks only the file of keys backwards. -/
def Walks.keysBackwards : Walks := ⟨.listed, fun _ => .listed, .backwards⟩

/-- Where everything is walked backwards, addresses and keys move together. -/
theorem sameKeys_backwards : SameKeys .listed .backwards .init keyFile := by
  have hsize : (getAllAddrs .listed .init).length = keyFile.length := by decide +kernel
  refine (sameKeys_iff .listed .backwards .init keyFile length_addrs_le).mpr ?_
  exact moveTogether_of_reverse getAllAddrs_backwards getAllPrivateKey_backwards hsize
    nodup_keyFile

/-- Two processes that walk only the file of keys in different orders give one node different
keys, and two nodes the same one. -/
theorem not_sameKeys_keysBackwards :
    NodeTable.init.addrs.length ≤ (keyFile.map Prod.snd).dedup.length ∧
    keyOf .listed .init keyFile [] (nodeAddr 31 19) = some "639" ∧
    keyOf .keysBackwards .init keyFile [] (nodeAddr 31 19) = some "0" ∧
    keyOf .keysBackwards .init keyFile [] (nodeAddr 0 0) = some "639" ∧
    ¬ SameKeys .listed .keysBackwards .init keyFile := by
  have hlast : keyOf .listed .init keyFile [] (nodeAddr 31 19) = some "639" := by
    decide +kernel
  have hlast' : keyOf .keysBackwards .init keyFile [] (nodeAddr 31 19) = some "0" := by
    decide +kernel
  have hfirst : keyOf .keysBackwards .init keyFile [] (nodeAddr 0 0) = some "639" :=
    (keyOf_getElem .keysBackwards (by decide +kernel) [] 0 (by decide +kernel)).trans
      (by decide +kernel)
  refine ⟨length_addrs_le, hlast, hlast', hfirst, fun h => ?_⟩
  have hmem : nodeAddr 31 19 ∈ NodeTable.init.addrs := nodeAddr_mem (by decide) (by decide)
  rcases h.1 [] [] _ hmem with ⟨key, hkey, hkey'⟩
  rw [hlast] at hkey
  rw [hlast', ← hkey] at hkey'
  revert hkey'
  decide

end LessChain.Cfg
