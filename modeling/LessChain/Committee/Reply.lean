import LessChain.Committee.Commit
import LessChain.Committee.ProofWalk

/-!
# Replies of an untrusted shard

`getStatusFromShard` checks the Merkle proof of each account that a reply holds. It does not
ask whether these are the accounts of the request, and `VerifyProof` looks at those elements
of a proof only that are on the path. The rest of `commit` relies on more: it reads every
requested account, decodes every element, and walks over all nodes it can reach from the
root. `usable_iff` says what a reply must be like. The walk may come to a full node more than
once (`walk_twins`). A short node is spoiled when it comes to it first, and there the condition
is only sufficient.
-/

namespace LessChain

open Trie

namespace Reply

/-! ## What a reply holds -/

/-- The elements of the proofs, in the order in which `analyseStates` reads them. -/
def elements (accountData : List (Address × Bytes)) (accountsProofs : Address → List Bytes) :
    List Bytes :=
  accountData.flatMap fun x => accountsProofs x.1

/-- An account more. -/
def putAccount (m : Address → Option StateAccount) (x : Address × Bytes) :
    Address → Option StateAccount :=
  Function.update m x.1 (decodeAccount x.2)

/-- The accounts of a reply. -/
def accounts (accountData : List (Address × Bytes)) : Address → Option StateAccount :=
  accountData.foldl putAccount fun _ => none

/-- The nodes that the elements are, by their hashes. Of elements with the same hash only the
first is decoded. -/
def tableOf (keccak : Bytes → Hash) (es : List Bytes) : Hash2Node := fun hash =>
  (es.find? fun e => (keccak e).bytes = hash).bind mustDecodeNode

/-- All elements are nodes. -/
def Decodes (keccak : Bytes → Hash) (es : List Bytes) : Prop :=
  ∀ e ∈ es, (tableOf keccak es (keccak e).bytes).isSome

instance (keccak : Bytes → Hash) (es : List Bytes) : Decidable (Decodes keccak es) :=
  inferInstanceAs (Decidable (∀ _ ∈ _, _))

/-- No balance is negative after any number of the transactions. -/
def NeverNegative (accountData : List (Address × Bytes)) (txs : List Transaction) : Prop :=
  ∀ k < txs.length + 1, ∀ x ∈ accountData, ∀ acc ∈ decodeAccount x.2,
    0 ≤ (effects (txs.take k) x.1 acc).balance

instance (accountData : List (Address × Bytes)) (txs : List Transaction) :
    Decidable (NeverNegative accountData txs) :=
  inferInstanceAs (Decidable (∀ _ < _, ∀ _ ∈ _, ∀ _ ∈ _, _))

/-! ## The property -/

/-- What an accepted reply should be good for. -/
structure Usable (keccak : Bytes → Hash) (addrs : List Address) (txs : List Transaction)
    (r : ShardSendState) : Prop where
  proven : ∀ a ∈ addrs, ∃ data, (a, data) ∈ r.accountData ∧
    verifyProof keccak r.statusTrieHash (addrKey keccak a) (r.accountsProofs a) = some data
  completes : NeverNegative r.accountData txs → ∀ comID parentHeight,
    ∃ fuel, (Worker.commitStates keccak fuel comID parentHeight txs r).isSome

/-- The table that `analyseStates` makes of a reply. -/
def table (keccak : Bytes → Hash) (r : ShardSendState) : Hash2Node :=
  tableOf keccak (elements r.accountData r.accountsProofs)

/-- What the walk of `rebuildTrie` has made of a full node when it comes to it again. -/
def remade (keccak : Bytes → Hash) (r : ShardSendState) (fuel : ℕ) (x : Met) : Node :=
  renew (newHash keccak (table keccak r) fuel) x.node

/-- The nodes that the walk of `rebuildTrie` finds in a reply, if it comes to no short node
twice. A full node that it comes to twice has a new hash by then, with which no element of the
reply may collide. -/
structure Walk (keccak : Bytes → Hash) (r : ShardSendState) (fuel : ℕ) (l : List Met) : Prop where
  nodes : met (table keccak r) fuel [] r.statusTrieHash.bytes = some l
  once : (hashesOf (l.filter fun x => !isFull x.node)).Nodup
  collision : ∀ x ∈ l, 2 ≤ (hashesOf l).count x.hash →
    ∀ e ∈ elements r.accountData r.accountsProofs,
      keccak e = keccak (remade keccak r fuel x).encode → e = (remade keccak r fuel x).encode

/-- What the reply must be like. -/
structure WellFormed (keccak : Bytes → Hash) (addrs : List Address) (txs : List Transaction)
    (r : ShardSendState) : Prop where
  complete : ∀ a ∈ addrs, a ∈ r.accountData.map Prod.fst
  data : NeverNegative r.accountData txs → ∀ x ∈ r.accountData, (decodeAccount x.2).isSome
  proofs : NeverNegative r.accountData txs →
    Decodes keccak (elements r.accountData r.accountsProofs)
  shapes : NeverNegative r.accountData txs →
    ∃ fuel l, Walk keccak r fuel l ∧ ∀ x ∈ l, x.wellShaped = true

/-! ## `analyseStates` -/

section Analyse

variable {keccak : Bytes → Hash} {es : List Bytes}

theorem tableOf_append (es fs : List Bytes) (hash : Bytes) :
    tableOf keccak (es ++ fs) hash =
      ((es.find? fun e => (keccak e).bytes = hash).or
        (fs.find? fun e => (keccak e).bytes = hash)).bind mustDecodeNode := by
  rw [tableOf, List.find?_append]

/-- An element that has come before decides. -/
theorem tableOf_append_of_mem {e : Bytes} (he : e ∈ es) (fs : List Bytes) :
    tableOf keccak (es ++ fs) (keccak e).bytes = tableOf keccak es (keccak e).bytes := by
  have hsome : (es.find? fun e' => (keccak e').bytes = (keccak e).bytes).isSome := by
    rw [List.find?_isSome]
    exact ⟨e, he, by simp⟩
  obtain ⟨e', he'⟩ := Option.isSome_iff_exists.mp hsome
  rw [tableOf_append, tableOf, he']
  rfl

theorem decodes_append_single {e : Bytes} : Decodes keccak (es ++ [e]) ↔
    Decodes keccak es ∧ (tableOf keccak (es ++ [e]) (keccak e).bytes).isSome := by
  constructor
  · intro h
    refine ⟨fun e' he' => ?_, h e (by simp)⟩
    rw [← tableOf_append_of_mem he' [e]]
    exact h e' (List.mem_append_left _ he')
  · rintro ⟨hes, hlast⟩ e' he'
    obtain he' | he' := List.mem_append.mp he'
    · rw [tableOf_append_of_mem he']
      exact hes e' he'
    · rw [List.mem_singleton.mp he']
      exact hlast

/-- One element more. -/
theorem analyseProof_tableOf (h : Decodes keccak es) (e : Bytes) :
    analyseProof keccak (tableOf keccak es) e =
      if (tableOf keccak (es ++ [e]) (keccak e).bytes).isSome then
        some (tableOf keccak (es ++ [e])) else none := by
  by_cases hseen : ∃ e' ∈ es, (keccak e').bytes = (keccak e).bytes
  · -- the hash is known, and the element is skipped
    obtain ⟨e', he', hhash⟩ := hseen
    have hsome : (tableOf keccak es (keccak e).bytes).isSome := hhash ▸ h e' he'
    have hsame : tableOf keccak (es ++ [e]) = tableOf keccak es := by
      funext hash
      rw [tableOf_append]
      cases hfind : es.find? fun e => (keccak e).bytes = hash with
      | some e₀ => rw [tableOf, hfind]; rfl
      | none =>
          have hne : (keccak e).bytes ≠ hash := by
            rintro rfl
            exact List.find?_eq_none.mp hfind e' he' (by simpa using hhash)
          rw [tableOf, hfind]
          simp [hne]
    rw [hsame, analyseProof, if_pos hsome, if_pos hsome]
  · have hnone : (es.find? fun e' => (keccak e').bytes = (keccak e).bytes) = none := by
      rw [List.find?_eq_none]
      intro e' he' heq
      exact hseen ⟨e', he', by simpa using heq⟩
    have hmissing : tableOf keccak es (keccak e).bytes = none := by
      rw [tableOf, hnone]
      rfl
    have hnew : tableOf keccak (es ++ [e]) (keccak e).bytes = mustDecodeNode e := by
      rw [tableOf_append, hnone]
      simp
    have hother : ∀ hash, hash ≠ (keccak e).bytes →
        tableOf keccak (es ++ [e]) hash = tableOf keccak es hash := by
      intro hash hne
      have hskip : ([e].find? fun e' => (keccak e').bytes = hash) = none := by
        simp [Ne.symm hne]
      rw [tableOf_append, hskip, Option.or_none, tableOf]
    rw [hnew, analyseProof, hmissing]
    cases hnode : mustDecodeNode e with
    | none => simp
    | some node =>
        simp only [Option.isSome_none, Bool.false_eq_true, if_false, Option.bind_eq_bind,
          Option.bind_some, Option.isSome_some, if_true, Option.some.injEq]
        funext hash
        by_cases hhash : hash = (keccak e).bytes
        · rw [hhash, Hash2Node.store_self, hnew, hnode]
        · rw [Hash2Node.store_of_ne _ _ hhash, hother hash hhash]

theorem foldlM_analyseProof {proofs : List Bytes} {table : Hash2Node} (h : Decodes keccak es) :
    proofs.foldlM (analyseProof keccak) (tableOf keccak es) = some table ↔
      Decodes keccak (es ++ proofs) ∧ table = tableOf keccak (es ++ proofs) := by
  induction proofs generalizing es with
  | nil => simp [h, eq_comm]
  | cons e proofs ih =>
      rw [List.foldlM_cons, analyseProof_tableOf h, List.append_cons es e proofs]
      split
      · rename_i hsome
        exact ih (decodes_append_single.mpr ⟨h, hsome⟩)
      · rename_i hnone
        constructor
        · intro hfold
          cases hfold
        · rintro ⟨hall, -⟩
          refine absurd ?_ hnone
          rw [← tableOf_append_of_mem (show e ∈ es ++ [e] by simp) proofs]
          exact hall e (by simp)

theorem Decodes.of_append {fs : List Bytes} (h : Decodes keccak (es ++ fs)) :
    Decodes keccak es := by
  intro e he
  rw [← tableOf_append_of_mem he fs]
  exact h e (List.mem_append_left _ he)

variable (keccak) in
/-- One round of the outer loop of `analyseStates`. -/
def analyseAccount (proofs : Address → List Bytes)
    (s : (Address → Option StateAccount) × Hash2Node) (x : Address × Bytes) :
    Option ((Address → Option StateAccount) × Hash2Node) := do
  let state ← decodeAccount x.2
  let hash2Node ← (proofs x.1).foldlM (analyseProof keccak) s.2
  some (Function.update s.1 x.1 (some state), hash2Node)

variable {data : List (Address × Bytes)} {proofs : Address → List Bytes}
  {addr2State addr2State' : Address → Option StateAccount} {table : Hash2Node}

theorem analyseAccount_eq_some {x : Address × Bytes} (h : Decodes keccak es) :
    analyseAccount keccak proofs (addr2State, tableOf keccak es) x = some (addr2State', table) ↔
      (decodeAccount x.2).isSome ∧ Decodes keccak (es ++ proofs x.1) ∧
      addr2State' = putAccount addr2State x ∧ table = tableOf keccak (es ++ proofs x.1) := by
  simp only [analyseAccount, Option.bind_eq_bind, Option.bind_eq_some_iff, Option.some.injEq,
    Prod.mk.injEq, Option.isSome_iff_exists]
  constructor
  · rintro ⟨state, hstate, h2n, hproofs, rfl, rfl⟩
    rcases (foldlM_analyseProof h).mp hproofs with ⟨hdec, rfl⟩
    exact ⟨⟨state, hstate⟩, hdec, by rw [putAccount, hstate], rfl⟩
  · rintro ⟨⟨state, hstate⟩, hdec, rfl, rfl⟩
    exact ⟨state, hstate, _, (foldlM_analyseProof h).mpr ⟨hdec, rfl⟩, by rw [putAccount, hstate], rfl⟩

/-- The loop from the elements `es` on. -/
theorem foldlM_analyseAccount (h : Decodes keccak es) :
    data.foldlM (analyseAccount keccak proofs) (addr2State, tableOf keccak es) =
        some (addr2State', table) ↔
      (∀ x ∈ data, (decodeAccount x.2).isSome) ∧ Decodes keccak (es ++ elements data proofs) ∧
      addr2State' = data.foldl putAccount addr2State ∧
      table = tableOf keccak (es ++ elements data proofs) := by
  induction data generalizing es addr2State with
  | nil =>
      rw [elements, List.flatMap_nil, List.append_nil]
      constructor
      · rintro ⟨⟩
        exact ⟨by simp, h, rfl, rfl⟩
      · rintro ⟨-, -, rfl, rfl⟩
        rfl
  | cons x data ih =>
      have helements : es ++ elements (x :: data) proofs =
          (es ++ proofs x.1) ++ elements data proofs := by
        rw [elements, List.flatMap_cons, List.append_assoc]
        rfl
      rw [List.foldlM_cons, helements, Option.bind_eq_bind, Option.bind_eq_some_iff]
      constructor
      · rintro ⟨⟨m, h2n⟩, hround, hrest⟩
        rcases (analyseAccount_eq_some h).mp hround with ⟨hx, hdec, rfl, rfl⟩
        rcases (ih hdec).mp hrest with ⟨hdata, hdec', hm, htable⟩
        exact ⟨List.forall_mem_cons.mpr ⟨hx, hdata⟩, hdec', hm, htable⟩
      · rintro ⟨hdata, hdec, hm, htable⟩
        rcases List.forall_mem_cons.mp hdata with ⟨hx, hdata⟩
        exact ⟨_, (analyseAccount_eq_some h).mpr ⟨hx, hdec.of_append, rfl, rfl⟩,
          (ih hdec.of_append).mpr ⟨hdata, hdec, hm, htable⟩⟩

/-- `analyseStates` succeeds if all it reads can be decoded. -/
theorem analyseStates_eq_some :
    analyseStates keccak data proofs = some (addr2State, table) ↔
      (∀ x ∈ data, (decodeAccount x.2).isSome) ∧ Decodes keccak (elements data proofs) ∧
      addr2State = accounts data ∧ table = tableOf keccak (elements data proofs) :=
  foldlM_analyseAccount (fun _ he => nomatch he : Decodes keccak [])

end Analyse

/-! ## The accounts of a reply -/

section Accounts

variable {data : List (Address × Bytes)} {a : Address}

theorem exists_of_accounts {acc : StateAccount} (h : accounts data a = some acc) :
    ∃ x ∈ data, x.1 = a ∧ decodeAccount x.2 = some acc := by
  have hloop : ∀ m : Address → Option StateAccount,
      data.foldl putAccount m a = some acc →
        (∃ x ∈ data, x.1 = a ∧ decodeAccount x.2 = some acc) ∨ m a = some acc := by
    clear h
    induction data with
    | nil => exact fun m hm => .inr hm
    | cons x data ih =>
        intro m hm
        rcases ih _ hm with ⟨y, hy, hya⟩ | hm
        · exact .inl ⟨y, List.mem_cons_of_mem _ hy, hya⟩
        · by_cases hx : x.1 = a
          · rw [← hx, putAccount, Function.update_self] at hm
            exact .inl ⟨x, List.mem_cons_self, hx, hm⟩
          · rw [putAccount, Function.update_of_ne (Ne.symm hx)] at hm
            exact .inr hm
  rcases hloop _ h with hx | hnone
  · exact hx
  · cases hnone

theorem accounts_isSome (hdata : ∀ x ∈ data, (decodeAccount x.2).isSome)
    (ha : a ∈ data.map Prod.fst) : (accounts data a).isSome := by
  have hloop : ∀ m : Address → Option StateAccount,
      a ∈ data.map Prod.fst ∨ (m a).isSome →
        (data.foldl putAccount m a).isSome := by
    clear ha
    induction data with
    | nil =>
        rintro m (hm | hm)
        · cases hm
        · exact hm
    | cons x data ih =>
        intro m hm
        apply ih fun y hy => hdata y (List.mem_cons_of_mem _ hy)
        by_cases hx : x.1 = a
        · right
          rw [← hx, putAccount, Function.update_self]
          exact hdata x List.mem_cons_self
        · rw [putAccount, Function.update_of_ne (Ne.symm hx)]
          rcases hm with hm | hm
          · rw [List.map_cons, List.mem_cons] at hm
            exact .inl (hm.resolve_left (Ne.symm hx))
          · exact .inr hm
  exact hloop _ (.inl ha)

end Accounts

/-! ## Which replies are usable -/

theorem known_of_getTxRelatedAddrs {txs : List Transaction} {addrs : Finset Address}
    (h : getTxRelatedAddrs txs = some addrs) : ∀ tx ∈ txs, tx.Known := by
  induction txs generalizing addrs with
  | nil => exact fun _ htx => nomatch htx
  | cons tx txs ih =>
      rcases Option.bind_eq_some_iff.mp h with ⟨rest, hrest, hmatch⟩
      refine List.forall_mem_cons.mpr ⟨fun htype => ?_, ih hrest⟩
      rw [htype] at hmatch
      cases hmatch

/-! ### Nodes that are met twice -/

section Twice

variable {keccak : Bytes → Hash} {r : ShardSendState} {fuel : ℕ} {l : List Met}

theorem exists_of_tableOf {es : List Bytes} {hash : Bytes} {node : Node}
    (h : tableOf keccak es hash = some node) :
    ∃ e ∈ es, (keccak e).bytes = hash ∧ mustDecodeNode e = some node := by
  rcases Option.bind_eq_some_iff.mp h with ⟨e, hfind, hdecode⟩
  exact ⟨e, List.mem_of_find?_eq_some hfind, by simpa using List.find?_some hfind, hdecode⟩

/-- A full node from a reply, with new hashes in the place of the old ones, is what its
encoding is decoded to. -/
theorem mustDecodeNode_renew (new : Bytes → Bytes)
    (hnew : ∀ h, h.length = 32 → (new h).length = 32) {e : Bytes} {children : Fin 17 → Node} (h : mustDecodeNode e = some (.full children))
    (hrefs : ∀ i, isRef (children i) = true) :
    mustDecodeNode (renew new (.full children)).encode = some (renew new (.full children)) := by
  rcases length_of_mustDecodeNode h with ⟨hlen, hlast⟩
  apply mustDecodeNode_full
  · intro i
    rcases isRef_cases (hrefs i) with hi | ⟨c, hi⟩
    · rw [hi]
      trivial
    · rw [hi]
      exact hnew c (hlen i c hi)
  · rcases isRef_cases (hrefs 16) with hi | ⟨c, hi⟩
    · rw [hi]
      rfl
    · exact absurd hi (hlast c)

theorem Walk.repeats (h : Walk keccak r fuel l) : Repeats keccak (table keccak r) l := by
  refine repeats_of_nodup h.nodes h.once fun x hx htwice children hnode hrefs n hn => ?_
  rcases exists_of_tableOf hn with ⟨e, he, hhash, hdecode⟩
  have hsame := h.collision x hx htwice e he (Hash.bytes_injective hhash)
  -- the element is the encoding of the node that was made
  rcases exists_of_tableOf (entry_of_met h.nodes x hx) with ⟨e₀, -, -, hdecode₀⟩
  rw [hnode] at hdecode₀
  have hback := mustDecodeNode_renew (newHash keccak (table keccak r) fuel)
    (fun c hc => length_newHash hc) hdecode₀ hrefs
  rw [hsame, remade, hnode, hback, Option.some.injEq] at hdecode
  rw [hnode, hdecode]

/-- No node is met twice at all. -/
theorem Walk.of_nodup (hmet : met (table keccak r) fuel [] r.statusTrieHash.bytes = some l)
    (hnodup : (hashesOf l).Nodup) : Walk keccak r fuel l where
  nodes := hmet
  once := (List.filter_sublist.map _).nodup hnodup
  collision := by
    intro x _ htwice
    have hle := List.nodup_iff_count_le_one.mp hnodup x.hash
    omega

end Twice

/-! ### The condition -/

section Usable

variable {keccak : Bytes → Hash} {addrs : List Address} {txs : List Transaction}
  {r : ShardSendState}

variable (keccak) in
/-- With an account for each address of the request the transactions are executed. -/
theorem exists_executed (haddrs : getTxRelatedAddrs txs = some addrs.toFinset)
    (hcomplete : ∀ a ∈ addrs, a ∈ r.accountData.map Prod.fst)
    (hdata : ∀ x ∈ r.accountData, (decodeAccount x.2).isSome) :
    ∃ st, Worker.executeTransactions (addrKey keccak) txs
        (ExecState.ofStates (accounts r.accountData)) = some (txs.map Transaction.executed, st) ∧
      Worker.Executed (addrKey keccak) (fun a => ∃ tx ∈ txs, a ∈ tx.touched) (effects txs)
        (ExecState.ofStates (accounts r.accountData)) st := by
  have hknown := known_of_getTxRelatedAddrs haddrs
  apply Worker.executeTransactions_spec _ _ _ hknown
  intro a ha
  rcases getTxRelatedAddrs_spec hknown with ⟨touched, htouched, hmem⟩
  rw [haddrs, Option.some.injEq] at htouched
  have hreq : a ∈ addrs := by
    rw [← List.mem_toFinset, htouched]
    exact (hmem a).mpr ha
  rw [ExecState.ofStates, Option.isSome_map]
  exact accounts_isSome hdata (hcomplete a hreq)

/-- The accounts that the walk writes have an encoding. -/
theorem encodable_updated {hash : Address → Bytes} {touched : Address → Prop} {st : ExecState}
    (hneg : NeverNegative r.accountData txs)
    (hex : Worker.Executed hash touched (effects txs)
      (ExecState.ofStates (accounts r.accountData)) st) :
    ∀ key acc, st.updated key = some acc → (encodeAccount acc).isSome := by
  intro key acc hup
  rcases Option.map_eq_some_iff.mp hup with ⟨p, hp, rfl⟩
  rcases hex.entries key p hp with hold | ⟨a, -, -, hptr⟩
  · simp [ExecState.ofStates] at hold
  · -- the record that `p` points to is the account of `a`
    have hview : st.view a = some (st.memory p) := by
      rw [ExecState.view, hex.pointers, hptr]
      rfl
    rw [hex.accounts, ExecState.view_ofStates] at hview
    rcases Option.map_eq_some_iff.mp hview with ⟨acc₀, hacc₀, heff⟩
    rcases exists_of_accounts hacc₀ with ⟨x, hx, rfl, hdecode⟩
    have hbalance := hneg txs.length (Nat.lt_succ_self _) x hx acc₀ hdecode
    rw [List.take_length, heff] at hbalance
    rw [encodeAccount, if_neg (Int.not_lt.mpr hbalance)]
    rfl

/-- What `commit` does with a reply that has the requested accounts. -/
theorem commitStates_isSome (hneg : NeverNegative r.accountData txs)
    (haddrs : getTxRelatedAddrs txs = some addrs.toFinset)
    (hcomplete : ∀ a ∈ addrs, a ∈ r.accountData.map Prod.fst)
    (hdata : ∀ x ∈ r.accountData, (decodeAccount x.2).isSome)
    (hproofs : Decodes keccak (elements r.accountData r.accountsProofs)) :
    ∃ updates : Bytes → Option StateAccount,
      (∀ key acc, updates key = some acc → (encodeAccount acc).isSome) ∧
      ∀ fuel comID parentHeight,
        (Worker.commitStates keccak fuel comID parentHeight txs r).isSome =
          (rebuildHelper keccak updates fuel r.statusTrieHash.bytes
            (tableOf keccak (elements r.accountData r.accountsProofs)) []).isSome := by
  rcases exists_executed keccak haddrs hcomplete hdata with ⟨st, hrun, hex⟩
  refine ⟨st.updated, encodable_updated hneg hex, fun fuel comID parentHeight => ?_⟩
  have hanalyse := analyseStates_eq_some.mpr ⟨hdata, hproofs, rfl, rfl⟩
  simp only [Worker.commitStates, hanalyse, hrun, Worker.finalize, rebuildTrie,
    Option.bind_eq_bind, Option.bind_some]
  cases rebuildHelper keccak st.updated fuel r.statusTrieHash.bytes
    (tableOf keccak (elements r.accountData r.accountsProofs)) [] with
  | none => rfl
  | some res => rfl

theorem usable_of_wellFormed (haddrs : getTxRelatedAddrs txs = some addrs.toFinset)
    (haccept : acceptsStates keccak r = true) (h : WellFormed keccak addrs txs r) :
    Usable keccak addrs txs r where
  proven := by
    intro a ha
    rcases List.mem_map.mp (h.complete a ha) with ⟨⟨_, data⟩, hmem, rfl⟩
    exact ⟨data, hmem, by simpa using List.all_eq_true.mp haccept _ hmem⟩
  completes := by
    intro hneg comID parentHeight
    rcases commitStates_isSome hneg haddrs h.complete (h.data hneg) (h.proofs hneg) with
      ⟨updates, henc, hcommit⟩
    rcases h.shapes hneg with ⟨fuel, l, hwalk, hall⟩
    refine ⟨fuel, ?_⟩
    rw [hcommit]
    exact (walks_of_met henc hwalk.nodes hwalk.repeats).completes hall _ (.initial _ _ l) fuel
      (Nat.le_refl _)

theorem wellFormed_of_usable (haddrs : getTxRelatedAddrs txs = some addrs.toFinset)
    (hwalk : ∃ fuel l, Walk keccak r fuel l) (h : Usable keccak addrs txs r) :
    WellFormed keccak addrs txs r := by
  have hcomplete : ∀ a ∈ addrs, a ∈ r.accountData.map Prod.fst := by
    intro a ha
    rcases h.proven a ha with ⟨data, hmem, -⟩
    exact List.mem_map_of_mem hmem
  -- the first thing that `commit` does is to decode all it got
  have hdecoded : NeverNegative r.accountData txs →
      (∀ x ∈ r.accountData, (decodeAccount x.2).isSome) ∧
        Decodes keccak (elements r.accountData r.accountsProofs) := by
    intro hneg
    rcases h.completes hneg 0 0 with ⟨fuel, hsome⟩
    rcases Option.isSome_iff_exists.mp hsome with ⟨block, hblock⟩
    rcases Option.bind_eq_some_iff.mp hblock with ⟨⟨addr2State, table⟩, hanalyse, -⟩
    rcases analyseStates_eq_some.mp hanalyse with ⟨hdata, hproofs, -⟩
    exact ⟨hdata, hproofs⟩
  refine ⟨hcomplete, fun hneg => (hdecoded hneg).1, fun hneg => (hdecoded hneg).2, fun hneg => ?_⟩
  rcases commitStates_isSome hneg haddrs hcomplete (hdecoded hneg).1 (hdecoded hneg).2 with
    ⟨updates, henc, hcommit⟩
  rcases hwalk with ⟨bound, l, hwalk⟩
  rcases h.completes hneg 0 0 with ⟨fuel, hsome⟩
  rw [hcommit] at hsome
  rcases Option.isSome_iff_exists.mp hsome with ⟨⟨res, t⟩, hrebuild⟩
  have hrebuild := rebuildHelper_mono (Nat.le_max_left fuel bound) hrebuild
  exact ⟨bound, l, hwalk, ((walks_of_met henc hwalk.nodes hwalk.repeats).shaped _ (.initial _ _ l)
    _ (Nat.le_max_right fuel bound) res t hrebuild).1⟩

/-- A reply that `getStatusFromShard` accepts is usable if it is well formed; and where the
walk meets no short node twice, only then. -/
theorem usable_iff (keccak : Bytes → Hash) (addrs : List Address) (txs : List Transaction)
    (r : ShardSendState) (haddrs : getTxRelatedAddrs txs = some addrs.toFinset) :
    ((acceptsStates keccak r = true → WellFormed keccak addrs txs r) →
      acceptsStates keccak r = true → Usable keccak addrs txs r) ∧
    ((∃ fuel l, Walk keccak r fuel l) → (acceptsStates keccak r = true → Usable keccak addrs txs r) →
      acceptsStates keccak r = true → WellFormed keccak addrs txs r) := by
  constructor
  · intro h haccept
    exact usable_of_wellFormed haddrs haccept (h haccept)
  · intro hwalk h haccept
    exact wellFormed_of_usable haddrs hwalk (h haccept)

end Usable

/-! ## Replies to a request for one account -/

/-- Keccak where the replies below ask for it. -/
def replyKeccak (b : Bytes) : Hash :=
  if b = [] then 0xc5d2460186f7233c927e7db2dcc703c0e500b653ca82273b7bfad8045d85a470
  else sampleKeccak b

/-- Account 5 pays one coin to another shard. -/
def payment : Transaction :=
  ⟨.crossTXType1, 1, 5, 7, 1, 0, 0, 0, 0, 0, 1, .defaultStatus, 0, 10⟩

/-- The reply of an honest shard, with the elements `extra` behind the proof. -/
def honest (extra : List Bytes) : ShardSendState where
  statusTrieHash := rootHash sampleKeccak sampleTrie
  accountData := [(5, (encodeAccount (sampleAccount 1 5)).getD [])]
  accountsProofs a := if a = 5 then sampleProofs 5 ++ extra else []
  height := 1

/-- A reply without accounts. -/
def silent : ShardSendState where
  statusTrieHash := rootHash sampleKeccak sampleTrie
  accountData := []
  accountsProofs _ := []
  height := 1

theorem wellFormed_honest : WellFormed replyKeccak [5] [payment] (honest []) := by
  refine ⟨by simp [honest], fun _ => by decide +kernel, fun _ => by decide +kernel, fun _ => ?_⟩
  have hsome : (met (table replyKeccak (honest [])) 4 []
      (honest []).statusTrieHash.bytes).isSome := by
    decide +kernel
  have hall : ∀ l ∈ met (table replyKeccak (honest [])) 4 [] (honest []).statusTrieHash.bytes,
      (hashesOf l).Nodup ∧ ∀ x ∈ l, x.wellShaped = true := by
    decide +kernel
  rcases Option.isSome_iff_exists.mp hsome with ⟨l, hmet⟩
  rcases hall l hmet with ⟨hnodup, hshapes⟩
  exact ⟨4, l, .of_nodup hmet hnodup, hshapes⟩

/-- The reply of an honest shard is accepted, and a block comes out of it. -/
theorem usable_honest : acceptsStates replyKeccak (honest []) = true ∧
    NeverNegative (honest []).accountData [payment] ∧
    Usable replyKeccak [5] [payment] (honest []) :=
  ⟨by decide +kernel, by decide +kernel,
    (usable_iff replyKeccak [5] [payment] (honest []) (by decide)).1
      (fun _ => wellFormed_honest) (by decide +kernel)⟩

/-- A full node without children. -/
def hollow : Node := .full fun _ => .nil

/-- A root with the hollow node in two of its slots, beside the way to account 5. -/
def twinRoot : Node := .full fun i =>
  if (i : ℕ) = 4 then
    .hash (Hash.bytes 0xbd778c0ba7c7f42986261636090c860bcd667867c2959c0adacd0cd6024e6e46)
  else if (i : ℕ) < 2 then
    .hash (Hash.bytes 0xbe0f4440e293a47160b9b148d49212d0616ec5b0a70c99de9bf36515d52e0901)
  else .nil

def twinKeccak (b : Bytes) : Hash :=
  if b = hollow.encode then 0xbe0f4440e293a47160b9b148d49212d0616ec5b0a70c99de9bf36515d52e0901
  else if b = twinRoot.encode then
    0x6092d8aa34797a827debeba30caf791f924a9ef384da0a908d6e165a167447d9
  else replyKeccak b

/-- A reply with that root. -/
def twins : ShardSendState where
  statusTrieHash := twinKeccak twinRoot.encode
  accountData := [(5, (encodeAccount (sampleAccount 1 5)).getD [])]
  accountsProofs a :=
    if a = 5 then sampleProofs 5 ++ [twinRoot.encode, hollow.encode] else []
  height := 1

theorem walk_twins : ∃ l, Walk twinKeccak twins 4 l ∧ ¬ (hashesOf l).Nodup ∧
    ∀ x ∈ l, x.wellShaped = true := by
  have hsome : (met (table twinKeccak twins) 4 [] twins.statusTrieHash.bytes).isSome := by
    decide +kernel
  have hall : ∀ l ∈ met (table twinKeccak twins) 4 [] twins.statusTrieHash.bytes,
      (hashesOf (l.filter fun x => !isFull x.node)).Nodup ∧
      (∀ x ∈ l, 2 ≤ (hashesOf l).count x.hash →
        ∀ e ∈ elements twins.accountData twins.accountsProofs,
          twinKeccak e = twinKeccak (remade twinKeccak twins 4 x).encode →
            e = (remade twinKeccak twins 4 x).encode) ∧
      ¬ (hashesOf l).Nodup ∧ ∀ x ∈ l, x.wellShaped = true := by
    decide +kernel
  rcases Option.isSome_iff_exists.mp hsome with ⟨l, hmet⟩
  rcases hall l hmet with ⟨honce, hcollision, htwice, hshapes⟩
  exact ⟨l, ⟨hmet, honce, hcollision⟩, htwice, hshapes⟩

example : acceptsStates twinKeccak twins = true ∧ Usable twinKeccak [5] [payment] twins := by
  have haccept : acceptsStates twinKeccak twins = true := by decide +kernel
  rcases walk_twins with ⟨l, hwalk, -, hshapes⟩
  exact ⟨haccept, usable_of_wellFormed (by decide) haccept ⟨by simp [twins],
    fun _ => by decide +kernel, fun _ => by decide +kernel, fun _ => ⟨4, l, hwalk, hshapes⟩⟩⟩

/-- A reply without the requested account is accepted, and so is one with an empty element
behind a valid proof, at which `MustDecodeNode` panics. -/
theorem accepted_not_usable : getTxRelatedAddrs [payment] = some [5].toFinset ∧
    (acceptsStates replyKeccak silent = true ∧ ¬ Usable replyKeccak [5] [payment] silent) ∧
    (acceptsStates replyKeccak (honest [[]]) = true ∧
      NeverNegative (honest [[]]).accountData [payment] ∧
      ∀ fuel comID parentHeight,
        Worker.commitStates replyKeccak fuel comID parentHeight [payment] (honest [[]]) = none) := by
  refine ⟨by decide, ⟨by decide, fun h => ?_⟩, by decide +kernel, by decide +kernel, ?_⟩
  · rcases h.proven 5 List.mem_cons_self with ⟨data, hmem, -⟩
    cases hmem
  · intro fuel comID parentHeight
    have hpanic : (analyseStates replyKeccak (honest [[]]).accountData
        (honest [[]]).accountsProofs).isSome = false := by
      decide +kernel
    rw [Worker.commitStates, Option.isSome_eq_false_iff.mp hpanic |> Option.isNone_iff_eq_none.mp]
    rfl

end Reply

end LessChain
