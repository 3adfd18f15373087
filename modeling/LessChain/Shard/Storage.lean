import LessChain.Committee.StatelessRoot
import LessChain.Shard.Execute

/-!
# `shard/msgHandler.go`

The storage leader of a shard and its handlers for `ComGetState`, `ComGetHeight` and
`ComSendBlock`. To the map of accounts comes here what geth's `StateDB` keeps behind it:
the account trie, the accounts that have changed since `IntermediateRoot` was last called,
the first error of a write, and the roots that `Commit` has put into the database. An
account with a negative balance has no encoding; its write fails, the error is kept, and
from then on `Commit` does nothing.

Go walks a map in any order, so the functions that walk the changed accounts take the order
as an argument.
-/

namespace LessChain

open Trie

/-- `core.ShardSendState`. The list holds the entries of the map `AccountData`. -/
structure ShardSendState where
  statusTrieHash : Hash
  accountData : List (Address × Bytes)
  accountsProofs : Address → List Bytes
  height : ℕ

/-- What a `StateDB` keeps besides the accounts. -/
structure Backend where
  trie : Node
  pending : Finset Address
  dbErr : Bool
  committed : List Hash

/-- A storage leader. `handled` logs the blocks that were handled, each with the root that
was compared with the one in its header, if the handler got that far; a block that does not
pass ends the process. -/
structure Storage where
  shard : Shard
  backend : Backend
  running : Bool
  handled : List (Block × Option Hash)

/-- The list is one of the orders in which a set can be walked. -/
def Orders (order : List Address) (s : Finset Address) : Prop := order.Nodup ∧ order.toFinset = s

instance (order : List Address) (s : Finset Address) : Decidable (Orders order s) :=
  inferInstanceAs (Decidable (_ ∧ _))

theorem Orders.mem_iff {order : List Address} {s : Finset Address} (h : Orders order s)
    (a : Address) : a ∈ order ↔ a ∈ s := by
  rw [← h.2, List.mem_toFinset]

section Model

variable (keccak : Bytes → Hash)

/-- The key of an account in HEX, as the trie functions take it. -/
def hexKey (a : Address) : Bytes := keybytesToHex (addrKey keccak a)

/-! ## The `StateDB` behind the accounts -/

namespace Backend

/-- The journal: these accounts have changed. -/
def touch (b : Backend) (as : Finset Address) : Backend := { b with pending := b.pending ∪ as }

/-- `updateStateObject`. -/
def updateStateObject (db : StateDB) (b : Backend) (a : Address) : Backend :=
  match tryUpdateAccount b.trie (addrKey keccak a) (db.account a) with
  | some root => { b with trie := root }
  | none => { b with dbErr := true }

/-- `IntermediateRoot`, without the hash it returns. -/
def intermediateRoot (db : StateDB) (order : List Address) (b : Backend) : Backend :=
  { order.foldl (updateStateObject keccak db) b with pending := ∅ }

/-- `Hash` of the account trie. -/
def root (b : Backend) : Hash := rootHash keccak b.trie

/-- `Commit`, right after `IntermediateRoot`. -/
def commit (b : Backend) : Backend :=
  if b.dbErr then b else { b with committed := b.root keccak :: b.committed }

/-- `trie.NewSecure` finds the root in the database, or needs nothing from it. -/
def opens (b : Backend) : Bool := b.root keccak = emptyRoot ∨ b.root keccak ∈ b.committed

end Backend

/-! ## `HandleComGetState` -/

/-- `memorydb.Put`, on the entries in the order in which the iterator visits them. -/
def memPut (hash : Hash) (v : Bytes) : List (Hash × Bytes) → List (Hash × Bytes)
  | [] => [(hash, v)]
  | (hash', v') :: rest =>
      if hash < hash' then (hash, v) :: (hash', v') :: rest
      else if hash = hash' then (hash, v) :: rest
      else (hash', v') :: memPut hash v rest

/-- The elements of a proof as the iterator over the `memorydb` gives them. -/
def iterated (proof : List Bytes) : List Bytes :=
  (proof.foldl (fun memDB e => memPut (keccak e) e memDB) []).map Prod.snd

namespace Storage

/-- The first loop of `HandleComGetState` and the commit after it: the accounts that do not
exist are created and written to the trie. -/
def createAccounts (order addrList : List Address) (st : Storage) : Storage :=
  let stateDB := addrList.foldl StateDB.getOrNewStateObject st.shard.stateDB
  let created := addrList.toFinset.filter fun a => st.shard.stateDB a = none
  let backend := (st.backend.touch created).intermediateRoot keccak stateDB order
  { st with
    shard := { st.shard with stateDB := stateDB }
    backend := backend.commit keccak }

/-- The accounts that `createAccounts` has to write. -/
def toCreate (addrList : List Address) (st : Storage) : Finset Address :=
  st.backend.pending ∪ addrList.toFinset.filter fun a => st.shard.stateDB a = none

/-- One round of the second loop: the data of an account and its proof. Storage root and
code hash are those of an account without storage and code. -/
def answerFor (st : Storage) (a : Address) : Option (Address × Bytes × List Bytes) := do
  let enc ← encodeAccount
    ⟨st.shard.stateDB.getNonce a, st.shard.stateDB.getBalance a, emptyRoot, emptyCodeHash⟩
  let proof ← prove keccak st.backend.trie (addrKey keccak a)
  some (a, enc, iterated keccak proof)

/-- The second loop and the response. -/
def answer (addrList : List Address) (st : Storage) : Option ShardSendState := do
  let answers ← addrList.mapM (answerFor keccak st)
  some {
    statusTrieHash := st.backend.root keccak
    accountData := answers.map fun x => (x.1, x.2.1)
    accountsProofs := fun a => ((answers.find? fun x => x.1 = a).map fun x => x.2.2).getD []
    height := st.shard.blockchain.height }

/-- `HandleComGetState`. -/
def handleComGetState (order addrList : List Address) (st : Storage) :
    Option (ShardSendState × Storage) := do
  let st := st.createAccounts keccak order addrList
  if st.backend.opens keccak then do
    let response ← st.answer keccak addrList
    some (response, st)
  else none

/-- `HandleComGetHeight`. -/
def handleComGetHeight (st : Storage) : ℕ := st.shard.blockchain.height

/-! ## `HandleComSendBlock` -/

/-- The accounts that the setters called for a list of transactions put into the journal. -/
def dirtied : List Transaction → Finset Address
  | [] => ∅
  | tx :: txs => tx.touched ∪ dirtied txs

/-- `IntermediateRoot` after the transactions of a block. -/
def afterBlock (order : List Address) (block : Block) (st : Storage) (stateDB : StateDB) : Backend :=
  (st.backend.touch (dirtied block.transactions)).intermediateRoot keccak stateDB order

/-- `AddBlock`, and the reset of the active accounts with the first beacon block after a
reconfiguration. -/
def addBlock (block : Block) (st : Storage) : Shard :=
  { st.shard with
    blockchain := st.shard.blockchain.writeBlock block
    tMPTActiveAddrs := if st.shard.tbchainHeight % st.shard.height2Reconfig = 1 then fun _ => 0
      else st.shard.tMPTActiveAddrs }

/-- `executeTransactions` in `HandleComSendBlock`. An unknown transaction ends the process,
and so does the remainder by a `height2Reconfig` of zero before it. -/
def execute (order : List Address) (block : Block) (st : Storage) : Option (Hash × Shard) :=
  if st.shard.height2Reconfig = 0 then none
  else (st.addBlock block).executeTransactions
    (fun stateDB => (st.afterBlock keccak order block stateDB).root keccak) block.transactions

/-- `HandleComSendBlock`. -/
def handleComSendBlock (order : List Address) (block : Block) (st : Storage) : Storage :=
  match st.execute keccak order block with
  | none =>
      { st with
        shard := st.addBlock block
        running := false
        handled := st.handled ++ [(block, none)] }
  | some (trieRoot, shard) =>
      { shard := shard
        backend := (st.afterBlock keccak order block shard.stateDB).commit keccak
        running := trieRoot = block.header.root
        handled := st.handled ++ [(block, some trieRoot)] }

/-- `AddTBs`. -/
def addTBs (height : ℕ) (st : Storage) : Storage :=
  { st with shard := { st.shard with tbchainHeight := height } }

end Storage

/-! ## The first state -/

/-- `SetInitialAccountState` on the keys of the map it gets. -/
def setInitialAccountState (addrs : List Address) (maxValue : ℤ) (stateDB : StateDB) :
    Option StateDB :=
  addrs.foldlM (fun stateDB addr =>
    let stateDB := stateDB.addBalance addr maxValue
    if stateDB.getBalance addr = maxValue then some stateDB else none) stateDB

/-- `NewShard` and `SetInitialAccountState`. The `StateDB` starts empty. -/
def newStorage (genesis : Block) (height2Reconfig : ℕ) (addrs : List Address) (maxValue : ℤ) :
    Option Storage := do
  let stateDB ← setInitialAccountState addrs maxValue fun _ => none
  some {
    shard := {
      blockchain := newBlockChain genesis
      stateDB := stateDB
      activeAddrs := fun _ => 0
      tMPTActiveAddrs := fun _ => 0
      height2Reconfig := height2Reconfig
      tbchainHeight := 0 }
    backend := ⟨.nil, addrs.toFinset, false, []⟩
    running := true
    handled := [] }

end Model

/-! ## The proofs of an account -/

theorem mem_memPut {hash : Hash} {v : Bytes} {memDB : List (Hash × Bytes)} {x : Hash × Bytes}
    (h : x ∈ memPut hash v memDB) : x = (hash, v) ∨ x ∈ memDB := by
  induction memDB with
  | nil => exact .inl (List.mem_singleton.mp h)
  | cons y rest ih =>
      simp only [memPut] at h
      split at h
      · exact List.mem_cons.mp h
      · split at h
        · rcases List.mem_cons.mp h with hx | hx
          · exact .inl hx
          · exact .inr (List.mem_cons_of_mem _ hx)
        · rcases List.mem_cons.mp h with hx | hx
          · exact .inr (hx ▸ List.mem_cons_self)
          · rcases ih hx with hx | hx
            · exact .inl hx
            · exact .inr (List.mem_cons_of_mem _ hx)

theorem mem_memPut_self (hash : Hash) (v : Bytes) (memDB : List (Hash × Bytes)) :
    (hash, v) ∈ memPut hash v memDB := by
  induction memDB with
  | nil => exact List.mem_cons_self
  | cons y rest ih =>
      simp only [memPut]
      split
      · exact List.mem_cons_self
      · split
        · exact List.mem_cons_self
        · exact List.mem_cons_of_mem _ ih

/-- Only an entry of the same hash is replaced. -/
theorem mem_memPut_of_ne {hash : Hash} {v : Bytes} {memDB : List (Hash × Bytes)}
    {x : Hash × Bytes} (hne : x.1 ≠ hash) (h : x ∈ memDB) : x ∈ memPut hash v memDB := by
  induction memDB with
  | nil => cases h
  | cons y rest ih =>
      simp only [memPut]
      split
      · exact List.mem_cons_of_mem _ h
      · split
        · rename_i heq
          rcases List.mem_cons.mp h with rfl | hx
          · exact absurd heq.symm hne
          · exact List.mem_cons_of_mem _ hx
        · rcases List.mem_cons.mp h with rfl | hx
          · exact List.mem_cons_self
          · exact List.mem_cons_of_mem _ (ih hx)

/-- The loop that puts the elements of a proof into the `memorydb`, from the entries `memDB`
on: elements with one hash are equal, so none of them replaces another. -/
theorem mem_foldl_memPut {keccak : Bytes → Hash} {proof : List Bytes}
    (hinj : ∀ e ∈ proof, ∀ e' ∈ proof, keccak e = keccak e' → e = e') {rest : List Bytes}
    {memDB : List (Hash × Bytes)} (hrest : ∀ e ∈ rest, e ∈ proof)
    (hmem : ∀ x ∈ memDB, x.2 ∈ proof ∧ x.1 = keccak x.2) (x : Hash × Bytes) :
    x ∈ rest.foldl (fun memDB e => memPut (keccak e) e memDB) memDB ↔
      x ∈ memDB ∨ x.1 = keccak x.2 ∧ x.2 ∈ rest := by
  induction rest generalizing memDB with
  | nil => simp
  | cons e rest ih =>
      have he := hrest e List.mem_cons_self
      have hput : ∀ y ∈ memPut (keccak e) e memDB, y.2 ∈ proof ∧ y.1 = keccak y.2 := by
        intro y hy
        rcases mem_memPut hy with rfl | hy
        · exact ⟨he, rfl⟩
        · exact hmem y hy
      rw [List.foldl_cons, ih (fun e' h => hrest e' (List.mem_cons_of_mem _ h)) hput]
      constructor
      · rintro (hx | ⟨hx, hmem'⟩)
        · rcases mem_memPut hx with rfl | hx
          · exact .inr ⟨rfl, List.mem_cons_self⟩
          · exact .inl hx
        · exact .inr ⟨hx, List.mem_cons_of_mem _ hmem'⟩
      · rintro (hx | ⟨hx, hmem'⟩)
        · by_cases hhash : x.1 = keccak e
          · -- the entry of the same hash is the same one
            have heq : x = (keccak e, e) := by
              refine Prod.ext hhash (hinj _ (hmem x hx).1 _ he ?_)
              rw [← (hmem x hx).2, hhash]
            exact .inl (heq ▸ mem_memPut_self _ _ _)
          · exact .inl (mem_memPut_of_ne hhash hx)
        · rcases List.mem_cons.mp hmem' with heq | hmem'
          · refine .inl ?_
            have hpair : x = (keccak e, e) := Prod.ext (by rw [hx, heq]) heq
            exact hpair ▸ mem_memPut_self _ _ _
          · exact .inr ⟨hx, hmem'⟩

/-- The iterator gives the elements of the proof, unless two of them have one hash. -/
theorem mem_iterated {keccak : Bytes → Hash} {proof : List Bytes}
    (hinj : ∀ e ∈ proof, ∀ e' ∈ proof, keccak e = keccak e' → e = e') (e : Bytes) :
    e ∈ iterated keccak proof ↔ e ∈ proof := by
  have hloop := fun x => mem_foldl_memPut hinj (fun _ h => h) (List.forall_mem_nil _) x
  rw [iterated, List.mem_map]
  constructor
  · rintro ⟨x, hx, rfl⟩
    rcases (hloop x).mp hx with hnil | ⟨-, hmem⟩
    · cases hnil
    · exact hmem
  · intro he
    exact ⟨(keccak e, e), (hloop _).mpr (.inr ⟨rfl, he⟩), rfl⟩

end LessChain
