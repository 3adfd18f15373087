import LessChain.Trie.Delete

/-!
# `trie/database.go`, `trie/committer.go` and tries that are loaded on demand

A trie keeps in memory the nodes that were used or changed, and a hash in place of the others.
An operation that comes to a hash fetches the node from the database (`resolveHash`). `Commit`
writes the nodes that have changed to the database and drops them from memory. It relies on
flags: a node carries its hash once it is known, and whether the database may not have it yet.

The database has two parts: nodes in memory, to which `Commit` writes, and a store on disk, to
which `Database.Commit` moves a trie. Left out are the read cache, which `NewDatabase` does not
create, the preimages, and the reference counts and the flush list, which serve `Dereference`
and `Cap` only.

The recursion of an operation goes on in the node that was fetched, so it has `fuel`.
-/

namespace LessChain

namespace Trie

/-! ## Nodes in memory -/

/-- `nodeFlag`. -/
structure NodeFlag where
  hash : Option Bytes
  dirty : Bool

/-- `newFlag`. -/
def newFlag : NodeFlag := ⟨none, true⟩

/-- `trie.Node` with its flags. -/
inductive Live where
  | nil
  | value (v : Bytes)
  | hash (h : Bytes)
  | short (key : Bytes) (val : Live) (flags : NodeFlag)
  | full (children : Fin 17 → Live) (flags : NodeFlag)

namespace Live

def isNil : Live → Bool
  | .nil => true
  | _ => false

/-- `HashNode`. -/
def isHash : Live → Bool
  | .hash _ => true
  | _ => false

/-- `*FullNode`. -/
def isFull : Live → Bool
  | .full _ _ => true
  | _ => false

/-- `*ShortNode` or `*FullNode`. -/
def isInner : Live → Bool
  | .short _ _ _ | .full _ _ => true
  | _ => false

/-- `cache`. -/
def cache : Live → Option Bytes × Bool
  | .short _ _ flags | .full _ flags => (flags.hash, flags.dirty)
  | _ => (none, true)

/-- `simplifyNode`: the node without its flags. -/
def simplifyNode : Live → Node
  | .nil => .nil
  | .value v => .value v
  | .hash h => .hash h
  | .short key val _ => .short key val.simplifyNode
  | .full children _ => .full fun i => (children i).simplifyNode

end Live

/-- The type assertion to `HashNode`. -/
def Node.asHash : Node → Option Bytes
  | .hash h => some h
  | _ => none

/-- `expandNode`. -/
def expandNode (hash : Option Bytes) : Node → Live
  | .nil => .nil
  | .value v => .value v
  | .hash h => .hash h
  | .short key val => .short (compactToHex key) (expandNode none val) ⟨hash, false⟩
  | .full children => .full (fun i => expandNode none (children i)) ⟨hash, false⟩

/-- The flags that `decodeNode` sets. -/
def flagged (hash : Option Bytes) : Node → Live
  | .nil => .nil
  | .value v => .value v
  | .hash h => .hash h
  | .short key val => .short key (flagged none val) ⟨hash, false⟩
  | .full children => .full (fun i => flagged none (children i)) ⟨hash, false⟩

/-! ## The database -/

/-- `Database`. Its entry for the zero hash stands for no node. -/
structure Database where
  dirties : Hash → Option Node
  diskdb : Hash → Option Bytes

/-- `NewDatabase`. -/
def newDatabase (diskdb : Hash → Option Bytes) : Database := ⟨fun _ => none, diskdb⟩

namespace Database

/-- `insert`. -/
def insert (db : Database) (hash : Hash) (n : Node) : Database :=
  if hash = 0 ∨ (db.dirties hash).isSome then db
  else { db with dirties := Function.update db.dirties hash (some n) }

/-- `node`; a stored node that cannot be decoded panics, as does the entry of the zero hash. -/
def node (db : Database) (hash : Hash) : Option Live :=
  if hash = 0 then none
  else match db.dirties hash with
    | some n => some (expandNode (some hash.bytes) n)
    | none => (db.diskdb hash).bind fun enc =>
        (mustDecodeNode enc).map (flagged (some hash.bytes))

/-- `resolveHash`; a missing node is an error. -/
def resolveHash (db : Database) (h : Bytes) : Option Live := db.node (bytesToHash h)

/-- `resolve`. -/
def resolve (db : Database) : Live → Option Live
  | .hash h => db.resolveHash h
  | n => some n

/-- A batch is written, and the nodes in it are dropped from memory (`cleaner.Put`). -/
def write (db : Database) (batch : List (Hash × Bytes)) : Database :=
  batch.foldl (fun db e => ⟨Function.update db.dirties e.1 none,
    Function.update db.diskdb e.1 (some e.2)⟩) db

end Database

/-- `forGatherChildren`. -/
def forGatherChildren : Node → List Hash
  | .short _ val => forGatherChildren val
  | .full children => (List.finRange 16).flatMap fun i => forGatherChildren (children i.castSucc)
  | .hash h => [bytesToHash h]
  | _ => []

/-- `Database.commit`: the nodes below come first. `batchFull` says when a batch has the ideal
size. -/
def Database.commitNode (batchFull : List (Hash × Bytes) → Bool) :
    ℕ → Hash → Database × List (Hash × Bytes) → Option (Database × List (Hash × Bytes))
  | 0, _, _ => none
  | fuel + 1, hash, (db, batch) =>
      if hash = 0 then none
      else match db.dirties hash with
        | none => some (db, batch)
        | some n => do
            let (db, batch) ← (forGatherChildren n).foldlM
              (fun acc child => commitNode batchFull fuel child acc) (db, batch)
            let batch := batch ++ [(hash, n.encode)]
            if batchFull batch then some (db.write batch, []) else some (db, batch)

/-- `Database.Commit`. -/
def Database.commit (batchFull : List (Hash × Bytes) → Bool) (fuel : ℕ) (db : Database)
    (hash : Hash) : Option Database := do
  let (db, batch) ← commitNode batchFull fuel hash (db, [])
  some (db.write batch)

/-! ## Reading and writing -/

namespace Live

section Operations

variable (db : Database)

/-- `tryGet`: the value, the node with what was loaded, and whether something was. -/
def tryGet : ℕ → Live → Bytes → Option (Option Bytes × Live × Bool)
  | 0, _, _ => none
  | _ + 1, .nil, _ => some (none, .nil, false)
  | _ + 1, .value v, _ => some (some v, .value v, false)
  | fuel + 1, .short nkey val flags, key =>
      if key.take nkey.length = nkey then do
        let (v, nn, didResolve) ← tryGet fuel val (key.drop nkey.length)
        some (v, .short nkey (if didResolve then nn else val) flags, didResolve)
      else some (none, .short nkey val flags, false)
  | _ + 1, .full _ _, [] => none
  | fuel + 1, .full children flags, x :: key => do
      let i ← slot x
      let (v, nn, didResolve) ← tryGet fuel (children i) key
      some (v, .full (if didResolve then Function.update children i nn else children) flags,
        didResolve)
  | fuel + 1, .hash h, key => do
      let child ← db.resolveHash h
      let (v, nn, _) ← tryGet fuel child key
      some (v, nn, true)

/-- `insert` at an empty slot. -/
def insertNil (key : Bytes) (value : Live) : Live :=
  if key = [] then value else .short key value newFlag

/-- `insert`: whether the node changed, and the new node. -/
def insert (v : Bytes) : ℕ → Live → Bytes → Option (Bool × Live)
  | 0, _, _ => none
  | _ + 1, .value w, [] => some (w != v, .value v)
  | _ + 1, _, [] => some (true, .value v)
  | fuel + 1, .short nkey val flags, x :: key =>
      let matchlen := prefixLen (x :: key) nkey
      if matchlen = nkey.length then do
        let (dirty, nn) ← insert v fuel val ((x :: key).drop matchlen)
        some (if dirty then (true, .short nkey nn newFlag) else (false, .short nkey val flags))
      else
        match nkey.drop matchlen, (x :: key).drop matchlen with
        | y :: nrest, z :: rest => do
            let i ← slot y
            let j ← slot z
            let branch := Live.full (Function.update
              (Function.update (fun _ => .nil) i (insertNil nrest val)) j
              (insertNil rest (.value v))) newFlag
            some (true, if matchlen = 0 then branch
              else .short ((x :: key).take matchlen) branch newFlag)
        | _, _ => none
  | fuel + 1, .full children flags, x :: key => do
      let i ← slot x
      let (dirty, nn) ← insert v fuel (children i) key
      some (if dirty then (true, .full (Function.update children i nn) newFlag)
        else (false, .full children flags))
  | _ + 1, .nil, x :: key => some (true, .short (x :: key) (.value v) newFlag)
  | fuel + 1, .hash h, x :: key => do
      let rn ← db.resolveHash h
      let (dirty, nn) ← insert v fuel rn (x :: key)
      some (if dirty then (true, nn) else (false, rn))
  | _ + 1, .value _, _ :: _ => none

/-- The loop over the children that are left. -/
def pos (children : Fin 17 → Live) : Pos :=
  (List.finRange 17).foldl (fun p i =>
    if (children i).isNil then p else match p with | .unset => .at i | _ => .many) .unset

/-- A full node that lost a child. Whether the last one is a short node is seen once it is
loaded, but a full node is left as it was. -/
def reduce (children : Fin 17 → Live) : Option Live :=
  match pos children with
  | .at i =>
      if i = Fin.last 16 then some (.short [UInt8.ofNat i] (children i) newFlag)
      else do
        match ← db.resolve (children i) with
        | .short key val _ => some (.short (UInt8.ofNat i :: key) val newFlag)
        | _ => some (.short [UInt8.ofNat i] (children i) newFlag)
  | _ => some (.full children newFlag)

/-- `delete`: whether the node changed, and the new node. -/
def delete : ℕ → Live → Bytes → Option (Bool × Live)
  | 0, _, _ => none
  | fuel + 1, .short nkey val flags, key =>
      let matchlen := prefixLen key nkey
      if matchlen < nkey.length then some (false, .short nkey val flags)
      else if matchlen = key.length then some (true, .nil)
      else do
        let (dirty, child) ← delete fuel val (key.drop nkey.length)
        if dirty then
          match child with
          | .short ckey cval _ => some (true, .short (nkey ++ ckey) cval newFlag)
          | child => some (true, .short nkey child newFlag)
        else some (false, .short nkey val flags)
  | fuel + 1, .full children flags, x :: key => do
      let i ← slot x
      let (dirty, nn) ← delete fuel (children i) key
      if dirty then
        if nn.isNil then do
          let n ← reduce db (Function.update children i nn)
          some (true, n)
        else some (true, .full (Function.update children i nn) newFlag)
      else some (false, .full children flags)
  | _ + 1, .full _ _, [] => none
  | _ + 1, .value _, _ => some (true, .nil)
  | _ + 1, .nil, _ => some (false, .nil)
  | fuel + 1, .hash h, key => do
      let rn ← db.resolveHash h
      let (dirty, nn) ← delete fuel rn key
      some (if dirty then (true, nn) else (false, rn))

/-- The first loop of `Prove`. What it loads is not kept. -/
def proofNodes : ℕ → Live → Bytes → Option (List Live)
  | _, _, [] => some []
  | _, .nil, _ :: _ => some []
  | 0, _, _ :: _ => none
  | fuel + 1, .short nkey val flags, x :: key =>
      if (x :: key).take nkey.length = nkey then do
        let nodes ← proofNodes fuel val ((x :: key).drop nkey.length)
        some (.short nkey val flags :: nodes)
      else some [.short nkey val flags]
  | fuel + 1, .full children flags, x :: key => do
      let i ← slot x
      let nodes ← proofNodes fuel (children i) key
      some (.full children flags :: nodes)
  | fuel + 1, .hash h, x :: key => do
      let rn ← db.resolveHash h
      proofNodes fuel rn (x :: key)
  | _ + 1, .value _, _ :: _ => none

end Operations

/-! ## Hashing and committing -/

section Hashing

variable (keccak : Bytes → Hash)

/-- `hasher.hash`: the node as it stands in its parent, and the node with the hashes that are
known now. -/
def hasher : Bool → Live → Node × Live
  | force, .short key val flags =>
      match flags.hash with
      | some h => (.hash h, .short key val flags)
      | none =>
          let (cval, hval) := if val.isInner then hasher false val else (val.simplifyNode, val)
          let hashed := toHash keccak (.short (hexToCompact key) cval) force
          (hashed, .short key hval ⟨hashed.asHash, flags.dirty⟩)
  | force, .full children flags =>
      match flags.hash with
      | some h => (.hash h, .full children flags)
      | none =>
          let hashed := toHash keccak (.full fun i =>
            if i = Fin.last 16 then (children i).simplifyNode
            else if (children i).isNil then .value []
            else (hasher false (children i)).1) force
          (hashed, .full (fun i =>
            if i = Fin.last 16 then children i else (hasher false (children i)).2)
            ⟨hashed.asHash, flags.dirty⟩)
  | _, n => (n.simplifyNode, n)

/-- `hashShortNodeChildren` and `hashFullNodeChildren`, the collapsed node. -/
def hashChildren : Live → Node
  | .short key val _ => .short (hexToCompact key)
      (if val.isInner then (hasher keccak false val).1 else val.simplifyNode)
  | .full children _ => .full fun i =>
      if i = Fin.last 16 then (children i).simplifyNode
      else if (children i).isNil then .value []
      else (hasher keccak false (children i)).1
  | n => n.simplifyNode

end Hashing

/-- `store`: a node without a hash stays in its parent. -/
def store (collapsed : Live) (childCommitted : ℕ) (db : Database) : Live × ℕ × Database :=
  match collapsed.cache.1 with
  | none => (collapsed, childCommitted, db)
  | some h => (.hash h, childCommitted + 1, db.insert (bytesToHash h) collapsed.simplifyNode)

/-- `commit` of a committer: the node as it stands in its parent, and the number of nodes
written. -/
def commit : Live → Database → Option (Live × ℕ × Database)
  | .short key val flags, db =>
      match flags.hash, flags.dirty with
      | some h, false => some (.hash h, 0, db)
      | _, _ => do
          let (val', committed, db) ← if val.isFull then commit val db else some (val, 0, db)
          some (store (.short (hexToCompact key) val' flags) committed db)
  | .full children flags, db =>
      match flags.hash, flags.dirty with
      | some h, false => some (.hash h, 0, db)
      | _, _ => do
          -- `commitChildren`
          let (kids, committed, db) ← (List.finRange 16).foldlM
            (fun (acc : (Fin 17 → Live) × ℕ × Database) i =>
              if (children i.castSucc).isNil then some acc
              else if (children i.castSucc).isHash then
                some (Function.update acc.1 i.castSucc (children i.castSucc), acc.2)
              else do
                let (hashed, n, db) ← commit (children i.castSucc) acc.2.2
                some (Function.update acc.1 i.castSucc hashed, acc.2.1 + n, db))
            (fun _ => .nil, 0, db)
          let kids := Function.update kids (Fin.last 16) (children (Fin.last 16))
          some (store (.full kids flags) committed db)
  | .hash h, db => some (.hash h, 0, db)
  | _, _ => none

end Live

/-! ## Tries over a database -/

/-- `Trie`. -/
structure OpenTrie where
  root : Live
  db : Database

/-- `New`. -/
def newTrie (root : Hash) (db : Database) : Option OpenTrie :=
  if root = 0 ∨ root = emptyRoot then some ⟨.nil, db⟩
  else (db.resolveHash root.bytes).map fun n => ⟨n, db⟩

namespace OpenTrie

/-- Enough for a node and the hash in its place, for every symbol of a key. -/
def fuel (key : Bytes) : ℕ := 2 * key.length + 1

/-- `TryGet`. -/
def tryGet (t : OpenTrie) (key : Bytes) : Option (Option Bytes × OpenTrie) := do
  let k := keybytesToHex key
  let (v, newroot, didResolve) ← t.root.tryGet t.db (fuel k) k
  some (v, { t with root := if didResolve then newroot else t.root })

/-- `TryUpdate`. -/
def tryUpdate (t : OpenTrie) (key value : Bytes) : Option OpenTrie := do
  let k := keybytesToHex key
  let (_, n) ← if value = [] then t.root.delete t.db (fuel k) k
    else t.root.insert t.db value (fuel k) k
  some { t with root := n }

/-- `TryDelete`. -/
def tryDelete (t : OpenTrie) (key : Bytes) : Option OpenTrie := do
  let k := keybytesToHex key
  let (_, n) ← t.root.delete t.db (fuel k) k
  some { t with root := n }

variable (keccak : Bytes → Hash)

/-- `Hash`. -/
def hash (t : OpenTrie) : Option (Hash × OpenTrie) :=
  if t.root.isNil then some (emptyRoot, t)
  else match t.root.hasher keccak true with
    | (.hash h, cached) => some (bytesToHash h, { t with root := cached })
    | _ => none

/-- `Commit`: the hash, and the number of nodes written. -/
def commit (t : OpenTrie) : Option (Hash × ℕ × OpenTrie) :=
  if t.root.isNil then some (emptyRoot, 0, t)
  else do
    let (rootHash, t) ← t.hash keccak
    if t.root.cache.2 = false then some (rootHash, 0, t)
    else match ← t.root.commit t.db with
      | (.hash h, committed, db) => some (rootHash, committed, ⟨.hash h, db⟩)
      | _ => none

/-- `Prove`. -/
def prove (t : OpenTrie) (key : Bytes) : Option (List Bytes) := do
  let k := keybytesToHex key
  let nodes ← t.root.proofNodes t.db (fuel k) k
  some (nodes.zipIdx.filterMap fun (n, i) =>
    let enc := (n.hashChildren keccak).encode
    if 32 ≤ enc.length ∨ i = 0 then some enc else none)

end OpenTrie

end Trie

end LessChain
