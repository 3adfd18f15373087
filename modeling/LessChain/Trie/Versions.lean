import LessChain.Trie.Persistence

/-!
# A trie and its database as a map with versions

The trie of `trie/trie.go` loads nodes from the database when a call needs them, keeps hashes and
dirty flags in the nodes it has loaded, and after `Commit` is a hash only. Here its calls are run
one after the other, with `New` on a root that was committed before, with `Commit` of the
database, and with a new database over the same disk. `Versions` is what all this is for: a map,
and the maps of earlier commits.

* `Tracks.call`: each call keeps the relation between the two.
* `trie_follows_versions`: every run of calls has the responses of the map with versions.
-/

namespace LessChain

namespace Trie

variable {keccak : Bytes → Hash} {S : Set Bytes} {db db' : Database} {hashed : Bool} {l : Live}
  {n : Node} {batchFull : List (Hash × Bytes) → Bool} {fuel : ℕ}

/-! ## Calls on a trie and its database -/

/-- What is called on a trie and its database. `new` leaves the trie for another one of the
database, `flush` is `Commit` of the database, and after `restart` only what is on the disk is
left. -/
inductive Call where
  | write (w : Write)
  | get (key : Bytes)
  | hash
  | commit
  | prove (key : Bytes)
  | new (root : Hash)
  | flush (root : Hash)
  | restart (root : Hash)
deriving DecidableEq, Repr

inductive Response where
  | done
  | value (v : Option Bytes)
  | root (h : Hash)
  | proof (elems : List Bytes)
deriving DecidableEq, Repr

/-- The calls one after the other, until one fails. -/
def runCalls {σ : Type} (call : σ → Call → Option (Response × σ)) :
    σ → List Call → Option (List Response × σ)
  | s, [] => some ([], s)
  | s, c :: cs => do
      let (a, s) ← call s c
      let (as, s) ← runCalls call s cs
      some (a :: as, s)

/-- A call on a trie that loads its nodes. -/
def OpenTrie.call (keccak : Bytes → Hash) (batchFull : List (Hash × Bytes) → Bool) (fuel : ℕ)
    (t : OpenTrie) : Call → Option (Response × OpenTrie)
  | .write (.update key value) => (t.tryUpdate key value).map fun t => (.done, t)
  | .write (.delete key) => (t.tryDelete key).map fun t => (.done, t)
  | .get key => (t.tryGet key).map fun r => (.value r.1, r.2)
  | .hash => (t.hash keccak).map fun r => (.root r.1, r.2)
  | .commit => (t.commit keccak).map fun r => (.root r.1, r.2.2)
  | .prove key => (t.prove keccak key).map fun elems => (.proof elems, t)
  | .new root => (newTrie root t.db).map fun t => (.done, t)
  | .flush root => (t.db.commit batchFull fuel root).map fun db => (.done, { t with db := db })
  | .restart root => (newTrie root (newDatabase t.db.diskdb)).map fun t => (.done, t)

/-- A map with versions, each as the writes that made it: the map in use, those that are saved,
those that are on the disk, and all that were ever committed. -/
structure Versions where
  cur : List Write
  saved : List (List Write)
  flushed : List (List Write)
  committed : List (List Write)
deriving DecidableEq, Repr

/-- The trie of the map that the writes make. -/
def trieOf (ws : List Write) : Node := (runWrites ws).getD .nil

variable (keccak) in
/-- A version with this root hash. -/
def withRoot (root : Hash) (vs : List (List Write)) : Option (List Write) :=
  vs.find? fun ws => rootHash keccak (trieOf ws) = root

variable (keccak) in
/-- The version that `New` opens: the two hashes of an empty trie need none. -/
def openRoot (root : Hash) (vs : List (List Write)) : Option (List Write) :=
  if root = 0 ∨ root = emptyRoot then some [] else withRoot keccak root vs

/-- What the call is for. -/
def Versions.call (keccak : Bytes → Hash) (s : Versions) : Call → Option (Response × Versions)
  | .write w => some (.done, { s with cur := s.cur ++ [w] })
  | .get key => some (.value (contents s.cur key), s)
  | .hash => some (.root (rootHash keccak (trieOf s.cur)), s)
  | .commit => some (.root (rootHash keccak (trieOf s.cur)),
      { s with saved := s.cur :: s.saved, committed := s.cur :: s.committed })
  | .prove key => (prove keccak (trieOf s.cur) key).map fun elems => (.proof elems, s)
  | .new root => (openRoot keccak root s.saved).map fun ws => (.done, { s with cur := ws })
  | .flush root => (withRoot keccak root s.saved).map fun ws =>
      (.done, { s with flushed := ws :: s.flushed })
  | .restart root => (openRoot keccak root s.flushed).map fun ws =>
      (.done, { s with cur := ws, saved := s.flushed })

/-- The byte strings as which the nodes of the tries are stored. -/
def storedForms (keccak : Bytes → Hash) (vs : List (List Write)) : List Bytes :=
  vs.flatMap fun ws => (subnodes (trieOf ws)).map (enc keccak)

theorem refines_trieOf (ws : List Write) : Refines (trieOf ws) (contents ws) := by
  rcases refines_runWrites ws with ⟨root, hrun, href⟩
  rw [trieOf, hrun]
  exact href

theorem canon_trieOf (ws : List Write) : trieOf ws ≠ .nil → Canon (trieOf ws) :=
  (refines_trieOf ws).canon.resolve_left

theorem run_trieOf (ws : List Write) (w : Write) :
    w.run (trieOf ws) = some (trieOf (ws ++ [w])) := by
  rcases refines_runWrites ws with ⟨root, hrun, href⟩
  rcases href.write w with ⟨root', hrun', -⟩
  have happ : runWrites (ws ++ [w]) = some root' := by
    rw [runWrites, List.foldlM_append]
    rw [runWrites] at hrun
    rw [hrun]
    simp [hrun']
  rw [trieOf, trieOf, hrun, happ]
  exact hrun'

theorem known_trieOf {vs : List (List Write)} (hsub : ∀ b ∈ storedForms keccak vs, b ∈ S)
    {ws : List Write} (hws : ws ∈ vs) (hne : trieOf ws ≠ .nil) : Known keccak S (trieOf ws) := by
  refine ⟨(refines_trieOf ws).isHex.resolve_left hne, fun m hm => hsub _ ?_⟩
  exact List.mem_flatMap.mpr ⟨ws, hws, List.mem_map_of_mem hm⟩

/-! ## The trie tracks the map -/

variable (keccak S) in
/-- The trie of a version is in the database, and `fuel` suffices to walk over it. -/
structure Saved (fuel : ℕ) (db : Database) (ws : List Write) : Prop where
  small : (subnodes (trieOf ws)).length < fuel
  stored : trieOf ws ≠ .nil → Known keccak S (trieOf ws) ∧ Stored keccak db (trieOf ws)

theorem Saved.mono {ws : List Write} (h : Saved keccak S fuel db ws)
    (hle : ∀ h, db.Has h → db'.Has h) : Saved keccak S fuel db' ws :=
  ⟨h.small, fun hne => ⟨(h.stored hne).1, (h.stored hne).2.mono hle⟩⟩

variable (keccak S) in
/-- The trie in memory is that of the map, the versions that are saved are in the database, and
those that are flushed are in a database that has only what is on the disk. -/
structure Tracks (fuel : ℕ) (t : OpenTrie) (s : Versions) : Prop where
  flushing : Flushing keccak S (t.db, [])
  rep : Rep keccak S t.db true false t.root (trieOf s.cur)
  saved : ∀ ws ∈ s.saved, Saved keccak S fuel t.db ws
  flushed : ∀ ws ∈ s.flushed, Saved keccak S fuel (newDatabase t.db.diskdb) ws

variable {t : OpenTrie} {s : Versions}

theorem Tracks.ok (h : Tracks keccak S fuel t s) : t.db.Ok keccak S := h.flushing.ok

/-- Only the root in memory has changed. -/
theorem Tracks.with_root (h : Tracks keccak S fuel t s) {ws : List Write}
    (hrep : Rep keccak S t.db true hashed l (trieOf ws)) :
    Tracks keccak S fuel { t with root := l } { s with cur := ws } :=
  ⟨h.flushing, hrep.weaken, h.saved, h.flushed⟩

theorem Tracks.write (h : Tracks keccak S fuel t s) (hS : Separated keccak S) (w : Write) :
    ∃ t', t.call keccak batchFull fuel (.write w) = some (.done, t') ∧
      Tracks keccak S fuel t' { s with cur := s.cur ++ [w] } := by
  have hrun := run_trieOf s.cur w
  have hdelete : ∀ {key n'}, tryDelete (trieOf s.cur) key = some n' →
      ∃ dirty l', t.root.delete t.db (OpenTrie.fuel (keybytesToHex key)) (keybytesToHex key) =
        some (dirty, l') ∧ Rep keccak S t.db true false l' n' := by
    intro key n' hdel
    rw [tryDelete, Option.map_eq_some_iff] at hdel
    rcases hdel with ⟨⟨dirty, m⟩, hdel, rfl⟩
    rcases h.rep.delete_follows hS h.ok (canon_trieOf s.cur)
      (fun _ => isTerm_keybytesToHex key) le_rfl dirty m hdel with ⟨l', hl', hrep, -⟩
    exact ⟨dirty, l', hl', hrep⟩
  cases w with
  | delete key =>
      rcases hdelete hrun with ⟨dirty, l', hl', hrep⟩
      exact ⟨{ t with root := l' }, by simp [OpenTrie.call, OpenTrie.tryDelete, hl'],
        h.with_root hrep⟩
  | update key value =>
      rw [Write.run, tryUpdate] at hrun
      -- `TryUpdate` with an empty value deletes
      by_cases hv : value = []
      · rw [if_pos hv] at hrun
        rcases hdelete hrun with ⟨dirty, l', hl', hrep⟩
        exact ⟨{ t with root := l' }, by simp [OpenTrie.call, OpenTrie.tryUpdate, hv, hl'],
          h.with_root hrep⟩
      · rw [if_neg hv, Option.map_eq_some_iff] at hrun
        rcases hrun with ⟨⟨dirty, m⟩, hins, hm⟩
        rcases h.rep.insert_follows hS h.ok (canon_trieOf s.cur)
          (fun _ => isTerm_keybytesToHex key) le_rfl dirty m hins with ⟨l', hl', hrep, -⟩
        rw [show m = _ from hm] at hrep
        refine ⟨{ t with root := l' }, ?_, h.with_root hrep⟩
        simp [OpenTrie.call, OpenTrie.tryUpdate, hv, OpenTrie.fuel, hl']

theorem Tracks.get (h : Tracks keccak S fuel t s) (hS : Separated keccak S) (key : Bytes) :
    ∃ t', t.call keccak batchFull fuel (.get key) = some (.value (contents s.cur key), t') ∧
      Tracks keccak S fuel t' s := by
  rcases h.rep.gets hS h.ok (canon_trieOf s.cur) (fun _ => isTerm_keybytesToHex key) le_rfl with
    ⟨l', did, hget, hrep⟩
  have hval := (refines_trieOf s.cur).get_eq key
  rw [Trie.get] at hval
  rw [hval] at hget
  refine ⟨{ t with root := if did then l' else t.root }, ?_, ?_⟩
  · simp [OpenTrie.call, OpenTrie.tryGet, OpenTrie.fuel, hget]
  · cases did with
    | true => exact h.with_root hrep
    | false => exact h

theorem hashedForm_root (hn : n.isInner = true) :
    hashedForm keccak true n = .hash (nodeHash keccak n) := by
  rw [hashedForm, if_pos hn, toHash_of_sized (.inl rfl)]

theorem Live.eq_nil_of_isNil (h : l.isNil = true) : l = .nil := by
  cases l <;> first | rfl | cases h

/-- `Hash` leaves a trie whose nodes are hashed. -/
theorem Tracks.hash_root (h : Tracks keccak S fuel t s) : ∃ l,
    t.hash keccak = some (rootHash keccak (trieOf s.cur), { t with root := l }) ∧
      Rep keccak S t.db true true l (trieOf s.cur) := by
  have hnil := h.rep.isNil_eq
  rcases (refines_trieOf s.cur).isHex with heq | hhex
  · rw [heq] at hnil ⊢
    refine ⟨t.root, ?_, ?_⟩
    · rw [OpenTrie.hash, if_pos (show t.root.isNil = true from hnil)]
      rfl
    · rw [Live.eq_nil_of_isNil hnil]
      exact .nil
  · have hhashes := h.rep.hashes (canon_trieOf s.cur)
    rw [Hashes, hashedForm_root hhex.isInner] at hhashes
    rw [Node.isNil_of_isInner hhex.isInner] at hnil
    refine ⟨(t.root.hasher keccak true).2, ?_, hhashes.2⟩
    rw [OpenTrie.hash, if_neg (Bool.eq_false_iff.mp hnil), rootHash_of_isHex hhex]
    rw [show t.root.hasher keccak true = (.hash (nodeHash keccak (trieOf s.cur)),
      (t.root.hasher keccak true).2) from Prod.ext hhashes.1 rfl]
    simp only [nodeHash, bytesToHash_bytes]

theorem Tracks.hash (h : Tracks keccak S fuel t s) : ∃ t',
    t.call keccak batchFull fuel .hash = some (.root (rootHash keccak (trieOf s.cur)), t') ∧
      Tracks keccak S fuel t' s := by
  rcases h.hash_root with ⟨l, hhash, hrep⟩
  exact ⟨{ t with root := l }, by simp [OpenTrie.call, hhash], h.with_root hrep⟩

/-- The elements of a proof, from the collapsed nodes on the path. -/
def proofElems (nodes : List Node) : List Bytes :=
  nodes.zipIdx.filterMap fun p =>
    if 32 ≤ p.1.encode.length ∨ p.2 = 0 then some p.1.encode else none

theorem proofElems_map {α : Type} (f : α → Node) (xs : List α) :
    proofElems (xs.map f) = xs.zipIdx.filterMap fun p =>
      if 32 ≤ (f p.1).encode.length ∨ p.2 = 0 then some (f p.1).encode else none := by
  rw [proofElems, List.zipIdx_map, List.filterMap_map]
  rfl

theorem Tracks.prove (h : Tracks keccak S fuel t s) (hS : Separated keccak S) {key : Bytes}
    {elems : List Bytes} (hprove : Trie.prove keccak (trieOf s.cur) key = some elems) :
    t.call keccak batchFull fuel (.prove key) = some (.proof elems, t) := by
  rw [Trie.prove, Option.bind_eq_bind, Option.bind_eq_some_iff] at hprove
  rcases hprove with ⟨ns, hns, helems⟩
  rcases h.rep.proves hS h.ok (canon_trieOf s.cur) (fun _ => isTerm_keybytesToHex key) le_rfl
    ns hns with ⟨ls, hls, hmap⟩
  have heq := congrArg proofElems hmap
  rw [proofElems_map, proofElems_map] at heq
  have hopen : t.prove keccak key = some elems := by
    rw [OpenTrie.prove, Option.bind_eq_bind, OpenTrie.fuel, hls, ← helems]
    exact congrArg some heq
  rw [OpenTrie.call, hopen]
  rfl

theorem mem_of_withRoot {root : Hash} {vs : List (List Write)} {ws : List Write}
    (h : withRoot keccak root vs = some ws) :
    ws ∈ vs ∧ rootHash keccak (trieOf ws) = root :=
  ⟨List.mem_of_find?_eq_some h, by simpa using List.find?_some h⟩

/-- `New` finds a saved trie. -/
theorem newTrie_eq (hS : Separated keccak S) (hdb : db.Ok keccak S) {root : Hash}
    {vs : List (List Write)} (hvs : ∀ ws ∈ vs, Saved keccak S fuel db ws) {ws : List Write}
    (h : openRoot keccak root vs = some ws) : ∃ l, newTrie root db = some ⟨l, db⟩ ∧
      Rep keccak S db true false l (trieOf ws) := by
  rw [openRoot] at h
  by_cases hroot : root = 0 ∨ root = emptyRoot
  · rw [if_pos hroot] at h
    cases h
    exact ⟨.nil, by rw [newTrie, if_pos hroot], .nil⟩
  · rw [if_neg hroot] at h
    rcases mem_of_withRoot h with ⟨hws, heq⟩
    have hne : trieOf ws ≠ .nil := by
      intro hnil
      rw [hnil] at heq
      exact hroot (.inr heq.symm)
    rcases (hvs ws hws).stored hne with ⟨hknown, hst⟩
    have hres := hdb.resolveHash_eq hS hknown hst.1
    rw [rootHash_of_isHex hknown.isHex] at heq
    rw [nodeHash, heq] at hres
    refine ⟨loaded keccak (trieOf ws), ?_, (rep_loaded hknown (.inl rfl) hst).weaken⟩
    rw [newTrie, if_neg hroot, hres]
    rfl

theorem Tracks.new (h : Tracks keccak S fuel t s) (hS : Separated keccak S) {root : Hash}
    {ws : List Write} (hopen : openRoot keccak root s.saved = some ws) :
    ∃ t', t.call keccak batchFull fuel (.new root) = some (.done, t') ∧
      Tracks keccak S fuel t' { s with cur := ws } := by
  rcases newTrie_eq hS h.ok h.saved hopen with ⟨l, hnew, hrep⟩
  refine ⟨⟨l, t.db⟩, ?_, h.with_root hrep⟩
  rw [OpenTrie.call, hnew]
  rfl

/-- What is said about a flush depends on the disk only. -/
theorem Flushing.of_diskdb (h : Flushing keccak S (db, [])) (hdb : db'.Ok keccak S)
    (hdisk : db'.diskdb = db.diskdb) : Flushing keccak S (db', []) := by
  refine ⟨hdb, h.batch, ?_⟩
  have hclosed := h.closed
  simp only [OnDisk] at hclosed ⊢
  rwa [hdisk]

theorem Database.Ok.newDatabase (h : db.Ok keccak S) :
    (Trie.newDatabase db.diskdb).Ok keccak S := by
  refine ⟨fun hr => ?_, h.diskdb⟩
  cases hr

theorem Tracks.restart (h : Tracks keccak S fuel t s) (hS : Separated keccak S) {root : Hash}
    {ws : List Write} (hopen : openRoot keccak root s.flushed = some ws) :
    ∃ t', t.call keccak batchFull fuel (.restart root) = some (.done, t') ∧
      Tracks keccak S fuel t' { s with cur := ws, saved := s.flushed } := by
  rcases newTrie_eq hS h.ok.newDatabase h.flushed hopen with ⟨l, hnew, hrep⟩
  refine ⟨⟨l, newDatabase t.db.diskdb⟩, ?_, h.flushing.of_diskdb h.ok.newDatabase rfl, hrep,
    h.flushed, h.flushed⟩
  rw [OpenTrie.call, hnew]
  rfl

theorem OnDisk.has {h : Hash} (hdisk : OnDisk (db, []) h) : (newDatabase db.diskdb).Has h := by
  rcases hdisk with hdisk | ⟨b, hb⟩
  · exact .inr hdisk
  · cases hb

/-- No version is lost when nodes move to the disk. -/
theorem Tracks.advance (h : Tracks keccak S fuel t s) (hf : Flushing keccak S (db', []))
    (hadv : Advances (t.db, []) (db', [])) : Tracks keccak S fuel { t with db := db' } s := by
  refine ⟨hf, h.rep.mono id hadv.has, fun ws hws => (h.saved ws hws).mono hadv.has,
    fun ws hws => (h.flushed ws hws).mono fun x hx => ?_⟩
  rcases hx with hx | hx
  · cases hx
  · exact (hadv.onDisk x (.inl hx)).has

theorem Tracks.flush (h : Tracks keccak S fuel t s) (hS : Separated keccak S) {root : Hash}
    {ws : List Write} (hroot : withRoot keccak root s.saved = some ws) :
    ∃ t', t.call keccak batchFull fuel (.flush root) = some (.done, t') ∧
      Tracks keccak S fuel t' { s with flushed := ws :: s.flushed } := by
  rcases mem_of_withRoot hroot with ⟨hws, rfl⟩
  have hsaved := h.saved ws hws
  -- the new version is on the disk, the others stay there
  have hnew : ∀ db', Flushing keccak S (db', []) → Advances (t.db, []) (db', []) →
      (trieOf ws ≠ .nil → OnDisk (db', []) (keccak (enc keccak (trieOf ws)))) →
      Tracks keccak S fuel { t with db := db' } { s with flushed := ws :: s.flushed } := by
    intro db' hf hadv hdisk
    have htracks := h.advance hf hadv
    refine ⟨hf, htracks.rep, htracks.saved, fun v hv => ?_⟩
    rcases List.mem_cons.mp hv with rfl | hv
    · refine ⟨hsaved.small, fun hne => ?_⟩
      have hknown := (hsaved.stored hne).1
      exact ⟨hknown, (hdisk hne).has, fun m hm hlen =>
        (hf.closed _ hknown (hdisk hne) m hm hlen).has⟩
    · exact htracks.flushed v hv
  by_cases hne : trieOf ws = .nil
  · -- the hash of the empty trie has no node
    refine ⟨{ t with db := t.db }, ?_, hnew t.db h.flushing (.refl _) fun hne' => absurd hne hne'⟩
    have hdirty : t.db.dirties emptyRoot = none := by
      by_contra hsome
      rcases Option.ne_none_iff_exists'.mp hsome with ⟨r, hr⟩
      rcases h.ok.dirties hr with ⟨m, hm, heq, -⟩
      exact hS.ne_emptyRoot _ hm.enc_mem heq.symm
    have hcommit : t.db.commit batchFull fuel emptyRoot = some t.db := by
      cases hfuel : fuel with
      | zero =>
          have hlt := hsaved.small
          omega
      | succ k =>
          rw [Database.commit, Database.commitNode, if_neg (by decide), hdirty]
          rfl
    rw [OpenTrie.call, hne, show rootHash keccak .nil = emptyRoot from rfl, hcommit]
    rfl
  · rcases hsaved.stored hne with ⟨hknown, hst⟩
    rcases @Database.commit_spec keccak S t.db _ batchFull fuel hS h.flushing hknown hst
      hsaved.small.le with ⟨db', hcommit, hf, hadv, hdisk⟩
    refine ⟨{ t with db := db' }, ?_, hnew db' hf hadv fun _ => hdisk⟩
    rw [OpenTrie.call, rootHash_of_isHex hknown.isHex, hcommit]
    rfl

/-- A root that is not dirty is in the database. -/
theorem Rep.stored_of_clean (h : Rep keccak S db true true l n) (hn : n.isInner = true)
    (hclean : l.cache.2 = false) : Known keccak S n ∧ Stored keccak db n := by
  cases h with
  | nil => cases hn
  | value => cases hn
  | hash hk _ hst => exact ⟨hk, hst⟩
  | short hf _ => exact hf.clean (hf.hashed rfl (.inl rfl)) hclean
  | full hf _ => exact hf.clean (hf.hashed rfl (.inl rfl)) hclean

/-- The database keeps what it had and has the trie too. -/
theorem Tracks.grow (h : Tracks keccak S fuel t s) {t' : OpenTrie} (hdb : t'.db.Ok keccak S)
    (hle : ∀ h, t.db.Has h → t'.db.Has h) (hdisk : t'.db.diskdb = t.db.diskdb)
    (hrep : Rep keccak S t'.db true false t'.root (trieOf s.cur))
    (hsaved : Saved keccak S fuel t'.db s.cur) :
    Tracks keccak S fuel t'
      { s with saved := s.cur :: s.saved, committed := s.cur :: s.committed } := by
  refine ⟨h.flushing.of_diskdb hdb hdisk, hrep, fun ws hws => ?_, ?_⟩
  · rcases List.mem_cons.mp hws with rfl | hws
    · exact hsaved
    · exact (h.saved ws hws).mono hle
  · rw [hdisk]
    exact h.flushed

theorem Tracks.commit (h : Tracks keccak S fuel t s) (hS : Separated keccak S)
    (hsmall : (subnodes (trieOf s.cur)).length < fuel)
    (hknown : trieOf s.cur ≠ .nil → Known keccak S (trieOf s.cur)) : ∃ t',
    t.call keccak batchFull fuel .commit = some (.root (rootHash keccak (trieOf s.cur)), t') ∧
      Tracks keccak S fuel t'
        { s with saved := s.cur :: s.saved, committed := s.cur :: s.committed } := by
  have hnil := h.rep.isNil_eq
  rcases (refines_trieOf s.cur).isHex with heq | hhex
  · refine ⟨t, ?_, h.grow h.ok (fun _ => id) rfl h.rep ⟨hsmall, fun hne => absurd heq hne⟩⟩
    rw [heq] at hnil ⊢
    rw [OpenTrie.call, OpenTrie.commit, if_pos (show t.root.isNil = true from hnil)]
    rfl
  · rw [Node.isNil_of_isInner hhex.isInner] at hnil
    have hknown : Known keccak S (trieOf s.cur) := hknown fun heq => by
      rw [heq] at hhex
      cases hhex
    rcases h.hash_root with ⟨l, hhash, hrep⟩
    rw [OpenTrie.call, OpenTrie.commit, if_neg (Bool.eq_false_iff.mp hnil), hhash]
    by_cases hclean : l.cache.2 = false
    · refine ⟨{ t with root := l }, by simp [hclean],
        h.grow h.ok (fun _ => id) rfl hrep.weaken ⟨hsmall, fun _ => ?_⟩⟩
      exact hrep.stored_of_clean hhex.isInner hclean
    · rcases hrep.commits hS rfl hknown t.db h.ok (fun _ => id) with
        ⟨res, committed, db', hcommit, hcom⟩
      have hres := hcom.sized (.inl rfl)
      have hst : Stored keccak db' (trieOf s.cur) := ⟨hres.2, hcom.kept⟩
      refine ⟨⟨.hash (nodeHash keccak (trieOf s.cur)), db'⟩, ?_, h.grow hcom.ok hcom.le hcom.diskdb
        (.hash hknown (.inl rfl) hst) ⟨hsmall, fun _ => ⟨hknown, hst⟩⟩⟩
      rw [hres.1] at hcommit
      simp [hclean, hcommit]

/-! ## Runs -/

variable {cs : List Call} {as : List Response} {s' : Versions}

/-- One call, if all that was ever committed is stored as byte strings of `S`. -/
theorem Tracks.call (h : Tracks keccak S fuel t s) (hS : Separated keccak S) {c : Call}
    {a : Response} (hcall : s.call keccak c = some (a, s'))
    (hsub : ∀ b ∈ storedForms keccak s'.committed, b ∈ S)
    (hfuel : ∀ ws ∈ s'.committed, (subnodes (trieOf ws)).length < fuel) :
    ∃ t', t.call keccak batchFull fuel c = some (a, t') ∧ Tracks keccak S fuel t' s' := by
  cases c with
  | write w =>
      cases hcall
      exact h.write hS w
  | get key =>
      cases hcall
      exact h.get hS key
  | hash =>
      cases hcall
      exact h.hash
  | commit =>
      cases hcall
      exact h.commit hS (hfuel _ List.mem_cons_self) (known_trieOf hsub List.mem_cons_self)
  | prove key =>
      rcases Option.map_eq_some_iff.mp hcall with ⟨elems, hprove, heq⟩
      cases heq
      exact ⟨t, h.prove hS hprove, h⟩
  | new root =>
      rcases Option.map_eq_some_iff.mp hcall with ⟨ws, hopen, heq⟩
      cases heq
      exact h.new hS hopen
  | flush root =>
      rcases Option.map_eq_some_iff.mp hcall with ⟨ws, hroot, heq⟩
      cases heq
      exact h.flush hS hroot
  | restart root =>
      rcases Option.map_eq_some_iff.mp hcall with ⟨ws, hopen, heq⟩
      cases heq
      exact h.restart hS hopen

theorem Versions.committed_call {c : Call} {a : Response}
    (hcall : s.call keccak c = some (a, s')) : s.committed ⊆ s'.committed := by
  cases c with
  | write | get | hash =>
      cases hcall
      exact fun _ => id
  | commit =>
      cases hcall
      exact fun _ => List.mem_cons_of_mem _
  | prove | new | flush | restart =>
      rcases Option.map_eq_some_iff.mp hcall with ⟨_, _, heq⟩
      cases heq
      exact fun _ => id

/-- The calls one after the other, and what the first one and the others do. -/
theorem runCalls_cons {σ : Type} {call : σ → Call → Option (Response × σ)} {s s' : σ} {c : Call}
    (h : runCalls call s (c :: cs) = some (as, s')) :
    ∃ a s₁ as', call s c = some (a, s₁) ∧ runCalls call s₁ cs = some (as', s') ∧ as = a :: as' := by
  rw [runCalls, Option.bind_eq_bind, Option.bind_eq_some_iff] at h
  rcases h with ⟨⟨a, s₁⟩, hcall, h⟩
  dsimp only at h
  rw [Option.bind_eq_bind, Option.bind_eq_some_iff] at h
  rcases h with ⟨⟨as', s₂⟩, hrun, heq⟩
  cases heq
  exact ⟨a, s₁, as', hcall, hrun, rfl⟩

theorem committed_runCalls (hrun : runCalls (Versions.call keccak) s cs = some (as, s')) :
    s.committed ⊆ s'.committed := by
  induction cs generalizing s as with
  | nil =>
      cases hrun
      exact fun _ => id
  | cons c cs ih =>
      rcases runCalls_cons hrun with ⟨a, s₁, as', hcall, hrun, -⟩
      exact fun ws hws => ih hrun (Versions.committed_call hcall hws)

theorem storedForms_subset {vs vs' : List (List Write)} (h : vs ⊆ vs') :
    storedForms keccak vs ⊆ storedForms keccak vs' := by
  intro b hb
  rcases List.mem_flatMap.mp hb with ⟨ws, hws, hb⟩
  exact List.mem_flatMap.mpr ⟨ws, h hws, hb⟩

theorem Tracks.run (hS : Separated keccak S)
    (h : Tracks keccak S fuel t s)
    (hrun : runCalls (Versions.call keccak) s cs = some (as, s'))
    (hsub : ∀ b ∈ storedForms keccak s'.committed, b ∈ S)
    (hfuel : ∀ ws ∈ s'.committed, (subnodes (trieOf ws)).length < fuel) :
    ∃ t', runCalls (OpenTrie.call keccak batchFull fuel) t cs = some (as, t') ∧
      Tracks keccak S fuel t' s' := by
  induction cs generalizing s t as with
  | nil =>
      cases hrun
      exact ⟨t, rfl, h⟩
  | cons c cs ih =>
      rcases runCalls_cons hrun with ⟨a, s₁, as', hcall, hrun', rfl⟩
      have hle := committed_runCalls hrun'
      have hstep : ∃ t₁, t.call keccak batchFull fuel c = some (a, t₁) ∧
          Tracks keccak S fuel t₁ s₁ :=
        h.call hS hcall (fun b hb => hsub b (storedForms_subset hle hb))
          fun ws hws => hfuel ws (hle hws)
      rcases hstep with ⟨t₁, hopen, h₁⟩
      rcases ih h₁ hrun' with ⟨t', hrest, h'⟩
      exact ⟨t', by simp [runCalls, hopen, hrest], h'⟩

theorem tracks_new : Tracks keccak S fuel ⟨.nil, newDatabase fun _ => none⟩ ⟨[], [], [], []⟩ := by
  refine ⟨⟨⟨fun hr => ?_, fun hb => ?_⟩, fun _ he => ?_, fun m _ hdisk => ?_⟩, .nil,
    fun _ hws => ?_, fun _ hws => ?_⟩
  · cases hr
  · cases hb
  · cases he
  · rcases hdisk with hdisk | ⟨b, hb⟩
    · cases hdisk
    · cases hb
  · cases hws
  · cases hws

/-- A trie that loads its nodes from the database when they are needed answers every run of
calls as a map with versions: what was committed is opened again by its root hash, and what was
flushed also after all that was in memory is lost. -/
theorem trie_follows_versions (keccak : Bytes → Hash) (batchFull : List (Hash × Bytes) → Bool)
    {cs : List Call} {as : List Response} {s : Versions} {fuel : ℕ}
    (hrun : runCalls (Versions.call keccak) ⟨[], [], [], []⟩ cs = some (as, s))
    (hsep : Separated keccak {b | b ∈ storedForms keccak s.committed})
    (hfuel : ∀ ws ∈ s.committed, (subnodes (trieOf ws)).length < fuel) :
    ∃ t, runCalls (OpenTrie.call keccak batchFull fuel) ⟨.nil, newDatabase fun _ => none⟩ cs =
      some (as, t) := by
  rcases tracks_new.run hsep hrun (fun _ => id) hfuel with ⟨t, ht, -⟩
  exact ⟨t, ht⟩

def firstWrites : List Write := [.update [0x11] (List.replicate 40 7), .update [0x21] [5]]

def secondWrites : List Write := firstWrites ++ [.update [0x11] [6]]

/-- The first version is flushed and the second is not. -/
def reopening : List Call :=
  firstWrites.map .write ++ [.commit, .flush (rootHash provedKeccak (trieOf firstWrites)),
    .write (.update [0x11] [6]), .commit, .get [0x11],
    .restart (rootHash provedKeccak (trieOf firstWrites)), .get [0x11], .get [0x12]]

theorem trie_follows_versions_reopening :
    ∃ t, runCalls (OpenTrie.call provedKeccak (fun _ => false) 8) ⟨.nil, newDatabase fun _ => none⟩
      reopening = some ([.done, .done, .root (rootHash provedKeccak (trieOf firstWrites)), .done,
        .done, .root (rootHash provedKeccak (trieOf secondWrites)), .value (some [6]), .done,
        .value (some (List.replicate 40 7)), .value none], t) := by
  have hsmall : ∀ b ∈ storedForms provedKeccak [secondWrites, firstWrites], b.length < 2 ^ 64 := by
    decide +kernel
  have hinj : ∀ a ∈ storedForms provedKeccak [secondWrites, firstWrites],
      ∀ b ∈ storedForms provedKeccak [secondWrites, firstWrites],
        provedKeccak a = provedKeccak b → a = b := by
    decide +kernel
  have hne : ∀ b ∈ storedForms provedKeccak [secondWrites, firstWrites],
      provedKeccak b ≠ 0 ∧ provedKeccak b ≠ emptyRoot := by
    decide +kernel
  exact trie_follows_versions provedKeccak (fun _ => false)
    (s := ⟨firstWrites, [firstWrites], [firstWrites], [secondWrites, firstWrites]⟩)
    (by decide +kernel) ⟨hsmall, fun a ha b hb => hinj a ha b hb, fun b hb => (hne b hb).1,
      fun b hb => (hne b hb).2⟩ (by decide +kernel)

end Trie

end LessChain
