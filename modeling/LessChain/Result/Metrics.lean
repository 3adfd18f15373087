import Mathlib.Data.Finset.Sort
import Mathlib.Order.Bounds.Basic
import LessChain.Result.Result

/-!
# The metrics of a run

`GetThroughtPutAndLatencyV2` (`result/result.go`) goes once through the transactions and keeps
the largest and the smallest latency with the transactions they belong to, and the time of the
last confirmation. Then it looks up the statuses of those two transactions.

The scan starts from sentinels. The ID of a transaction that was not found is `-1`, which is no
index; a latency of 0 is not larger than the largest so far, and one of 100000 or more is not
smaller than the smallest so far. The time the run began is taken from transaction 0, and a
transaction counts as confirmed if its confirm time is not 0. `exact_iff` says exactly for which
runs the metrics are what they are called.
-/

namespace LessChain.Result

/-- `uint64(x)` of an `int`. -/
def toU64 (x : ℤ) : ℕ := (x % 2 ^ 64).toNat

/-- State of the loop of `GetThroughtPutAndLatencyV2`. -/
structure Scan where
  latencys : List ℕ
  sum : ℕ
  maxLatency : ℤ
  maxLatencyID : ℤ
  minLatency : ℤ
  minLatencyID : ℤ
  endTime : ℕ

/-- The variables before the loop. -/
def Scan.start (totalnum : ℕ) : Scan where
  latencys := List.replicate totalnum 0
  sum := 0
  maxLatency := 0
  maxLatencyID := -1
  minLatency := 100000
  minLatencyID := -1
  endTime := 0

/-- The loop body for a transaction with this latency and confirm time. -/
def Scan.add (st : Scan) (i latency confirm : ℕ) : Scan where
  latencys := st.latencys.set i latency
  sum := addU64 st.sum latency
  maxLatency := if latency > toU64 st.maxLatency then toInt latency else st.maxLatency
  maxLatencyID := if latency > toU64 st.maxLatency then i else st.maxLatencyID
  minLatency := if latency < toU64 st.minLatency then toInt latency else st.minLatency
  minLatencyID := if latency < toU64 st.minLatency then i else st.minLatencyID
  endTime := if st.endTime < confirm then confirm else st.endTime

/-- One round of the loop; an index out of range panics. -/
def scanRound (res : Result) (st : Scan) (i : ℕ) : Option Scan := do
  let confirm ← res.confirmMap[i]?
  -- a transaction without a confirm time was not executed
  if confirm = 0 then some st
  else
    let broadcast ← res.broadcastMap[i]?
    if i < st.latencys.length then some (st.add i (subU64 confirm broadcast) confirm) else none

/-- `l[i]` with an `int` index. -/
def index {α : Type} (l : List α) (i : ℤ) : Option α :=
  if 0 ≤ i then l[i.toNat]? else none

/-- What `GetThroughtPutAndLatencyV2` reports. The three quotients of floating point numbers it
returns are kept as numerator and denominator. -/
structure Metrics where
  csv : List ℕ
  beginTime : ℕ
  endTime : ℕ
  usedTime : ℕ
  rollbackRate : ℕ × ℕ
  thrput : ℕ × ℕ
  averageLatency : ℕ × ℕ
  maxLatency : ℤ
  maxStatus : List TxStatus
  minLatency : ℤ
  minStatus : List TxStatus
  overloads : List ℕ

/-- `writeToCsv`: the latencies of the confirmed transactions. -/
def writeToCsv (res : Result) (latencys : List ℕ) : List ℕ :=
  ((latencys.zip res.confirmMap).filter fun p => p.2 > 0).map Prod.fst

/-- `GetThroughtPutAndLatencyV2`. -/
def getThroughtPutAndLatencyV2 (res : Result) : Option Metrics := do
  let beginTime ← res.broadcastMap[0]?
  let st ← (List.range res.totalnum).foldlM res.scanRound (Scan.start res.totalnum)
  let usedTime := subU64 st.endTime beginTime
  -- the log lines at the end look these two up, found or not
  let maxStatus ← index res.allTXStatus st.maxLatencyID
  let minStatus ← index res.allTXStatus st.minLatencyID
  let keys := res.workload4shard.keys.sort (· ≤ ·)
  some {
    csv := res.writeToCsv st.latencys
    beginTime := beginTime
    endTime := st.endTime
    usedTime := usedTime
    rollbackRate := (res.allRollBack, res.allComplished + res.allRollBack)
    thrput := (res.allComplished, usedTime)
    averageLatency := (st.sum, res.allComplished)
    maxLatency := st.maxLatency
    maxStatus := maxStatus
    minLatency := st.minLatency
    minStatus := minStatus
    overloads := keys.map fun k => (res.workload4shard.lookup k).getD 0 }

/-! ## The scan -/

section Scan

variable (res : Result)

/-- The loop counts transaction `i`. -/
def Counted (i : ℕ) : Prop := res.confirmMap.getD i 0 ≠ 0

/-- The latency the loop computes for transaction `i`. -/
def latencyOf (i : ℕ) : ℕ := subU64 (res.confirmMap.getD i 0) (res.broadcastMap.getD i 0)

/-- The loop state after the first `k` transactions. -/
structure Scanned (k : ℕ) (st : Scan) : Prop where
  length : st.latencys.length = res.totalnum
  max_ge : ∀ i < k, res.Counted i → res.latencyOf i ≤ toU64 st.maxLatency
  max_at : st.maxLatencyID = -1 ∧ st.maxLatency = 0 ∨ ∃ i < k, res.Counted i ∧
    st.maxLatencyID = i ∧ 0 < res.latencyOf i ∧ st.maxLatency = toInt (res.latencyOf i)
  min_le : ∀ i < k, res.Counted i → toU64 st.minLatency ≤ res.latencyOf i
  min_at : st.minLatencyID = -1 ∧ st.minLatency = 100000 ∨ ∃ i < k, res.Counted i ∧
    st.minLatencyID = i ∧ res.latencyOf i < 100000 ∧ st.minLatency = toInt (res.latencyOf i)
  end_ge : ∀ i < k, res.Counted i → res.confirmMap.getD i 0 ≤ st.endTime
  end_at : st.endTime = 0 ∨ ∃ i < k, res.Counted i ∧ st.endTime = res.confirmMap.getD i 0

variable {res}

theorem toU64_toInt {x : ℕ} (h : x < 2 ^ 64) : toU64 (toInt x) = x := by
  unfold toU64 toInt
  split <;> omega

theorem latencyOf_lt (i : ℕ) : res.latencyOf i < 2 ^ 64 := Nat.mod_lt _ (by decide)

theorem Scanned.zero : Scanned res 0 (Scan.start res.totalnum) where
  length := by simp [Scan.start]
  max_ge i hi := by omega
  max_at := .inl ⟨rfl, rfl⟩
  min_le i hi := by omega
  min_at := .inl ⟨rfl, rfl⟩
  end_ge i hi := by omega
  end_at := .inl rfl

variable {st : Scan}

/-- A transaction that is not counted changes nothing. -/
theorem Scanned.skip {k : ℕ} (h : Scanned res k st) (hk : ¬ res.Counted k) :
    Scanned res (k + 1) st := by
  have hlt : ∀ i < k + 1, res.Counted i → i < k := by
    intro i hi hc
    rcases Nat.lt_succ_iff_lt_or_eq.mp hi with hlt | rfl
    · exact hlt
    · exact absurd hc hk
  refine ⟨h.length, fun i hi hc => h.max_ge i (hlt i hi hc) hc, ?_,
    fun i hi hc => h.min_le i (hlt i hi hc) hc, ?_, fun i hi hc => h.end_ge i (hlt i hi hc) hc, ?_⟩
  · exact h.max_at.imp_right fun ⟨i, hi, hrest⟩ => ⟨i, by omega, hrest⟩
  · exact h.min_at.imp_right fun ⟨i, hi, hrest⟩ => ⟨i, by omega, hrest⟩
  · exact h.end_at.imp_right fun ⟨i, hi, hrest⟩ => ⟨i, by omega, hrest⟩

/-- One that is counted becomes the largest, the smallest or the last, or leaves them. -/
theorem Scanned.add {k : ℕ} (h : Scanned res k st) (hk : res.Counted k) :
    Scanned res (k + 1) (st.add k (res.latencyOf k) (res.confirmMap.getD k 0)) := by
  have hround := toU64_toInt (res.latencyOf_lt k)
  constructor
  case length => simp [Scan.add, h.length]
  case max_ge =>
    intro i hi hc
    simp only [Scan.add]
    rcases Nat.lt_succ_iff_lt_or_eq.mp hi with hlt | rfl
    · have hold := h.max_ge i hlt hc
      split <;> omega
    · split <;> omega
  case max_at =>
    simp only [Scan.add]
    split
    case isTrue hgt => exact .inr ⟨k, by omega, hk, rfl, by omega, rfl⟩
    case isFalse => exact h.max_at.imp_right fun ⟨i, hi, hrest⟩ => ⟨i, by omega, hrest⟩
  case min_le =>
    intro i hi hc
    simp only [Scan.add]
    rcases Nat.lt_succ_iff_lt_or_eq.mp hi with hlt | rfl
    · have hold := h.min_le i hlt hc
      split <;> omega
    · split <;> omega
  case min_at =>
    simp only [Scan.add]
    split
    case isTrue hlt =>
      refine .inr ⟨k, by omega, hk, rfl, ?_, rfl⟩
      -- the smallest so far starts at 100000 and only goes down
      rcases h.min_at with ⟨-, hmin⟩ | ⟨i, -, -, -, hsmall, hmin⟩
      · rw [hmin] at hlt
        exact hlt
      · rw [hmin, toU64_toInt (res.latencyOf_lt i)] at hlt
        omega
    case isFalse => exact h.min_at.imp_right fun ⟨i, hi, hrest⟩ => ⟨i, by omega, hrest⟩
  case end_ge =>
    intro i hi hc
    simp only [Scan.add]
    rcases Nat.lt_succ_iff_lt_or_eq.mp hi with hlt | rfl
    · have hold := h.end_ge i hlt hc
      split <;> omega
    · split <;> omega
  case end_at =>
    simp only [Scan.add]
    split
    case isTrue => exact .inr ⟨k, by omega, hk, rfl⟩
    case isFalse => exact h.end_at.imp_right fun ⟨i, hi, hrest⟩ => ⟨i, by omega, hrest⟩

/-- The maps have an entry for each transaction. -/
structure Sized (res : Result) : Prop where
  confirmMap : res.confirmMap.length = res.totalnum
  broadcastMap : res.broadcastMap.length = res.totalnum
  allTXStatus : res.allTXStatus.length = res.totalnum

/-- The loop runs through. -/
theorem exists_scanned (hsize : Sized res) {k : ℕ} (hk : k ≤ res.totalnum) :
    ∃ st, (List.range k).foldlM res.scanRound (Scan.start res.totalnum) = some st ∧
      Scanned res k st := by
  induction k with
  | zero => exact ⟨_, rfl, Scanned.zero⟩
  | succ k ih =>
      rcases ih (by omega) with ⟨st, hloop, hst⟩
      have hc : k < res.confirmMap.length := by rw [hsize.confirmMap]; omega
      have hb : k < res.broadcastMap.length := by rw [hsize.broadcastMap]; omega
      have hl : k < st.latencys.length := by rw [hst.length]; omega
      have hcget : res.confirmMap[k]? = some (res.confirmMap.getD k 0) := by
        simp [List.getElem?_eq_getElem hc]
      have hbget : res.broadcastMap[k]? = some (res.broadcastMap.getD k 0) := by
        simp [List.getElem?_eq_getElem hb]
      have hround : res.scanRound st k = if res.confirmMap.getD k 0 = 0 then some st
          else some (st.add k (res.latencyOf k) (res.confirmMap.getD k 0)) := by
        simp only [scanRound, hcget, hbget, Option.bind_eq_bind, Option.bind_some, if_pos hl]
        rfl
      rw [List.range_succ, List.foldlM_append, hloop, Option.bind_eq_bind, Option.bind_some,
        List.foldlM_cons, hround]
      by_cases hcount : res.Counted k
      · rw [if_neg hcount]
        exact ⟨_, rfl, hst.add hcount⟩
      · rw [if_pos (not_not.mp hcount)]
        exact ⟨st, rfl, hst.skip hcount⟩

/-- What a report says about the maps. -/
structure Reports (res : Result) (m : Metrics) : Prop where
  max_at : ∃ i < res.totalnum, res.Counted i ∧ 0 < res.latencyOf i ∧
    m.maxLatency = toInt (res.latencyOf i) ∧
    ∀ j < res.totalnum, res.Counted j → res.latencyOf j ≤ res.latencyOf i
  min_at : ∃ i < res.totalnum, res.Counted i ∧ res.latencyOf i < 100000 ∧
    m.minLatency = toInt (res.latencyOf i) ∧
    ∀ j < res.totalnum, res.Counted j → res.latencyOf i ≤ res.latencyOf j
  end_at : ∃ i < res.totalnum, res.Counted i ∧ m.endTime = res.confirmMap.getD i 0 ∧
    ∀ j < res.totalnum, res.Counted j → res.confirmMap.getD j 0 ≤ m.endTime
  beginTime : m.beginTime = res.broadcastMap.getD 0 0
  usedTime : m.usedTime = subU64 m.endTime m.beginTime

theorem index_neg_one {α : Type} (l : List α) : index l (-1) = none := by
  simp [index]

theorem Scanned.reports_max (hst : Scanned res res.totalnum st)
    (hid : st.maxLatencyID ≠ -1) : ∃ i < res.totalnum, res.Counted i ∧ 0 < res.latencyOf i ∧
      st.maxLatency = toInt (res.latencyOf i) ∧
      ∀ j < res.totalnum, res.Counted j → res.latencyOf j ≤ res.latencyOf i := by
  rcases hst.max_at with ⟨hnone, -⟩ | ⟨i, hi, hc, -, hpos, hmax⟩
  · exact absurd hnone hid
  · refine ⟨i, hi, hc, hpos, hmax, fun j hj hcj => ?_⟩
    have hge := hst.max_ge j hj hcj
    rwa [hmax, toU64_toInt (latencyOf_lt i)] at hge

theorem Scanned.reports_min (hst : Scanned res res.totalnum st)
    (hid : st.minLatencyID ≠ -1) : ∃ i < res.totalnum, res.Counted i ∧
      res.latencyOf i < 100000 ∧ st.minLatency = toInt (res.latencyOf i) ∧
      ∀ j < res.totalnum, res.Counted j → res.latencyOf i ≤ res.latencyOf j := by
  rcases hst.min_at with ⟨hnone, -⟩ | ⟨i, hi, hc, -, hsmall, hmin⟩
  · exact absurd hnone hid
  · refine ⟨i, hi, hc, hsmall, hmin, fun j hj hcj => ?_⟩
    have hle := hst.min_le j hj hcj
    rwa [hmin, toU64_toInt (latencyOf_lt i)] at hle

theorem reports_of_eq_some (hsize : Sized res) {m : Metrics}
    (h : res.getThroughtPutAndLatencyV2 = some m) : Reports res m := by
  rcases exists_scanned hsize le_rfl with ⟨st, hloop, hst⟩
  simp only [getThroughtPutAndLatencyV2, hloop, Option.bind_eq_bind, Option.bind_some,
    Option.bind_eq_some_iff, Option.some.injEq] at h
  rcases h with ⟨beginTime, hbegin, maxStatus, hmax, minStatus, hmin, rfl⟩
  have hmaxID : st.maxLatencyID ≠ -1 := by
    intro hneg
    rw [hneg, index_neg_one] at hmax
    cases hmax
  have hminID : st.minLatencyID ≠ -1 := by
    intro hneg
    rw [hneg, index_neg_one] at hmin
    cases hmin
  refine ⟨hst.reports_max hmaxID, hst.reports_min hminID, ?_, ?_, rfl⟩
  · rcases hst.end_at with hzero | ⟨i, hi, hc, hend⟩
    · -- a counted transaction has a confirm time above zero
      rcases hst.reports_max hmaxID with ⟨i, hi, hc, -, -, -⟩
      have hge := hst.end_ge i hi hc
      exact absurd (by omega) hc
    · exact ⟨i, hi, hc, hend, hst.end_ge⟩
  · simp [List.getD_eq_getElem?_getD, hbegin]

/-- The function returns if it finds a positive latency and one below 100000. -/
theorem exists_metrics (hsize : Sized res)
    (hmax : ∃ i < res.totalnum, res.Counted i ∧ 0 < res.latencyOf i)
    (hmin : ∃ i < res.totalnum, res.Counted i ∧ res.latencyOf i < 100000) :
    ∃ m, res.getThroughtPutAndLatencyV2 = some m := by
  rcases exists_scanned hsize le_rfl with ⟨st, hloop, hst⟩
  rcases hmax with ⟨i, hi, hci, hpos⟩
  rcases hmin with ⟨j, hj, hcj, hsmall⟩
  have hindex : ∀ (k : ℕ), k < res.totalnum →
      index res.allTXStatus (k : ℤ) = some (res.allTXStatus.getD k []) := by
    intro k hk
    have hlen : k < res.allTXStatus.length := by rw [hsize.allTXStatus]; omega
    simp [index, List.getElem?_eq_getElem hlen]
  have hbegin : res.broadcastMap[0]? = some (res.broadcastMap.getD 0 0) := by
    have hlen : 0 < res.broadcastMap.length := by rw [hsize.broadcastMap]; omega
    simp [List.getElem?_eq_getElem hlen]
  -- a latency beyond its sentinel has replaced the ID
  have hfoundMax : ∃ k < res.totalnum, st.maxLatencyID = (k : ℤ) := by
    rcases hst.max_at with ⟨-, hzero⟩ | ⟨k, hk, -, hid, -⟩
    · have hge := hst.max_ge i hi hci
      have hnone : toU64 0 = 0 := by decide
      rw [hzero, hnone] at hge
      omega
    · exact ⟨k, hk, hid⟩
  have hfoundMin : ∃ k < res.totalnum, st.minLatencyID = (k : ℤ) := by
    rcases hst.min_at with ⟨-, hstart⟩ | ⟨k, hk, -, hid, -⟩
    · have hle := hst.min_le j hj hcj
      have hnone : toU64 100000 = 100000 := by decide
      rw [hstart, hnone] at hle
      omega
    · exact ⟨k, hk, hid⟩
  rcases hfoundMax with ⟨k, hk, hkid⟩
  rcases hfoundMin with ⟨k', hk', hkid'⟩
  simp only [getThroughtPutAndLatencyV2, hloop, hbegin, hkid, hkid', hindex k hk, hindex k' hk',
    Option.bind_eq_bind, Option.bind_some]
  exact ⟨_, rfl⟩

end Scan

/-! ## Runs -/

/-- The calls of a run: the number of transactions, the tables recorded before and after the
broadcast times are set, and these. Times are `uint64`; every transaction that is confirmed was
broadcast, not later. -/
structure Run where
  totalnum : ℕ
  earlier : List (List (ℕ × TXReceipt))
  later : List (List (ℕ × TXReceipt))
  broadcast : List (ℕ × ℕ)
  ids_lt : ∀ e ∈ (earlier ++ later).flatten, e.1 < totalnum
  status : ∀ e ∈ (earlier ++ later).flatten, e.2.txStatus ≠ .defaultStatus
  time_lt : ∀ e ∈ (earlier ++ later).flatten, e.2.confirmTimeStamp < 2 ^ 64
  broadcast_nodup : (broadcast.map Prod.fst).Nodup
  broadcast_lt : ∀ e ∈ broadcast, e.1 < totalnum ∧ e.2 < 2 ^ 64
  broadcast_le : ∀ e ∈ (earlier ++ later).flatten, finishes e →
    ∃ t, (e.1, t) ∈ broadcast ∧ t ≤ confirmTime (earlier ++ later).flatten e.1 0

namespace Run

variable (d : Run)

/-- The results at the end of the run. -/
def result : Option Result := do
  let res ← d.earlier.foldlM setTXReceiptV2 (newResult.setTotalTXNum d.totalnum)
  let res ← res.setBroadcastMap d.broadcast
  d.later.foldlM setTXReceiptV2 res

/-- All that was recorded. -/
def entries : List (ℕ × TXReceipt) := (d.earlier ++ d.later).flatten

/-- The transaction received a terminal status. -/
def Confirmed (i : ℕ) : Prop := ∃ e ∈ d.entries, e.1 = i ∧ finishes e

instance (i : ℕ) : Decidable (d.Confirmed i) := inferInstanceAs (Decidable (∃ _ ∈ _, _))

/-- The time the transaction was broadcast, 0 if it was not. -/
def broadcastTime (i : ℕ) : ℕ := (d.broadcast.lookup i).getD 0

/-- The time from broadcast to confirmation. -/
def latency (i : ℕ) : ℕ := confirmTime d.entries i 0 - d.broadcastTime i

/-- The metrics are what they are called: transactions are counted once, the work is counted
the same way three times, nothing is out of range or below zero, and the latencies and the time
used are those of the confirmed transactions. -/
structure Exact (res : Result) : Prop where
  allComplished : res.allComplished = ((Finset.range d.totalnum).filter d.Confirmed).card
  workload : res.workLoad = res.totalWorkload
  statuses : res.workLoad = ∑ i ∈ Finset.range d.totalnum, (res.allTXStatus.getD i []).length
  latency_nonneg : ∀ i < res.totalnum, res.Counted i →
    res.broadcastMap.getD i 0 ≤ res.confirmMap.getD i 0
  metrics : ∃ m, res.getThroughtPutAndLatencyV2 = some m ∧ m.beginTime ≤ m.endTime ∧
    (∃ l, m.maxLatency = (l : ℕ) ∧ IsGreatest {x | ∃ i, d.Confirmed i ∧ x = d.latency i} l) ∧
    (∃ l, m.minLatency = (l : ℕ) ∧ IsLeast {x | ∃ i, d.Confirmed i ∧ x = d.latency i} l) ∧
    ∃ first last, IsLeast {t | ∃ i, (i, t) ∈ d.broadcast} first ∧
      IsGreatest {t | ∃ i, d.Confirmed i ∧ t = confirmTime d.entries i 0} last ∧
      first ≤ last ∧ m.usedTime = last - first

/-- No transaction gets two terminal statuses; some confirmed transaction has a positive
latency; the smallest latency is below 100000 and belongs to a transaction with a confirm time
other than 0; the latencies fit an `int`; and transaction 0 was broadcast first (its broadcast
time counts as 0 if it was not broadcast). -/
structure Ordinary : Prop where
  once : ((d.entries.filter finishes).map Prod.fst).Nodup
  positive : ∃ i, d.Confirmed i ∧ 0 < d.latency i
  smallest : ∃ i, d.Confirmed i ∧ confirmTime d.entries i 0 ≠ 0 ∧ d.latency i < 100000 ∧
    ∀ j, d.Confirmed j → d.latency i ≤ d.latency j
  bounded : ∀ i, d.Confirmed i → d.latency i < 2 ^ 63
  first : IsLeast {t | ∃ i, (i, t) ∈ d.broadcast} (d.broadcastTime 0)

/-- What the calls leave in the maps. -/
structure Leaves (res : Result) : Prop where
  sized : Sized res
  totalnum : res.totalnum = d.totalnum
  confirm : ∀ i, res.confirmMap.getD i 0 = confirmTime d.entries i 0
  broadcast : ∀ i, res.broadcastMap.getD i 0 = d.broadcastTime i
  allComplished : res.allComplished = d.entries.countP finishes
  workLoad : res.workLoad = d.entries.length
  workload : res.totalWorkload = d.entries.length
  statuses : ∀ i < d.totalnum, res.allTXStatus.getD i [] = statusesOf d.entries i

variable {d}

/-! ### Entries and times -/

variable {res : Result} {i : ℕ}

theorem Confirmed.lt (h : d.Confirmed i) : i < d.totalnum := by
  rcases h with ⟨e, he, rfl, -⟩
  exact d.ids_lt e he

theorem broadcastTime_of_mem {t : ℕ} (h : (i, t) ∈ d.broadcast) : d.broadcastTime i = t := by
  rw [broadcastTime, Sys.lookup_eq_some_of_mem d.broadcast_nodup h, Option.getD_some]

theorem broadcastTime_of_notMem (h : i ∉ d.broadcast.map Prod.fst) :
    d.broadcastTime i = 0 := by
  have hnone : d.broadcast.lookup i = none := by
    rw [List.lookup_eq_none_iff]
    intro e he
    simp only [bne_iff_ne, ne_eq]
    rintro rfl
    exact h (List.mem_map_of_mem he)
  rw [broadcastTime, hnone, Option.getD_none]

theorem Confirmed.broadcastTime_le (h : d.Confirmed i) :
    d.broadcastTime i ≤ confirmTime d.entries i 0 := by
  rcases h with ⟨e, he, rfl, hfin⟩
  rcases d.broadcast_le e he hfin with ⟨t, hmem, hle⟩
  rw [broadcastTime_of_mem hmem]
  exact hle

/-- The confirm time is the one before the entries or that of an entry that finishes. -/
theorem confirmTime_cases (entries : List (ℕ × TXReceipt)) (i t : ℕ) :
    confirmTime entries i t = t ∨
      ∃ e ∈ entries, e.1 = i ∧ finishes e ∧ confirmTime entries i t = e.2.confirmTimeStamp := by
  induction entries using List.reverseRecOn with
  | nil => exact .inl rfl
  | append_singleton entries e ih =>
      rw [confirmTime_append]
      by_cases hfin : e.1 = i ∧ finishes e
      · refine .inr ⟨e, by simp, hfin.1, hfin.2, ?_⟩
        simp [confirmTime, hfin]
      · have hlast : confirmTime [e] i (confirmTime entries i t) = confirmTime entries i t := by
          simp [confirmTime, hfin]
        rw [hlast]
        rcases ih with hsame | ⟨e', he', hrest⟩
        · exact .inl hsame
        · exact .inr ⟨e', List.mem_append_left _ he', hrest⟩

theorem confirmed_of_ne_zero (h : confirmTime d.entries i 0 ≠ 0) : d.Confirmed i := by
  rcases confirmTime_cases d.entries i 0 with hzero | ⟨e, he, hi, hfin, -⟩
  · exact absurd hzero h
  · exact ⟨e, he, hi, hfin⟩

theorem confirmTime_lt (i : ℕ) : confirmTime d.entries i 0 < 2 ^ 64 := by
  rcases confirmTime_cases d.entries i 0 with hzero | ⟨e, he, -, -, htime⟩
  · rw [hzero]
    decide
  · rw [htime]
    exact d.time_lt e he

/-! ### The maps at the end of the run -/

theorem recordable_setTotalTXNum {e : ℕ × TXReceipt} (he : e ∈ d.entries) :
    Recordable (newResult.setTotalTXNum d.totalnum) e :=
  ⟨d.status e he, by simpa [setTotalTXNum] using d.ids_lt e he,
    by simpa [setTotalTXNum] using d.ids_lt e he⟩

theorem withBroadcastMap {res' : Result} {entries : List (ℕ × TXReceipt)}
    (h : Records res entries res') (broadcastMap : List ℕ) :
    Records { res with broadcastMap := broadcastMap } entries
      { res' with broadcastMap := broadcastMap } where
  status := h.status
  bound := h.bound
  allTXStatus := h.allTXStatus
  confirmMap := h.confirmMap
  allComplished := h.allComplished
  workLoad := h.workLoad
  workload := h.workload
  broadcastMap := rfl
  totalnum := h.totalnum

/-- What recording the entries leaves, with the broadcast times set before. -/
theorem leaves_of_records {broadcastMap : List ℕ}
    (h : Records { newResult.setTotalTXNum d.totalnum with broadcastMap := broadcastMap }
      d.entries res) (hlen : broadcastMap.length = d.totalnum)
    (hbroadcast : ∀ i, broadcastMap.getD i 0 = d.broadcastTime i) : d.Leaves res := by
  have hconfirm : ∀ i, res.confirmMap.getD i 0 = confirmTime d.entries i 0 := by
    intro i
    rw [List.getD_eq_getElem?_getD, h.confirmMap]
    by_cases hi : i < d.totalnum
    · simp [setTotalTXNum, hi]
    -- no entry is for an ID beyond the table
    · have hzero : confirmTime d.entries i 0 = 0 := by
        by_contra hne
        exact hi (confirmed_of_ne_zero hne).lt
      simp [setTotalTXNum, hi, hzero]
  constructor
  case sized =>
    refine ⟨?_, ?_, ?_⟩
    · rw [h.length_confirmMap, h.totalnum]
      simp [setTotalTXNum]
    · rw [h.broadcastMap, h.totalnum]
      exact hlen
    · rw [h.length_allTXStatus, h.totalnum]
      simp [setTotalTXNum]
  case totalnum => exact h.totalnum
  case confirm => exact hconfirm
  case broadcast =>
    intro i
    rw [h.broadcastMap]
    exact hbroadcast i
  case allComplished => simpa [setTotalTXNum] using h.allComplished
  case workLoad => simpa [setTotalTXNum] using h.workLoad
  case workload =>
    rw [h.workload]
    simp [totalWorkload, setTotalTXNum]
  case statuses =>
    intro i hi
    rw [List.getD_eq_getElem?_getD, h.allTXStatus]
    simp [setTotalTXNum, hi]

/-- The run goes through, and this is what it leaves. -/
theorem exists_leaves : ∃ res, d.result = some res ∧ d.Leaves res := by
  have hearlier : ∀ e ∈ d.earlier.flatten, e ∈ d.entries := fun e he => by
    rw [entries, List.flatten_append]
    exact List.mem_append_left _ he
  have hlater : ∀ e ∈ d.later.flatten, e ∈ d.entries := fun e he => by
    rw [entries, List.flatten_append]
    exact List.mem_append_right _ he
  rcases exists_tables fun e he => recordable_setTotalTXNum (hearlier e he) with ⟨res₁, hres₁⟩
  have hrec₁ := records_of_tables hres₁
  have hlen₁ : res₁.broadcastMap.length = d.totalnum := by
    rw [hrec₁.broadcastMap]
    simp [setTotalTXNum]
  rcases @setBroadcastMap_spec res₁ _ d.broadcast_nodup
    (fun e he => hlen₁ ▸ (d.broadcast_lt e he).1) with ⟨res₂, hres₂, hsame, hlen₂, hin, hout⟩
  have hrecordable : ∀ e ∈ d.later.flatten, Recordable res₂ e := fun e he => by
    rw [hsame]
    exact hrec₁.recordable (recordable_setTotalTXNum (hlater e he))
  rcases exists_tables hrecordable with ⟨res, hres⟩
  -- as if the broadcast times had been set first
  have hrec : Records { newResult.setTotalTXNum d.totalnum with broadcastMap := res₂.broadcastMap }
      d.entries res := by
    have hset := withBroadcastMap hrec₁ res₂.broadcastMap
    rw [← hsame] at hset
    rw [entries, List.flatten_append]
    exact hset.trans (records_of_tables hres)
  refine ⟨res, ?_, leaves_of_records hrec ?_ ?_⟩
  · rw [result, hres₁, Option.bind_eq_bind, Option.bind_some, hres₂, Option.bind_some, hres]
  · rw [hlen₂, hlen₁]
  · intro i
    by_cases hi : i ∈ d.broadcast.map Prod.fst
    · rcases List.mem_map.mp hi with ⟨⟨i, t⟩, hmem, rfl⟩
      rw [broadcastTime_of_mem hmem, List.getD_eq_getElem?_getD, hin _ hmem, Option.getD_some]
    · rw [broadcastTime_of_notMem hi, List.getD_eq_getElem?_getD, hout i hi, hrec₁.broadcastMap]
      simp [setTotalTXNum, List.getElem?_replicate]
      split <;> rfl

/-! ### Counting -/

/-- Every entry is in the list of exactly one transaction. -/
theorem sum_length_statusesOf (n : ℕ) (entries : List (ℕ × TXReceipt))
    (h : ∀ e ∈ entries, e.1 < n) :
    ∑ i ∈ Finset.range n, (statusesOf entries i).length = entries.length := by
  rw [← Sys.sum_length_filter Prod.fst h]
  exact Finset.sum_congr rfl fun i _ => List.length_map _

/-- Terminal statuses are counted once per transaction if none gets two. -/
theorem countP_finishes_eq_card_iff :
    d.entries.countP finishes = ((Finset.range d.totalnum).filter d.Confirmed).card ↔
      ((d.entries.filter finishes).map Prod.fst).Nodup := by
  have hset : (Finset.range d.totalnum).filter d.Confirmed =
      ((d.entries.filter finishes).map Prod.fst).toFinset := by
    ext i
    simp only [Finset.mem_filter, Finset.mem_range, List.mem_toFinset, List.mem_map,
      List.mem_filter]
    constructor
    · rintro ⟨-, e, he, rfl, hfin⟩
      exact ⟨e, ⟨he, hfin⟩, rfl⟩
    · rintro ⟨e, ⟨he, hfin⟩, rfl⟩
      have hconf : d.Confirmed e.1 := ⟨e, he, rfl, hfin⟩
      exact ⟨hconf.lt, hconf⟩
  have hlen : d.entries.countP finishes = ((d.entries.filter finishes).map Prod.fst).length := by
    rw [List.length_map, List.countP_eq_length_filter]
  rw [hset, hlen, eq_comm]
  exact Multiset.toFinset_card_eq_card_iff_nodup

/-! ### The report -/

section Report

variable {res : Result} (hres : d.Leaves res)

include hres

variable {i : ℕ}

theorem Leaves.counted_iff : res.Counted i ↔ confirmTime d.entries i 0 ≠ 0 := by
  rw [Counted, hres.confirm]

theorem Leaves.confirmed_of_counted (h : res.Counted i) : d.Confirmed i :=
  confirmed_of_ne_zero (hres.counted_iff.mp h)

theorem Leaves.latencyOf_eq (h : d.Confirmed i) : res.latencyOf i = d.latency i := by
  have hle := h.broadcastTime_le
  have hlt := d.confirmTime_lt i
  rw [latencyOf, hres.confirm, hres.broadcast, latency, subU64, u64]
  omega

/-- A transaction that is not counted has latency 0. -/
theorem Leaves.latency_of_not_counted (hc : ¬ res.Counted i) :
    d.latency i = 0 := by
  have hzero : confirmTime d.entries i 0 = 0 := not_not.mp (mt hres.counted_iff.mpr hc)
  rw [latency, hzero, Nat.zero_sub]

variable {m : Metrics} (hm : Reports res m)

include hm

theorem Leaves.max_at : ∃ i, d.Confirmed i ∧ 0 < d.latency i ∧
    m.maxLatency = toInt (d.latency i) ∧ ∀ j, d.Confirmed j → d.latency j ≤ d.latency i := by
  rcases hm.max_at with ⟨i, -, hc, hpos, hmax, hge⟩
  have hconf := hres.confirmed_of_counted hc
  rw [hres.latencyOf_eq hconf] at hpos hmax hge
  refine ⟨i, hconf, hpos, hmax, fun j hj => ?_⟩
  by_cases hcj : res.Counted j
  · rw [← hres.latencyOf_eq hj]
    exact hge j (hres.totalnum ▸ hj.lt) hcj
  · rw [hres.latency_of_not_counted hcj]
    exact Nat.zero_le _

theorem Leaves.min_at : ∃ i, d.Confirmed i ∧ confirmTime d.entries i 0 ≠ 0 ∧
    d.latency i < 100000 ∧ m.minLatency = (d.latency i : ℕ) ∧
    ∀ j, d.Confirmed j → confirmTime d.entries j 0 ≠ 0 → d.latency i ≤ d.latency j := by
  rcases hm.min_at with ⟨i, -, hc, hsmall, hmin, hle⟩
  have hconf := hres.confirmed_of_counted hc
  rw [hres.latencyOf_eq hconf] at hsmall hmin hle
  have hsigned : toInt (d.latency i) = (d.latency i : ℕ) := if_pos (by omega)
  refine ⟨i, hconf, hres.counted_iff.mp hc, hsmall, hmin.trans hsigned, fun j hj hcj => ?_⟩
  rw [← hres.latencyOf_eq hj]
  exact hle j (hres.totalnum ▸ hj.lt) (hres.counted_iff.mpr hcj)

theorem Leaves.isGreatest_endTime :
    IsGreatest {t | ∃ i, d.Confirmed i ∧ t = confirmTime d.entries i 0} m.endTime := by
  rcases hm.end_at with ⟨i, -, hc, hend, hge⟩
  refine ⟨⟨i, hres.confirmed_of_counted hc, by rw [hend, hres.confirm]⟩, ?_⟩
  rintro t ⟨j, hj, rfl⟩
  by_cases hcj : res.Counted j
  · rw [← hres.confirm]
    exact hge j (hres.totalnum ▸ hj.lt) hcj
  · rw [not_not.mp (mt hres.counted_iff.mpr hcj)]
    exact Nat.zero_le _

theorem Leaves.usedTime_eq (hle : m.beginTime ≤ m.endTime) :
    m.usedTime = m.endTime - m.beginTime := by
  have hlt : m.endTime < 2 ^ 64 := by
    rcases (hres.isGreatest_endTime hm).1 with ⟨i, -, hend⟩
    exact hend ▸ d.confirmTime_lt i
  rw [hm.usedTime, subU64, u64]
  omega

end Report

theorem Leaves.ordinary (hres : d.Leaves res) (h : d.Exact res) : d.Ordinary := by
  rcases h.metrics with ⟨m, hm, hbegin, ⟨lmax, hmax, hgreatest⟩, ⟨lmin, hmin, hleast⟩, first, last,
    hfirst, hlast, hle, hused⟩
  have hrep := reports_of_eq_some hres.sized hm
  rcases hres.max_at hrep with ⟨i, hi, hpos, hmaxi, -⟩
  rcases hres.min_at hrep with ⟨j, hj, hne, hsmall, hminj, -⟩
  constructor
  case once =>
    rw [← countP_finishes_eq_card_iff, ← hres.allComplished]
    exact h.allComplished
  case positive => exact ⟨i, hi, hpos⟩
  case smallest =>
    have hlmin : d.latency j = lmin := by omega
    exact ⟨j, hj, hne, hsmall, fun k hk => hlmin ▸ hleast.2 ⟨k, hk, rfl⟩⟩
  case bounded =>
    -- a negative `int` is no latency
    have hlmax : lmax < 2 ^ 63 := by
      have hlt : d.latency i < 2 ^ 64 := by
        have htime := d.confirmTime_lt i
        unfold latency
        omega
      have hsigned : toInt (d.latency i) = (lmax : ℕ) := hmaxi.symm.trans hmax
      unfold toInt at hsigned
      split at hsigned <;> omega
    intro k hk
    exact lt_of_le_of_lt (hgreatest.2 ⟨k, hk, rfl⟩) hlmax
  case first =>
    -- the ends are the same and so are the spans, hence the beginnings
    have hend : m.endTime = last := (hres.isGreatest_endTime hrep).unique hlast
    have heq : m.beginTime = first := by
      have hspan := hres.usedTime_eq hrep hbegin
      omega
    rw [hrep.beginTime, hres.broadcast] at heq
    rw [heq]
    exact hfirst

/-- If transaction 0 was broadcast first, the run did not end before it began. -/
theorem Leaves.beginTime_le {m : Metrics} (hres : d.Leaves res)
    (hm : Reports res m) (h : d.Ordinary) : m.beginTime ≤ m.endTime := by
  rcases h.positive with ⟨i, hi, -⟩
  have hend := (hres.isGreatest_endTime hm).2 ⟨i, hi, rfl⟩
  rcases hi with ⟨e, he, rfl, hfin⟩
  rcases d.broadcast_le e he hfin with ⟨t, hmem, htime⟩
  calc m.beginTime = d.broadcastTime 0 := by rw [hm.beginTime, hres.broadcast]
    _ ≤ t := h.first.2 ⟨e.1, hmem⟩
    _ ≤ confirmTime d.entries e.1 0 := htime
    _ ≤ m.endTime := hend

theorem Leaves.exact (hres : d.Leaves res) (h : d.Ordinary) : d.Exact res := by
  rcases h.positive with ⟨i, hi, hpos⟩
  rcases h.smallest with ⟨j, hj, hne, hsmall, hleast⟩
  -- a positive latency is one of a transaction that counts
  have hcounti : res.Counted i := by
    by_contra hc
    have hzero := hres.latency_of_not_counted hc
    omega
  have hcountj : res.Counted j := hres.counted_iff.mpr hne
  rcases exists_metrics hres.sized
    ⟨i, hres.totalnum ▸ hi.lt, hcounti, hres.latencyOf_eq hi ▸ hpos⟩
    ⟨j, hres.totalnum ▸ hj.lt, hcountj, hres.latencyOf_eq hj ▸ hsmall⟩ with ⟨m, hm⟩
  have hrep := reports_of_eq_some hres.sized hm
  constructor
  case allComplished =>
    rw [hres.allComplished]
    exact countP_finishes_eq_card_iff.mpr h.once
  case workload => rw [hres.workLoad, hres.workload]
  case statuses =>
    rw [hres.workLoad, Finset.sum_congr rfl fun k hk => congrArg List.length
      (hres.statuses k (Finset.mem_range.mp hk))]
    exact (sum_length_statusesOf _ _ d.ids_lt).symm
  case latency_nonneg =>
    intro k _ hc
    rw [hres.confirm, hres.broadcast]
    exact (hres.confirmed_of_counted hc).broadcastTime_le
  -- `Ordinary` makes the extremes over what counts those over all
  case metrics =>
    have hbegin : m.beginTime = d.broadcastTime 0 := by rw [hrep.beginTime, hres.broadcast]
    have hend := hres.isGreatest_endTime hrep
    have hle := hres.beginTime_le hrep h
    refine ⟨m, hm, hle, ?_, ?_, m.beginTime, m.endTime, ?_, hend, hle, ?_⟩
    · rcases hres.max_at hrep with ⟨k, hk, -, hmax, hge⟩
      refine ⟨d.latency k, ?_, ⟨k, hk, rfl⟩, ?_⟩
      · rw [hmax, toInt, if_pos (h.bounded k hk)]
      · rintro x ⟨k', hk', rfl⟩
        exact hge k' hk'
    · rcases hres.min_at hrep with ⟨k, hk, -, -, hmin, hle⟩
      refine ⟨d.latency k, hmin, ⟨k, hk, rfl⟩, ?_⟩
      rintro x ⟨k', hk', rfl⟩
      exact (hle j hj hne).trans (hleast k' hk')
    · rw [hbegin]
      exact h.first
    · exact hres.usedTime_eq hrep hle

end Run

/-- A run always ends with results, and its metrics are exact just when it is ordinary. -/
theorem exact_iff (d : Run) : ∃ res, d.result = some res ∧ (d.Exact res ↔ d.Ordinary) := by
  rcases d.exists_leaves with ⟨res, hres, hleaves⟩
  exact ⟨res, hres, hleaves.ordinary, hleaves.exact⟩

/-- Two transactions, broadcast at 100 and 101 and confirmed at 103 and 105. -/
def ordinaryRun : Run where
  totalnum := 2
  earlier := [[(1, ⟨1, 105, .intraSuccess, 0, 1⟩)]]
  later := [[(0, ⟨0, 103, .intraSuccess, 0, 1⟩)]]
  broadcast := [(0, 100), (1, 101)]
  ids_lt := by decide
  status := by decide
  time_lt := by decide
  broadcast_nodup := by decide
  broadcast_lt := by decide
  broadcast_le := by
    intro e he _
    simp only [List.cons_append, List.nil_append, List.flatten_cons, List.flatten_nil,
      List.mem_cons, List.not_mem_nil, or_false] at he
    rcases he with rfl | rfl
    · exact ⟨101, by decide, by decide⟩
    · exact ⟨100, by decide, by decide⟩

theorem exact_ordinaryRun : ∃ res, ordinaryRun.result = some res ∧ ordinaryRun.Exact res := by
  have hordinary : ordinaryRun.Ordinary := by
    have hcases : ∀ i, ordinaryRun.Confirmed i → i = 0 ∨ i = 1 := by
      intro i hi
      have hlt := hi.lt
      change i < 2 at hlt
      omega
    refine ⟨by decide, ⟨0, by decide, by decide⟩, ⟨0, by decide, by decide, by decide, ?_⟩, ?_,
      ⟨⟨0, by decide⟩, ?_⟩⟩
    · intro j hj
      rcases hcases j hj with rfl | rfl <;> decide
    · intro j hj
      rcases hcases j hj with rfl | rfl <;> decide
    · rintro t ⟨i, hmem⟩
      simp only [ordinaryRun, List.mem_cons, Prod.mk.injEq, List.not_mem_nil, or_false] at hmem
      change 100 ≤ t
      omega
  rcases exact_iff ordinaryRun with ⟨res, hres, hiff⟩
  exact ⟨res, hres, hiff.mpr hordinary⟩

/-- A client whose transactions were not executed. -/
def idleRun : Run where
  totalnum := 1
  earlier := []
  later := []
  broadcast := [(0, 100)]
  ids_lt := by decide
  status := by decide
  time_lt := by decide
  broadcast_nodup := by decide
  broadcast_lt := by decide
  broadcast_le := by
    intro e he _
    cases he

/-- The second of two clients: it has the transactions with odd IDs. -/
def secondClientRun : Run where
  totalnum := 2
  earlier := []
  later := [[(1, ⟨1, 103, .intraSuccess, 0, 1⟩)]]
  broadcast := [(1, 100)]
  ids_lt := by decide
  status := by decide
  time_lt := by decide
  broadcast_nodup := by decide
  broadcast_lt := by decide
  broadcast_le := by
    intro e he _
    rw [List.nil_append, List.flatten_singleton, List.mem_singleton] at he
    rw [he]
    exact ⟨100, by decide, by decide⟩

/-- The report of the first run panics; the second one, from 100 to 103, is reported to have
taken 103 seconds. -/
theorem not_exact_idleRun_secondClientRun :
    (∃ res, idleRun.result = some res ∧ res.getThroughtPutAndLatencyV2 = none ∧
      ¬ idleRun.Exact res) ∧
    ∃ res m, secondClientRun.result = some res ∧ res.getThroughtPutAndLatencyV2 = some m ∧
      m.usedTime = 103 ∧ ¬ secondClientRun.Exact res := by
  refine ⟨⟨_, rfl, rfl, ?_⟩, _, _, rfl, rfl, rfl, ?_⟩
  · intro hexact
    rcases hexact.metrics with ⟨m, hm, -⟩
    cases hm
  · intro hexact
    rcases hexact.metrics with ⟨m, hm, -, -, -, first, last, hfirst, hlast, -, hused⟩
    cases hm
    rcases hfirst.1 with ⟨i, hmem⟩
    rcases hlast.1 with ⟨j, hj, hlast⟩
    have hfirst : first = 100 := by
      simp only [secondClientRun, List.mem_singleton, Prod.mk.injEq] at hmem
      exact hmem.2
    have hlast : last = 103 := by
      rcases hj with ⟨e, he, rfl, -⟩
      rw [Run.entries, secondClientRun, List.nil_append, List.flatten_singleton,
        List.mem_singleton] at he
      rw [hlast, he]
      rfl
    rw [hfirst, hlast] at hused
    exact absurd hused (by decide)

end LessChain.Result
