import Mathlib.Algebra.Group.Nat.Defs
import Mathlib.Data.List.Infix
import Mathlib.Data.List.Basic
import Mathlib.Tactic.Common

/-!
# Sending transactions to the beacon chain

`AddTB` and `AdjustRecordedAddrs` (`eth_chain/eth_chain.go`) send a transaction with the next
nonce and the lowest gas price known to work, and repeat until the node takes it: after an
error about the nonce with the next nonce, after an error about the price with a price that
is a tenth higher. Both numbers are variables of the package, shared by the two functions and
kept from call to call.

The node is the one the loop is written for (`Node`): it takes a transaction whose nonce is at
least `N` and whose price is at least `P`, and otherwise says which of the two is too low.

* A tenth of a price below ten is nothing, so the loop ends exactly if the price it starts
  with is enough or at least ten (`run_of_priceMoves`, `run_eq_none`).
* The largest nonce stands for "no nonce yet", so a call that follows one that used it asks
  the node again.

`submissions_iff` puts both together for any sequence of calls.
-/

namespace LessChain.EthChain

/-- The variables `lastNonce` and `lowestGasPrice` of the package. -/
structure Vars where
  lastNonce : ℕ
  lowestGasPrice : ℕ
deriving DecidableEq, Repr

/-- `math.MaxUint64`, the value of `lastNonce` before the first call. -/
def maxUint64 : ℕ := 2 ^ 64 - 1

/-- `strings.Contains`. -/
def contains (s substr : String) : Bool := decide (substr.toList <:+: s.toList)

/-- The texts after which the loop takes the next nonce. -/
def nonceError (err : String) : Bool :=
  contains err "replacement transaction underpriced" || contains err "nonce too low"

/-- The text after which the loop raises the price, unless it is one of the others. -/
def priceError (err : String) : Bool := contains err "transaction underpriced"

/-- What the node answers during a call; none is an error, except for `sendTransaction`, where
it is no error. The first argument of `sendTransaction` counts the attempts. -/
structure Client where
  pendingNonceAt : Option ℕ
  suggestGasPrice : Option ℕ
  sendTransaction : ℕ → ℕ → ℕ → Option String

/-- How a call ends: with a transaction that the node took, or by returning an error. -/
inductive Outcome
  | sent (nonce : ℕ)
  | failed
deriving DecidableEq, Repr

/-- The loop of `AddTB` and `AdjustRecordedAddrs`, for at most `fuel` attempts. -/
def mustSend (client : Client) : ℕ → ℕ → ℕ → Vars → Option (Outcome × Vars)
  | 0, _, _, _ => none
  | fuel + 1, attempt, nonce, s =>
      match client.sendTransaction attempt nonce s.lowestGasPrice with
      | none => some (.sent nonce, s)
      | some err =>
          if nonceError err then
            -- the next attempt has the next nonce
            let nonce := (nonce + 1) % 2 ^ 64
            mustSend client fuel (attempt + 1) nonce { s with lastNonce := nonce }
          else if priceError err then
            -- the next attempt has a price a tenth higher, rounded down
            let toAdd := s.lowestGasPrice / 10
            mustSend client fuel (attempt + 1) nonce
              { s with lowestGasPrice := s.lowestGasPrice + toAdd }
          else some (.failed, s)

/-- The nonce a call starts with. -/
def firstNonce (client : Client) (s : Vars) : Option ℕ :=
  if s.lastNonce = maxUint64 then client.pendingNonceAt else some ((s.lastNonce + 1) % 2 ^ 64)

/-- The gas price a call starts with: `lowestGasPrice.Uint64()` is the low word of it. -/
def firstPrice (client : Client) (s : Vars) : Option ℕ :=
  if s.lowestGasPrice % 2 ^ 64 = 0 then client.suggestGasPrice else some s.lowestGasPrice

/-- What the two functions have in common, from the choice of the nonce on. -/
def submit (client : Client) (fuel : ℕ) (s : Vars) : Option (Outcome × Vars) :=
  match firstNonce client s with
  | none => some (.failed, s)
  | some nonce =>
      let s := { s with lastNonce := nonce }
      match firstPrice client s with
      | none => some (.failed, s)
      | some price => mustSend client fuel 0 nonce { s with lowestGasPrice := price }

/-- `AddTB`; `prepared` says that the call data, the key and the signer could be made. -/
def addTB (prepared : Bool) (client : Client) (fuel : ℕ) (s : Vars) : Option (Outcome × Vars) :=
  if prepared then submit client fuel s else some (.failed, s)

/-- `AdjustRecordedAddrs`. -/
def adjustRecordedAddrs (prepared : Bool) (client : Client) (fuel : ℕ) (s : Vars) :
    Option (Outcome × Vars) :=
  if prepared then submit client fuel s else some (.failed, s)

/-- A node that takes the transactions of the account whose nonce is at least `N` and whose
price is at least `P`, and says of the others what is too low. Where both are, it may say
either. -/
structure Node where
  client : Client
  N : ℕ
  P : ℕ
  pending : ℕ
  suggested : ℕ
  N_lt : N < 2 ^ 64
  pending_lt : pending < 2 ^ 64
  pendingNonceAt_eq : client.pendingNonceAt = some pending
  suggestGasPrice_eq : client.suggestGasPrice = some suggested
  takes : ∀ attempt nonce price,
    client.sendTransaction attempt nonce price = none ↔ N ≤ nonce ∧ P ≤ price
  refuses : ∀ attempt nonce price err, client.sendTransaction attempt nonce price = some err →
    nonce < N ∧ nonceError err = true ∨
      price < P ∧ nonceError err = false ∧ priceError err = true

/-- A call of one of the two functions. -/
inductive Call
  | addTB (node : Node)
  | adjustRecordedAddrs (node : Node)

/-- The node that a call meets. -/
def Call.node : Call → Node
  | .addTB node => node
  | .adjustRecordedAddrs node => node

/-- The call as the function it is. -/
def Call.run : Call → ℕ → Vars → Option (Outcome × Vars)
  | .addTB node => EthChain.addTB true node.client
  | .adjustRecordedAddrs node => EthChain.adjustRecordedAddrs true node.client

theorem Call.run_eq (c : Call) : c.run = submit c.node.client := by
  cases c <;> rfl

section Loop

variable {node : Node}

/-- A step of the loop after an error, with enough fuel for the rest. -/
theorem mustSend_succ (client : Client) (fuel attempt nonce : ℕ) (s : Vars) :
    mustSend client (fuel + 1) attempt nonce s =
      match client.sendTransaction attempt nonce s.lowestGasPrice with
      | none => some (.sent nonce, s)
      | some err =>
          if nonceError err then
            mustSend client fuel (attempt + 1) ((nonce + 1) % 2 ^ 64)
              { s with lastNonce := (nonce + 1) % 2 ^ 64 }
          else if priceError err then
            mustSend client fuel (attempt + 1) nonce
              { s with lowestGasPrice := s.lowestGasPrice + s.lowestGasPrice / 10 }
          else some (.failed, s) := rfl

/-- The loop ends if the price is enough or at least ten: each error makes the missing part of
the nonce or of the price smaller. -/
theorem mustSend_of_price (fuel attempt nonce : ℕ) (s : Vars) (hnonce : nonce < 2 ^ 64)
    (hlast : s.lastNonce = nonce)
    (hprice : node.P ≤ s.lowestGasPrice ∨ 10 ≤ s.lowestGasPrice)
    (hfuel : node.N - nonce + (node.P - s.lowestGasPrice) < fuel) :
    ∃ s', mustSend node.client fuel attempt nonce s = some (.sent (max nonce node.N), s') ∧
      s'.lastNonce = max nonce node.N := by
  induction fuel generalizing attempt nonce s with
  | zero => omega
  | succ fuel ih =>
      rw [mustSend_succ]
      cases hsend : node.client.sendTransaction attempt nonce s.lowestGasPrice with
      | none =>
          have htaken := (node.takes _ _ _).mp hsend
          have hmax : max nonce node.N = nonce := by omega
          exact ⟨s, by rw [hmax], by rw [hmax, hlast]⟩
      | some err =>
          have hN := node.N_lt
          rcases node.refuses _ _ _ err hsend with ⟨hlow, hkind⟩ | ⟨hlow, hother, hkind⟩
          -- a nonce below `N` cannot wrap
          · have hnext : (nonce + 1) % 2 ^ 64 = nonce + 1 := Nat.mod_eq_of_lt (by omega)
            have hmax : max (nonce + 1) node.N = max nonce node.N := by omega
            simp only [hkind, if_true, hnext]
            rw [← hmax]
            exact ih _ _ _ (by omega) rfl hprice (by simp only; omega)
          -- a tenth of ten or more is at least one
          · simp only [hother, hkind, if_true]
            exact ih _ _ _ hnonce hlast (Or.inr (by simp only; omega)) (by simp only; omega)

/-- With a price below ten that is not enough, no number of attempts is. -/
theorem mustSend_stuck (fuel attempt nonce : ℕ) (s : Vars) (hlow : s.lowestGasPrice < node.P)
    (hten : s.lowestGasPrice < 10) : mustSend node.client fuel attempt nonce s = none := by
  induction fuel generalizing attempt nonce s with
  | zero => rfl
  | succ fuel ih =>
      rw [mustSend_succ]
      cases hsend : node.client.sendTransaction attempt nonce s.lowestGasPrice with
      | none =>
          have htaken := (node.takes _ _ _).mp hsend
          omega
      | some err =>
          rcases node.refuses _ _ _ err hsend with ⟨-, hkind⟩ | ⟨-, hother, hkind⟩
          · simp only [hkind, if_true]
            exact ih _ _ _ hlow hten
          -- a tenth of less than ten is nothing
          · simp only [hother, hkind, if_true]
            exact ih _ _ _ (by simp only; omega) (by simp only; omega)

/-- More fuel changes nothing once the loop has ended. -/
theorem mustSend_mono {client : Client} {fuel attempt nonce : ℕ} {s : Vars}
    {r : Outcome × Vars} (h : mustSend client fuel attempt nonce s = some r) (more : ℕ) :
    mustSend client (fuel + more) attempt nonce s = some r := by
  induction fuel generalizing attempt nonce s with
  | zero => cases h
  | succ fuel ih =>
      rw [Nat.succ_add, mustSend_succ]
      rw [mustSend_succ] at h
      cases hsend : client.sendTransaction attempt nonce s.lowestGasPrice with
      | none => simpa only [hsend] using h
      | some err =>
          simp only [hsend] at h ⊢
          by_cases hnonce : nonceError err = true
          · simp only [hnonce, if_true] at h ⊢
            exact ih h
          · by_cases hprice : priceError err = true
            · simp only [hnonce, hprice, if_true] at h ⊢
              exact ih h
            · rw [if_neg hnonce, if_neg hprice] at h ⊢
              exact h

end Loop

/-! ## Calls -/

/-- The call ends with a transaction that the node took. -/
def Sends (c : Call) (s : Vars) (nonce : ℕ) (s' : Vars) : Prop :=
  ∃ fuel, c.run fuel s = some (.sent nonce, s')

/-- The nonce a call to this node starts with. -/
def Node.firstNonce (node : Node) (s : Vars) : ℕ :=
  if s.lastNonce = maxUint64 then node.pending else s.lastNonce + 1

/-- The price a call to this node starts with. -/
def Node.firstPrice (node : Node) (s : Vars) : ℕ :=
  if s.lowestGasPrice % 2 ^ 64 = 0 then node.suggested else s.lowestGasPrice

/-- The price a call starts with is enough for the node, or can be raised by a tenth. -/
def PriceMoves (node : Node) (s : Vars) : Prop :=
  node.P ≤ node.firstPrice s ∨ 10 ≤ node.firstPrice s

section Calls

variable {c : Call} {s s' : Vars} {nonce : ℕ}

theorem Node.firstNonce_lt (node : Node) (hs : s.lastNonce < 2 ^ 64) :
    node.firstNonce s < 2 ^ 64 := by
  unfold Node.firstNonce
  split
  case isTrue => exact node.pending_lt
  case isFalse h =>
    unfold maxUint64 at h
    omega

theorem Call.run_node (c : Call) (fuel : ℕ) (hs : s.lastNonce < 2 ^ 64) :
    c.run fuel s = mustSend c.node.client fuel 0 (c.node.firstNonce s)
      ⟨c.node.firstNonce s, c.node.firstPrice s⟩ := by
  have hnonce : EthChain.firstNonce c.node.client s = some (c.node.firstNonce s) := by
    unfold EthChain.firstNonce Node.firstNonce
    split
    case isTrue => exact c.node.pendingNonceAt_eq
    case isFalse h =>
      unfold maxUint64 at h
      rw [Nat.mod_eq_of_lt (by omega)]
  have hprice : ∀ n, EthChain.firstPrice c.node.client { s with lastNonce := n } =
      some (c.node.firstPrice s) := by
    intro n
    unfold EthChain.firstPrice Node.firstPrice
    simp only [c.node.suggestGasPrice_eq]
    split <;> rfl
  simp only [Call.run_eq, submit, hnonce, hprice]

/-- A call whose price moves sends its transaction, with the first nonce that is high enough;
`fuel` bounds the number of attempts. -/
theorem run_of_priceMoves (hs : s.lastNonce < 2 ^ 64) (h : PriceMoves c.node s) {fuel : ℕ}
    (hfuel : c.node.N - c.node.firstNonce s + (c.node.P - c.node.firstPrice s) < fuel) :
    ∃ s', c.run fuel s = some (.sent (max (c.node.firstNonce s) c.node.N), s') ∧
      s'.lastNonce = max (c.node.firstNonce s) c.node.N := by
  rw [c.run_node fuel hs]
  exact mustSend_of_price fuel 0 _ _ (c.node.firstNonce_lt hs) rfl h hfuel

theorem exists_sends (hs : s.lastNonce < 2 ^ 64) (h : PriceMoves c.node s) :
    ∃ s', Sends c s (max (c.node.firstNonce s) c.node.N) s' ∧
      s'.lastNonce = max (c.node.firstNonce s) c.node.N := by
  rcases run_of_priceMoves hs h (Nat.lt_succ_self _) with ⟨s', hrun, hlast⟩
  exact ⟨s', ⟨_, hrun⟩, hlast⟩

/-- Any other call goes on for ever. -/
theorem run_eq_none (hs : s.lastNonce < 2 ^ 64) (h : ¬ PriceMoves c.node s) (fuel : ℕ) :
    c.run fuel s = none := by
  unfold PriceMoves at h
  rw [c.run_node fuel hs]
  exact mustSend_stuck fuel 0 _ _ (by simp only; omega) (by simp only; omega)

theorem Sends.priceMoves (hs : s.lastNonce < 2 ^ 64) (h : Sends c s nonce s') :
    PriceMoves c.node s := by
  rcases h with ⟨fuel, hrun⟩
  by_contra hmoves
  rw [run_eq_none hs hmoves] at hrun
  cases hrun

/-- A call sends one transaction: more attempts do not change what it does. -/
theorem Sends.unique {nonce₁ nonce₂ : ℕ} {s₁ s₂ : Vars} (hs : s.lastNonce < 2 ^ 64)
    (h₁ : Sends c s nonce₁ s₁) (h₂ : Sends c s nonce₂ s₂) : nonce₁ = nonce₂ ∧ s₁ = s₂ := by
  rcases h₁ with ⟨fuel₁, h₁⟩
  rcases h₂ with ⟨fuel₂, h₂⟩
  rw [c.run_node _ hs] at h₁ h₂
  have hboth := mustSend_mono h₁ fuel₂
  rw [Nat.add_comm, mustSend_mono h₂ fuel₁] at hboth
  cases hboth
  exact ⟨rfl, rfl⟩

/-- What a call leaves: the nonce it used, which is at least the one it started with. -/
theorem Sends.spec (hs : s.lastNonce < 2 ^ 64) (h : Sends c s nonce s') :
    s'.lastNonce = nonce ∧ c.node.firstNonce s ≤ nonce ∧ nonce < 2 ^ 64 := by
  rcases exists_sends hs (h.priceMoves hs) with ⟨s₁, hsends, hlast⟩
  obtain ⟨rfl, rfl⟩ := h.unique hs hsends
  have hfirst := c.node.firstNonce_lt hs
  have hN := c.node.N_lt
  exact ⟨hlast, by omega, by omega⟩

end Calls

/-! ## Sequences of calls -/

/-- The calls are made one after the other, each sends its transaction, with these nonces. -/
def Runs : Vars → List Call → List ℕ → Vars → Prop
  | s, [], nonces, s' => nonces = [] ∧ s' = s
  | s, c :: calls, nonces, s' =>
      ∃ nonce rest s₁, nonces = nonce :: rest ∧ Sends c s nonce s₁ ∧ Runs s₁ calls rest s'

section Sequences

variable {c : Call} {s s' : Vars} {calls : List Call} {nonces : List ℕ}

theorem runs_append {calls' : List Call} :
    Runs s (calls ++ calls') nonces s' ↔
      ∃ n n' s₁, nonces = n ++ n' ∧ Runs s calls n s₁ ∧ Runs s₁ calls' n' s' := by
  induction calls generalizing s nonces with
  | nil =>
      constructor
      · intro h
        exact ⟨[], nonces, s, rfl, ⟨rfl, rfl⟩, h⟩
      · rintro ⟨n, n', s₁, rfl, ⟨rfl, rfl⟩, h⟩
        exact h
  | cons c calls ih =>
      constructor
      · rintro ⟨nonce, rest, s₁, rfl, hsend, hrest⟩
        rcases ih.mp hrest with ⟨n, n', s₂, rfl, hn, hn'⟩
        exact ⟨nonce :: n, n', s₂, rfl, ⟨nonce, n, s₁, rfl, hsend, hn⟩, hn'⟩
      · rintro ⟨n, n', s₂, rfl, ⟨nonce, n₀, s₁, rfl, hsend, hn⟩, hn'⟩
        exact ⟨nonce, n₀ ++ n', s₁, rfl, hsend, ih.mpr ⟨n₀, n', s₂, rfl, hn, hn'⟩⟩

theorem runs_concat :
    Runs s (calls ++ [c]) nonces s' ↔
      ∃ n nonce s₁, nonces = n ++ [nonce] ∧ Runs s calls n s₁ ∧ Sends c s₁ nonce s' := by
  rw [runs_append]
  constructor
  · rintro ⟨n, n', s₁, rfl, hn, nonce, rest, s₂, rfl, hsend, rfl, rfl⟩
    exact ⟨n, nonce, s₁, rfl, hn, hsend⟩
  · rintro ⟨n, nonce, s₁, rfl, hn, hsend⟩
    exact ⟨n, [nonce], s₁, rfl, hn, nonce, [], s', rfl, hsend, rfl, rfl⟩

/-- The variable holds the nonce of the last transaction. -/
theorem Runs.lastNonce (hs : s.lastNonce < 2 ^ 64) (h : Runs s calls nonces s') :
    s'.lastNonce < 2 ^ 64 ∧ s'.lastNonce = nonces.getLastD s.lastNonce := by
  induction calls using List.reverseRecOn generalizing nonces s' with
  | nil =>
      rcases h with ⟨rfl, rfl⟩
      exact ⟨hs, rfl⟩
  | append_singleton calls c ih =>
      rcases runs_concat.mp h with ⟨n, nonce, s₁, rfl, hn, hsend⟩
      have hspec := hsend.spec (ih hn).1
      rw [hspec.1, List.getLastD_concat]
      exact ⟨hspec.2.2, rfl⟩

theorem Runs.unique (hs : s.lastNonce < 2 ^ 64) {nonces₁ nonces₂ : List ℕ} {s₁ s₂ : Vars}
    (h₁ : Runs s calls nonces₁ s₁) (h₂ : Runs s calls nonces₂ s₂) :
    nonces₁ = nonces₂ ∧ s₁ = s₂ := by
  induction calls using List.reverseRecOn generalizing nonces₁ nonces₂ s₁ s₂ with
  | nil =>
      rcases h₁ with ⟨rfl, rfl⟩
      rcases h₂ with ⟨rfl, rfl⟩
      exact ⟨rfl, rfl⟩
  | append_singleton calls c ih =>
      rcases runs_concat.mp h₁ with ⟨n₁, nonce₁, t₁, rfl, hn₁, hsend₁⟩
      rcases runs_concat.mp h₂ with ⟨n₂, nonce₂, t₂, rfl, hn₂, hsend₂⟩
      obtain ⟨rfl, rfl⟩ := ih hn₁ hn₂
      obtain ⟨rfl, rfl⟩ := hsend₁.unique (hn₁.lastNonce hs).1 hsend₂
      exact ⟨rfl, rfl⟩

end Sequences

/-- All calls send their transactions, and each with a higher nonce than those before. -/
def AllSent (s : Vars) (calls : List Call) : Prop :=
  ∃ nonces s', Runs s calls nonces s' ∧ nonces.Pairwise (· < ·)

/-- The state before each call: the price it starts with moves, and after the first call
`lastNonce` is not the value that stands for none. -/
def Moving (s : Vars) (calls : List Call) : Prop :=
  ∀ before c after, calls = before ++ c :: after → ∀ nonces s₁, Runs s before nonces s₁ →
    PriceMoves c.node s₁ ∧ (before ≠ [] → s₁.lastNonce ≠ maxUint64)

theorem moving_concat {s : Vars} {calls : List Call} {c : Call} :
    Moving s (calls ++ [c]) ↔ Moving s calls ∧ ∀ nonces s₁, Runs s calls nonces s₁ →
      PriceMoves c.node s₁ ∧ (calls ≠ [] → s₁.lastNonce ≠ maxUint64) := by
  constructor
  · intro h
    refine ⟨fun before c' after hsplit => ?_, h calls c [] rfl⟩
    exact h before c' (after ++ [c]) (by rw [hsplit, List.append_assoc, List.cons_append])
  · rintro ⟨hcalls, hlast⟩ before c' after hsplit
    rcases List.eq_nil_or_concat after with rfl | ⟨after', c'', rfl⟩
    · obtain ⟨rfl, hc⟩ := List.append_inj' hsplit rfl
      cases hc
      exact hlast
    · rw [List.concat_eq_append, ← List.cons_append, ← List.append_assoc] at hsplit
      exact hcalls before c' after' (List.append_inj' hsplit rfl).1

section Increasing

variable {s s₁ s' : Vars} {calls : List Call} {c : Call} {nonces : List ℕ} {nonce : ℕ}

/-- A further call whose start is not the largest nonce has a higher nonce than all before. -/
theorem pairwise_concat (hs : s.lastNonce < 2 ^ 64) (hruns : Runs s calls nonces s₁)
    (hnonces : nonces.Pairwise (· < ·)) (hsend : Sends c s₁ nonce s')
    (hlast : calls ≠ [] → s₁.lastNonce ≠ maxUint64) : (nonces ++ [nonce]).Pairwise (· < ·) := by
  rw [List.pairwise_append]
  refine ⟨hnonces, List.pairwise_singleton _ _, fun n hn m hm => ?_⟩
  rw [List.mem_singleton.mp hm]
  rcases List.eq_nil_or_concat calls with rfl | ⟨calls', c', rfl⟩
  · rcases hruns with ⟨rfl, -⟩
    cases hn
  · rw [List.concat_eq_append] at hruns hlast
    have hfirst := (hsend.spec (hruns.lastNonce hs).1).2.1
    rw [Node.firstNonce, if_neg (hlast (by simp)), (hruns.lastNonce hs).2] at hfirst
    rcases runs_concat.mp hruns with ⟨n', nonce', s₂, rfl, -, -⟩
    rw [List.getLastD_concat] at hfirst
    rcases List.mem_append.mp hn with hold | hnew
    · have := (List.pairwise_append.mp hnonces).2.2 n hold nonce' List.mem_cons_self
      omega
    · rw [List.mem_singleton.mp hnew]
      omega

/-- A call that starts from the largest nonce cannot have a higher one. -/
theorem lastNonce_ne_of_pairwise (hs : s.lastNonce < 2 ^ 64) (hruns : Runs s calls nonces s₁)
    (hsend : Sends c s₁ nonce s') (hnonces : (nonces ++ [nonce]).Pairwise (· < ·))
    (hcalls : calls ≠ []) : s₁.lastNonce ≠ maxUint64 := by
  intro hmax
  have hlt := (hsend.spec (hruns.lastNonce hs).1).2.2
  rw [(hruns.lastNonce hs).2] at hmax
  rcases List.eq_nil_or_concat calls with rfl | ⟨calls', c', rfl⟩
  · exact hcalls rfl
  · rw [List.concat_eq_append] at hruns
    rcases runs_concat.mp hruns with ⟨n', nonce', s₂, rfl, -, -⟩
    rw [List.getLastD_concat, maxUint64] at hmax
    have := (List.pairwise_append.mp hnonces).2.2 nonce' (by simp) nonce List.mem_cons_self
    omega

end Increasing

/-- Any sequence of calls sends all its transactions, with increasing nonces, exactly if the
price moves before each call and no call but the first starts from the largest nonce. -/
theorem submissions_iff (s : Vars) (hs : s.lastNonce < 2 ^ 64) (calls : List Call) :
    AllSent s calls ↔ Moving s calls := by
  induction calls using List.reverseRecOn with
  | nil =>
      refine ⟨fun _ before c after hsplit => ?_, fun _ => ⟨[], s, ⟨rfl, rfl⟩, List.Pairwise.nil⟩⟩
      cases before <;> cases hsplit
  | append_singleton calls c ih =>
      rw [moving_concat, ← ih]
      constructor
      · rintro ⟨nonces, s', hruns, hnonces⟩
        rcases runs_concat.mp hruns with ⟨n, nonce, s₁, rfl, hn, hsend⟩
        refine ⟨⟨n, s₁, hn, (List.pairwise_append.mp hnonces).1⟩, fun n' t hn' => ?_⟩
        obtain ⟨rfl, rfl⟩ := hn.unique hs hn'
        exact ⟨hsend.priceMoves (hn.lastNonce hs).1,
          lastNonce_ne_of_pairwise hs hn hsend hnonces⟩
      · rintro ⟨⟨nonces, s₁, hruns, hnonces⟩, hlast⟩
        rcases hlast nonces s₁ hruns with ⟨hmoves, hne⟩
        rcases exists_sends (hruns.lastNonce hs).1 hmoves with ⟨s', hsend, -⟩
        exact ⟨_, s', runs_concat.mpr ⟨nonces, _, s₁, rfl, hruns, hsend⟩,
          pairwise_concat hs hruns hnonces hsend hne⟩

/-! ## A node to run the calls against -/

/-- A node that checks the nonce first. -/
def honest (N P pending suggested : ℕ) : Client where
  pendingNonceAt := some pending
  suggestGasPrice := some suggested
  sendTransaction _ nonce price :=
    if nonce < N then some "nonce too low"
    else if price < P then some "transaction underpriced"
    else none

/-- It is one of the nodes the loop is written for. -/
def Node.honest (N P pending suggested : ℕ) (hN : N < 2 ^ 64) (hpending : pending < 2 ^ 64) :
    Node where
  client := EthChain.honest N P pending suggested
  N := N
  P := P
  pending := pending
  suggested := suggested
  N_lt := hN
  pending_lt := hpending
  pendingNonceAt_eq := rfl
  suggestGasPrice_eq := rfl
  takes attempt nonce price := by
    simp only [EthChain.honest]
    split
    · simp
      omega
    · split <;> simp <;> omega
  refuses attempt nonce price err h := by
    simp only [EthChain.honest] at h
    split at h
    case isTrue hlow =>
      cases h
      exact .inl ⟨hlow, by decide⟩
    case isFalse =>
      split at h
      case isTrue hlow =>
        cases h
        exact .inr ⟨hlow, by decide, by decide⟩
      case isFalse => cases h

/-- A price of ten is raised to the twelve the first node asks for, and from there on. -/
theorem submissions_ten :
    AllSent ⟨maxUint64, 10⟩ [.addTB (.honest 3 12 2 0 (by decide) (by decide)),
      .adjustRecordedAddrs (.honest 5 14 2 0 (by decide) (by decide))] := by
  refine (submissions_iff ⟨maxUint64, 10⟩ (by decide) _).mpr ?_
  have hfirst : Moving ⟨maxUint64, 10⟩ [.addTB (.honest 3 12 2 0 (by decide) (by decide))] := by
    refine (@moving_concat _ [] _).mpr ⟨fun before c after hsplit => ?_, ?_⟩
    · cases before <;> cases hsplit
    · rintro nonces s₁ ⟨-, rfl⟩
      exact ⟨.inr (by decide), fun h => absurd rfl h⟩
  refine (@moving_concat _ [_] _).mpr ⟨hfirst, fun nonces s₁ hruns => ?_⟩
  have hrun : Runs ⟨maxUint64, 10⟩ [.addTB (.honest 3 12 2 0 (by decide) (by decide))]
      [3] ⟨3, 12⟩ := ⟨3, [], ⟨3, 12⟩, rfl, ⟨4, by decide⟩, rfl, rfl⟩
  obtain ⟨-, rfl⟩ := hruns.unique (by decide) hrun
  exact ⟨.inr (by decide), fun _ => by decide⟩

/-- A price of nine is never raised: the call does not end, however long it tries. And the
call after one that used the largest nonce uses a smaller one. -/
theorem submissions_stuck_and_wrapped :
    (∀ fuel, (Call.addTB (.honest 0 10 0 0 (by decide) (by decide))).run fuel ⟨5, 9⟩ = none) ∧
    Runs ⟨2 ^ 64 - 2, 10⟩ [.addTB (.honest 0 1 3 0 (by decide) (by decide)),
      .adjustRecordedAddrs (.honest 0 1 3 0 (by decide) (by decide))]
      [2 ^ 64 - 1, 3] ⟨3, 10⟩ := by
  refine ⟨run_eq_none (by decide) (by unfold PriceMoves; decide), ?_⟩
  exact ⟨_, _, ⟨2 ^ 64 - 1, 10⟩, rfl, ⟨1, by decide⟩, _, _, ⟨3, 10⟩, rfl, ⟨1, by decide⟩, rfl, rfl⟩

end LessChain.EthChain
