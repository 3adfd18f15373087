import Mathlib.Data.List.Basic
import Mathlib.Tactic.Common

/-!
# Reading from a stream

A stream as a reader meets it: one list for what each read finds, then the end. `readFull`
fills a buffer of a given size, over as many reads as that takes. How the elements were split
into reads does not show in what it returns: `readFull_of_le` and `readFull_of_lt` speak of
the concatenation only.
-/

namespace Sys.Stream

variable {α : Type*}

/-- Why a buffer was not filled: nothing was left, or too little. -/
inductive ReadError
  | eof
  | unexpectedEOF
deriving DecidableEq, Repr

/-- Loop of `readFull`: `need` elements are missing, `got` are in the buffer. A read that
finds more than is missing leaves the rest to the next one. -/
def fill : ℕ → List α → List (List α) → List α × List (List α)
  | _, got, [] => (got, [])
  | need, got, chunk :: chunks =>
      if need ≤ chunk.length then (got ++ chunk.take need, chunk.drop need :: chunks)
      else fill (need - chunk.length) (got ++ chunk) chunks

/-- Fill a buffer of `n` elements. -/
def readFull (n : ℕ) (chunks : List (List α)) : Except ReadError (List α × List (List α)) :=
  let r := fill n [] chunks
  if r.1.length = n then .ok r
  else if r.1.length = 0 then .error .eof
  else .error .unexpectedEOF

theorem fill_spec (need : ℕ) (got : List α) (chunks : List (List α)) :
    (fill need got chunks).1 = got ++ chunks.flatten.take need ∧
      (fill need got chunks).2.flatten = chunks.flatten.drop need := by
  induction chunks generalizing need got with
  | nil => simp [fill]
  | cons chunk chunks ih =>
      unfold fill
      split
      case isTrue h => simp [List.take_append_of_le_length h, List.drop_append_of_le_length h]
      case isFalse h =>
        have hle : chunk.length ≤ need := by omega
        rcases ih (need - chunk.length) (got ++ chunk) with ⟨hgot, hrest⟩
        simp [hgot, hrest, List.take_append, List.drop_append, List.take_of_length_le hle,
          List.drop_eq_nil_of_le hle]

/-- With `n` elements left, `readFull` takes the first `n`. -/
theorem readFull_of_le {n : ℕ} {chunks : List (List α)} (h : n ≤ chunks.flatten.length) :
    ∃ rest, readFull n chunks = .ok (chunks.flatten.take n, rest) ∧
      rest.flatten = chunks.flatten.drop n := by
  rcases fill_spec n [] chunks with ⟨hgot, hrest⟩
  rw [List.nil_append] at hgot
  have hfull : (fill n [] chunks).1.length = n := by
    rw [hgot, List.length_take]
    omega
  refine ⟨(fill n [] chunks).2, ?_, hrest⟩
  simp only [readFull, if_pos hfull, ← hgot]

/-- With fewer, it reports whether there was anything at all. -/
theorem readFull_of_lt {n : ℕ} {chunks : List (List α)} (h : chunks.flatten.length < n) :
    readFull n chunks =
      .error (if chunks.flatten.length = 0 then .eof else .unexpectedEOF) := by
  have hgot := (fill_spec n [] chunks).1
  rw [List.nil_append, List.take_of_length_le (Nat.le_of_lt h)] at hgot
  simp only [readFull, hgot, if_neg (Nat.ne_of_lt h)]
  split <;> rfl

end Sys.Stream
