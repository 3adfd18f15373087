import LessChain.Lib.Rlp

/-!
# Contract ABI

The layout of the arguments of a call and of the data of an event: a head with one word for
each value, and the byte strings behind it. A number stands in its word; for a byte string the
word holds the offset at which its length and its bytes stand.

Values are numbers and byte strings; nested tuples and arrays are left out. `unpack` does not
check the high bits of a number: it reads as many bytes as the type has. `unpack_pack` is the
round trip.
-/

namespace Sys

namespace Abi

/-- Unsigned numbers of some width (an address is one of 160 bits), and byte strings. -/
inductive Ty where
  | uint (bits : ℕ)
  | bytes
deriving DecidableEq, Repr

inductive Val where
  | uint (n : ℕ)
  | bytes (b : List UInt8)
deriving DecidableEq, Repr

/-- The values of a type. -/
def Val.HasTy : Val → Ty → Prop
  | .uint n, .uint bits => n < 2 ^ bits ∧ bits ≤ 256
  | .bytes _, .bytes => True
  | _, _ => False

def word (n : ℕ) : List UInt8 := toBE 32 n

/-- A byte string: its length, and its bytes up to a full word. -/
def tail (b : List UInt8) : List UInt8 :=
  word b.length ++ b ++ List.replicate ((32 - b.length % 32) % 32) 0

/-- Heads and tails of the values. The first tail will stand at `offset`. -/
def packAux : ℕ → List Val → List UInt8 × List UInt8
  | _, [] => ([], [])
  | offset, .uint n :: vals =>
      let (heads, tails) := packAux offset vals
      (word n ++ heads, tails)
  | offset, .bytes b :: vals =>
      let (heads, tails) := packAux (offset + (tail b).length) vals
      (word offset ++ heads, tail b ++ tails)

def pack (vals : List Val) : List UInt8 :=
  let (heads, tails) := packAux (32 * vals.length) vals
  heads ++ tails

/-- The number in the word at `index`. -/
def wordAt (index : ℕ) (output : List UInt8) : ℕ := fromBE ((output.drop index).take 32)

/-- Where a byte string begins, and its length. -/
def lengthPrefixPointsTo (index : ℕ) (output : List UInt8) : Option (ℕ × ℕ) :=
  let offsetEnd := wordAt index output + 32
  if offsetEnd > output.length ∨ 2 ^ 63 ≤ offsetEnd then none
  else
    let length := wordAt (offsetEnd - 32) output
    if 2 ^ 63 ≤ offsetEnd + length ∨ offsetEnd + length > output.length then none
    else some (offsetEnd, length)

/-- One value. -/
def toGoType (index : ℕ) (t : Ty) (output : List UInt8) : Option Val :=
  if index + 32 > output.length then none
  else
    match t with
    | .uint bits => some (.uint (wordAt index output % 2 ^ bits))
    | .bytes => do
        let (start, length) ← lengthPrefixPointsTo index output
        some (.bytes ((output.drop start).take length))

/-- The values from `index` on. -/
def unpackFrom (output : List UInt8) : ℕ → List Ty → Option (List Val)
  | _, [] => some []
  | index, t :: tys => do
      let v ← toGoType index t output
      let vals ← unpackFrom output (index + 32) tys
      some (v :: vals)

def unpack (tys : List Ty) (output : List UInt8) : Option (List Val) := unpackFrom output 0 tys

/-! ## Round trip -/

@[simp] theorem length_word (n : ℕ) : (word n).length = 32 := length_toBE 32 n

@[simp] theorem packAux_uint (offset n : ℕ) (vals : List Val) :
    packAux offset (.uint n :: vals) =
      (word n ++ (packAux offset vals).1, (packAux offset vals).2) := rfl

@[simp] theorem packAux_bytes (offset : ℕ) (b : List UInt8) (vals : List Val) :
    packAux offset (.bytes b :: vals) =
      (word offset ++ (packAux (offset + (tail b).length) vals).1,
        tail b ++ (packAux (offset + (tail b).length) vals).2) := rfl

theorem length_packAux_fst (offset : ℕ) (vals : List Val) :
    (packAux offset vals).1.length = 32 * vals.length := by
  induction vals generalizing offset with
  | nil => rfl
  | cons v vals ih =>
      cases v with
      | uint n =>
          simp only [packAux_uint, List.length_append, length_word, ih, List.length_cons]
          omega
      | bytes b =>
          simp only [packAux_bytes, List.length_append, length_word, ih, List.length_cons]
          omega

/-- What follows a prefix of the rest of a buffer. -/
theorem prefix_drop_append {a b out : List UInt8} {i : ℕ} (h : a ++ b <+: out.drop i) :
    a <+: out.drop i ∧ b <+: out.drop (i + a.length) := by
  rcases h with ⟨t, ht⟩
  refine ⟨⟨b ++ t, by rw [← List.append_assoc, ht]⟩, ⟨t, ?_⟩⟩
  rw [← List.drop_drop, ← ht, List.append_assoc, List.drop_left]

theorem length_le_of_prefix_drop {a out : List UInt8} {i : ℕ} (h : a <+: out.drop i)
    (ha : a ≠ []) : i + a.length ≤ out.length := by
  have hlen := h.length_le
  have hpos := List.length_pos_iff.mpr ha
  rw [List.length_drop] at hlen
  omega

theorem take_of_prefix_drop {a out : List UInt8} {i : ℕ} (h : a <+: out.drop i) :
    (out.drop i).take a.length = a :=
  (List.prefix_iff_eq_take.mp h).symm

theorem word_ne_nil (n : ℕ) : word n ≠ [] :=
  List.ne_nil_of_length_pos (by simp)

/-- A word that was written is read back. -/
theorem wordAt_of_prefix_drop {n i : ℕ} {out : List UInt8} (h : word n <+: out.drop i)
    (hn : n < 2 ^ 256) : wordAt i out = n ∧ i + 32 ≤ out.length := by
  have htake := take_of_prefix_drop h
  have hle := length_le_of_prefix_drop h (word_ne_nil n)
  rw [length_word] at htake hle
  refine ⟨?_, hle⟩
  rw [wordAt, htake, word, fromBE_toBE]
  exact Nat.mod_eq_of_lt (by simpa using hn)

theorem toGoType_uint {n bits i : ℕ} {out : List UInt8} (h : word n <+: out.drop i)
    (hn : n < 2 ^ bits) (hbits : bits ≤ 256) :
    toGoType i (.uint bits) out = some (.uint n) := by
  have hn' : n < 2 ^ 256 := hn.trans_le (Nat.pow_le_pow_right (by decide) hbits)
  rcases wordAt_of_prefix_drop h hn' with ⟨hword, hle⟩
  rw [toGoType, if_neg (by omega), hword, Nat.mod_eq_of_lt hn]

theorem toGoType_bytes {b out : List UInt8} {i offset : ℕ} (hlen : out.length < 2 ^ 63)
    (hhead : word offset <+: out.drop i) (htail : tail b <+: out.drop offset) :
    toGoType i .bytes out = some (.bytes b) := by
  have hne : tail b ≠ [] := by simp [tail, word_ne_nil]
  have hend := length_le_of_prefix_drop htail hne
  have hfit : offset + 32 + b.length ≤ out.length := by
    simp only [tail, List.length_append, length_word] at hend
    omega
  rcases wordAt_of_prefix_drop hhead (by omega) with ⟨hoffset, hle⟩
  -- the length, then the bytes
  rw [tail, List.append_assoc] at htail
  rcases prefix_drop_append htail with ⟨hlenWord, hrest⟩
  rw [length_word] at hrest
  have hb := take_of_prefix_drop (prefix_drop_append hrest).1
  rcases wordAt_of_prefix_drop hlenWord (by omega) with ⟨hlength, -⟩
  have hpoints : lengthPrefixPointsTo i out = some (offset + 32, b.length) := by
    rw [lengthPrefixPointsTo, hoffset, if_neg (by omega), Nat.add_sub_cancel, hlength,
      if_neg (by omega)]
  rw [toGoType, if_neg (by omega), hpoints]
  simp only [Option.bind_eq_bind, Option.bind_some, hb]

/-- Reading values whose heads stand at `i` and whose tails stand at `offset`. -/
theorem unpackFrom_packAux {vals : List Val} {tys : List Ty} (h : List.Forall₂ Val.HasTy vals tys)
    {out : List UInt8} (hlen : out.length < 2 ^ 63) {i offset : ℕ}
    (hheads : (packAux offset vals).1 <+: out.drop i)
    (htails : (packAux offset vals).2 <+: out.drop offset) :
    unpackFrom out i tys = some vals := by
  induction h generalizing i offset with
  | nil => rfl
  | @cons v t vals tys hty h ih =>
      cases v with
      | uint n =>
          cases t with
          | bytes => cases hty
          | uint bits =>
              rw [packAux_uint] at hheads htails
              rcases prefix_drop_append hheads with ⟨hword, hheads'⟩
              rw [length_word] at hheads'
              rw [unpackFrom, toGoType_uint hword hty.1 hty.2]
              simp only [Option.bind_eq_bind, Option.bind_some, ih hheads' htails]
      | bytes b =>
          cases t with
          | uint bits => cases hty
          | bytes =>
              rw [packAux_bytes] at hheads htails
              rcases prefix_drop_append hheads with ⟨hword, hheads'⟩
              rcases prefix_drop_append htails with ⟨htail, htails'⟩
              rw [length_word] at hheads'
              rw [unpackFrom, toGoType_bytes hlen hword htail]
              simp only [Option.bind_eq_bind, Option.bind_some, ih hheads' htails']

theorem unpack_pack {vals : List Val} {tys : List Ty} (h : List.Forall₂ Val.HasTy vals tys)
    (hlen : (pack vals).length < 2 ^ 63) : unpack tys (pack vals) = some vals := by
  have hdrop : (pack vals).drop (32 * vals.length) = (packAux (32 * vals.length) vals).2 :=
    List.drop_left' (length_packAux_fst _ vals)
  exact unpackFrom_packAux h hlen (List.prefix_append ..) (hdrop ▸ List.prefix_rfl)

/-- Values of one shape are determined by what is written for them. -/
theorem pack_inj {vals vals' : List Val} {tys : List Ty} (h : List.Forall₂ Val.HasTy vals tys)
    (h' : List.Forall₂ Val.HasTy vals' tys) (hlen : (pack vals).length < 2 ^ 63)
    (heq : pack vals = pack vals') : vals = vals' := by
  have hread := unpack_pack h hlen
  rw [heq, unpack_pack h' (heq ▸ hlen)] at hread
  exact (Option.some.inj hread).symm

end Abi

end Sys
