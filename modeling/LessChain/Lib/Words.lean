import Mathlib.Data.List.Basic
import Mathlib.Data.List.Infix
import Mathlib.Tactic.Common

/-!
# Words

Lists of symbols, as keys of a search tree see them. Two words that are no prefix of each
other part at a first symbol (`apart_iff`); `Before` says that the word on the left has the
smaller one there. That is the lexicographic order, less the words that are only shorter
(`before_iff`), and it does not change below a common prefix.
-/

namespace Sys

variable {α : Type*} {a b c : List α}

/-- Neither word is a prefix of the other. -/
def Apart (a b : List α) : Prop := ¬ a <+: b ∧ ¬ b <+: a

theorem Apart.ne (h : Apart a b) : a ≠ b := by
  rintro rfl
  exact h.1 List.prefix_rfl

@[simp] theorem apart_append_left : Apart (c ++ a) (c ++ b) ↔ Apart a b := by
  simp [Apart, List.prefix_append_right_inj]

@[simp] theorem apart_cons {x : α} : Apart (x :: a) (x :: b) ↔ Apart a b :=
  apart_append_left (c := [x])

theorem apart_of_ne {x y : α} (h : x ≠ y) : Apart (c ++ x :: a) (c ++ y :: b) := by
  rw [apart_append_left]
  constructor
  · exact fun hp => h (List.cons_prefix_cons.mp hp).1
  · exact fun hp => h (List.cons_prefix_cons.mp hp).1.symm

/-- Two words part at a first symbol, or one is a prefix of the other. -/
theorem prefix_or_parting (a b : List α) : a <+: b ∨ b <+: a ∨
    ∃ c x y a' b', a = c ++ x :: a' ∧ b = c ++ y :: b' ∧ x ≠ y := by
  induction a generalizing b with
  | nil => exact .inl List.nil_prefix
  | cons x a ih =>
      cases b with
      | nil => exact .inr (.inl List.nil_prefix)
      | cons y b =>
          by_cases hxy : x = y
          · subst hxy
            rcases ih b with hp | hp | ⟨c, x', y', a', b', rfl, rfl, hne⟩
            · exact .inl (List.cons_prefix_cons.mpr ⟨rfl, hp⟩)
            · exact .inr (.inl (List.cons_prefix_cons.mpr ⟨rfl, hp⟩))
            · exact .inr (.inr ⟨x :: c, x', y', a', b', rfl, rfl, hne⟩)
          · exact .inr (.inr ⟨[], x, y, a, b, rfl, rfl, hxy⟩)

theorem eq_or_parting (hlen : a.length = b.length) : a = b ∨
    ∃ c x y a' b', a = c ++ x :: a' ∧ b = c ++ y :: b' ∧ x ≠ y := by
  rcases prefix_or_parting a b with hp | hp | hpart
  · exact .inl (hp.eq_of_length hlen)
  · exact .inl (hp.eq_of_length hlen.symm).symm
  · exact .inr hpart

theorem apart_iff : Apart a b ↔ ∃ c x y a' b', a = c ++ x :: a' ∧ b = c ++ y :: b' ∧ x ≠ y := by
  constructor
  · intro h
    rcases prefix_or_parting a b with hp | hp | hpart
    · exact absurd hp h.1
    · exact absurd hp h.2
    · exact hpart
  · rintro ⟨c, x, y, a', b', rfl, rfl, hne⟩
    exact apart_of_ne hne

/-- A word that is apart from a prefix is apart from the whole. -/
theorem Apart.append_right (h : Apart a b) (r : List α) : Apart a (b ++ r) := by
  rcases apart_iff.mp h with ⟨c, x, y, a', b', rfl, rfl, hne⟩
  rw [List.append_assoc, List.cons_append]
  exact apart_of_ne hne

/-! ## Order -/

section Order

variable [LT α]

/-- The words part, and `a` has the smaller symbol there. -/
def Before (a b : List α) : Prop := ∃ c x y a' b', a = c ++ x :: a' ∧ b = c ++ y :: b' ∧ x < y

theorem Before.lt (h : Before a b) : a < b := by
  rcases h with ⟨c, x, y, a', b', rfl, rfl, hlt⟩
  exact List.append_left_lt (List.cons_lt_cons_iff.mpr (.inl hlt))

theorem before_of_lt_of_not_prefix (hlt : a < b) (hp : ¬ a <+: b) : Before a b := by
  induction a generalizing b with
  | nil => exact absurd List.nil_prefix hp
  | cons x a ih =>
      cases b with
      | nil => exact absurd hlt (List.not_lt_nil _)
      | cons y b =>
          rcases List.cons_lt_cons_iff.mp hlt with hxy | ⟨rfl, hab⟩
          · exact ⟨[], x, y, a, b, rfl, rfl, hxy⟩
          · have hp' : ¬ a <+: b := fun h => hp (List.cons_prefix_cons.mpr ⟨rfl, h⟩)
            rcases ih hab hp' with ⟨c, x', y', a', b', rfl, rfl, hlt'⟩
            exact ⟨x :: c, x', y', a', b', rfl, rfl, hlt'⟩

theorem before_cons {x y : α} :
    Before (x :: a) (y :: b) ↔ x < y ∨ (x = y ∧ Before a b) := by
  constructor
  · rintro ⟨c, x', y', a', b', ha, hb, hlt⟩
    cases c with
    | nil =>
        cases ha
        cases hb
        exact .inl hlt
    | cons z c =>
        cases ha
        cases hb
        exact .inr ⟨rfl, c, x', y', a', b', rfl, rfl, hlt⟩
  · rintro (hlt | ⟨rfl, c, x', y', a', b', rfl, rfl, hlt⟩)
    · exact ⟨[], x, y, a, b, rfl, rfl, hlt⟩
    · exact ⟨x :: c, x', y', a', b', rfl, rfl, hlt⟩

theorem not_before_nil : ¬ Before a [] := by
  rintro ⟨c, x, y, a', b', -, hb, -⟩
  simp at hb

variable [Std.Irrefl (α := α) (· < ·)]

theorem Before.apart (h : Before a b) : Apart a b := by
  rcases h with ⟨c, x, y, a', b', rfl, rfl, hlt⟩
  refine apart_of_ne ?_
  rintro rfl
  exact Std.Irrefl.irrefl x hlt

theorem before_iff : Before a b ↔ a < b ∧ ¬ a <+: b :=
  ⟨fun h => ⟨h.lt, h.apart.1⟩, fun h => before_of_lt_of_not_prefix h.1 h.2⟩

@[simp] theorem before_append_left : Before (c ++ a) (c ++ b) ↔ Before a b := by
  induction c with
  | nil => rfl
  | cons x c ih =>
      have hirrefl : ¬ x < x := Std.Irrefl.irrefl x
      rw [List.cons_append, List.cons_append, before_cons, ih]
      simp [hirrefl]

end Order

/-- A word is determined by its image under a function that keeps its symbols apart from those
of the other word. -/
theorem eq_of_map_eq {β : Type*} {f : α → β} {a b : List α}
    (hf : ∀ x ∈ a, ∀ y ∈ b, f x = f y → x = y) (h : a.map f = b.map f) : a = b := by
  induction a generalizing b with
  | nil => exact (List.map_eq_nil_iff.mp h.symm).symm
  | cons x a ih =>
      cases b with
      | nil => cases h
      | cons y b =>
          rw [List.map_cons, List.map_cons, List.cons.injEq] at h
          rw [hf x List.mem_cons_self y List.mem_cons_self h.1,
            ih (fun z hz w hw => hf z (List.mem_cons_of_mem _ hz) w (List.mem_cons_of_mem _ hw)) h.2]

end Sys
