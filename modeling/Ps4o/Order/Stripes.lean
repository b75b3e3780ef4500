import Mathlib.Algebra.Order.Ring.Nat
import Mathlib.Algebra.BigOperators.Group.List.Basic
import Mathlib.Tactic.Common

/-!
# Stripes

`n` elements are divided among `t` threads: stripes of the same width, rounded up, until there
are no elements left.

## What is proved

* The stripes stand one after the other, from `0` to `n` (`first_zero`, `first_last`).
* Every element lies in exactly one stripe (`mem_iff`, `sum_owner`).
* No stripe is shorter than the last one (`last_shortest`), and every stripe with elements is as
  wide as the first, or holds what is left (`length_stripe`).
-/

namespace Ps4o.Order.Stripes

variable {n t i j x : ℕ}

/-- The elements per thread. -/
def width (n t : ℕ) : ℕ := (n + t - 1) / t

/-- Where stripe `i` begins; it ends where the next one begins. -/
def first (n t i : ℕ) : ℕ := min (i * width n t) n

@[simp] theorem first_zero : first n t 0 = 0 := by simp [first]

theorem first_le : first n t i ≤ n := min_le_right _ _

theorem first_mono (h : i ≤ j) : first n t i ≤ first n t j :=
  min_le_min_right n (Nat.mul_le_mul_right _ h)

theorem first_le_succ : first n t i ≤ first n t (i + 1) := first_mono (Nat.le_succ i)

/-- The stripes hold all elements. -/
theorem le_mul_width (ht : 1 ≤ t) : n ≤ t * width n t := by
  have := Nat.div_add_mod (n + t - 1) t
  have := Nat.mod_lt (n + t - 1) (show 0 < t by omega)
  unfold width
  omega

theorem first_last (ht : 1 ≤ t) : first n t t = n := min_eq_right (le_mul_width ht)

/-- The thread in whose stripe an element lies. -/
def owner (n t x : ℕ) : ℕ := x / width n t

theorem width_pos (ht : 1 ≤ t) (hn : 0 < n) : 0 < width n t := by
  have := le_mul_width (n := n) ht
  rcases Nat.eq_zero_or_pos (width n t) with h | h
  · rw [h] at this
    omega
  · exact h

theorem first_eq (h : first n t i < n) : first n t i = i * width n t := by
  unfold first at h ⊢
  omega

/-- **An element lies in the stripe of its owner, and in no other.** -/
theorem mem_iff (ht : 1 ≤ t) (hx : x < n) :
    first n t i ≤ x ∧ x < first n t (i + 1) ↔ owner n t x = i := by
  have hw := width_pos ht (show 0 < n by omega)
  have hle : first n t i ≤ x ↔ i * width n t ≤ x := by
    unfold first
    omega
  have hlt : x < first n t (i + 1) ↔ x < (i + 1) * width n t := by
    unfold first
    omega
  rw [hle, hlt, owner, Nat.div_eq_iff hw, Nat.add_mul]
  omega

theorem owner_lt (ht : 1 ≤ t) (hx : x < n) : owner n t x < t :=
  Nat.div_lt_of_lt_mul (by
    have := le_mul_width (n := n) ht
    rw [Nat.mul_comm]
    omega)

theorem first_owner_le (ht : 1 ≤ t) (hx : x < n) : first n t (owner n t x) ≤ x :=
  ((mem_iff ht hx).mpr rfl).1

theorem lt_first_owner (ht : 1 ≤ t) (hx : x < n) : x < first n t (owner n t x + 1) :=
  ((mem_iff ht hx).mpr rfl).2

/-- A stripe without elements stands at the end. -/
theorem first_eq_of_empty (ht : 1 ≤ t) (h : first n t (i + 1) ≤ first n t i) :
    first n t i = n ∧ first n t (i + 1) = n := by
  have hle := first_le_succ (n := n) (t := t) (i := i)
  rcases Nat.lt_or_ge (first n t i) n with hlt | hge
  · have hw := width_pos ht (show 0 < n by omega)
    have heq := first_eq hlt
    have hsucc : (i + 1) * width n t = i * width n t + width n t := Nat.succ_mul _ _
    unfold first at h hlt heq
    omega
  · have h₁ : first n t i ≤ n := first_le
    have h₂ : first n t (i + 1) ≤ n := first_le
    omega

/-- One stripe holds an element, the others do not. -/
theorem sum_owner (ht : 1 ≤ t) (hx : x < n) :
    ((List.range t).map fun i => if first n t i ≤ x ∧ x < first n t (i + 1) then 1 else 0).sum =
    1 := by
  have hsum : ∀ k, ((List.range k).map fun i => if owner n t x = i then 1 else 0).sum =
      if owner n t x < k then 1 else 0 := by
    intro k
    induction k with
    | zero => rfl
    | succ k ih =>
      rw [List.range_succ, List.map_append, List.sum_append, ih,
        List.map_singleton, List.sum_singleton]
      split_ifs <;> omega
  simp only [mem_iff ht hx, hsum, if_pos (owner_lt ht hx)]

/-- No stripe is shorter than the last one. -/
theorem last_shortest (ht : 1 ≤ t) (hi : i < t) :
    n - first n t (t - 1) ≤ first n t (i + 1) - first n t i := by
  rcases Nat.lt_or_ge (first n t (t - 1)) n with hlt | hge
  · rcases Nat.lt_or_ge (i + 1) t with hit | hit
    · -- the stripe is as wide as any
      have hmul := first_eq hlt
      have h₁ : (i + 1) * width n t ≤ (t - 1) * width n t := Nat.mul_le_mul_right _ (by omega)
      have h₂ := le_mul_width (n := n) ht
      have h₃ : t * width n t = (t - 1) * width n t + width n t := by
        rw [← Nat.succ_mul, Nat.succ_eq_add_one, Nat.sub_add_cancel ht]
      have h₄ : (i + 1) * width n t = i * width n t + width n t := Nat.succ_mul _ _
      unfold first at hlt hmul ⊢
      omega
    · obtain rfl : i = t - 1 := by omega
      rw [Nat.sub_add_cancel ht, first_last ht]
  · omega

theorem width_le (ht : 1 ≤ t) (hn : 0 < n) : width n t ≤ n := by
  refine Nat.div_le_of_le_mul ?_
  have : t - 1 ≤ (t - 1) * n := Nat.le_mul_of_pos_right _ hn
  have : t * n = (t - 1) * n + n := by
    rw [← Nat.succ_mul, Nat.succ_eq_add_one, Nat.sub_add_cancel ht]
  omega

/-- A stripe with elements is as wide as any, or holds what is left of them. -/
theorem length_stripe (h : first n t i < first n t (i + 1)) :
    first n t (i + 1) - first n t i = if (i + 1) * width n t ≤ n then width n t
      else n % width n t := by
  have hlt : first n t i < n := h.trans_le first_le
  have heq := first_eq hlt
  have hsucc : (i + 1) * width n t = i * width n t + width n t := Nat.succ_mul _ _
  split_ifs with hfull
  · rw [first, min_eq_left hfull]
    omega
  · rw [first, min_eq_right (by omega), heq]
    have hdiv : n / width n t = i := (Nat.div_eq_iff (by omega)).mpr (by omega)
    have := Nat.div_add_mod n (width n t)
    rw [hdiv, Nat.mul_comm] at this
    omega

/-- What is left is in a stripe. -/
theorem exists_rest (ht : 1 ≤ t) (h : n % width n t ≠ 0) :
    ∃ i < t, first n t (i + 1) - first n t i = n % width n t ∧ first n t i < first n t (i + 1) := by
  have hn : 0 < n := Nat.pos_of_ne_zero fun h0 => h (by rw [h0, Nat.zero_mod])
  have hw := width_pos ht hn
  have hdiv := Nat.div_add_mod n (width n t)
  have hmod := Nat.mod_lt n hw
  have hsucc : (n / width n t + 1) * width n t = n / width n t * width n t + width n t :=
    Nat.succ_mul _ _
  rw [Nat.mul_comm] at hdiv
  have h₁ : first n t (n / width n t) = n / width n t * width n t := min_eq_left (by omega)
  have h₂ : first n t (n / width n t + 1) = n := min_eq_right (by omega)
  refine ⟨n / width n t, Nat.lt_of_mul_lt_mul_right (a := width n t) ?_, by omega, by omega⟩
  exact lt_of_lt_of_le (by omega) (le_mul_width ht)

/-! ### Lists -/

variable {β γ : Type}

/-- The elements of stripe `i`. -/
def slice (xs : List β) (t i : ℕ) : List β :=
  (xs.take (first xs.length t (i + 1))).drop (first xs.length t i)

theorem length_slice (xs : List β) (t i : ℕ) :
    (slice xs t i).length = first xs.length t (i + 1) - first xs.length t i := by
  rw [slice, List.length_drop, List.length_take, min_eq_left first_le]

/-- Up to the end of a stripe, the last elements are those of the stripe. -/
theorem take_append_slice (xs : List β) (t i : ℕ) :
    xs.take (first xs.length t i) ++ slice xs t i = xs.take (first xs.length t (i + 1)) := by
  rw [slice]
  conv_rhs => rw [← List.take_append_drop (first xs.length t i)
    (xs.take (first xs.length t (i + 1)))]
  rw [List.take_take, min_eq_left first_le_succ]

theorem slice_map (f : β → γ) (xs : List β) (t i : ℕ) :
    slice (xs.map f) t i = (slice xs t i).map f := by
  simp only [slice, List.length_map, List.map_drop, List.map_take]

theorem slice_getElem? (xs : List β) (t i j : ℕ) (x : β) (h : (slice xs t i)[j]? = some x) :
    xs[first xs.length t i + j]? = some x := by
  rw [slice, List.getElem?_drop, List.getElem?_take] at h
  split_ifs at h with hlt
  exact h

/-- An element is in the slice of the stripe it lies in. -/
theorem getElem?_slice {xs : List β} {t i j : ℕ} (h₁ : first xs.length t i ≤ j)
    (h₂ : j < first xs.length t (i + 1)) : (slice xs t i)[j - first xs.length t i]? = xs[j]? := by
  rw [slice, List.getElem?_drop, Nat.add_sub_of_le h₁, List.getElem?_take, if_pos h₂]

end Ps4o.Order.Stripes
