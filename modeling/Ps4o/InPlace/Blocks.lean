import Mathlib.Algebra.Order.Ring.Nat
import Mathlib.Tactic.Common

/-!
# Blocks

The in-place algorithm moves elements in blocks. A block begins at a multiple of the block size.

## What is proved

* `alignToNextBlock_le_iff` — the next block boundary is the least one that is not before a
  position.
* `alignToNextBlock_eq` — a position lies in one block.
-/

namespace Ps4o.InPlace

/-- `alignToNextBlock`: clearing the low bits of `p + kBlockSize - 1`, when the block size is a
power of two. -/
def alignToNextBlock (kBlockSize p : ℕ) : ℕ := (p + kBlockSize - 1) / kBlockSize * kBlockSize

section
variable {B p q : ℕ} (hB : 1 ≤ B)

theorem dvd_alignToNextBlock (B p : ℕ) : B ∣ alignToNextBlock B p := Dvd.intro_left _ rfl

include hB

theorem le_alignToNextBlock (p : ℕ) : p ≤ alignToNextBlock B p := by
  have := Nat.div_add_mod (p + B - 1) B
  have := Nat.mod_lt (p + B - 1) (show 0 < B by omega)
  rw [alignToNextBlock, Nat.mul_comm]
  omega

theorem alignToNextBlock_lt (p : ℕ) : alignToNextBlock B p < p + B := by
  have := Nat.div_mul_le_self (p + B - 1) B
  rw [alignToNextBlock]
  omega

omit hB in
/-- Multiples of the block size that are less than a block apart. -/
theorem le_of_lt_add (hp : B ∣ p) (hq : B ∣ q) (h : p < q + B) : p ≤ q := by
  obtain ⟨i, rfl⟩ := hp
  obtain ⟨j, rfl⟩ := hq
  rw [← Nat.mul_succ] at h
  exact Nat.mul_le_mul_left B (Nat.lt_succ_iff.mp (Nat.lt_of_mul_lt_mul_left h))

/-- **The next block boundary.** -/
theorem alignToNextBlock_le_iff (hq : B ∣ q) : alignToNextBlock B p ≤ q ↔ p ≤ q := by
  have hle := le_alignToNextBlock hB p
  have hlt := alignToNextBlock_lt hB p
  exact ⟨fun h => hle.trans h, fun h => le_of_lt_add (dvd_alignToNextBlock B p) hq (by omega)⟩

theorem alignToNextBlock_mono (h : p ≤ q) : alignToNextBlock B p ≤ alignToNextBlock B q :=
  (alignToNextBlock_le_iff hB (dvd_alignToNextBlock B q)).mpr (h.trans (le_alignToNextBlock hB q))

/-- A block boundary less than a block away is the next one. -/
theorem alignToNextBlock_eq (hq : B ∣ q) (h₁ : p ≤ q) (h₂ : q < p + B) :
    alignToNextBlock B p = q := by
  have hle := le_alignToNextBlock hB p
  exact le_antisymm ((alignToNextBlock_le_iff hB hq).mpr h₁)
    (le_of_lt_add hq (dvd_alignToNextBlock B p) (by omega))

theorem alignToNextBlock_of_dvd (hp : B ∣ p) : alignToNextBlock B p = p :=
  alignToNextBlock_eq hB hp le_rfl (by omega)

end

end Ps4o.InPlace
