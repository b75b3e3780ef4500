import Ps4o.InPlace.EmptyBlockMovement
import Ps4o.InPlace.OverflowBlock

/-!
# From stripes to buckets

The threads leave full blocks at the front of their stripes, and move them to the front of their
buckets. The block permutation begins there.

## The model

A block is known by the place where it was written in its stripe. What the threads have moved is
`f`, as in `Compacted`.

## What is proved

* `Compacts.classified` — **what the threads have moved to the front of the buckets is what the
  block permutation begins with**.
* `exists_compacts` — there is such a state.
-/

namespace Ps4o.InPlace

open Ps4o.Order.Compaction

section
variable {B n nb t : ℕ} {bss bd feb : ℕ → ℕ}

/-- A full block of a stripe. -/
abbrev FullBlock (B n t : ℕ) (bd feb : ℕ → ℕ) : Type := {x : Fin n // B ∣ (x : ℕ) ∧ Full t bd feb x}

/-- In `f b`, what each block at the front of bucket `b` was. -/
def Moved (B nb t : ℕ) (bss bd feb : ℕ → ℕ) (f : ℕ → ℕ → ℕ) : Prop :=
  ∀ b < nb, Set.BijOn (f b) {x | B ∣ x ∧ startOf B bss b ≤ x ∧ x < frontOf B t bss bd feb b}
    {x | B ∣ x ∧ startOf B bss b ≤ x ∧ x < startOf B bss (b + 1) ∧ Full t bd feb x}

/-- Block `y` stands in slot `p`, at the front of a bucket. -/
def StandsAt (nb : ℕ) (bss : ℕ → ℕ) (f : ℕ → ℕ → ℕ) (p : ℤ) (y : FullBlock B n t bd feb) : Prop :=
  ∃ b < nb, ∃ x : ℕ, p = x ∧ B ∣ x ∧ startOf B bss b ≤ x ∧
  x < frontOf B t bss bd feb b ∧ f b x = y.1

/-- The blocks stand at the front of their buckets, the pointers are set, and nobody has taken a
step. -/
structure Compacts (nb : ℕ) (bss : ℕ → ℕ) (f : ℕ → ℕ → ℕ)
    (s : Permuting t (FullBlock B n t bd feb)) : Prop where
  pointers : ∀ b < nb, s.pointers b = (pointersOf B t bss bd feb b).2
  slot : ∀ p y, s.slot p = some y ↔ StandsAt nb bss f p y
  threads : ∀ i, s.threads i = .start nb t i

variable {f : ℕ → ℕ → ℕ} {s : Permuting t (FullBlock B n t bd feb)} {p q : ℤ}
  {y z : FullBlock B n t bd feb}

/-! ### Where a block stands -/

section
variable (hB : 1 ≤ B) (hbound : Boundaries false nb n bss)
include hB hbound

theorem frontOf_le {b : ℕ} (hb : b < nb) : frontOf B t bss bd feb b ≤ startOf B bss (b + 1) :=
  front_le _ (startOf_mono hB hbound (Nat.le_succ b) hb)

/-- Every block is in a bucket. -/
theorem FullBlock.exists_bucket (y : FullBlock B n t bd feb) :
    ∃ b < nb, startOf B bss b ≤ y.1 ∧ (y.1 : ℕ) < startOf B bss (b + 1) :=
  exists_step (g := startOf B bss) (by rw [startOf_zero hB hbound]; exact Nat.zero_le _)
    (y.1.isLt.trans_le (le_startOf_last hB hbound))

/-- Every block stands somewhere. -/
theorem exists_standsAt (hf : Moved B nb t bss bd feb f) (y : FullBlock B n t bd feb) :
    ∃ p, StandsAt nb bss f p y := by
  obtain ⟨b, hb, h₁, h₂⟩ := FullBlock.exists_bucket hB hbound y
  obtain ⟨x, ⟨hx, h₃, h₄⟩, hfx⟩ := (hf b hb).surjOn ⟨y.2.1, h₁, h₂, y.2.2⟩
  exact ⟨x, b, hb, x, rfl, hx, h₃, h₄, hfx⟩

/-- No block stands in two places. -/
theorem StandsAt.eq_place (hf : Moved B nb t bss bd feb f) (hp : StandsAt nb bss f p y)
    (hq : StandsAt nb bss f q y) : p = q := by
  obtain ⟨b, hb, x, rfl, hx, h₁, h₂, hfx⟩ := hp
  obtain ⟨c, hc, x', rfl, hx', h₃, h₄, hfx'⟩ := hq
  obtain ⟨-, h₅, h₆, -⟩ := (hf b hb).mapsTo ⟨hx, h₁, h₂⟩
  obtain ⟨-, h₇, h₈, -⟩ := (hf c hc).mapsTo ⟨hx', h₃, h₄⟩
  rw [hfx] at h₅ h₆
  rw [hfx'] at h₇ h₈
  obtain rfl := eq_bucket hB hbound hb hc h₅ h₆ h₇ h₈
  rw [(hf b hb).injOn ⟨hx, h₁, h₂⟩ ⟨hx', h₃, h₄⟩ (hfx.trans hfx'.symm)]

/-- No two blocks stand in one place. -/
theorem StandsAt.eq_block (hp : StandsAt nb bss f p y) (hq : StandsAt nb bss f p z) : y = z := by
  obtain ⟨b, hb, x, rfl, -, h₁, h₂, hfx⟩ := hp
  obtain ⟨c, hc, x', hxx', -, h₃, h₄, hfx'⟩ := hq
  obtain rfl : x = x' := Int.ofNat.inj hxx'
  obtain rfl := eq_bucket hB hbound hb hc h₁ (h₂.trans_le (frontOf_le hB hbound hb)) h₃
    (h₄.trans_le (frontOf_le hB hbound hc))
  exact Subtype.ext (Fin.ext (hfx.symm.trans hfx'))

/-- There is a state in which the blocks stand where they have been moved to. -/
theorem exists_compacts (f : ℕ → ℕ → ℕ) :
    ∃ s : Permuting t (FullBlock B n t bd feb), Compacts nb bss f s := by
  classical
  let slot (p : ℤ) : Option (FullBlock B n t bd feb) :=
    if hp : ∃ y, StandsAt nb bss f p y then some hp.choose else none
  refine ⟨⟨slot, fun b => (pointersOf B t bss bd feb b).2, fun i => .start nb t i⟩, fun _ _ => rfl,
    fun p y => ?_, fun _ => rfl⟩
  simp only [slot]
  split_ifs with hp
  · rw [Option.some.injEq]
    refine ⟨fun hy => hy ▸ hp.choose_spec, fun hy => ?_⟩
    exact hp.choose_spec.eq_block hB hbound hy
  · exact iff_of_false nofun fun hy => hp ⟨y, hy⟩

end

/-! ### The state that the block permutation begins with -/

section
variable (h : Striped B n t bd feb) (hB : 1 ≤ B) (hbound : Boundaries false nb n bss) (ht : 1 ≤ t)
include h hB hbound ht

omit hB hbound in
theorem dvd_frontOf (b : ℕ) : B ∣ frontOf B t bss bd feb b :=
  Nat.dvd_add (dvd_alignToNextBlock B _)
    (Nat.dvd_sub (h.dvd_taking ht (dvd_alignToNextBlock B _))
      (h.dvd_taking ht (dvd_alignToNextBlock B _)))

/-- How many full blocks are at the front of a bucket. -/
def frontBlocks (B t : ℕ) (bss bd feb : ℕ → ℕ) (b : ℕ) : ℕ :=
  (frontOf B t bss bd feb b - startOf B bss b) / B

omit hB hbound in
theorem startOf_add_frontBlocks (b : ℕ) :
    startOf B bss b + frontBlocks B t bss bd feb b * B = frontOf B t bss bd feb b := by
  have hle : startOf B bss b ≤ frontOf B t bss bd feb b := le_front _
  rw [frontBlocks, Nat.div_mul_cancel (Nat.dvd_sub (dvd_frontOf h ht b) (dvd_alignToNextBlock B _)),
    Nat.add_sub_cancel' hle]

/-- **What the threads have moved to the front of the buckets** is what the block permutation begins
with. -/
theorem Compacts.classified (hf : Moved B nb t bss bd feb f) (hs : Compacts nb bss f s)
    {classify : Option (FullBlock B n t bd feb) → ℕ} (hkey : ∀ y, classify (some y) < nb)
    {counts : Fin t → ℕ → ℕ} (hflushed : Flushed B nb classify bss counts) :
    Classified B n nb bss (frontBlocks B t bss bd feb) classify s := by
  have hfront : ∀ b, startBlock B bss b + (frontBlocks B t bss bd feb b : ℕ) * B =
      (frontOf B t bss bd feb b : ℤ) := fun b => by
    rw [← startOf_add_frontBlocks h ht b, startBlock]
    push_cast
    rfl
  refine
    { pointers := fun b hb => ?_
      inBucket := fun b hb => ?_
      inArray := fun b hb hpos => ?_
      slot := fun p => ?_
      blocks := fun y => ?_
      bucket := hkey
      room := (hflushed.permuted hB fun b _ => rfl).fits
      threads := hs.threads }
  · rw [hs.pointers b hb, hfront]
    rfl
  · rw [hfront]
    exact Int.ofNat_le.mpr (frontOf_le hB hbound hb)
  · rw [hfront, Int.ofNat_le]
    have hone := Nat.mul_le_mul_right B hpos
    have heq : startOf B bss b + frontBlocks B t bss bd feb b * B = frontOf B t bss bd feb b :=
      startOf_add_frontBlocks h ht b
    have hlt := h.lt_of_lt_front (s := startOf B bss b) (e := startOf B bss (b + 1))
      (x := frontOf B t bss bd feb b - 1) (by omega) (show _ < frontOf B t bss bd feb b by omega)
    omega
  · rw [Option.isSome_iff_exists]
    constructor
    · rintro ⟨y, hy⟩
      obtain ⟨b, hb, x, rfl, hx, h₁, h₂, -⟩ := (hs.slot p y).mp hy
      obtain ⟨k, hk⟩ := Nat.dvd_sub hx (dvd_alignToNextBlock B (bss b))
      have hadd : x = startOf B bss b + k * B := by
        rw [Nat.mul_comm, ← hk, Nat.add_sub_cancel' h₁]
      rw [← startOf_add_frontBlocks h ht b, hadd] at h₂
      refine ⟨b, hb, k, Nat.lt_of_mul_lt_mul_right (Nat.lt_of_add_lt_add_left h₂), ?_⟩
      rw [hadd, startBlock]
      push_cast
      rfl
    · rintro ⟨b, hb, k, hk, rfl⟩
      have hlt : startOf B bss b + k * B < frontOf B t bss bd feb b := by
        rw [← startOf_add_frontBlocks h ht b]
        exact Nat.add_lt_add_left (Nat.mul_lt_mul_of_pos_right hk hB) _
      have hdvd : B ∣ startOf B bss b + k * B :=
        Nat.dvd_add (dvd_alignToNextBlock B _) (Dvd.intro_left k rfl)
      obtain ⟨h₁, -, -, h₂⟩ := (hf b hb).mapsTo ⟨hdvd, Nat.le_add_right _ _, hlt⟩
      refine ⟨⟨⟨_, h.full_lt h₂⟩, h₁, h₂⟩,
        (hs.slot _ _).mpr ⟨b, hb, _, ?_, hdvd, Nat.le_add_right _ _, hlt, rfl⟩⟩
      rw [startBlock]
      push_cast
      rfl
  · obtain ⟨p, hp⟩ := exists_standsAt hB hbound hf y
    exact ⟨p, (hs.slot p y).mpr hp, fun q hq => ((hs.slot q y).mp hq).eq_place hB hbound hf hp⟩

end

end

end Ps4o.InPlace
