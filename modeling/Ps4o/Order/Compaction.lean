import Mathlib.Data.Nat.Count
import Mathlib.Data.Set.Function
import Mathlib.Algebra.Order.BigOperators.Group.Finset
import Mathlib.Order.Interval.Finset.Nat

/-!
# Compaction

Some of the places of a segment are taken, and what is in them is moved to the front: the gaps
before the front's end are filled with what is behind it. The gaps are numbered from the left, and
what is moved from the right.

## What is proved

* `behind_inj` — no two of the taken places have the same number, and `behind_lt` — those behind the
  front's end have the numbers of the gaps before it.
* `bijOn_of_fills` — **a front without gaps, filled from different places, has taken everything**.
-/

namespace Ps4o.Order.Compaction

variable (taken : ℕ → Prop) [DecidablePred taken]

/-- The number of taken places before `x`. -/
abbrev taking (x : ℕ) : ℕ := Nat.count taken x

/-- Where the front of the segment from `s` to `e` ends, when all that is in it has been moved
there. -/
def front (s e : ℕ) : ℕ := s + (taking taken e - taking taken s)

/-- The number of gaps from `s` to `x`. -/
def gaps (s x : ℕ) : ℕ := x - s - (taking taken x - taking taken s)

/-- The number of taken places behind `x`, before `e`. -/
def behind (e x : ℕ) : ℕ := taking taken e - taking taken (x + 1)

variable {taken} {s e x y : ℕ}

variable (taken) in
theorem taking_mono (h : x ≤ y) : taking taken x ≤ taking taken y := Nat.count_monotone taken h

theorem taking_succ (h : taken x) : taking taken (x + 1) = taking taken x + 1 := by
  rw [taking, Nat.count_succ, if_pos h]

variable (taken) in
theorem taking_le_add (h : x ≤ y) : taking taken y ≤ taking taken x + (y - x) := by
  obtain ⟨d, rfl⟩ := Nat.exists_eq_add_of_le h
  rw [taking, Nat.count_add, Nat.add_sub_cancel_left]
  exact Nat.add_le_add_left (Nat.count_le _) _

/-- Where all places are taken. -/
theorem taking_of_all (h : x ≤ y) (hall : ∀ z, x ≤ z → z < y → taken z) :
    taking taken y = taking taken x + (y - x) := by
  obtain ⟨d, rfl⟩ := Nat.exists_eq_add_of_le h
  rw [taking, Nat.count_add, Nat.add_sub_cancel_left, Nat.add_left_cancel_iff,
    Nat.count_eq_card_filter_range, Finset.filter_true_of_mem, Finset.card_range]
  intro z hz
  exact hall _ (Nat.le_add_right x z) (Nat.add_lt_add_left (Finset.mem_range.mp hz) x)

/-- Where none is. -/
theorem taking_of_none (h : x ≤ y) (hnone : ∀ z, x ≤ z → z < y → ¬ taken z) :
    taking taken y = taking taken x := by
  obtain ⟨d, rfl⟩ := Nat.exists_eq_add_of_le h
  rw [taking, Nat.count_add, Nat.add_eq_left, Nat.count_eq_card_filter_range,
    Finset.filter_false_of_mem, Finset.card_empty]
  intro z hz
  exact hnone _ (Nat.le_add_right x z) (Nat.add_lt_add_left (Finset.mem_range.mp hz) x)

variable (taken) in
theorem le_front : s ≤ front taken s e := Nat.le_add_right _ _

variable (taken) in
theorem front_le (h : s ≤ e) : front taken s e ≤ e := by
  have := taking_le_add taken h
  unfold front
  omega

variable (taken) in
theorem gaps_mono (h : x ≤ y) : gaps taken s x ≤ gaps taken s y := by
  rcases Nat.le_total s x with hs | hs
  · have h₁ := taking_le_add taken h
    have h₂ := taking_mono taken hs
    have h₃ := taking_le_add taken hs
    unfold gaps
    omega
  · unfold gaps
    omega

theorem gaps_self : gaps taken s s = 0 := by simp [gaps]

theorem gaps_of_all (hsx : s ≤ x) (hxy : x ≤ y) (hall : ∀ z, x ≤ z → z < y → taken z) :
    gaps taken s y = gaps taken s x := by
  have h₁ := taking_of_all hxy hall
  have h₂ := taking_mono taken hsx
  have h₃ := taking_le_add taken hsx
  unfold gaps
  omega

theorem gaps_of_none (hsx : s ≤ x) (hxy : x ≤ y) (hnone : ∀ z, x ≤ z → z < y → ¬ taken z) :
    gaps taken s y = gaps taken s x + (y - x) := by
  have h₁ := taking_of_none hxy hnone
  have h₂ := taking_le_add taken hsx
  have h₃ := taking_mono taken hsx
  unfold gaps
  omega

theorem gaps_of_le (h : x ≤ s) : gaps taken s x = 0 := by
  unfold gaps
  omega

/-- Where there are more gaps, there is one between. -/
theorem exists_gap (h : gaps taken s x < gaps taken s y) :
    ∃ z, s ≤ z ∧ x ≤ z ∧ z < y ∧ ¬ taken z := by
  by_contra hno
  have hall : ∀ z, max s x ≤ z → z < y → taken z := fun z hz₁ hz₂ => by
    by_contra hz
    exact hno ⟨z, by omega, by omega, hz₂, hz⟩
  have heq : gaps taken s (max s x) = gaps taken s x := by
    rcases Nat.le_total s x with hle | hle
    · rw [max_eq_right hle]
    · rw [max_eq_left hle, gaps_self, gaps_of_le hle]
  rcases Nat.le_total (max s x) y with hle | hle
  · have := gaps_of_all (le_max_left s x) hle hall
    omega
  · have := gaps_mono taken (s := s) hle
    omega

/-- There are as many gaps before the front's end as taken places behind it. -/
theorem gaps_front (h : s ≤ e) :
    gaps taken s (front taken s e) = taking taken e - taking taken (front taken s e) := by
  have h₁ := taking_mono taken h
  have h₂ := taking_mono taken (le_front taken (s := s) (e := e))
  have h₃ := taking_mono taken (front_le taken h)
  have h₄ : front taken s e = s + (taking taken e - taking taken s) := rfl
  unfold gaps
  omega

/-- No two taken places have the same number. -/
theorem behind_inj (hx : taken x) (hy : taken y) (hxe : x < e) (hye : y < e)
    (h : behind taken e x = behind taken e y) : x = y := by
  have h₁ := taking_mono taken (show x + 1 ≤ e from hxe)
  have h₂ := taking_mono taken (show y + 1 ≤ e from hye)
  have h₃ := taking_succ hx
  have h₄ := taking_succ hy
  refine Nat.count_injective hx hy ?_
  unfold behind at h
  simp only [taking] at *
  omega

/-- The taken places behind the front's end have the numbers of the gaps before it. -/
theorem behind_lt (h : s ≤ e) (hx : taken x) (hxe : x < e) :
    behind taken e x < gaps taken s (front taken s e) ↔ front taken s e ≤ x := by
  have h₁ := taking_mono taken (show x + 1 ≤ e from hxe)
  have h₂ := taking_succ hx
  rw [gaps_front h]
  unfold behind
  constructor
  · intro hlt
    by_contra hle
    have := taking_mono taken (show x + 1 ≤ front taken s e by omega)
    omega
  · intro hle
    have := taking_mono taken hle
    omega

/-- A number lies between two steps of a sequence that goes past it. -/
theorem exists_step {g : ℕ → ℕ} {v k : ℕ} (h₀ : g 0 ≤ v) (hk : v < g k) :
    ∃ j < k, g j ≤ v ∧ v < g (j + 1) := by
  induction k with
  | zero => omega
  | succ k ih =>
    rcases Nat.lt_or_ge v (g k) with hlt | hge
    · obtain ⟨j, hj, hj'⟩ := ih hlt
      exact ⟨j, by omega, hj'⟩
    · exact ⟨k, by omega, hge, hk⟩

/-- **A front without gaps, filled from different places of the segment, has taken everything.** -/
theorem bijOn_of_fills {f : ℕ → ℕ} (h : s ≤ e)
    (hf : ∀ x, s ≤ x → x < front taken s e → s ≤ f x ∧ f x < e ∧ taken (f x))
    (hinj : ∀ x y, s ≤ x → x < front taken s e → s ≤ y → y < front taken s e → f x = f y → x = y) :
    Set.BijOn f {x | s ≤ x ∧ x < front taken s e} {y | s ≤ y ∧ y < e ∧ taken y} := by
  refine ⟨fun x hx => hf x hx.1 hx.2, fun x hx y hy => hinj x y hx.1 hx.2 hy.1 hy.2, ?_⟩
  -- there are as many places in the front as taken ones
  have hcard : ((Finset.Ico s e).filter taken).card = front taken s e - s := by
    obtain ⟨d, rfl⟩ := Nat.exists_eq_add_of_le h
    have hadd : taking taken (s + d) =
        taking taken s + ((Finset.range d).filter fun k => taken (s + k)).card := by
      rw [taking, Nat.count_add, Nat.count_eq_card_filter_range (fun k => taken (s + k))]
    have himage : (Finset.Ico s (s + d)).filter taken =
        ((Finset.range d).filter fun k => taken (s + k)).map (addLeftEmbedding s) := by
      ext y
      simp only [Finset.mem_filter, Finset.mem_Ico, Finset.mem_map,
        Finset.mem_range, addLeftEmbedding_apply]
      constructor
      · rintro ⟨⟨h₁, h₂⟩, h₃⟩
        exact ⟨y - s, ⟨by omega, by rwa [Nat.add_sub_of_le h₁]⟩, Nat.add_sub_of_le h₁⟩
      · rintro ⟨k, ⟨h₁, h₂⟩, rfl⟩
        exact ⟨⟨Nat.le_add_right s k, Nat.add_lt_add_left h₁ s⟩, h₂⟩
    rw [himage, Finset.card_map, front, Nat.add_sub_cancel_left, hadd, Nat.add_sub_cancel_left]
  have hsub : (Finset.Ico s (front taken s e)).image f ⊆ (Finset.Ico s e).filter taken := by
    intro y hy
    obtain ⟨x, hx, rfl⟩ := Finset.mem_image.mp hy
    obtain ⟨h₁, h₂⟩ := Finset.mem_Ico.mp hx
    obtain ⟨h₃, h₄, h₅⟩ := hf x h₁ h₂
    exact Finset.mem_filter.mpr ⟨Finset.mem_Ico.mpr ⟨h₃, h₄⟩, h₅⟩
  have heq := Finset.eq_of_subset_of_card_le hsub (by
    rw [hcard, Finset.card_image_of_injOn, Nat.card_Ico]
    intro x hx y hy
    obtain ⟨h₁, h₂⟩ := Finset.mem_Ico.mp hx
    obtain ⟨h₃, h₄⟩ := Finset.mem_Ico.mp hy
    exact hinj x y h₁ h₂ h₃ h₄)
  rintro y ⟨h₁, h₂, h₃⟩
  have hy : y ∈ (Finset.Ico s (front taken s e)).image f := by
    rw [heq]
    exact Finset.mem_filter.mpr ⟨Finset.mem_Ico.mpr ⟨h₁, h₂⟩, h₃⟩
  obtain ⟨x, hx, rfl⟩ := Finset.mem_image.mp hy
  exact ⟨x, Finset.mem_Ico.mp hx, rfl⟩

/-- If whole blocks of `B` places are moved, this is true of the blocks as well. -/
theorem bijOn_blocks {B : ℕ} (hB : 0 < B) {f : ℕ → ℕ} (h : s ≤ e) (hs : B ∣ s)
    (hf : ∀ x, s ≤ x → x < front taken s e → s ≤ f x ∧ f x < e ∧ taken (f x))
    (hinj : ∀ x y, s ≤ x → x < front taken s e → s ≤ y → y < front taken s e → f x = f y → x = y)
    (hblock : ∀ x, B ∣ x → s ≤ x → x < front taken s e → B ∣ f x ∧
      ∀ i < B, f (x + i) = f x + i) :
    Set.BijOn f {x | B ∣ x ∧ s ≤ x ∧ x < front taken s e}
      {y | B ∣ y ∧ s ≤ y ∧ y < e ∧ taken y} := by
  refine ⟨fun x hx => ⟨(hblock x hx.1 hx.2.1 hx.2.2).1, hf x hx.2.1 hx.2.2⟩,
    fun x hx y hy => hinj x y hx.2.1 hx.2.2 hy.2.1 hy.2.2, fun y hy => ?_⟩
  obtain ⟨x, ⟨hx₁, hx₂⟩, rfl⟩ := (bijOn_of_fills h hf hinj).surjOn hy.2
  -- the block that holds `x` is the one that holds `f x`
  have hle : s ≤ x / B * B := (Nat.div_mul_cancel hs).ge.trans
    (Nat.mul_le_mul_right B (Nat.div_le_div_right hx₁))
  obtain ⟨hdvd, hmove⟩ := hblock (x / B * B) (Nat.dvd_mul_left B _) hle
    ((Nat.div_mul_le_self x B).trans_lt hx₂)
  have hmod := Nat.mod_lt x hB
  have heq := hmove (x % B) hmod
  rw [Nat.div_add_mod' x B] at heq
  have hy₁ := hy.1
  rw [heq] at hy₁
  have hzero := Nat.eq_zero_of_dvd_of_lt ((Nat.dvd_add_right hdvd).mp hy₁) hmod
  exact ⟨x, ⟨Nat.dvd_of_mod_eq_zero hzero, hx₁, hx₂⟩, rfl⟩

end Ps4o.Order.Compaction
