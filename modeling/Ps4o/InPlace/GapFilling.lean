import Ps4o.InPlace.EmptyBlocks

/-!
# Filling the empty blocks of a bucket

The empty blocks before the front's end of a bucket, from the left, and its full blocks behind it,
from the right, have the same numbers: a thread fills those of its stripe from the blocks with the
same numbers (`moveEmptyBlocks`, as defined in `Ps4o.InPlace.EmptyBlocks`).

## What is proved

* `sat_fillBlocks` — what one thread moves where.
* `Fetch.hole`, `Hole.beyond` — only buckets that overlap the end of a stripe have empty blocks to
  be filled in it.
* `Owns.unique` — no two threads have the same slot to themselves.
-/

namespace Ps4o.InPlace

open Ps4o.Program Ps4o.Storage Ps4o.Order.Compaction

variable {α : Type}

/-! ### Filling -/

/-- `x` is in one of the full blocks of a bucket behind its front, numbered from `lo` to `hi`. -/
def Between (t : ℕ) (bd feb : ℕ → ℕ) (s e lo hi x : ℕ) : Prop :=
  Full t bd feb x ∧ front (Full t bd feb) s e ≤ x ∧ x < e ∧ lo ≤ behind (Full t bd feb) e x ∧
  behind (Full t bd feb) e x < hi

/-- The gaps from `w` to `we`, and the full blocks with as many numbers from `lo` on. -/
def fillSpace (t : ℕ) (bd feb : ℕ → ℕ) (p : Ptr Area) (s e lo w we : ℕ) : Set (Loc Area) :=
  {l | ∃ x, l = .elem (p + x) ∧ (w ≤ x ∧ x < we ∨ Between t bd feb s e lo (lo + (we - w)) x)}

/-- The gaps have been filled: `f` says from where. -/
structure GapsFilled (t B : ℕ) (bd feb : ℕ → ℕ) (p : Ptr Area) (xs : ℕ → α) (s e lo w we : ℕ)
    (m m' : Mem Area (Slot α)) (f : ℕ → ℕ) : Prop where
  filled : ∀ x, w ≤ x → x < we → m'.slot (p + x) = .full (xs (f x)) ∧
    Between t bd feb s e lo (lo + (we - w)) (f x)
  inj : ∀ x y, w ≤ x → x < we → w ≤ y → y < we → f x = f y → x = y
  block : ∀ x, w ≤ x → x < we → B ∣ x → B ∣ f x ∧ ∀ i < B, f (x + i) = f x + i
  moved : ∀ x, Between t bd feb s e lo (lo + (we - w)) x → m'.slot (p + x) = .moved
  frame : Frame m m' (fillSpace t bd feb p s e lo w we)

section
variable {init : Bool} {B n t R reserved s e lo w we : ℕ} {bd feb fb : ℕ → ℕ} {p : Ptr Area}
  {xs : ℕ → α} {m m₁ m' : Mem Area (Slot α)}

theorem Between.mono {lo hi lo' hi' x : ℕ} (hx : Between t bd feb s e lo hi x) (h₁ : lo' ≤ lo)
    (h₂ : hi ≤ hi') : Between t bd feb s e lo' hi' x :=
  ⟨hx.1, hx.2.1, hx.2.2.1, h₁.trans hx.2.2.2.1, hx.2.2.2.2.trans_le h₂⟩

theorem GapsFilled.nil (h : we ≤ w) : GapsFilled t B bd feb p xs s e lo w we m m id where
  filled x h₁ h₂ := absurd h₂ (by omega)
  inj x y h₁ h₂ := absurd h₂ (by omega)
  block x h₁ h₂ := absurd h₂ (by omega)
  moved x hx := by
    have h₁ := hx.2.2.2.1
    have h₂ := hx.2.2.2.2
    omega
  frame := .refl m _

/-- Multiples of the block size are a block apart. -/
theorem add_le_of_dvd {x y : ℕ} (hx : B ∣ x) (hy : B ∣ y) (hxy : x < y) : x + B ≤ y := by
  by_contra hlt
  have := le_of_lt_add hy hx (by omega)
  omega

theorem dvd_min {x y : ℕ} (hx : B ∣ x) (hy : B ∣ y) : B ∣ min x y := by
  rcases min_choice x y with heq | heq
  · rwa [heq]
  · rwa [heq]

/-- The `size` elements from `q` on have been moved to the gaps from `w` on. -/
structure ChunkMoved (p : Ptr Area) (xs : ℕ → α) (w q size : ℕ) (m m₁ : Mem Area (Slot α)) :
    Prop where
  has : ∀ i < size, m₁.slot (p + (w + i)) = .full (xs (q + i))
  moved : ∀ i < size, m₁.slot (p + (q + i)) = .moved
  frame : Frame m m₁ (seg (p + q) size ∪ seg (p + w) size)

/-- First some gaps are filled from one place, and then the others. -/
theorem GapsFilled.cons {q size : ℕ} {f : ℕ → ℕ} (hB : B ∣ w ∧ B ∣ q ∧ B ∣ size)
    (hsize : size ≤ we - w) (hwe : we ≤ front (Full t bd feb) s e)
    (hchunk : ∀ y, Between t bd feb s e lo (lo + size) y ↔ q ≤ y ∧ y < q + size)
    (hm : ChunkMoved p xs w q size m m₁)
    (h : GapsFilled t B bd feb p xs s e (lo + size) (w + size) we m₁ m' f) :
    GapsFilled t B bd feb p xs s e lo w we m m' fun x => if x < w + size
      then q + (x - w) else f x := by
  have hhi : lo + size + (we - (w + size)) = lo + (we - w) := by omega
  obtain ⟨hfilled, hinj, hblock, hmoved', hframe'⟩ := h
  rw [hhi] at hfilled hmoved'
  have hmono : ∀ {y}, Between t bd feb s e lo (lo + size) y →
      Between t bd feb s e lo (lo + (we - w)) y :=
    fun hy => hy.mono le_rfl (by omega)
  have hmono' : ∀ {y}, Between t bd feb s e (lo + size) (lo + (we - w)) y →
      Between t bd feb s e lo (lo + (we - w)) y :=
    fun hy => hy.mono (Nat.le_add_right lo size) le_rfl
  have hin : ∀ x, w ≤ x → x < w + size → Between t bd feb s e lo (lo + size) (q + (x - w)) :=
      fun x h₁ h₂ =>
    (hchunk _).mpr ⟨Nat.le_add_right q _, by omega⟩
  -- what has been filled and moved from before is left alone
  have hkeep : ∀ x, (w ≤ x ∧ x < w + size ∨ q ≤ x ∧ x < q + size) →
      m'.slot (p + x) = m₁.slot (p + x) := by
    rintro x hx
    refine hframe' _ ?_
    rintro ⟨y, he, hy⟩
    obtain rfl : x = y := by simpa using he
    rcases hx with hx | hx
    · rcases hy with hy | hy
      · omega
      · have := hy.2.1
        omega
    · have hx' := (hchunk x).mpr hx
      rcases hy with hy | hy
      · have := hx'.2.1
        omega
      · have h₁ := hx'.2.2.2.2
        have h₂ := hy.2.2.2.1
        omega
  refine ⟨fun x h₁ h₂ => ?_, fun x y hx₁ hx₂ hy₁ hy₂ heq => ?_,
    fun x h₁ h₂ hx => ?_, fun x hx => ?_, ?_⟩
  · by_cases hlt : x < w + size
    · simp only [if_pos hlt]
      refine ⟨?_, hmono (hin x h₁ hlt)⟩
      rw [hkeep x (.inl ⟨h₁, hlt⟩)]
      have := hm.has (x - w) (by omega)
      rwa [Nat.add_sub_of_le h₁] at this
    · simp only [if_neg hlt]
      obtain ⟨h₃, h₄⟩ := hfilled x (Nat.le_of_not_lt hlt) h₂
      exact ⟨h₃, hmono' h₄⟩
  · by_cases hxl : x < w + size
    · by_cases hyl : y < w + size
      · simp only [if_pos hxl, if_pos hyl] at heq
        omega
      · simp only [if_pos hxl, if_neg hyl] at heq
        have h₁ := (hin x hx₁ hxl).2.2.2.2
        have h₂ := (hfilled y (Nat.le_of_not_lt hyl) hy₂).2.2.2.2.1
        rw [heq] at h₁
        omega
    · by_cases hyl : y < w + size
      · simp only [if_neg hxl, if_pos hyl] at heq
        have h₁ := (hin y hy₁ hyl).2.2.2.2
        have h₂ := (hfilled x (Nat.le_of_not_lt hxl) hx₂).2.2.2.2.1
        rw [← heq] at h₁
        omega
      · simp only [if_neg hxl, if_neg hyl] at heq
        exact hinj x y (Nat.le_of_not_lt hxl) hx₂ (Nat.le_of_not_lt hyl) hy₂ heq
  · by_cases hlt : x < w + size
    · simp only [if_pos hlt]
      refine ⟨Nat.dvd_add hB.2.1 (Nat.dvd_sub hx hB.1), fun i hi => ?_⟩
      have := add_le_of_dvd hx (Nat.dvd_add hB.1 hB.2.2) hlt
      rw [if_pos (by omega)]
      omega
    · simp only [if_neg hlt]
      obtain ⟨h₃, h₄⟩ := hblock x (Nat.le_of_not_lt hlt) h₂ hx
      refine ⟨h₃, fun i hi => ?_⟩
      rw [if_neg (by omega)]
      exact h₄ i hi
  · by_cases hlt : behind (Full t bd feb) e x < lo + size
    · have hx' := (hchunk x).mp ⟨hx.1, hx.2.1, hx.2.2.1, hx.2.2.2.1, hlt⟩
      rw [hkeep x (.inr hx')]
      have := hm.moved (x - q) (by omega)
      rwa [Nat.add_sub_of_le hx'.1] at this
    · exact hmoved' x ⟨hx.1, hx.2.1, hx.2.2.1, Nat.le_of_not_lt hlt, hx.2.2.2.2⟩
  · refine (hm.frame.mono ?_).trans (hframe'.mono ?_)
    · rintro l (⟨i, hi, rfl⟩ | ⟨i, hi, rfl⟩)
      · exact ⟨q + i, by rw [Ptr.add_assoc], .inr (hmono ((hchunk _).mpr ⟨by omega, by omega⟩))⟩
      · exact ⟨w + i, by rw [Ptr.add_assoc], .inl ⟨by omega, by omega⟩⟩
    · rintro l ⟨x, rfl, hx⟩
      rw [hhi] at hx
      exact ⟨x, rfl, hx.imp (fun hx => ⟨by omega, hx.2⟩) hmono'⟩

/-- The gaps behind those that have been filled, and the blocks with later numbers, are as they
were. -/
theorem ChunkMoved.keep {q size x : ℕ} (hm : ChunkMoved p xs w q size m m₁)
    (hwe : we ≤ front (Full t bd feb) s e)
    (hchunk : ∀ y, Between t bd feb s e lo (lo + size) y ↔ q ≤ y ∧ y < q + size)
    (hsize : size ≤ we - w)
    (hx : w + size ≤ x ∧ x < we ∨ Between t bd feb s e (lo + size) (lo + (we - w)) x) :
    m₁.slot (p + x) = m.slot (p + x) := by
  refine hm.frame _ ?_
  rintro (⟨i, hi, he⟩ | ⟨i, hi, he⟩)
  · rw [Ptr.add_assoc] at he
    obtain rfl : x = q + i := by simpa using he
    have hy := (hchunk (q + i)).mpr ⟨Nat.le_add_right q i, by omega⟩
    have h₁ := hy.2.1
    have h₂ := hy.2.2.2.2
    rcases hx with hx | hx
    · omega
    · have := hx.2.2.2.1
      omega
  · rw [Ptr.add_assoc] at he
    obtain rfl : x = w + i := by simpa using he
    rcases hx with hx | hx
    · omega
    · have := hx.2.1
      omega

/-- Moving the elements with the next numbers to the next gaps. -/
theorem sat_moveChunk {q size : ℕ} (hwe : we ≤ front (Full t bd feb) s e) (hsize : size ≤ we - w)
    (hchunk : ∀ y, Between t bd feb s e lo (lo + size) y ↔ q ≤ y ∧ y < q + size)
    (hfull : ∀ x, Between t bd feb s e lo (lo + (we - w)) x → m.slot (p + x) = .full (xs x))
    (hlive : ∀ x, w ≤ x → x < we → m.slot (p + x) ≠ .raw) :
    Sat (slots Area α init) (fillSpace t bd feb p s e lo w we)
      (moveRange (p + q) (p + w) size) m fun _ m₁ => ChunkMoved p xs w q size m m₁ := by
  have hin : ∀ i < size, Between t bd feb s e lo (lo + (we - w)) (q + i) := fun i hi =>
    ((hchunk (q + i)).mpr ⟨Nat.le_add_right q i, by omega⟩).mono le_rfl (by omega)
  have hget : ∀ i < size, ((List.range' q size).map fun x => Slot.full (xs x))[i]? =
      some (.full (xs (q + i))) := fun i hi => by
    rw [List.getElem?_map, List.getElem?_range' hi, Nat.one_mul]
    rfl
  have hsrc : Has m (p + q) (((List.range' q size).map xs).map .full) := by
    intro i v hv
    rw [List.map_map] at hv
    have hi : i < size := by simpa using (List.getElem?_eq_some_iff.mp hv).1
    rw [← Option.some.inj ((hget i hi).symm.trans hv), Ptr.add_assoc]
    exact hfull _ (hin i hi)
  have hdst : Live m (p + w) size := fun i hi => by
    rw [Ptr.add_assoc]
    exact hlive _ (by omega) (by omega)
  have hne : ∀ i < size, ∀ j < size, p + q + i ≠ p + w + j := by
    intro i hi j hj
    have := (hin i hi).2.1
    rw [Ptr.add_assoc, Ptr.add_assoc, ne_eq, Ptr.add_inj]
    omega
  refine (sat_moveRange (by simp) hsrc hdst hne).mono ?_ ?_
  · rintro l (⟨i, hi, rfl⟩ | ⟨i, hi, rfl⟩)
    · exact ⟨q + i, by rw [Ptr.add_assoc], .inr (hin i hi)⟩
    · exact ⟨w + i, by rw [Ptr.add_assoc], .inl ⟨by omega, by omega⟩⟩
  · rintro _ m₁ ⟨hhas, hmoved, hframe⟩
    refine ⟨fun i hi => ?_, fun i hi => ?_, hframe⟩
    · rw [← Ptr.add_assoc]
      exact hhas i _ (by rw [List.map_map]; exact hget i hi)
    · rw [← Ptr.add_assoc]
      exact hmoved i hi

variable (h : Striped B n t bd feb)
include h

/-- The blocks of a stripe with the next numbers. -/
theorem Striped.chunk {r size : ℕ} (hse : s ≤ e) (hr : r < t)
    (hlo : lo = taking (Full t bd feb) e - taking (Full t bd feb) (bd (r + 1)) + reserved)
    (hsize : size + reserved ≤ min (feb r) e - bd r)
    (hhi : lo + size ≤ gaps (Full t bd feb) s (front (Full t bd feb) s e)) (y : ℕ) :
    Between t bd feb s e lo (lo + size) y ↔
      min (feb r) e - reserved - size ≤ y ∧ y < min (feb r) e - reserved - size + size := by
  have hdown := h.taking_down (e := e) hr
  have hbehind : ∀ z, bd r ≤ z → z < min (feb r) e → Full t bd feb z ∧
      behind (Full t bd feb) e z = taking (Full t bd feb) e - taking (Full t bd feb)
      (bd (r + 1)) + (min (feb r) e - (z + 1)) := by
    intro z hz₁ hz₂
    have hle := h.le_end r hr
    have hend := h.taking_eq hr (x := z + 1) (by omega) (.inl (by omega))
    have hmono := taking_mono (Full t bd feb) (show z + 1 ≤ e by omega)
    refine ⟨⟨r, hr, hz₁, by omega⟩, ?_⟩
    unfold behind
    omega
  constructor
  · rintro ⟨hy, -, hye, hlo', hhi'⟩
    -- the place with this number
    obtain ⟨hz, heq⟩ := hbehind (min (feb r) e - reserved - 1 - (behind (Full t bd feb) e y - lo))
      (by omega) (by omega)
    have := behind_inj hy hz hye (by omega) (by omega)
    omega
  · rintro ⟨hy₁, hy₂⟩
    obtain ⟨hz, heq⟩ := hbehind y (by omega) (by omega)
    refine ⟨hz, (behind_lt hse hz (by omega)).mp (by omega), by omega, by omega, by omega⟩

variable (hfb : ∀ j < t, fb j = bd j) (hse : s ≤ e)
include hfb hse

/-- **What one thread moves where**: the next gaps are filled from the next full blocks. -/
theorem sat_fillBlocks (hR : R ≤ t) (hwe : we ≤ front (Full t bd feb) s e)
    (hlo : w < we → lo = taking (Full t bd feb) e - taking (Full t bd feb) (bd R) + reserved)
    (hhi : w < we → lo + (we - w) ≤ gaps (Full t bd feb) s (front (Full t bd feb) s e))
    (hB : w < we → B ∣ w ∧ B ∣ we ∧ B ∣ reserved ∧ B ∣ e)
    (hfull : ∀ x, Between t bd feb s e lo (lo + (we - w)) x → m.slot (p + x) = .full (xs x))
    (hlive : ∀ x, w ≤ x → x < we → m.slot (p + x) ≠ .raw) :
    Sat (slots Area α init) (fillSpace t bd feb p s e lo w we)
      (fillBlocks fb feb p e R reserved w we) m fun _ m' =>
      ∃ f, GapsFilled t B bd feb p xs s e lo w we m m' f := by
  induction R generalizing reserved lo w m with
  | zero =>
    rw [fillBlocks]
    split_ifs with hlt
    · -- there are no more gaps than full blocks
      have h₁ := hlo hlt
      have h₂ := hhi hlt
      rw [h.zero, taking, taking, Nat.count_zero, Nat.sub_zero] at h₁
      rw [gaps_front hse] at h₂
      simp only [taking] at h₂
      omega
    · exact ⟨id, .nil (Nat.le_of_not_lt hlt)⟩
  | succ r ih =>
    rw [fillBlocks]
    split_ifs with hlt
    · have hr : r < t := hR
      have hdown := h.taking_down (e := e) hr
      have hlo' := hlo hlt
      have hhi' := hhi hlt
      obtain ⟨hw, hwe', hres, he⟩ := hB hlt
      have hread : B ∣ min (feb r) e - bd r :=
        Nat.dvd_sub (dvd_min (h.feb_dvd r hr) he) (h.dvd r hr)
      rw [hfb r hr]
      dsimp only
      split_ifs with hskip
      · exact ih hr.le (fun _ => by omega) hhi
          (fun _ => ⟨hw, hwe', Nat.dvd_sub hres hread, he⟩) hfull hlive
      · set size := min (min (feb r) e - bd r - reserved) (we - w) with hsize
        set q := min (feb r) e - reserved - size with hq
        have hdvd : B ∣ size := dvd_min (Nat.dvd_sub hread hres) (Nat.dvd_sub hwe' hw)
        have hle : size ≤ we - w := min_le_right _ _
        have hchunk : ∀ y, Between t bd feb s e lo (lo + size) y ↔ q ≤ y ∧ y < q + size :=
          h.chunk hse hr hlo' (by omega) (by omega)
        have hsplit : lo + size + (we - (w + size)) = lo + (we - w) := by omega
        rw [sat_bind]
        refine (sat_moveChunk hwe hle hchunk hfull hlive).imp ?_
        intro _ m₁ hm
        have hrest : Sat (slots Area α init) (fillSpace t bd feb p s e (lo + size) (w + size) we)
            (fillBlocks fb feb p e r 0 (w + size) we) m₁ fun _ m' =>
            ∃ f, GapsFilled t B bd feb p xs s e (lo + size) (w + size) we m₁ m' f := by
          refine ih hr.le (fun _ => by omega) (fun _ => by omega)
            (fun _ => ⟨Nat.dvd_add hw hdvd, hwe', Nat.dvd_zero B, he⟩)
              (fun x hx => ?_) fun x h₁ h₂ => ?_
          · rw [hsplit] at hx
            rw [hm.keep hwe hchunk hle (.inr hx)]
            exact hfull x (hx.mono (Nat.le_add_right lo size) le_rfl)
          · rw [hm.keep hwe hchunk hle (.inl ⟨h₁, h₂⟩)]
            exact hlive x (by omega) h₂
        refine hrest.mono ?_ ?_
        · rintro l ⟨x, rfl, hx⟩
          rw [hsplit] at hx
          exact ⟨x, rfl, hx.imp (fun hx => ⟨by omega, hx.2⟩)
            fun hx => hx.mono (Nat.le_add_right lo size) le_rfl⟩
        · rintro _ m' ⟨f, hf⟩
          refine ⟨_, hf.cons ⟨hw, ?_, hdvd⟩ hle hwe hchunk hm⟩
          exact Nat.dvd_sub (Nat.dvd_sub (dvd_min (h.feb_dvd r hr) he) hres) hdvd
    · exact ⟨id, .nil (Nat.le_of_not_lt hlt)⟩

end

/-! ### Who moves what -/

/-- A position in the stripe of thread `j`, in bucket `b`, that is empty and will not be. -/
def Hole (B t : ℕ) (bss bd feb : ℕ → ℕ) (j b x : ℕ) : Prop :=
  startOf B bss b ≤ x ∧ x < frontOf B t bss bd feb b ∧ bd j ≤ x ∧ x < bd (j + 1) ∧ ¬ Full t bd feb x

/-- A position in one of the full blocks of bucket `b` that thread `j` moves. -/
def Fetch (B t : ℕ) (bss bd feb : ℕ → ℕ) (j b x : ℕ) : Prop :=
  Between t bd feb (startOf B bss b) (startOf B bss (b + 1))
    (gaps (Full t bd feb) (startOf B bss b) (bd j))
    (gaps (Full t bd feb) (startOf B bss b) (bd (j + 1))) x

/-- Thread `j` may touch position `x`: it moves it, or nobody does and it is in the thread's
stripe. -/
def Owns (B nb t : ℕ) (bss bd feb : ℕ → ℕ) (j x : ℕ) : Prop :=
  (∃ b < nb, Fetch B t bss bd feb j b x) ∨ (∀ i < t, ∀ b < nb, ¬ Fetch B t bss bd feb i b x) ∧
  bd j ≤ x ∧ x < bd (j + 1)

/-- What thread `j` may touch. -/
def ownSpace (B nb t : ℕ) (bss bd feb : ℕ → ℕ) (p : Ptr Area) (j : ℕ) : Set (Loc Area) :=
  {l | ∃ x, l = .elem (p + x) ∧ Owns B nb t bss bd feb j x}

section
variable {B n nb t i j b c x : ℕ} {bss bd feb : ℕ → ℕ} (h : Striped B n t bd feb) (hB : 1 ≤ B)
  (hbound : Boundaries false nb n bss)
include h

/-- A bucket's front ends at a block boundary. -/
theorem Striped.dvd_front (ht : 1 ≤ t) (b : ℕ) : B ∣ frontOf B t bss bd feb b := by
  have hs : B ∣ startOf B bss b := dvd_alignToNextBlock B _
  exact Nat.dvd_add hs (Nat.dvd_sub (h.dvd_taking ht (dvd_alignToNextBlock B _))
    (h.dvd_taking ht hs))

/-- A bucket with a hole goes on behind the stripe. -/
theorem Hole.beyond (hx : Hole B t bss bd feb j b x) (hj : j < t)
    (hse : startOf B bss b ≤ startOf B bss (b + 1)) :
    bd (j + 1) < startOf B bss (b + 1) ∧ j + 1 < t := by
  obtain ⟨h₁, h₂, h₃, h₄, h₅⟩ := hx
  have hfeb : feb j ≤ x := by
    by_contra hlt
    exact h₅ ((h.full_iff hj h₃ h₄).mpr (Nat.lt_of_not_le hlt))
  by_contra hno
  have he : startOf B bss (b + 1) ≤ bd (j + 1) ∨ j + 1 = t := by omega
  have hle := front_le (Full t bd feb) hse
  have hx := h.taking_eq hj h₃ (.inl h₄.le)
  have hend := h.taking_eq hj (h₃.trans (h₂.le.trans hle)) he
  have hadd := taking_le_add (Full t bd feb) h₁
  have hmono := taking_mono (Full t bd feb) h₁
  have hfront : frontOf B t bss bd feb b = startOf B bss b +
    (taking (Full t bd feb) (startOf B bss (b + 1)) - taking (Full t bd feb) (startOf B bss b)) :=
    rfl
  omega

omit h in
/-- A thread that moves something has a hole for it. -/
theorem Fetch.hole (hx : Fetch B t bss bd feb j b x)
    (hse : startOf B bss b ≤ startOf B bss (b + 1)) : ∃ y, Hole B t bss bd feb j b y := by
  obtain ⟨h₁, h₂, h₃, h₄, h₅⟩ := hx
  have hlt := (behind_lt hse h₁ h₃).mpr h₂
  have hgap : gaps (Full t bd feb) (startOf B bss b) (bd j) <
      gaps (Full t bd feb) (startOf B bss b) (min (frontOf B t bss bd feb b) (bd (j + 1))) := by
    rcases min_choice (frontOf B t bss bd feb b) (bd (j + 1)) with heq | heq
    · rw [heq]
      exact h₄.trans_lt hlt
    · rw [heq]
      exact h₄.trans_lt h₅
  obtain ⟨z, hz₁, hz₂, hz₃, hz₄⟩ := exists_gap hgap
  exact ⟨z, hz₁, by omega, hz₂, by omega, hz₄⟩

omit h in
include hB hbound in
theorem eq_bucket (hb : b < nb) (hc : c < nb) (hb₁ : startOf B bss b ≤ x)
    (hb₂ : x < startOf B bss (b + 1)) (hc₁ : startOf B bss c ≤ x)
    (hc₂ : x < startOf B bss (c + 1)) : b = c := by
  rcases Nat.lt_trichotomy b c with hlt | heq | hgt
  · have := startOf_mono hB hbound (show b + 1 ≤ c from hlt) hc.le
    omega
  · exact heq
  · have := startOf_mono hB hbound (show c + 1 ≤ b from hgt) hb.le
    omega

omit h in
include hB hbound in
/-- A bucket that overlaps the end of a stripe is the last one that starts before it. -/
theorem bucketRangeStart_of_overlap {v : ℕ} (hb : b < nb) (h₁ : startOf B bss b < v)
    (h₂ : v ≤ startOf B bss (b + 1)) (hv : v ≤ startOf B bss nb) :
    bucketRangeStart B nb bss v = b + 1 :=
  bucketRangeStart_eq hv (fun _ hc =>
    (startOf_mono hB hbound (Nat.le_of_lt_succ hc) hb.le).trans_lt h₁) h₂

include hB hbound in
/-- **No position belongs to two threads.** -/
theorem Owns.unique (hi : i < t) (hj : j < t) (hix : Owns B nb t bss bd feb i x)
    (hjx : Owns B nb t bss bd feb j x) : i = j := by
  have hfetch : ∀ {i j}, i < j → j < t → (∃ b < nb, Fetch B t bss bd feb i b x) →
      ¬ ∃ b < nb, Fetch B t bss bd feb j b x := by
    rintro i j hij hj ⟨b, hb, h₁, h₂, h₃, -, h₅⟩ ⟨c, hc, -, h₂', h₃', h₄', -⟩
    have hb' := (le_front (Full t bd feb)).trans h₂
    have hc' := (le_front (Full t bd feb)).trans h₂'
    obtain rfl := eq_bucket hB hbound hb hc hb' h₃ hc' h₃'
    have := gaps_mono (Full t bd feb) (s := startOf B bss b)
      (h.mono (show i + 1 ≤ j from hij) hj.le)
    omega
  rcases hix with hix | ⟨hno, h₁, h₂⟩
  · rcases hjx with hjx | ⟨hno', -⟩
    · rcases Nat.lt_trichotomy i j with hlt | heq | hgt
      · exact absurd hjx (hfetch hlt hj hix)
      · exact heq
      · exact absurd hix (hfetch hgt hi hjx)
    · obtain ⟨b, hb, hf⟩ := hix
      exact absurd hf (hno' i hi b hb)
  · rcases hjx with ⟨b, hb, hf⟩ | ⟨-, h₁', h₂'⟩
    · exact absurd hf (hno j hj b hb)
    · exact h.eq_of_mem hi hj h₁ h₂ h₁' h₂'

end

end Ps4o.InPlace
