import Ps4o.InPlace.GapFilling

/-!
# Moving empty blocks

What the threads do in `moveEmptyBlocks`.

## What is proved

* `sat_moveEmptyBlocks` — what a thread does, and that it touches nothing else.
* `flatten_pointers` — each bucket's pointers are set once.
* `sat_moveAllEmptyBlocks` — **every bucket consists of full blocks followed by empty blocks,
  whatever the order of the threads' steps**, and no two threads touch the same slot.
-/

namespace Ps4o.InPlace

open Ps4o.Program Ps4o.Storage Ps4o.Order.Compaction

variable {α : Type}

/-! ### What a thread does -/

/-- Thread `j` has filled the holes in its stripe; `f` says from where. -/
structure MovedBy (B nb t : ℕ) (bss bd feb : ℕ → ℕ) (p : Ptr Area) (xs : ℕ → α) (j : ℕ)
    (m m' : Mem Area (Slot α)) (f : ℕ → ℕ) : Prop where
  filled : ∀ b < nb, ∀ x, Hole B t bss bd feb j b x →
    m'.slot (p + x) = .full (xs (f x)) ∧ Fetch B t bss bd feb j b (f x)
  inj : ∀ b < nb, ∀ x y, Hole B t bss bd feb j b x → Hole B t bss bd feb j b y → f x = f y → x = y
  block : ∀ b < nb, ∀ x, Hole B t bss bd feb j b x → B ∣ x → B ∣ f x ∧ ∀ i < B, f (x + i) = f x + i
  moved : ∀ b < nb, ∀ x, Fetch B t bss bd feb j b x → m'.slot (p + x) = .moved
  same : ∀ x, (∀ b < nb, ¬ Hole B t bss bd feb j b x ∧ ¬ Fetch B t bss bd feb j b x) →
    m'.slot (p + x) = m.slot (p + x)

section
variable {init : Bool} {B n nb t j : ℕ} {bss bd feb fb : ℕ → ℕ} {p : Ptr Area} {xs : ℕ → α}
  {m : Mem Area (Slot α)}

theorem MovedBy.nil
    (h : ∀ b < nb, ∀ x, ¬ Hole B t bss bd feb j b x ∧ ¬ Fetch B t bss bd feb j b x) :
    MovedBy B nb t bss bd feb p xs j m m id where
  filled b hb x hx := absurd hx (h b hb x).1
  inj b hb x _ hx := absurd hx (h b hb x).1
  block b hb x hx := absurd hx (h b hb x).1
  moved b hb x hx := absurd hx (h b hb x).2
  same _ _ := rfl

/-- A thread that fills the holes of the only bucket with holes in its stripe has done its part. -/
theorem GapsFilled.movedBy {b lo w we : ℕ} {m' : Mem Area (Slot α)} {f : ℕ → ℕ}
    (hf : GapsFilled t B bd feb p xs (startOf B bss b) (startOf B bss (b + 1)) lo w we m m' f)
    (hhole : ∀ x, Hole B t bss bd feb j b x ↔ w ≤ x ∧ x < we)
    (hfetch : ∀ x, Fetch B t bss bd feb j b x ↔
      Between t bd feb (startOf B bss b) (startOf B bss (b + 1)) lo (lo + (we - w)) x)
    (hb : b < nb) (honly : ∀ c < nb, ∀ x, Hole B t bss bd feb j c x ∨ Fetch B t bss bd feb j c x →
      c = b) : MovedBy B nb t bss bd feb p xs j m m' f where
  filled c hc x hx := by
    obtain rfl := honly c hc x (.inl hx)
    obtain ⟨hx₁, hx₂⟩ := (hhole x).mp hx
    obtain ⟨hslot, hin⟩ := hf.filled x hx₁ hx₂
    exact ⟨hslot, (hfetch _).mpr hin⟩
  inj c hc x y hx hy := by
    obtain rfl := honly c hc x (.inl hx)
    obtain ⟨hx₁, hx₂⟩ := (hhole x).mp hx
    obtain ⟨hy₁, hy₂⟩ := (hhole y).mp hy
    exact hf.inj x y hx₁ hx₂ hy₁ hy₂
  block c hc x hx := by
    obtain rfl := honly c hc x (.inl hx)
    obtain ⟨hx₁, hx₂⟩ := (hhole x).mp hx
    exact hf.block x hx₁ hx₂
  moved c hc x hx := by
    obtain rfl := honly c hc x (.inr hx)
    exact hf.moved x ((hfetch x).mp hx)
  same x hx := by
    refine hf.frame _ ?_
    rintro ⟨y, he, hy⟩
    obtain rfl : x = y := by simpa using he
    obtain ⟨hno, hno'⟩ := hx b hb
    exact hy.elim (fun hy => hno ((hhole x).mpr hy)) fun hy => hno' ((hfetch x).mpr hy)

variable (h : Striped B n t bd feb) (hB : 1 ≤ B) (hbound : Boundaries false nb n bss) (hj : j < t)
include h hB hbound hj

/-- The pointers of the buckets that start and end in a stripe. -/
theorem within_eq {start l : ℕ} (hl : l ≤ nb) (h₁ : bd j ≤ startOf B bss start)
    (h₂ : start < l → startOf B bss l ≤ bd (j + 1) ∨ j + 1 = t) :
    ((List.range' start (l - start)).map fun b => (b, pointersWithin B bss (feb j) b)) =
      (List.range' start (l - start)).map (pointersOf B t bss bd feb) := by
  refine List.map_congr_left fun b hb => ?_
  obtain ⟨hb₁, hb₂⟩ := List.mem_range'_1.mp hb
  have hbl : b < l := by omega
  refine pointersWithin_eq h hj (h₁.trans (startOf_mono hB hbound hb₁ (by omega)))
    (startOf_mono hB hbound (Nat.le_succ b) (by omega)) ?_
  exact (h₂ (by omega)).imp_left (startOf_mono hB hbound hbl hl).trans

omit hB hbound in
/-- The gaps of a bucket up to a position that thread `j` fills. -/
theorem gaps_stripe {s w we : ℕ} (hw : w = max (feb j) s) (hwe : we ≤ bd (j + 1)) (hlt : w < we) :
    gaps (Full t bd feb) s we = gaps (Full t bd feb) s (bd j) + (we - w) := by
  have hle := h.begin_le j hj
  have hfull : gaps (Full t bd feb) s w = gaps (Full t bd feb) s (bd j) := by
    rcases Nat.le_total s (bd j) with hs | hs
    · refine gaps_of_all hs (by omega) fun z hz₁ hz₂ => ⟨j, hj, hz₁, by omega⟩
    · rw [gaps_of_le hs]
      rcases Nat.le_total s (feb j) with hs' | hs'
      · rw [gaps_of_all le_rfl (by omega) fun z hz₁ hz₂ => ⟨j, hj, by omega, by omega⟩, gaps_self]
      · rw [hw, max_eq_right hs', gaps_self]
  rw [← hfull]
  refine gaps_of_none (by omega) hlt.le fun z hz₁ hz₂ hz => ?_
  have := (h.full_iff hj (by omega) (by omega)).mp hz
  omega

section
variable {b w we : ℕ} (hw : w = max (feb j) (startOf B bss b))
  (hwe : we = min (frontOf B t bss bd feb b) (bd (j + 1)))
include hw hwe

omit hB hbound in
/-- The holes of a bucket are those of the stripe behind its full blocks. -/
theorem hole_iff {x : ℕ} : Hole B t bss bd feb j b x ↔ w ≤ x ∧ x < we := by
  have hle := h.begin_le j hj
  rw [hw, hwe]
  constructor
  · rintro ⟨hx₁, hx₂, hx₃, hx₄, hx₅⟩
    rw [h.full_iff hj hx₃ hx₄] at hx₅
    exact ⟨max_le (Nat.le_of_not_lt hx₅) hx₁, lt_min hx₂ hx₄⟩
  · rintro ⟨hx₁, hx₂⟩
    have hx₃ := (le_max_left _ _).trans hx₁
    have hx₄ := hx₂.trans_le (min_le_right _ _)
    refine ⟨(le_max_right _ _).trans hx₁, hx₂.trans_le (min_le_left _ _), hle.trans hx₃, hx₄, ?_⟩
    rw [h.full_iff hj (hle.trans hx₃) hx₄]
    exact Nat.not_lt.mpr hx₃

/-- The blocks with which they are filled have the same numbers. -/
theorem fetch_iff (hb : b < nb) {x : ℕ} : Fetch B t bss bd feb j b x ↔
    Between t bd feb (startOf B bss b) (startOf B bss (b + 1))
      (gaps (Full t bd feb) (startOf B bss b) (bd j))
      (gaps (Full t bd feb) (startOf B bss b) (bd j) + (we - w)) x := by
  have hse : startOf B bss b ≤ startOf B bss (b + 1) := startOf_mono hB hbound (Nat.le_succ b) hb
  have hgaps : w < we → gaps (Full t bd feb) (startOf B bss b) we =
      gaps (Full t bd feb) (startOf B bss b) (bd j) + (we - w) :=
    gaps_stripe h hj hw (hwe.trans_le (min_le_right _ _))
  constructor
  · intro hx
    obtain ⟨y, hy⟩ := hx.hole hse
    obtain ⟨hy₁, hy₂⟩ := (hole_iff h hj hw hwe).mp hy
    obtain ⟨hx₁, hx₂, hx₃, hx₄, hx₅⟩ := hx
    refine ⟨hx₁, hx₂, hx₃, hx₄, ?_⟩
    rw [← hgaps (hy₁.trans_lt hy₂)]
    rcases min_choice (frontOf B t bss bd feb b) (bd (j + 1)) with heq | heq
    · rw [hwe, heq]
      exact (behind_lt hse hx₁ hx₃).mpr hx₂
    · rw [hwe, heq]
      exact hx₅
  · rintro ⟨hx₁, hx₂, hx₃, hx₄, hx₅⟩
    refine ⟨hx₁, hx₂, hx₃, hx₄, ?_⟩
    rcases Nat.lt_or_ge w we with hlt | hge
    · rw [← hgaps hlt] at hx₅
      exact hx₅.trans_le (gaps_mono _ (hwe.trans_le (min_le_right _ _)))
    · omega

omit hB hbound in
/-- Holes are whole blocks, if the stripe does not end the array. -/
theorem dvd_holes (hjt : j + 1 < t) :
    B ∣ w ∧ B ∣ we ∧ B ∣ gaps (Full t bd feb) (startOf B bss b) (bd j) := by
  have hs : B ∣ startOf B bss b := dvd_alignToNextBlock B _
  have hbd := h.dvd j hj
  have ht : 1 ≤ t := by omega
  refine ⟨?_, ?_, ?_⟩
  · rcases max_choice (feb j) (startOf B bss b) with heq | heq
    · rw [hw, heq]
      exact h.feb_dvd j hj
    · rw [hw, heq]
      exact hs
  · rw [hwe]
    exact dvd_min (h.dvd_front ht b) (h.dvd _ hjt)
  · exact Nat.dvd_sub (Nat.dvd_sub hbd hs) (Nat.dvd_sub (h.dvd_taking ht hbd) (h.dvd_taking ht hs))

end

variable (hfb : ∀ j < t, fb j = bd j)
include hfb

/-- **What a thread does**: it fills the holes in its stripe, sets the pointers of the buckets that
start there, and touches nothing that belongs to another thread. -/
theorem sat_moveEmptyBlocks (hfull : ∀ x, Full t bd feb x → m.slot (p + x) = .full (xs x))
    (hlive : Live m p n) {start stop : ℕ} (hstart : start = bucketRangeStart B nb bss (bd j))
    (hstop : stop = bucketRangeEnd B nb t bss j (bd (j + 1)) start) :
    Sat (slots Area α init) (ownSpace B nb t bss bd feb p j)
      (moveEmptyBlocks B nb t bss fb feb p j (bd j) (bd (j + 1)) (feb j)) m fun ps m' =>
      ps = (List.range' start (stop - start)).map (pointersOf B t bss bd feb) ∧
        ∃ f, MovedBy B nb t bss bd feb p xs j m m' f := by
  obtain ⟨h₁, h₂, h₃, h₄, h₅, h₆, h₇⟩ := bucketRange_spec h hB hbound hj hstart hstop
  have hlt := h.lt j hj
  have hmono : ∀ b < nb, startOf B bss b ≤ startOf B bss (b + 1) :=
    fun b hb => startOf_mono hB hbound (Nat.le_succ b) hb
  -- only the last bucket has holes
  have hlast : ∀ b < nb, ∀ x, Hole B t bss bd feb j b x → b = stop - 1 ∧
      bd (j + 1) < startOf B bss stop ∧ j + 1 < t := by
    intro b hb x hx
    obtain ⟨hbeyond, hjt⟩ := hx.beyond h hj (hmono b hb)
    have hle := (h.le_n hj).trans (le_startOf_last hB hbound)
    have heq := bucketRangeStart_of_overlap hB hbound hb (hx.1.trans_lt hx.2.2.2.1) hbeyond.le hle
    rw [hstart, bucketRangeEnd_spec hle hlt.le, if_neg (by omega), heq] at hstop
    rw [hstop]
    exact ⟨rfl, hbeyond, hjt⟩
  rw [moveEmptyBlocks]
  simp only [← hstart, ← hstop]
  by_cases hover : bd (j + 1) < startOf B bss stop
  · obtain ⟨b, rfl⟩ : ∃ b, stop = b + 1 := ⟨stop - 1, by omega⟩
    have hb : b < nb := h₃
    obtain ⟨R, ho, hR, hzero⟩ := overlap_eq h hfb hj
      ((h₇ b (Nat.lt_succ_self b)).imp_left Nat.le_of_lt) hover.le
    rw [if_pos hover, Nat.add_sub_cancel, ho]
    set s := startOf B bss b
    set e := startOf B bss (b + 1)
    have hse : s ≤ e := hmono b hb
    set w := max (feb j) s with hw
    set we := min (front (Full t bd feb) s e) (bd (j + 1)) with hwe
    have hle := h.begin_le j hj
    have hn := h.le_n (show j + 1 ≤ t from hj)
    have hhole : ∀ x, Hole B t bss bd feb j b x ↔ w ≤ x ∧ x < we := fun x => hole_iff h hj hw hwe
    have hfetch : ∀ x, Fetch B t bss bd feb j b x ↔ Between t bd feb s e
        (gaps (Full t bd feb) s (bd j)) (gaps (Full t bd feb) s (bd j) + (we - w)) x :=
      fun x => fetch_iff h hB hbound hj hw hwe hb
    have hdvd : w < we → B ∣ w ∧ B ∣ we ∧ B ∣ gaps (Full t bd feb) s (bd j) ∧ B ∣ e := by
      intro hlt'
      have hjt := (hlast b hb w ((hhole w).mpr ⟨le_rfl, hlt'⟩)).2.2
      obtain ⟨h₈, h₉, h₁₀⟩ := dvd_holes h hj hw hwe hjt
      exact ⟨h₈, h₉, h₁₀, dvd_alignToNextBlock B _⟩
    rw [sat_bind]
    have hfill : Sat (slots Area α init)
        (fillSpace t bd feb p s e (gaps (Full t bd feb) s (bd j)) w we)
        (fillBlocks fb feb p e R (gaps (Full t bd feb) s (bd j)) w we) m fun _ m' =>
        ∃ f, GapsFilled t B bd feb p xs s e (gaps (Full t bd feb) s (bd j)) w we m m' f := by
      refine sat_fillBlocks h hfb hse hR (min_le_left _ _) (fun _ => by omega) (fun hlt' => ?_) hdvd
        (fun x hx => hfull x hx.1) fun x hx₁ hx₂ => hlive x (by omega)
      rw [← gaps_stripe h hj hw (min_le_right _ _) hlt']
      exact gaps_mono _ (min_le_left _ _)
    refine hfill.mono ?_ ?_
    · rintro l ⟨x, rfl, hx | hx⟩
      · obtain ⟨-, -, hx₃, hx₄, hx₅⟩ := (hhole x).mpr hx
        exact ⟨x, rfl, .inr ⟨fun i _ c _ hf => hx₅ hf.1, hx₃, hx₄⟩⟩
      · exact ⟨x, rfl, .inl ⟨b, hb, (hfetch x).mpr hx⟩⟩
    · rintro _ m' ⟨f, hf⟩
      have hbucket : ∀ c < nb, ∀ x, Hole B t bss bd feb j c x ∨
          Fetch B t bss bd feb j c x → c = b := by
        rintro c hc x (hx | hx)
        · exact (hlast c hc x hx).1
        · obtain ⟨y, hy⟩ := hx.hole (hmono c hc)
          exact (hlast c hc y hy).1
      refine ⟨?_, f, hf.movedBy hhole hfetch hb hbucket⟩
      rcases Nat.lt_or_ge b start with hlt' | hge
      · rw [if_neg (Nat.not_le.mpr (h₆ b hlt')), Nat.sub_eq_zero_of_le hlt'.le,
          Nat.sub_eq_zero_of_le (show b + 1 ≤ start from hlt')]
        rfl
      · rw [if_pos (h₄.trans (startOf_mono hB hbound hge hb.le)), Nat.sub_add_comm hge,
          List.range'_1_concat, List.map_append,
          Nat.add_sub_of_le hge, ← within_eq h hB hbound hj hb.le h₄ fun _ =>
          (h₇ b (Nat.lt_succ_self b)).imp_left Nat.le_of_lt]
        rfl
  · have hnone : ∀ b < nb, ∀ x, ¬ Hole B t bss bd feb j b x :=
      fun b hb x hx => hover (hlast b hb x hx).2.1
    rw [if_neg hover]
    refine ⟨within_eq h hB hbound hj h₃ h₄ fun _ => .inl (Nat.le_of_not_lt hover), id,
        .nil fun b hb x =>
      ⟨hnone b hb x, fun hf => ?_⟩⟩
    obtain ⟨y, hy⟩ := hf.hole (hmono b hb)
    exact hnone b hb y hy

end

/-! ### All threads -/

/-- The full blocks of bucket `b` are at its front now: `f` says where they were. Behind them its
blocks are empty: those that were full have been moved, and the others are as they were. -/
structure Compacted (B n t : ℕ) (bss bd feb : ℕ → ℕ) (p : Ptr Area) (xs : ℕ → α) (b : ℕ)
    (m m' : Mem Area (Slot α)) (f : ℕ → ℕ) : Prop where
  bijOn : Set.BijOn f {x | B ∣ x ∧ startOf B bss b ≤ x ∧ x < frontOf B t bss bd feb b}
    {x | B ∣ x ∧ startOf B bss b ≤ x ∧ x < startOf B bss (b + 1) ∧ Full t bd feb x}
  holds : ∀ x, B ∣ x → startOf B bss b ≤ x → x < frontOf B t bss bd feb b →
    ∀ i < B, m'.slot (p + (x + i)) = .full (xs (f x + i))
  empty : ∀ x, frontOf B t bss bd feb b ≤ x → x < startOf B bss (b + 1) → x < n →
    m'.slot (p + x) = if Full t bd feb x then .moved else m.slot (p + x)

section
variable {B n nb t : ℕ} {bss bd feb : ℕ → ℕ} {p : Ptr Area} {xs : ℕ → α} {m m' : Mem Area (Slot α)}
  (h : Striped B n t bd feb) (hB : 1 ≤ B) (hbound : Boundaries false nb n bss) (ht : 1 ≤ t)
include h

/-- The front of a bucket ends with the array at most. -/
theorem Striped.lt_of_lt_front {s e x : ℕ} (hs : s ≤ x) (hx : x < front (Full t bd feb) s e) :
    x < n := by
  by_contra hge
  have hlast := h.taking_le_last e
  have hfront : front (Full t bd feb) s e =
    s + (taking (Full t bd feb) e - taking (Full t bd feb) s) := rfl
  rcases Nat.le_total s n with hle | hle
  · have := taking_le_add (Full t bd feb) hle
    omega
  · have := taking_mono (Full t bd feb) hle
    omega

/-- A block is full as a whole. -/
theorem Striped.full_block {x i : ℕ} (hx : B ∣ x) (hi : i < B) :
    Full t bd feb (x + i) ↔ Full t bd feb x := by
  constructor
  · rintro ⟨j, hj, h₁, h₂⟩
    exact ⟨j, hj, le_of_lt_add (h.dvd j hj) hx (by omega), by omega⟩
  · rintro ⟨j, hj, h₁, h₂⟩
    have := add_le_of_dvd hx (h.feb_dvd j hj) h₂
    exact ⟨j, hj, by omega, by omega⟩

/-- What is moved is moved by a thread. -/
theorem Striped.exists_fetch {b x : ℕ} (hse : startOf B bss b ≤ startOf B bss (b + 1))
    (hx : Full t bd feb x) (h₁ : frontOf B t bss bd feb b ≤ x) (h₂ : x < startOf B bss (b + 1)) :
    ∃ j < t, Fetch B t bss bd feb j b x := by
  have hlt := (behind_lt hse hx h₂).mpr h₁
  have hn := h.full_lt hx
  have hlast : behind (Full t bd feb) (startOf B bss (b + 1)) x < gaps (Full t bd feb)
      (startOf B bss b) (bd t) := by
    rw [h.last]
    exact hlt.trans_le (gaps_mono _ (h₁.trans hn.le))
  obtain ⟨j, hj, hj₁, hj₂⟩ := exists_step
    (g := fun j => gaps (Full t bd feb) (startOf B bss b) (bd j)) (by
    rw [h.zero, gaps_of_le (Nat.zero_le _)]
    exact Nat.zero_le _) hlast
  exact ⟨j, hj, hx, h₁, h₂, hj₁, hj₂⟩

omit h in
include hB hbound in
/-- What is empty, or in a bucket's front, is not moved. -/
theorem not_fetch {b x : ℕ} (hb : b < nb) (h₁ : startOf B bss b ≤ x)
    (h₂ : x < startOf B bss (b + 1)) (h₃ : ¬ Full t bd feb x ∨ x < frontOf B t bss bd feb b) :
    ∀ i < t, ∀ c < nb, ¬ Fetch B t bss bd feb i c x := by
  rintro i - c hc ⟨hx, hfc, hec, -⟩
  obtain rfl := eq_bucket hB hbound hc hb ((le_front _).trans hfc) hec h₁ h₂
  rcases h₃ with h₃ | h₃
  · exact h₃ hx
  · exact absurd hfc (Nat.not_le.mpr h₃)

/-- Where what ends up at position `x` comes from, when thread `st x` fills it. -/
def cameFrom (t : ℕ) (bd feb : ℕ → ℕ) (st : ℕ → Fin t) (F : Fin t → ℕ → ℕ) (x : ℕ) : ℕ :=
  if Full t bd feb x then x else F (st x) x

omit h in
theorem cameFrom_of_full {st : ℕ → Fin t} {F : Fin t → ℕ → ℕ} {x : ℕ} (hx : Full t bd feb x) :
    cameFrom t bd feb st F x = x := if_pos hx

omit h in
theorem cameFrom_of_not_full {st : ℕ → Fin t} {F : Fin t → ℕ → ℕ} {x : ℕ}
    (hx : ¬ Full t bd feb x) : cameFrom t bd feb st F x = F (st x) x := if_neg hx

section
variable {m₁ : Fin t → Mem Area (Slot α)} {F : Fin t → ℕ → ℕ} {st : ℕ → Fin t} {b : ℕ} (hb : b < nb)
  (hF : ∀ j : Fin t, MovedBy B nb t bss bd feb p xs j m (m₁ j) (F j))
  (hst : ∀ x < n, bd (st x) ≤ x ∧ x < bd (st x + 1))
include hst

/-- A hole of a bucket's front is one of the thread in whose stripe it is. -/
theorem Striped.hole_of_front {x : ℕ} (h₁ : startOf B bss b ≤ x)
    (h₂ : x < frontOf B t bss bd feb b) (h₃ : ¬ Full t bd feb x) : Hole B t bss bd feb (st x) b x :=
  have hx := hst x (h.lt_of_lt_front h₁ h₂)
  ⟨h₁, h₂, hx.1, hx.2, h₃⟩

include hb hF

theorem fetch_cameFrom {x : ℕ} (h₁ : startOf B bss b ≤ x) (h₂ : x < frontOf B t bss bd feb b)
    (hx : ¬ Full t bd feb x) : Fetch B t bss bd feb (st x) b (cameFrom t bd feb st F x) := by
  rw [cameFrom_of_not_full hx]
  exact ((hF (st x)).filled b hb x (h.hole_of_front hst h₁ h₂ hx)).2

/-- What ends up in a bucket's front comes from the bucket's full blocks. -/
theorem cameFrom_mem (hse : startOf B bss b ≤ startOf B bss (b + 1)) {x : ℕ}
    (h₁ : startOf B bss b ≤ x) (h₂ : x < frontOf B t bss bd feb b) :
    startOf B bss b ≤ cameFrom t bd feb st F x ∧
      cameFrom t bd feb st F x < startOf B bss (b + 1) ∧
      Full t bd feb (cameFrom t bd feb st F x) := by
  by_cases hx : Full t bd feb x
  · rw [cameFrom_of_full hx]
    exact ⟨h₁, h₂.trans_le (front_le _ hse), hx⟩
  · obtain ⟨h₃, h₄, h₅, -⟩ := fetch_cameFrom h hb hF hst h₁ h₂ hx
    exact ⟨(le_front _).trans h₄, h₅, h₃⟩

include hB hbound in
/-- Nothing ends up at two positions. -/
theorem cameFrom_inj {x y : ℕ} (hx₁ : startOf B bss b ≤ x) (hx₂ : x < frontOf B t bss bd feb b)
    (hy₁ : startOf B bss b ≤ y) (hy₂ : y < frontOf B t bss bd feb b)
    (heq : cameFrom t bd feb st F x = cameFrom t bd feb st F y) : x = y := by
  have hfetch := fun {x} => fetch_cameFrom (x := x) h hb hF hst
  by_cases hx : Full t bd feb x
  · rw [cameFrom_of_full hx] at heq
    by_cases hy : Full t bd feb y
    · rwa [cameFrom_of_full hy] at heq
    · have hy' := (hfetch hy₁ hy₂ hy).2.1
      rw [← heq] at hy'
      exact absurd hy' (Nat.not_le.mpr hx₂)
  · have hxf := hfetch hx₁ hx₂ hx
    by_cases hy : Full t bd feb y
    · rw [heq, cameFrom_of_full hy] at hxf
      exact absurd hxf.2.1 (Nat.not_le.mpr hy₂)
    · have hyf := hfetch hy₁ hy₂ hy
      rw [heq] at hxf
      have hst' : st x = st y := Fin.ext
        (Owns.unique h hB hbound (st x).isLt (st y).isLt (.inl ⟨b, hb, hxf⟩) (.inl ⟨b, hb, hyf⟩))
      have hxh := h.hole_of_front hst hx₁ hx₂ hx
      rw [cameFrom_of_not_full hx, cameFrom_of_not_full hy, hst'] at heq
      rw [hst'] at hxh
      exact (hF (st y)).inj b hb x y hxh (h.hole_of_front hst hy₁ hy₂ hy) heq

/-- Whole blocks are moved. -/
theorem cameFrom_block (hse : startOf B bss b ≤ startOf B bss (b + 1)) {x : ℕ} (hx : B ∣ x)
    (h₁ : startOf B bss b ≤ x) (h₂ : x < frontOf B t bss bd feb b) :
    B ∣ cameFrom t bd feb st F x ∧
      ∀ i < B, cameFrom t bd feb st F (x + i) = cameFrom t bd feb st F x + i := by
  by_cases hxf : Full t bd feb x
  · rw [cameFrom_of_full hxf]
    exact ⟨hx, fun i hi => cameFrom_of_full ((h.full_block hx hi).mpr hxf)⟩
  · have hxh := h.hole_of_front hst h₁ h₂ hxf
    obtain ⟨h₃, h₄⟩ := (hF (st x)).block b hb x hxh hx
    rw [cameFrom_of_not_full hxf]
    refine ⟨h₃, fun i hi => ?_⟩
    have hxi := add_le_of_dvd hx (h.dvd_front (Fin.pos (st x)) b) h₂
    have hend := add_le_of_dvd hx (h.dvd _ (hxh.beyond h (st x).isLt hse).2) hxh.2.2.2.1
    obtain ⟨h₅, h₆⟩ := hst (x + i) (h.lt_of_lt_front (h₁.trans (Nat.le_add_right x i))
      ((Nat.add_lt_add_left hi x).trans_le hxi))
    have hst' : st (x + i) = st x := Fin.ext (h.eq_of_mem (st (x + i)).isLt (st x).isLt h₅ h₆
      (hxh.2.2.1.trans (Nat.le_add_right x i)) ((Nat.add_lt_add_left hi x).trans_le hend))
    rw [cameFrom_of_not_full fun hfi => hxf ((h.full_block hx hi).mp hfi), hst']
    exact h₄ i hi

end

include hB hbound ht

/-- **What the threads do together**, when each of them does its part. -/
theorem compacted_of_moved (hfull : ∀ x, Full t bd feb x → m.slot (p + x) = .full (xs x))
    {m₁ : Fin t → Mem Area (Slot α)} {F : Fin t → ℕ → ℕ}
    (hF : ∀ j : Fin t, MovedBy B nb t bss bd feb p xs j m (m₁ j) (F j))
    (hm : ∀ j x, Owns B nb t bss bd feb (j : Fin t) x → m'.slot (p + x) = (m₁ j).slot (p + x))
    {b : ℕ} (hb : b < nb) : ∃ f, Compacted B n t bss bd feb p xs b m m' f := by
  have hse : startOf B bss b ≤ startOf B bss (b + 1) := startOf_mono hB hbound (Nat.le_succ b) hb
  have hstripe : ∀ x, ∃ j : Fin t, x < n → bd j ≤ x ∧ x < bd (j + 1) := by
    intro x
    by_cases hx : x < n
    · obtain ⟨j, hj, hj'⟩ := h.exists_stripe hx
      exact ⟨⟨j, hj⟩, fun _ => hj'⟩
    · exact ⟨⟨0, ht⟩, fun hx' => absurd hx' hx⟩
  choose st hst using hstripe
  -- what nobody moves belongs to the thread in whose stripe it is
  have hkept : ∀ x, x < n → startOf B bss b ≤ x → x < startOf B bss (b + 1) →
      (¬ Full t bd feb x ∨ x < frontOf B t bss bd feb b) →
      m'.slot (p + x) = (m₁ (st x)).slot (p + x) :=
    fun x hx h₁ h₂ h₃ => hm (st x) x (.inr ⟨not_fetch hB hbound hb h₁ h₂ h₃, hst x hx⟩)
  have hvalue : ∀ x, startOf B bss b ≤ x → x < frontOf B t bss bd feb b →
      m'.slot (p + x) = .full (xs (cameFrom t bd feb st F x)) := by
    intro x h₁ h₂
    have he := h₂.trans_le (front_le _ hse)
    rw [hkept x (h.lt_of_lt_front h₁ h₂) h₁ he (.inr h₂)]
    by_cases hx : Full t bd feb x
    · have hno := not_fetch hB hbound hb h₁ he (.inr h₂) (st x) (st x).isLt
      rw [cameFrom_of_full hx, (hF (st x)).same x fun c hc => ⟨fun hh => hh.2.2.2.2 hx, hno c hc⟩]
      exact hfull x hx
    · rw [cameFrom_of_not_full hx]
      exact ((hF (st x)).filled b hb x (h.hole_of_front hst h₁ h₂ hx)).1
  have hmaps := fun x => cameFrom_mem (x := x) h hb hF hst hse
  have hinj := fun x y => cameFrom_inj (x := x) (y := y) h hB hbound hb hF hst
  have hblock := fun x => cameFrom_block (x := x) h hb hF hst hse
  refine ⟨cameFrom t bd feb st F,
    bijOn_blocks hB hse (dvd_alignToNextBlock B _) hmaps hinj hblock,
    fun x hx h₁ h₂ i hi => ?_, fun x h₁ h₂ h₃ => ?_⟩
  · have := add_le_of_dvd hx (h.dvd_front ht b) h₂
    rw [hvalue (x + i) (by omega) (by omega), (hblock x hx h₁ h₂).2 i hi]
  · have hs := (le_front (Full t bd feb)).trans h₁
    split_ifs with hx
    · obtain ⟨j, hj, hfx⟩ := h.exists_fetch hse hx h₁ h₂
      rw [hm ⟨j, hj⟩ x (.inl ⟨b, hb, hfx⟩)]
      exact (hF ⟨j, hj⟩).moved b hb x hfx
    · rw [hkept x h₃ hs h₂ (.inl hx)]
      refine (hF (st x)).same x fun c hc => ⟨fun hh => ?_, fun hfx => hx hfx.1⟩
      have hce := hh.2.1.trans_le (front_le (Full t bd feb)
        (startOf_mono hB hbound (Nat.le_succ c) hc))
      obtain rfl := eq_bucket hB hbound hc hb hh.1 hce hs h₂
      exact absurd h₁ (Nat.not_le.mpr hh.2.1)

end

section
variable {B n nb t : ℕ} {bss bd feb : ℕ → ℕ} (h : Striped B n t bd feb) (hB : 1 ≤ B)
  (hbound : Boundaries false nb n bss)
include h hB hbound

/-- **Each bucket's pointers are set once**: the buckets that start in the stripes of the first `k`
threads, in order. -/
theorem flatten_pointers {k : ℕ} (hk : k < t) {ps : Fin (k + 1) → List (ℕ × BucketPointers)}
    (hps : ∀ j : Fin (k + 1), ps j = (List.range' (bucketRangeStart B nb bss (bd j))
      (bucketRangeEnd B nb t bss j (bd (j + 1))
        (bucketRangeStart B nb bss (bd j)) - bucketRangeStart B nb bss (bd j))).map
        (pointersOf B t bss bd feb)) :
    (List.ofFn ps).flatten =
    (List.range (bucketRangeEnd B nb t bss k (bd (k + 1)) (bucketRangeStart B nb bss (bd k)))).map
      (pointersOf B t bss bd feb) := by
  induction k with
  | zero =>
    have hzero : bucketRangeStart B nb bss (bd 0) = 0 :=
      bucketRangeStart_eq (by rw [h.zero]; exact Nat.zero_le _)
        (fun b hb => absurd hb (Nat.not_lt_zero b)) (by rw [h.zero]; exact Nat.zero_le _)
    have h₀ := hps 0
    simp only [Fin.val_zero, hzero, Nat.sub_zero] at h₀
    rw [List.ofFn_succ, List.ofFn_zero, List.flatten_cons, List.flatten_nil, List.append_nil, h₀,
      hzero, List.range_eq_range']
  | succ k ih =>
    have hle : bd (k + 1) ≤ startOf B bss nb :=
      (h.le_n (by omega)).trans (le_startOf_last hB hbound)
    have hstart := bucketRangeEnd_spec (t := t) (j := k) hle (h.lt k (by omega)).le
    rw [if_neg (by omega)] at hstart
    obtain ⟨hstop, -⟩ := bucketRange_spec h hB hbound hk rfl rfl
    rw [List.ofFn_succ_last, List.flatten_append, ih (by omega) fun j => hps j.castSucc,
      List.flatten_cons, List.flatten_nil,
      List.append_nil, hps (Fin.last (k + 1)), hstart, List.range_eq_range',
      ← List.map_append, List.range_eq_range']
    simp only [Fin.val_last]
    congr 1
    have happend := List.range'_append_1 (s := 0) (m := bucketRangeStart B nb bss (bd (k + 1)))
      (n := bucketRangeEnd B nb t bss (k + 1) (bd (k + 1 + 1))
        (bucketRangeStart B nb bss (bd (k + 1))) - bucketRangeStart B nb bss (bd (k + 1)))
    rwa [Nat.zero_add, Nat.add_sub_of_le hstop] at happend

end

section
variable {init : Bool} {B n nb t : ℕ} {bss feb : ℕ → ℕ} {p : Ptr Area} {xs : ℕ → α}
  {m : Mem Area (Slot α)}

/-- Where the stripes begin and end, as a thread sees them. -/
abbrev stripeBound (B n t j : ℕ) : ℕ := min n (stripeBegin B n t j)

/-- **Empty-block movement**: the threads never touch the same slot, whatever the order of their
steps; they set each bucket's pointers once, and every bucket has its full blocks at its front in
the end, and empty ones behind them. -/
theorem sat_moveAllEmptyBlocks (hB : 1 ≤ B) (ht : 1 ≤ t) (hn : 4 * t * B ≤ n)
    (hbound : Boundaries false nb n bss)
    (hfeb : ∀ j < t, stripeBegin B n t j ≤ feb j ∧ feb j ≤ stripeEnd B n t j)
    (hdvd : ∀ j < t, B ∣ feb j)
    (hfull : ∀ x, Full t (stripeBound B n t) feb x → m.slot (p + x) = .full (xs x))
    (hlive : Live m p n) : (∀ sched log P, Pool.run (slots Area α init) sched
        ⟨fun i : Fin t => finishClassification B nb t bss feb p n i, m⟩ = some (log, P) →
      (∀ i, ¬ P.Stuck (slots Area α init) i) ∧
        ∀ e ∈ log, ∀ e' ∈ log, e.1 ≠ e'.1 → ∀ l ∈ Cmd.foot e.2, l ∉ Cmd.foot e'.2) ∧
    Team.Sat (slots Area α init) (seg p n) (moveAllEmptyBlocks B nb t bss feb p n) m fun ps m' =>
      ps = (List.range nb).map (pointersOf B t bss (stripeBound B n t) feb) ∧
        ∀ b < nb, ∃ f, Compacted B n t bss (stripeBound B n t) feb p xs b m m' f := by
  have h := striped_of_stripeBegin hB ht hn hfeb hdvd
  have hbegin : ∀ j < t, stripeBegin B n t j = stripeBound B n t j := fun j hj =>
    (min_eq_right (stripeBegin_lt hB ht hn hj).le).symm
  have hdisj : ∀ i j : Fin t, i ≠ j → ∀ l ∈ ownSpace B nb t bss (stripeBound B n t) feb p i,
      l ∉ ownSpace B nb t bss (stripeBound B n t) feb p j := by
    rintro i j hij l ⟨x, rfl, hx⟩ ⟨y, he, hy⟩
    obtain rfl : x = y := by simpa using he
    exact hij (Fin.ext (Owns.unique h hB hbound i.isLt j.isLt hx hy))
  have hsub : ∀ i : Fin t, ownSpace B nb t bss (stripeBound B n t) feb p i ⊆ seg p n := by
    rintro i l ⟨x, rfl, ⟨b, -, hf⟩ | ⟨-, -, hlt⟩⟩
    · exact ⟨x, h.full_lt hf.1, rfl⟩
    · exact ⟨x, hlt.trans_le (h.le_n i.isLt), rfl⟩
  have hsat : ∀ i : Fin t, Sat (slots Area α init) (ownSpace B nb t bss (stripeBound B n t) feb p i)
      (finishClassification B nb t bss feb p n i) m fun ps m' =>
      ps = (List.range' (bucketRangeStart B nb bss (stripeBound B n t i))
        (bucketRangeEnd B nb t bss i
        (stripeBound B n t (i + 1)) (bucketRangeStart B nb bss (stripeBound B n t i)) -
          bucketRangeStart B nb bss (stripeBound B n t i))).map
          (pointersOf B t bss (stripeBound B n t) feb) ∧
        ∃ f, MovedBy B nb t bss (stripeBound B n t) feb p xs i m m' f := by
    intro i
    have hlt : stripeBound B n t i < stripeBound B n t (i + 1) := h.lt i i.isLt
    have hend : stripeEnd B n t i = stripeBound B n t (i + 1) := rfl
    simp only [finishClassification, hbegin i i.isLt, hend]
    rw [if_neg (Nat.not_le.mpr hlt)]
    exact sat_moveEmptyBlocks h hB hbound i.isLt hbegin hfull hlive rfl rfl
  have hiso : Pool.Isolated (slots Area α init)
      (fun i : Fin t => ownSpace B nb t bss (stripeBound B n t) feb p i) _
      ⟨fun i : Fin t => finishClassification B nb t bss feb p n i, m⟩ := ⟨hdisj, hsat⟩
  refine ⟨fun sched log P hrun => ?_, _, Cooperate.of_sat hsub hdisj hsat, ?_⟩
  · obtain ⟨hstuck, hlog, -⟩ := hiso.run hrun
    exact ⟨hstuck, fun e he e' he' hne l hl hl' => hdisj e.1 e'.1 hne l
      (hlog e he hl) (hlog e' he' hl')⟩
  intro ps m' hps m₂ hm₂
  choose m₃ hm₃ hagree using hps
  choose hptr F hF using hm₃
  have hin : ∀ j x, Owns B nb t bss (stripeBound B n t) feb (j : Fin t) x →
      m₂.slot (p + x) = (m₃ j).slot (p + x) := by
    intro j x hx
    have hl : Loc.elem (p + x) ∈ ownSpace B nb t bss (stripeBound B n t) feb p j := ⟨x, rfl, hx⟩
    exact (hm₂ _ (hsub j hl)).symm.trans (hagree j _ hl).symm
  refine ⟨?_, fun b hb => compacted_of_moved h hB hbound ht hfull hF hin hb⟩
  obtain ⟨k, rfl⟩ : ∃ k, t = k + 1 := ⟨t - 1, by omega⟩
  rw [flatten_pointers h hB hbound (Nat.lt_succ_self k) hptr]
  rw [bucketRangeEnd, if_pos (by omega)]

end

/-- Two buckets of 6 and 10 elements: the second one starts in the first of two stripes. -/
def stripedBuckets (b : ℕ) : ℕ := if b = 0 then 0 else if b = 1 then 6 else 16

/-- Two full blocks of two elements in each of two stripes. -/
def twoStripes (j : ℕ) : ℕ := if j = 0 then 4 else 12

/-- The elements in them are numbered; the others have been moved from. -/
def stripedSlots : Mem Area (Slot ℕ) :=
  ⟨fun q => if q.off < 4 ∨ 8 ≤ q.off ∧ q.off < 12 then .full q.off else .moved, fun _ => 0⟩

/-- The first thread moves a block of these stripes to the front of the second bucket. -/
theorem sat_moveAllEmptyBlocks_two :
    (∀ sched log P, Pool.run (slots Area ℕ true) sched
        ⟨fun i : Fin 2 => finishClassification 2 2 2 stripedBuckets twoStripes ⟨.input, 0⟩ 16 i,
          stripedSlots⟩ = some (log, P) →
      (∀ i, ¬ P.Stuck (slots Area ℕ true) i) ∧
        ∀ e ∈ log, ∀ e' ∈ log, e.1 ≠ e'.1 → ∀ l ∈ Cmd.foot e.2, l ∉ Cmd.foot e'.2) ∧
    Team.Sat (slots Area ℕ true) (seg ⟨.input, 0⟩ 16)
      (moveAllEmptyBlocks 2 2 2 stripedBuckets twoStripes ⟨.input, 0⟩ 16)
      stripedSlots fun ps m' => ps = (List.range 2).map
        (pointersOf 2 2 stripedBuckets (stripeBound 2 16 2) twoStripes) ∧
        ∀ b < 2, ∃ f, Compacted 2 16 2 stripedBuckets (stripeBound 2 16 2) twoStripes
          ⟨.input, 0⟩ id b stripedSlots m' f := by
  refine sat_moveAllEmptyBlocks (by decide) (by decide)
    (by decide) ⟨by decide, rfl, rfl, by decide, nofun⟩ (by decide)
    (by decide) (fun x hx => ?_) fun i _ => ?_
  · obtain ⟨j, hj, h₁, h₂⟩ := hx
    have hin : x < 4 ∨ 8 ≤ x ∧ x < 12 := by
      obtain rfl | rfl : j = 0 ∨ j = 1 := by omega
      · exact .inl h₂
      · exact .inr ⟨h₁, h₂⟩
    have hoff : ((⟨.input, 0⟩ : Ptr Area) + x).off = x := Nat.zero_add x
    simp only [stripedSlots, hoff, if_pos hin, id_eq]
  · simp only [stripedSlots]
    split_ifs <;> simp

end Ps4o.InPlace
