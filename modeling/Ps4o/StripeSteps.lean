import Ps4o.BucketScans

/-!
# Who finishes which bucket: one thread

The steps of a thread whose stripe meets some bucket.

## What is proved

* `Scanned.count_sortAndMove` — a thread sorts the buckets that begin in its stripe and are not
  equality buckets.
* `Scanned.countP_transfers` — how often it transfers an element of an equality bucket.
* `Scanned.countP_shares` — it shares the elements of its own stripe only.
-/

namespace Ps4o

open Ps4o.Order.Stripes

/-! ### One thread -/

/-- The scans have found the buckets that a stripe meets. -/
structure Scanned (nb : ℕ) (bss : ℕ → ℕ) (a b f l : ℕ) : Prop where
  lt : f < l
  le : l ≤ nb
  first : bss f ≤ a
  after : ∀ c, f < c → c ≤ nb → a < bss c
  last : b ≤ bss l
  before : ∀ c, f ≤ c → c < l → bss c < b

section
variable {nb n : ℕ} {bss : ℕ → ℕ} (h : Boundaries true nb n bss) {a b f l : ℕ}
include h

theorem exists_scanned (hab : a < b) (hb : b ≤ n) :
    ∃ f l, Scanned nb bss a b f l ∧ equalBranch nb bss a b = stripeOps nb bss a b f l := by
  obtain ⟨hf₁, hf₂, hf₃⟩ := firstBucket_spec h.zero a nb
  obtain ⟨hl₁, hl₂, hl₃, hl₄⟩ := lastBucket_spec b
    (show b ≤ bss (firstBucket bss a nb +
      (nb - firstBucket bss a nb)) by rwa [Nat.add_sub_of_le hf₁, h.last])
  refine ⟨_, _, ⟨?_, by omega, hf₂, hf₃, hl₃, hl₄⟩, rfl⟩
  refine lt_of_le_of_ne hl₁ fun heq => ?_
  rw [← heq] at hl₃
  omega

/-- A thread without elements does nothing. -/
theorem equalBranch_nil : equalBranch nb bss n n = [] := by
  have heven := h.even
  obtain ⟨hf₁, -, hf₃⟩ := firstBucket_spec h.zero n nb
  have hf : firstBucket bss n nb = nb := by
    rcases Nat.eq_or_lt_of_le hf₁ with heq | hlt
    · exact heq
    · have := hf₃ nb hlt le_rfl
      rw [h.last] at this
      omega
  have hown : firstOwn nb bss n nb = nb := by
    simp only [firstOwn, h.last, lt_irrefl, if_false, if_neg (show ¬ IsEqual nb nb by omega)]
  simp only [equalBranch, hf, Nat.sub_self, lastBucket, stripeOps, hown, lastOwn,
    lt_irrefl, false_and, if_false, if_neg (show ¬ IsEqual nb nb by omega), List.append_nil]

omit h in
theorem lastOwn_even {f' : ℕ} (heven : nb % 2 = 0) (hl : l ≤ nb) (h : lastOwn nb f' l % 2 = 0)
    (hlt : f' < lastOwn nb f' l) : lastOwn nb f' l = nb := by
  unfold lastOwn at h hlt ⊢
  split_ifs at h hlt ⊢ <;> omega

omit h in
variable (nb) in
theorem lastOwn_le (f' l : ℕ) : lastOwn nb f' l ≤ l := by
  unfold lastOwn
  split_ifs <;> omega

/-- The buckets that a thread does alone begin in its stripe. -/
theorem Scanned.firstOwn_le (hs : Scanned nb bss a b f l) {c : ℕ} (hc : c < nb)
    (hne : ¬ IsEqual nb c) (hpos : bss c < bss (c + 1)) : firstOwn nb bss a f ≤ c ↔ a ≤ bss c := by
  have hge : a ≤ bss c → f ≤ c := fun hac => by
    by_contra hlt
    have := h.mono (show c + 1 ≤ f by omega) (by have := hs.lt; have := hs.le; omega)
    have := hs.first
    omega
  have hlt : f < c → a < bss c := fun hfc => hs.after c hfc hc.le
  unfold firstOwn
  rcases Nat.lt_trichotomy f c with hfc | rfl | hfc
  · have := hlt hfc
    split_ifs <;> omega
  · split_ifs <;> omega
  · split_ifs <;> omega

theorem Scanned.lt_lastOwn (hs : Scanned nb bss a b f l) {c : ℕ} (hc : c < nb)
    (hne : ¬ IsEqual nb c) (f' : ℕ) (hfc : f ≤ c) : c < lastOwn nb f' l ↔ bss c < b := by
  have hlt : bss c < b → c < l := fun hcb => by
    by_contra hge
    have := h.mono (Nat.le_of_not_lt hge) hc.le
    have := hs.last
    omega
  have hlt' : c < l → bss c < b := hs.before c hfc
  unfold lastOwn
  split_ifs with hsh
  · have : c ≠ l - 1 := fun hcl => hne (hcl ▸ hsh.2)
    omega
  · omega

/-- **A bucket that is not an equality bucket is sorted by the thread in whose stripe it
begins.** -/
theorem Scanned.count_sortAndMove (hs : Scanned nb bss a b f l) {c : ℕ} (hc : c < nb)
    (hne : ¬ IsEqual nb c) (hpos : bss c < bss (c + 1)) :
    (stripeOps nb bss a b f l).count (.sortAndMove c) = if a ≤ bss c ∧ bss c < b then 1 else 0 := by
  have hempty : c ≠ nb - 2 := by
    rintro rfl
    have := h.empty
    have := h.four
    rw [show nb - 2 + 1 = nb - 1 by omega] at hpos
    omega
  have hfirst := hs.firstOwn_le h hc hne hpos
  have hlast := hs.lt_lastOwn h hc hne (firstOwn nb bss a f)
  have hle : f ≤ firstOwn nb bss a f := by
    unfold firstOwn
    split_ifs <;> omega
  have hhead : (if IsEqual nb f then [PostOp.share a (min b (bss (f + 1)))] else []).count
      (.sortAndMove c) = 0 := by
    split_ifs <;> rfl
  have htail : (if firstOwn nb bss a f < l ∧ IsEqual nb (l - 1) then [PostOp.share (bss (l - 1)) b]
      else []).count (.sortAndMove c) = 0 := by
    split_ifs <;> rfl
  simp only [stripeOps, List.count_append, hhead, htail, Nat.zero_add]
  split
  · next hlt =>
    rw [count_remaining_sortAndMove h.even hlt ((lastOwn_le _ _ _).trans hs.le) hc hne hempty]
    exact if_congr (by omega) rfl rfl
  · exact (if_neg (by omega)).symm

/-- What a thread does alone with the elements of an equality bucket is to move the bucket. -/
theorem countP_remaining (cfg : Config) (lastLevel : Bool) {f l e x : ℕ} (hfl : f < l) (hl : l ≤ nb)
    (hlast : l % 2 = 0 → l = nb) (he : IsEqual nb e) (hx₁ : bss e ≤ x) (hx₂ : x < bss (e + 1)) :
    (remaining nb f l).countP (·.transfers cfg lastLevel bss x) =
    if f ≤ e ∧ e ≤ l then 1 else 0 := by
  rw [← count_remaining_move hfl he, List.count]
  refine List.countP_congr fun op hop => ?_
  rcases mem_remaining h.even h.four hfl hl hlast hop with ⟨c, hc, hne, rfl⟩ | ⟨c, ⟨_, hc⟩, rfl⟩
  · simp only [PostOp.transfers, decide_eq_true_eq, beq_iff_eq, reduceCtorEq, iff_false]
    rintro ⟨-, h₁, h₂⟩
    exact hne (h.eq_of_mem hc (by omega) h₁ h₂ hx₁ hx₂ ▸ he)
  · simp only [PostOp.transfers, decide_eq_true_eq, beq_iff_eq, PostOp.move.injEq]
    constructor
    · rintro ⟨h₁, h₂⟩
      exact h.eq_of_mem (by omega) (by omega) h₁ h₂ hx₁ hx₂
    · rintro rfl
      exact ⟨hx₁, hx₂⟩

omit h in
variable (nb bss) in
theorem firstOwn_le_succ (a f : ℕ) : f ≤ firstOwn nb bss a f ∧ firstOwn nb bss a f ≤ f + 1 := by
  unfold firstOwn
  split_ifs <;> omega

omit h in
/-- Counting a step that may be missing. -/
theorem countP_ite {p : PostOp → Bool} {op : PostOp} {c q : Prop} [Decidable c] [Decidable q]
    (hq : p op = true ↔ q) : (if c then [op] else []).countP p = if c ∧ q then 1 else 0 := by
  by_cases hc : c
  · rw [if_pos hc, List.countP_singleton]
    exact if_congr (hq.trans (and_iff_right hc).symm) rfl rfl
  · rw [if_neg hc, if_neg (fun h => hc h.1), List.countP_nil]

omit h in
/-- Whether a thread does the bucket before an equality bucket, or any part of what is before. -/
theorem Scanned.firstOwn_lt (hs : Scanned nb bss a b f l) {e : ℕ} (he : IsEqual nb e)
    (hfe : f < e) : firstOwn nb bss a f < e ↔ a ≤ bss (e - 1) := by
  rcases Nat.eq_or_lt_of_le (show f ≤ e - 1 by omega) with rfl | hlt
  · rw [firstOwn, if_neg (by omega)]
    split_ifs <;> omega
  · have := hs.after (e - 1) hlt (by omega)
    have := firstOwn_le_succ nb bss a f
    omega

/-- The steps that transfer an element of an equality bucket, one after the other. -/
theorem Scanned.countP_parts (hs : Scanned nb bss a b f l) (cfg : Config) (lastLevel : Bool)
    {e x : ℕ} (he : IsEqual nb e) (hx₁ : bss e ≤ x) (hx₂ : x < bss (e + 1)) :
    (stripeOps nb bss a b f l).countP (·.transfers cfg lastLevel bss x) =
      (if IsEqual nb f ∧ a ≤ x ∧ x < b ∧ x < bss (f + 1) then 1 else 0) +
        (if (firstOwn nb bss a f < l ∧ IsEqual nb (l - 1)) ∧ bss (l - 1) ≤ x ∧ x < b then 1
          else 0) +
        if firstOwn nb bss a f < lastOwn nb (firstOwn nb bss a f) l ∧ firstOwn nb bss a f ≤ e ∧
          e ≤ lastOwn nb (firstOwn nb bss a f) l then 1 else 0 := by
  simp only [stripeOps, List.countP_append]
  congr 1
  · congr 1
    · exact countP_ite (by simp only [PostOp.transfers, lt_min_iff, decide_eq_true_eq])
    · exact countP_ite (by simp only [PostOp.transfers, decide_eq_true_eq])
  · split
    · next hlt =>
      rw [countP_remaining h cfg lastLevel hlt ((lastOwn_le _ _ _).trans hs.le)
        (fun heven => lastOwn_even h.even hs.le heven hlt) he hx₁ hx₂]
      exact if_congr (by omega) rfl rfl
    · exact (if_neg (by omega)).symm

/-- **An element of an equality bucket is transferred by the thread in whose stripe it lies**, and
again by a thread that has done the bucket before this one from its beginning, and ends before or in
this one. -/
theorem Scanned.countP_transfers (hs : Scanned nb bss a b f l) (cfg : Config) (lastLevel : Bool)
    {e x : ℕ} (he : IsEqual nb e) (hx₁ : bss e ≤ x) (hx₂ : x < bss (e + 1)) :
    (stripeOps nb bss a b f l).countP (·.transfers cfg lastLevel bss x) =
      (if a ≤ x ∧ x < b then 1 else 0) +
        if a ≤ bss (e - 1) ∧ bss (e - 1) < b ∧ b ≤ bss (e + 1) ∧ a < bss e then 1 else 0 := by
  rw [hs.countP_parts h cfg lastLevel he hx₁ hx₂]
  have hown := firstOwn_le_succ nb bss a f
  have hpred := h.step (e - 1) (by omega)
  rw [show e - 1 + 1 = e by omega] at hpred
  have hfl := hs.lt
  have hlnb := hs.le
  have hfirst := hs.first
  have hlast := hs.last
  have hlow := hs.before (l - 1) (by omega) (by omega)
  have hbound : firstOwn nb bss a f = f + 1 ∨ ¬ IsEqual nb f := by
    unfold firstOwn
    split_ifs <;> omega
  rcases Nat.lt_trichotomy e f with hef | rfl | hfe
  · -- the bucket ends before the stripe begins
    have h₁ := h.mono (show e + 1 ≤ f by omega) (by omega)
    have h₂ := h.mono (show f ≤ l - 1 by omega) (by omega)
    rw [if_neg (by omega), if_neg (by omega), if_neg (by omega),
      if_neg (by omega), if_neg (by omega)]
  · -- the stripe begins in the bucket
    have hown' : firstOwn nb bss a e = e + 1 := hbound.resolve_right (not_not.mpr he)
    have h₂ : firstOwn nb bss a e < l → bss (e + 1) ≤ bss (l - 1) :=
      fun hlt => h.mono (by omega) (by omega)
    rw [if_neg (show ¬ ((firstOwn nb bss a e < l ∧ IsEqual nb (l - 1)) ∧
      bss (l - 1) ≤ x ∧ x < b) by omega),
      if_neg (show ¬ (firstOwn nb bss a e < lastOwn nb (firstOwn nb bss a e) l ∧
        firstOwn nb bss a e ≤ e ∧ _) by omega),
      if_neg (show ¬ (a ≤ bss (e - 1) ∧ bss (e - 1) < b ∧ b ≤ bss (e + 1) ∧ a < bss e) by omega)]
    exact if_congr (by omega) rfl rfl
  · -- the bucket begins after the stripe does
    have hae := hs.after e hfe (by omega)
    have hf1 := h.mono (show f + 1 ≤ e by omega) (by omega)
    have hkey := hs.firstOwn_lt he hfe
    rw [if_neg (show ¬ (IsEqual nb f ∧ a ≤ x ∧ x < b ∧ x < bss (f + 1)) by omega), Nat.zero_add]
    rcases Nat.lt_trichotomy e (l - 1) with hel | rfl | hel
    · have h₁ := h.mono (show e + 1 ≤ l - 1 by omega) (by omega)
      have hlo : l - 1 ≤ lastOwn nb (firstOwn nb bss a f) l := by
        unfold lastOwn
        split_ifs <;> omega
      rw [if_neg (by omega), if_pos (by omega), if_pos (by omega), if_neg (by omega)]
    · have hlo : lastOwn nb (firstOwn nb bss a f) l = l - 1 := if_pos ⟨by omega, he⟩
      rw [show l - 1 + 1 = l by omega] at hx₂ ⊢
      rw [hlo]
      congr 1
      · exact if_congr (by omega) rfl rfl
      · exact if_congr (by omega) rfl rfl
    · have h₁ := h.mono (show l ≤ e by omega) (by omega)
      have h₂ : l < e → bss l ≤ bss (e - 1) := fun hlt => h.mono (by omega) (by omega)
      have hlo := lastOwn_le nb (firstOwn nb bss a f) l
      have hstep := h.step e (by omega)
      rw [if_neg (by omega), if_neg (show ¬ (a ≤ x ∧ x < b) by omega)]
      congr 1
      rcases Nat.eq_or_lt_of_le (show l ≤ e by omega) with rfl | hlt
      · have hlo : lastOwn nb (firstOwn nb bss a f) l = l := if_neg (by omega)
        rw [hlo]
        exact if_congr (by omega) rfl rfl
      · have := h₂ hlt
        rw [if_neg (by omega), if_neg (by omega)]

omit h in
/-- A thread that shares its last bucket has not shared it as its first one. -/
theorem Scanned.lt_share (hs : Scanned nb bss a b f l)
    (hl : firstOwn nb bss a f < l ∧ IsEqual nb (l - 1)) : f < l - 1 := by
  have := hs.lt
  by_contra hge
  obtain rfl : f = l - 1 := by omega
  have : firstOwn nb bss a (l - 1) = l - 1 + 1 := if_pos hl.2
  omega

/-- What the steps of a thread are about. -/
theorem Scanned.mem_stripeOps (hs : Scanned nb bss a b f l) {op : PostOp}
    (hop : op ∈ stripeOps nb bss a b f l) :
    (∃ c < nb, ¬ IsEqual nb c ∧ op = .sortAndMove c) ∨ (∃ e, IsEqual nb e ∧ op = .move e) ∨
      ∃ e lo hi, IsEqual nb e ∧ op = .share lo hi ∧ bss e ≤ lo ∧
      hi ≤ bss (e + 1) ∧ a ≤ lo ∧ hi ≤ b := by
  simp only [stripeOps, List.mem_append] at hop
  rcases hop with (hop | hop) | hop
  · split_ifs at hop with hf
    · exact .inr (.inr ⟨f, _, _, hf, List.mem_singleton.mp hop, hs.first, min_le_right _ _,
        le_rfl, min_le_left _ _⟩)
    · cases hop
  · split_ifs at hop with hl
    · have hle := hs.le
      have hlt := hs.lt_share hl
      refine .inr (.inr ⟨l - 1, _, _, hl.2, List.mem_singleton.mp hop, le_rfl, ?_, ?_, le_rfl⟩)
      · rw [Nat.sub_add_cancel (by omega)]
        exact hs.last
      · exact (hs.after (l - 1) hlt (by omega)).le
    · cases hop
  · split_ifs at hop with hlt
    · exact (mem_remaining h.even h.four hlt ((lastOwn_le _ _ _).trans hs.le)
        (fun heven => lastOwn_even h.even hs.le heven hlt) hop).imp_right .inl
    · cases hop

/-- **A thread shares an element of an equality bucket of its stripe just when an edge of the stripe
cuts the bucket**, or meets an edge of the bucket. -/
theorem Scanned.countP_shares (hs : Scanned nb bss a b f l) {e x : ℕ} (he : IsEqual nb e)
    (hx₁ : bss e ≤ x) (hx₂ : x < bss (e + 1)) :
    (stripeOps nb bss a b f l).countP (·.shares x) =
      if a ≤ x ∧ x < b ∧ (bss e ≤ a ∨ b ≤ bss (e + 1)) then 1 else 0 := by
  have hrest : (if firstOwn nb bss a f < lastOwn nb (firstOwn nb bss a f) l then
      remaining nb (firstOwn nb bss a f) (lastOwn nb (firstOwn nb bss a f) l) else []).countP
          (·.shares x) = 0 := by
    refine List.countP_eq_zero.mpr fun op hop => ?_
    split_ifs at hop with hlt
    · rcases mem_remaining h.even h.four hlt ((lastOwn_le _ _ _).trans hs.le)
        (fun heven => lastOwn_even h.even hs.le heven hlt) hop with ⟨c, -, -, rfl⟩ | ⟨c, -, rfl⟩
      · exact Bool.false_ne_true
      · exact Bool.false_ne_true
    · cases hop
  simp only [stripeOps, List.countP_append, hrest, Nat.add_zero]
  rw [countP_ite (q := a ≤ x ∧ x < b ∧ x < bss (f + 1))
    (by simp only [PostOp.shares, lt_min_iff, decide_eq_true_eq]),
    countP_ite (q := bss (l - 1) ≤ x ∧ x < b) (by simp only [PostOp.shares, decide_eq_true_eq])]
  have hown := firstOwn_le_succ nb bss a f
  have hfl := hs.lt
  have hlnb := hs.le
  have hfirst := hs.first
  have hlast := hs.last
  have hlow := hs.before (l - 1) (by omega) (by omega)
  rcases Nat.lt_trichotomy e f with hef | rfl | hfe
  · -- the bucket ends before the stripe begins
    have h₁ := h.mono (show e + 1 ≤ f by omega) (by omega)
    have h₂ := h.mono (show f ≤ l - 1 by omega) (by omega)
    rw [if_neg (by omega), if_neg (by omega), if_neg (by omega)]
  · -- the stripe begins in the bucket
    have hown' : firstOwn nb bss a e = e + 1 := if_pos he
    have h₂ : e + 1 < l → bss (e + 1) ≤ bss (l - 1) := fun hlt => h.mono (by omega) (by omega)
    rw [hown', if_neg (show ¬ ((e + 1 < l ∧ IsEqual nb (l - 1)) ∧
      bss (l - 1) ≤ x ∧ x < b) by omega)]
    exact if_congr (by omega) rfl rfl
  · -- the bucket begins after the stripe does
    have hae := hs.after e hfe (by omega)
    have hf1 := h.mono (show f + 1 ≤ e by omega) (by omega)
    rw [if_neg (show ¬ (IsEqual nb f ∧ a ≤ x ∧ x < b ∧ x < bss (f + 1)) by omega), Nat.zero_add]
    rcases Nat.lt_trichotomy e (l - 1) with hel | rfl | hel
    · have h₁ := h.mono (show e + 1 ≤ l - 1 by omega) (by omega)
      rw [if_neg (by omega), if_neg (by omega)]
    · rw [show l - 1 + 1 = l by omega] at hx₂ ⊢
      exact if_congr (by omega) rfl rfl
    · have h₁ := h.mono (show l ≤ e by omega) (by omega)
      rw [if_neg (by omega), if_neg (by omega)]

end

end Ps4o
