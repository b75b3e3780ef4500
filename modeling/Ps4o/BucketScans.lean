import Ps4o.Config
import Ps4o.Order.Stripes
import Mathlib.Data.List.Count
import Mathlib.Algebra.BigOperators.Group.List.Basic

/-!
# Who finishes which bucket: the code

After distributing, the threads divide the buckets among themselves (`partition<true>` in
`partitioning.hpp`). Without equality buckets, every thread takes as many buckets as any other. With
equality buckets, every thread finds the buckets that its stripe meets, shares equality buckets that
are cut by an edge of the stripe, and does the others alone. What a thread does depends only on the
bucket boundaries and on its stripe, so it is a list of steps.

## What is proved

* `firstBucket_spec`, `lastBucket_spec` — what the two scans find.
* `count_remaining_sortAndMove`, `count_remaining_move` — which buckets the steps between the two
  are for.
-/

namespace Ps4o

open Ps4o.Order.Stripes

/-! ### The code -/

/-- A step of a thread after distributing. -/
inductive PostOp where
  /-- Sort a bucket, and put it into the input array. -/
  | sortAndMove (bucket : ℕ)
  /-- Put a bucket into the input array. -/
  | move (bucket : ℕ)
  /-- Put the elements from `lo` to `hi`, a part of an equality bucket, into the other array. -/
  | share (lo hi : ℕ)
  deriving DecidableEq

/-- Whether a bucket is an equality bucket. -/
abbrev IsEqual (numBuckets bucket : ℕ) : Prop := bucket % 2 = 1 ∧ bucket < numBuckets - 2

/-- The scan down from bucket `k` for the first bucket of a stripe. -/
def firstBucket (bss : ℕ → ℕ) (myBegin : ℕ) : ℕ → ℕ
  | 0 => 0
  | k + 1 => if myBegin < bss (k + 1) then firstBucket bss myBegin k else k + 1

/-- The scan up from bucket `k` for the end of a stripe, over `left` buckets at most. -/
def lastBucket (bss : ℕ → ℕ) (myEnd : ℕ) : (left : ℕ) → ℕ → ℕ
  | 0, k => k
  | left + 1, k => if bss k < myEnd then lastBucket bss myEnd left (k + 1) else k

/-- `rounds` blocks of a bucket and the equality bucket after it. -/
def pairs : (rounds : ℕ) → ℕ → List PostOp
  | 0, _ => []
  | rounds + 1, i => .sortAndMove i :: .move (i + 1) :: pairs rounds (i + 2)

/-- `rounds` single buckets. -/
def singles : (rounds : ℕ) → ℕ → List PostOp
  | 0, _ => []
  | rounds + 1, i => .sortAndMove i :: singles rounds (i + 1)

/-- The buckets that a thread does alone, from `first` up to `last`. -/
def remaining (numBuckets first last : ℕ) : List PostOp :=
  let head : List PostOp := if IsEqual numBuckets first then [.move first] else []
  let first' := if IsEqual numBuckets first then first + 1 else first
  let odd : Prop := first' < last ∧ last % 2 = 0 ∧ first' < numBuckets - 2
  let tail : List PostOp := if odd then [.sortAndMove (last - 1)] else []
  let last' := if odd then last - 1 else last
  let endEqb := min last' (numBuckets - 2)
  head ++ tail ++ pairs ((endEqb - first' + 1) / 2) first' ++ singles (last' - endEqb) endEqb

/-- The first bucket that a thread does alone, when its stripe begins in bucket `first`: not an
equality bucket, which is shared, nor one that is begun before the stripe. -/
def firstOwn (numBuckets : ℕ) (bss : ℕ → ℕ) (myBegin first : ℕ) : ℕ :=
  if IsEqual numBuckets first then first + 1 else if bss first < myBegin then first + 1 else first

/-- Up to which bucket a thread works alone, when its stripe ends with the one before `last`: the
last one is shared, when it is an equality bucket. -/
def lastOwn (numBuckets first' last : ℕ) : ℕ :=
  if first' < last ∧ IsEqual numBuckets (last - 1) then last - 1 else last

/-- What a thread does whose stripe, from `myBegin` to `myEnd`, meets the buckets from `first` up to
`last`. -/
def stripeOps (numBuckets : ℕ) (bss : ℕ → ℕ) (myBegin myEnd first last : ℕ) : List PostOp :=
  let first' := firstOwn numBuckets bss myBegin first
  let last' := lastOwn numBuckets first' last
  (if IsEqual numBuckets first then [.share myBegin (min myEnd (bss (first + 1)))] else []) ++
    (if first' < last ∧ IsEqual numBuckets (last - 1)
      then [.share (bss (last - 1)) myEnd] else []) ++
    if first' < last' then remaining numBuckets first' last' else []

/-- What a thread with the stripe from `myBegin` to `myEnd` does. -/
def equalBranch (numBuckets : ℕ) (bss : ℕ → ℕ) (myBegin myEnd : ℕ) : List PostOp :=
  let first := firstBucket bss myBegin numBuckets
  stripeOps numBuckets bss myBegin myEnd first (lastBucket bss myEnd (numBuckets - first) first)

/-- What thread `myId` does without equality buckets. -/
def plainBranch (numBuckets t myId : ℕ) : List PostOp :=
  let myFirstBucket := first numBuckets t myId
  let myLastBucket := first numBuckets t (myId + 1)
  singles (myLastBucket - myFirstBucket) myFirstBucket

/-- What thread `myId` does. -/
def threadOps (useEqualBuckets : Bool) (numBuckets n t : ℕ) (bss : ℕ → ℕ) (myId : ℕ) :
    List PostOp :=
  if useEqualBuckets then equalBranch numBuckets bss (first n t myId) (first n t (myId + 1))
  else plainBranch numBuckets t myId

/-- What all `t` threads do. -/
def postOps (useEqualBuckets : Bool) (numBuckets n t : ℕ) (bss : ℕ → ℕ) : List PostOp :=
  (List.range t).flatMap (threadOps useEqualBuckets numBuckets n t bss)

/-- Whether a step puts the element at a position into the input array, when the elements are not
there. -/
def PostOp.transfers (cfg : Config) (lastLevel : Bool) (bss : ℕ → ℕ) (x : ℕ) : PostOp → Bool
  | .sortAndMove b =>
    decide ((lastLevel = true ∨ bss (b + 1) - bss b ≤ 2 * cfg.kBaseCaseSize) ∧
      bss b ≤ x ∧ x < bss (b + 1))
  | .move b => decide (bss b ≤ x ∧ x < bss (b + 1))
  | .share lo hi => decide (lo ≤ x ∧ x < hi)

/-- Whether a step shares the element at a position: it is put into the other array, whichever that
is. -/
def PostOp.shares (x : ℕ) : PostOp → Bool
  | .share lo hi => decide (lo ≤ x ∧ x < hi)
  | _ => false

/-- Every element of an equality bucket is transferred exactly once, and every other bucket that is
not empty is sorted exactly once, by all threads together. -/
def ExactlyOnce (cfg : Config) (lastLevel : Bool) (nb n t : ℕ) (bss : ℕ → ℕ) : Prop :=
  (∀ e, IsEqual nb e → ∀ x, bss e ≤ x → x < bss (e + 1) →
      (postOps true nb n t bss).countP (·.transfers cfg lastLevel bss x) = 1) ∧
    ∀ c < nb, ¬ IsEqual nb c → bss c < bss (c + 1) →
    (postOps true nb n t bss).count (.sortAndMove c) = 1

/-! ### The scans -/

/-- Bucket boundaries. -/
structure Boundaries (useEqualBuckets : Bool) (nb n : ℕ) (bss : ℕ → ℕ) : Prop where
  pos : 1 ≤ nb
  zero : bss 0 = 0
  last : bss nb = n
  step : ∀ b < nb, bss b ≤ bss (b + 1)
  /-- Equality buckets stand between the others, and there are no elements between the last two of
  those. -/
  equal : useEqualBuckets = true → nb % 2 = 0 ∧ 4 ≤ nb ∧ bss (nb - 2) = bss (nb - 1)

section
variable {eq : Bool} {nb n : ℕ} {bss : ℕ → ℕ}

theorem Boundaries.even (h : Boundaries true nb n bss) : nb % 2 = 0 := (h.equal rfl).1

theorem Boundaries.four (h : Boundaries true nb n bss) : 4 ≤ nb := (h.equal rfl).2.1

theorem Boundaries.empty (h : Boundaries true nb n bss) :
    bss (nb - 2) = bss (nb - 1) := (h.equal rfl).2.2

theorem Boundaries.mono (h : Boundaries eq nb n bss) {b c : ℕ} (hbc : b ≤ c) (hc : c ≤ nb) :
    bss b ≤ bss c := by
  induction c, hbc using Nat.le_induction with
  | base => exact le_rfl
  | succ c _ ih => exact (ih (by omega)).trans (h.step c hc)

/-- A bucket lies in the range. -/
theorem Boundaries.end_le (h : Boundaries eq nb n bss) {c : ℕ} (hc : c < nb) : bss (c + 1) ≤ n := by
  have := h.mono (Nat.succ_le_of_lt hc) le_rfl
  rwa [h.last] at this

/-- Every position is in a bucket. -/
theorem Boundaries.exists_bucket (h : Boundaries eq nb n bss) {x : ℕ} (hx : x < n) :
    ∃ b < nb, bss b ≤ x ∧ x < bss (b + 1) := by
  have key : ∀ k ≤ nb, x < bss k → ∃ b < k, bss b ≤ x ∧ x < bss (b + 1) := by
    intro k
    induction k with
    | zero => exact fun _ hlt => absurd hlt (by rw [h.zero]; omega)
    | succ k ih =>
      intro hk hlt
      rcases Nat.lt_or_ge x (bss k) with hlt' | hge
      · obtain ⟨b, hb, h₁⟩ := ih (by omega) hlt'
        exact ⟨b, by omega, h₁⟩
      · exact ⟨k, by omega, hge, hlt⟩
  exact key nb le_rfl (by rwa [h.last])

theorem IsEqual.lt {e : ℕ} (he : IsEqual nb e) : e < nb := by
  have := he.2
  omega

/-- Two buckets do not overlap. -/
theorem Boundaries.eq_of_mem (h : Boundaries eq nb n bss) {b c x : ℕ} (hb : b < nb) (hc : c < nb)
    (hb₁ : bss b ≤ x) (hb₂ : x < bss (b + 1)) (hc₁ : bss c ≤ x) (hc₂ : x < bss (c + 1)) :
    b = c := by
  rcases lt_trichotomy b c with hlt | heq | hlt
  · have := h.mono (Nat.succ_le_of_lt hlt) hc.le
    simp only [Nat.succ_eq_add_one] at this
    omega
  · exact heq
  · have := h.mono (Nat.succ_le_of_lt hlt) hb.le
    simp only [Nat.succ_eq_add_one] at this
    omega

/-- **The first bucket of a stripe** is the last one that begins no later than the stripe. -/
theorem firstBucket_spec (hz : bss 0 = 0) (a k : ℕ) :
    firstBucket bss a k ≤ k ∧ bss (firstBucket bss a k) ≤ a ∧ ∀ c, firstBucket bss a k < c →
    c ≤ k → a < bss c := by
  induction k with
  | zero => exact ⟨le_rfl, by simp [firstBucket, hz], fun c h₁ h₂ => by omega⟩
  | succ k ih =>
    rw [firstBucket]
    split
    · next h =>
      refine ⟨by omega, ih.2.1, fun c h₁ h₂ => ?_⟩
      rcases Nat.lt_or_ge k c with hk | hk
      · rwa [show c = k + 1 by omega]
      · exact ih.2.2 c h₁ hk
    · next h => exact ⟨le_rfl, by omega, fun c h₁ h₂ => by omega⟩

/-- **The end of a stripe** is the first bucket from there on that begins no earlier than the stripe
ends. -/
theorem lastBucket_spec (b : ℕ) {left k : ℕ} (h : b ≤ bss (k + left)) :
    k ≤ lastBucket bss b left k ∧ lastBucket bss b left k ≤ k + left ∧
    b ≤ bss (lastBucket bss b left k) ∧ ∀ c, k ≤ c → c < lastBucket bss b left k → bss c < b := by
  induction left generalizing k with
  | zero => exact ⟨le_rfl, le_rfl, h, fun c h₁ h₂ => absurd (h₁.trans_lt h₂) (lt_irrefl k)⟩
  | succ left ih =>
    rw [lastBucket]
    split
    · next hlt =>
      obtain ⟨h₁, h₂, h₃, h₄⟩ := ih (k := k + 1) (by rwa [Nat.add_right_comm])
      refine ⟨by omega, by omega, h₃, fun c hc₁ hc₂ => ?_⟩
      rcases Nat.eq_or_lt_of_le hc₁ with rfl | hc₁
      · exact hlt
      · exact h₄ c hc₁ hc₂
    · next hge =>
      exact ⟨le_rfl, by omega, by omega, fun c h₁ h₂ => absurd (h₁.trans_lt h₂) (lt_irrefl k)⟩

end

/-! ### Counting steps -/

section

theorem count_pairs_sortAndMove (k i c : ℕ) :
    (pairs k i).count (.sortAndMove c) = if i ≤ c ∧ c < i + 2 * k ∧ (c - i) % 2 = 0 then 1
    else 0 := by
  induction k generalizing i with
  | zero => exact (if_neg (by omega)).symm
  | succ k ih =>
    simp only [pairs, List.count_cons, ih, beq_iff_eq, reduceCtorEq,
      if_false, PostOp.sortAndMove.injEq]
    split_ifs <;> omega

theorem count_pairs_move (k i e : ℕ) :
    (pairs k i).count (.move e) = if i < e ∧ e < i + 2 * k ∧ (e - i) % 2 = 1 then 1 else 0 := by
  induction k generalizing i with
  | zero => exact (if_neg (by omega)).symm
  | succ k ih =>
    simp only [pairs, List.count_cons, ih, beq_iff_eq, reduceCtorEq, if_false, PostOp.move.injEq]
    split_ifs <;> omega

theorem count_singles_sortAndMove (k i c : ℕ) :
    (singles k i).count (.sortAndMove c) = if i ≤ c ∧ c < i + k then 1 else 0 := by
  induction k generalizing i with
  | zero => exact (if_neg (by omega)).symm
  | succ k ih =>
    simp only [singles, List.count_cons, ih, beq_iff_eq, PostOp.sortAndMove.injEq]
    split_ifs <;> omega

theorem count_singles_move (k i e : ℕ) : (singles k i).count (.move e) = 0 := by
  induction k generalizing i with
  | zero => rfl
  | succ k ih =>
    simp only [singles, List.count_cons, ih, beq_iff_eq, reduceCtorEq, if_false, Nat.add_zero]

variable {nb f l : ℕ}

/-- What a thread does alone with a bucket that is not an equality bucket. -/
theorem count_remaining_sortAndMove (heven : nb % 2 = 0) (hfl : f < l) (hl : l ≤ nb) {c : ℕ}
    (hc : c < nb) (hne : ¬ IsEqual nb c) (hempty : c ≠ nb - 2) :
    (remaining nb f l).count (.sortAndMove c) = if f ≤ c ∧ c < l then 1 else 0 := by
  simp only [remaining, List.count_append, count_pairs_sortAndMove, count_singles_sortAndMove]
  by_cases hf : IsEqual nb f
  · simp only [if_pos hf, List.count_singleton, beq_iff_eq, reduceCtorEq, if_false]
    by_cases ho : f + 1 < l ∧ l % 2 = 0 ∧ f + 1 < nb - 2
    · simp only [if_pos ho, List.count_singleton, beq_iff_eq, PostOp.sortAndMove.injEq]
      split_ifs <;> omega
    · simp only [if_neg ho, List.count_nil]
      split_ifs <;> omega
  · simp only [if_neg hf, List.count_nil]
    by_cases ho : f < l ∧ l % 2 = 0 ∧ f < nb - 2
    · simp only [if_pos ho, List.count_singleton, beq_iff_eq, PostOp.sortAndMove.injEq]
      split_ifs <;> omega
    · simp only [if_neg ho, List.count_nil]
      split_ifs <;> omega

/-- What a thread does alone with an equality bucket: **it moves the one after its last bucket,
too**. -/
theorem count_remaining_move (hfl : f < l) {e : ℕ} (he : IsEqual nb e) :
    (remaining nb f l).count (.move e) = if f ≤ e ∧ e ≤ l then 1 else 0 := by
  simp only [remaining, List.count_append, count_pairs_move, count_singles_move]
  by_cases hf : IsEqual nb f
  · simp only [if_pos hf, List.count_singleton, beq_iff_eq, PostOp.move.injEq]
    by_cases ho : f + 1 < l ∧ l % 2 = 0 ∧ f + 1 < nb - 2
    · simp only [if_pos ho, List.count_singleton, beq_iff_eq, reduceCtorEq, if_false]
      split_ifs <;> omega
    · simp only [if_neg ho, List.count_nil]
      split_ifs <;> omega
  · simp only [if_neg hf, List.count_nil]
    by_cases ho : f < l ∧ l % 2 = 0 ∧ f < nb - 2
    · simp only [if_pos ho, List.count_singleton, beq_iff_eq, reduceCtorEq, if_false]
      split_ifs <;> omega
    · simp only [if_neg ho, List.count_nil]
      split_ifs <;> omega

theorem mem_pairs {k i : ℕ} {op : PostOp} (h : op ∈ pairs k i) :
    ∃ j < k, op = .sortAndMove (i + 2 * j) ∨ op = .move (i + 2 * j + 1) := by
  induction k generalizing i with
  | zero => cases h
  | succ k ih =>
    rcases List.mem_cons.mp h with rfl | h
    · exact ⟨0, by omega, .inl rfl⟩
    · rcases List.mem_cons.mp h with rfl | h
      · exact ⟨0, by omega, .inr rfl⟩
      · obtain ⟨j, hj, h⟩ := ih h
        rw [show i + 2 + 2 * j = i + 2 * (j + 1) by omega] at h
        exact ⟨j + 1, by omega, h⟩

theorem mem_singles {k i : ℕ} {op : PostOp} (h : op ∈ singles k i) :
    ∃ j < k, op = .sortAndMove (i + j) := by
  induction k generalizing i with
  | zero => cases h
  | succ k ih =>
    rcases List.mem_cons.mp h with rfl | h
    · exact ⟨0, by omega, rfl⟩
    · obtain ⟨j, hj, h⟩ := ih h
      rw [show i + 1 + j = i + (j + 1) by omega] at h
      exact ⟨j + 1, by omega, h⟩

/-- A thread never sorts an equality bucket, and shares none that it does alone. -/
theorem mem_remaining (heven : nb % 2 = 0) (hfour : 4 ≤ nb) (hfl : f < l) (hl : l ≤ nb)
    (hlast : l % 2 = 0 → l = nb) {op : PostOp} (h : op ∈ remaining nb f l) :
    (∃ c < nb, ¬ IsEqual nb c ∧ op = .sortAndMove c) ∨ ∃ e, IsEqual nb e ∧ op = .move e := by
  simp only [remaining, List.mem_append] at h
  rcases h with ((h | h) | h) | h
  · split_ifs at h with hf
    · exact .inr ⟨f, hf, List.mem_singleton.mp h⟩
    · cases h
  · split_ifs at h
    · exact .inl ⟨l - 1, by omega, by omega, List.mem_singleton.mp h⟩
    · cases h
    · exact .inl ⟨l - 1, by omega, by omega, List.mem_singleton.mp h⟩
    · cases h
  · obtain ⟨j, hj, rfl | rfl⟩ := mem_pairs h
    · refine .inl ⟨_, ?_, ?_, rfl⟩
      · split_ifs at hj ⊢ <;> omega
      · split_ifs at hj ⊢ <;> omega
    · refine .inr ⟨_, ?_, rfl⟩
      split_ifs at hj ⊢ <;> omega
  · obtain ⟨j, hj, rfl⟩ := mem_singles h
    refine .inl ⟨_, ?_, ?_, rfl⟩
    · split_ifs at hj ⊢ <;> omega
    · split_ifs at hj ⊢ <;> omega

end

end Ps4o
