import Ps4o.StripeSteps

/-!
# Who finishes which bucket

The steps of all threads.

## What is proved

* `count_sortAndMove` — a bucket that is not an equality bucket is sorted by the thread in whose
  stripe it begins.
* `countP_postOps` — an element of an equality bucket is transferred by the thread in whose stripe
  it lies, and once more by a thread that ends in this bucket after having done the one before.
* `exactlyOnce_iff` — so every element is transferred once just when there is no such thread.
-/

namespace Ps4o

open Ps4o.Order.Stripes

/-! ### All threads -/

section
variable {nb n t : ℕ} {bss : ℕ → ℕ}

/-- A thread does an equality bucket twice: it has done the bucket before it from its beginning, and
its stripe ends before or in the equality bucket. -/
def DoneTwice (n t : ℕ) (bss : ℕ → ℕ) (i e : ℕ) : Prop :=
  first n t i ≤ bss (e - 1) ∧ bss (e - 1) < first n t (i + 1) ∧ first n t (i + 1) ≤ bss (e + 1) ∧
    first n t i < bss e

instance (i e : ℕ) : Decidable (DoneTwice n t bss i e) := inferInstanceAs (Decidable (_ ∧ _))

variable (h : Boundaries true nb n bss) (ht : 1 ≤ t)
include h ht

/-- A thread has scanned its stripe, or has none. -/
theorem equalBranch_cases (i : ℕ) :
    (∃ f l, Scanned nb bss (first n t i) (first n t (i + 1)) f l ∧
        equalBranch nb bss (first n t i) (first n t (i + 1)) =
          stripeOps nb bss (first n t i) (first n t (i + 1)) f l) ∨
      (first n t i = n ∧ first n t (i + 1) = n ∧
        equalBranch nb bss (first n t i) (first n t (i + 1)) = []) := by
  rcases Nat.lt_or_ge (first n t i) (first n t (i + 1)) with hlt | hge
  · exact .inl (exists_scanned h hlt first_le)
  · obtain ⟨h₁, h₂⟩ := first_eq_of_empty ht hge
    exact .inr ⟨h₁, h₂, by rw [h₁, h₂, equalBranch_nil h]⟩

/-- What the steps of a thread are about. -/
theorem mem_equalBranch {i : ℕ} {op : PostOp}
    (hop : op ∈ equalBranch nb bss (first n t i) (first n t (i + 1))) :
    (∃ c < nb, ¬ IsEqual nb c ∧ op = .sortAndMove c) ∨ (∃ e, IsEqual nb e ∧ op = .move e) ∨
      ∃ e lo hi, IsEqual nb e ∧ op = .share lo hi ∧ bss e ≤ lo ∧
      hi ≤ bss (e + 1) ∧ first n t i ≤ lo ∧ hi ≤ first n t (i + 1) := by
  rcases equalBranch_cases h ht i with ⟨f, l, hs, heq⟩ | ⟨-, -, heq⟩
  · rw [heq] at hop
    exact hs.mem_stripeOps h hop
  · rw [heq] at hop
    cases hop

/-- How often a thread shares an element of an equality bucket. -/
theorem countP_shares {e x : ℕ} (he : IsEqual nb e) (hx₁ : bss e ≤ x) (hx₂ : x < bss (e + 1))
    (i : ℕ) :
    (equalBranch nb bss (first n t i) (first n t (i + 1))).countP (·.shares x) =
      if first n t i ≤ x ∧ x < first n t (i + 1) ∧
        (bss e ≤ first n t i ∨ first n t (i + 1) ≤ bss (e + 1)) then 1 else 0 := by
  rcases equalBranch_cases h ht i with ⟨f, l, hs, heq⟩ | ⟨h₁, h₂, heq⟩
  · rw [heq, hs.countP_shares h he hx₁ hx₂]
  · rw [heq, h₁, h₂, List.countP_nil, if_neg (by omega)]

/-- How often a thread transfers an element of an equality bucket. -/
theorem countP_equalBranch (cfg : Config) (lastLevel : Bool) {e x : ℕ} (he : IsEqual nb e)
    (hx₁ : bss e ≤ x) (hx₂ : x < bss (e + 1)) (i : ℕ) :
    (equalBranch nb bss (first n t i) (first n t (i + 1))).countP
    (·.transfers cfg lastLevel bss x) =
      (if first n t i ≤ x ∧ x < first n t (i + 1) then 1 else 0) + if DoneTwice n t bss i e then 1
        else 0 := by
  have hen := h.mono (show e + 1 ≤ nb by omega) le_rfl
  rw [h.last] at hen
  rcases equalBranch_cases h ht i with ⟨f, l, hs, heq⟩ | ⟨h₁, h₂, heq⟩
  · rw [heq, hs.countP_transfers h cfg lastLevel he hx₁ hx₂]
    rfl
  · have hnot : ¬ DoneTwice n t bss i e := by
      rintro ⟨h₃, h₄, -, -⟩
      omega
    rw [if_neg hnot, heq, h₁, h₂, List.countP_nil, if_neg (by omega)]

/-- What a thread shares is not empty. -/
theorem lt_of_share {i lo hi : ℕ}
    (hop : .share lo hi ∈ equalBranch nb bss (first n t i) (first n t (i + 1))) : lo < hi := by
  rcases Nat.lt_or_ge (first n t i) (first n t (i + 1)) with hab | hge
  · obtain ⟨f, l, hs, heq⟩ := exists_scanned h hab first_le
    have hfl := hs.lt
    have hlnb := hs.le
    have hafter := hs.after (f + 1) (by omega) (by omega)
    have hbefore := hs.before (l - 1) (by omega) (by omega)
    rw [heq] at hop
    simp only [stripeOps, List.mem_append] at hop
    rcases hop with (hop | hop) | hop
    · split_ifs at hop
      · obtain ⟨rfl, rfl⟩ := PostOp.share.inj (List.mem_singleton.mp hop)
        exact lt_min hab hafter
      · cases hop
    · split_ifs at hop
      · obtain ⟨rfl, rfl⟩ := PostOp.share.inj (List.mem_singleton.mp hop)
        exact hbefore
      · cases hop
    · split_ifs at hop with hlt
      · rcases mem_remaining h.even h.four hlt ((lastOwn_le _ _ _).trans hs.le)
          (fun heven => lastOwn_even h.even hs.le heven hlt) hop with ⟨c, -, -, hc⟩ | ⟨c, -, hc⟩
        · cases hc
        · cases hc
      · cases hop
  · obtain ⟨h₁, h₂⟩ := first_eq_of_empty ht hge
    rw [h₁, h₂, equalBranch_nil h] at hop
    cases hop

/-- How often all threads together transfer an element of an equality bucket. -/
theorem countP_postOps (cfg : Config) (lastLevel : Bool) {e x : ℕ} (he : IsEqual nb e)
    (hx₁ : bss e ≤ x) (hx₂ : x < bss (e + 1)) :
    (postOps true nb n t bss).countP (·.transfers cfg lastLevel bss x) =
      1 + ((List.range t).map fun i => if DoneTwice n t bss i e then 1 else 0).sum := by
  have hxn : x < n := by
    have := h.mono (show e + 1 ≤ nb by omega) le_rfl
    rw [h.last] at this
    omega
  simp only [postOps, List.countP_flatMap]
  refine (congrArg List.sum (List.map_congr_left fun i _ => countP_equalBranch h ht cfg
    lastLevel he hx₁ hx₂ i)).trans ?_
  rw [List.sum_map_add, sum_owner ht hxn]

/-- A thread sorts the buckets that begin in its stripe. -/
theorem count_equalBranch {c : ℕ} (hc : c < nb) (hne : ¬ IsEqual nb c) (hpos : bss c < bss (c + 1))
    (i : ℕ) :
    (equalBranch nb bss (first n t i) (first n t (i + 1))).count (.sortAndMove c) =
      if first n t i ≤ bss c ∧ bss c < first n t (i + 1) then 1 else 0 := by
  have hn := h.mono (show c + 1 ≤ nb by omega) le_rfl
  rw [h.last] at hn
  rcases equalBranch_cases h ht i with ⟨f, l, hs, heq⟩ | ⟨h₁, h₂, heq⟩
  · rw [heq, hs.count_sortAndMove h hc hne hpos]
  · rw [heq, h₁, h₂, List.count_nil, if_neg (by omega)]

/-- All threads together sort a bucket that is not an equality bucket once. -/
theorem count_postOps {c : ℕ} (hc : c < nb) (hne : ¬ IsEqual nb c) (hpos : bss c < bss (c + 1)) :
    (postOps true nb n t bss).count (.sortAndMove c) = 1 := by
  have hxn : bss c < n := by
    have := h.mono (show c + 1 ≤ nb by omega) le_rfl
    rw [h.last] at this
    omega
  simp only [postOps, List.count_flatMap]
  exact (congrArg List.sum (List.map_congr_left fun i _ =>
    count_equalBranch h ht hc hne hpos i)).trans (sum_owner ht hxn)

omit h in
/-- Without equality buckets, all threads together sort every bucket once. -/
theorem count_postOps_plain {c : ℕ} (hc : c < nb) :
    (postOps false nb n t bss).count (.sortAndMove c) = 1 := by
  have hthread : ∀ i, (plainBranch nb t i).count (.sortAndMove c) =
      if first nb t i ≤ c ∧ c < first nb t (i + 1) then 1 else 0 := by
    intro i
    have : first nb t i ≤ first nb t (i + 1) := first_le_succ
    rw [plainBranch, count_singles_sortAndMove]
    exact if_congr (by omega) rfl rfl
  simp only [postOps, List.count_flatMap]
  exact (congrArg List.sum (List.map_congr_left fun i _ => hthread i)).trans (sum_owner ht hc)

end

/-! ### With or without equality buckets -/

section
variable {eq : Bool} {nb n t : ℕ} {bss : ℕ → ℕ} (h : Boundaries eq nb n bss) (ht : 1 ≤ t)
include h ht

/-- What the steps of a thread are about. -/
theorem mem_threadOps {i : ℕ} {op : PostOp} (hop : op ∈ threadOps eq nb n t bss i) :
    (∃ c < nb, ¬ (eq = true ∧ IsEqual nb c) ∧ op = .sortAndMove c) ∨
    (∃ e, (eq = true ∧ IsEqual nb e) ∧ op = .move e) ∨
      ∃ e lo hi, (eq = true ∧ IsEqual nb e) ∧ op = .share lo hi ∧ bss e ≤ lo ∧ hi ≤ bss (e + 1) ∧
        first n t i ≤ lo ∧ hi ≤ first n t (i + 1) := by
  cases eq with
  | false =>
    obtain ⟨j, hj, rfl⟩ := mem_singles hop
    have : first nb t (i + 1) ≤ nb := first_le
    exact .inl ⟨_, by omega, fun hx => Bool.false_ne_true hx.1, rfl⟩
  | true => simpa only [true_and] using mem_equalBranch h ht hop

/-- All threads together sort a bucket that is not an equality bucket once. -/
theorem count_sortAndMove {c : ℕ} (hc : c < nb) (hne : ¬ (eq = true ∧ IsEqual nb c))
    (hpos : bss c < bss (c + 1)) : (postOps eq nb n t bss).count (.sortAndMove c) = 1 := by
  cases eq with
  | false => exact count_postOps_plain ht hc
  | true => exact count_postOps h ht hc (fun he => hne ⟨rfl, he⟩) hpos

/-- They put its elements into the input array once, if this is all there is to do. -/
theorem countP_postOps_other (cfg : Config) (lastLevel : Bool) {c x : ℕ} (hc : c < nb)
    (hne : ¬ (eq = true ∧ IsEqual nb c)) (hx₁ : bss c ≤ x) (hx₂ : x < bss (c + 1)) :
    (postOps eq nb n t bss).countP (·.transfers cfg lastLevel bss x) =
      if lastLevel = true ∨ bss (c + 1) - bss c ≤ 2 * cfg.kBaseCaseSize then 1 else 0 := by
  have hkey : ∀ op ∈ postOps eq nb n t bss, op.transfers cfg lastLevel bss x = true ↔
      (lastLevel = true ∨ bss (c + 1) - bss c ≤ 2 * cfg.kBaseCaseSize) ∧ op = .sortAndMove c := by
    intro op hop
    obtain ⟨i, -, hop⟩ := List.mem_flatMap.mp hop
    rcases mem_threadOps h ht hop with ⟨d, hd, -, rfl⟩ | ⟨e, he, rfl⟩ | ⟨e, lo,
      hi, he, rfl, hlo, hhi, -, -⟩
    · simp only [PostOp.transfers, decide_eq_true_eq, PostOp.sortAndMove.injEq]
      constructor
      · rintro ⟨hsmall, h₁, h₂⟩
        obtain rfl := h.eq_of_mem hd hc h₁ h₂ hx₁ hx₂
        exact ⟨hsmall, rfl⟩
      · rintro ⟨hsmall, rfl⟩
        exact ⟨hsmall, hx₁, hx₂⟩
    · simp only [PostOp.transfers, decide_eq_true_eq, reduceCtorEq, and_false, iff_false]
      rintro ⟨h₁, h₂⟩
      exact hne (h.eq_of_mem (by omega) hc h₁ h₂ hx₁ hx₂ ▸ he)
    · simp only [PostOp.transfers, decide_eq_true_eq, reduceCtorEq, and_false, iff_false]
      rintro ⟨h₁, h₂⟩
      exact hne (h.eq_of_mem (by omega) hc (hlo.trans h₁) (h₂.trans_le hhi) hx₁ hx₂ ▸ he)
  split
  · next hsmall =>
    rw [← count_sortAndMove h ht hc hne (hx₁.trans_lt hx₂), List.count]
    refine List.countP_congr fun op hop => (hkey op hop).trans ?_
    rw [and_iff_right hsmall, beq_iff_eq]
  · next hlarge => exact List.countP_eq_zero.mpr fun op hop htr => hlarge ((hkey op hop).mp htr).1

end

/-! ### Exactly once -/

section
variable {nb n t : ℕ} {bss : ℕ → ℕ} (h : Boundaries true nb n bss) (ht : 1 ≤ t)
include h ht

/-- No element of an equality bucket is shared just when the bucket lies **strictly inside a
stripe**. -/
theorem countP_shares_eq_zero_iff {e : ℕ} (he : IsEqual nb e) (hpos : bss e < bss (e + 1)) :
    (∀ x, bss e ≤ x → x < bss (e + 1) → (postOps true nb n t bss).countP (·.shares x) = 0) ↔
      ∃ i, first n t i < bss e ∧ bss (e + 1) < first n t (i + 1) := by
  have hen : bss (e + 1) ≤ n := by
    have := h.mono (show e + 1 ≤ nb by omega) le_rfl
    rwa [h.last] at this
  have hall : ∀ x, bss e ≤ x → x < bss (e + 1) →
      ((postOps true nb n t bss).countP (·.shares x) = 0 ↔
      ∀ i < t, ¬ (first n t i ≤ x ∧ x < first n t (i + 1) ∧
        (bss e ≤ first n t i ∨ first n t (i + 1) ≤ bss (e + 1)))) := by
    intro x hx₁ hx₂
    simp only [postOps, List.countP_flatMap, List.sum_eq_zero_iff_forall_eq_nat,
      List.mem_map, List.mem_range,
      forall_exists_index, and_imp, forall_apply_eq_imp_iff₂, Function.comp_apply]
    refine forall₂_congr fun i _ => ?_
    rw [show threadOps true nb n t bss i = equalBranch nb bss (first n t i)
      (first n t (i + 1)) from rfl, countP_shares h ht he hx₁ hx₂]
    exact Nat.one_ne_zero.ite_eq_right_iff
  constructor
  · intro hzero
    -- the stripe in which the bucket begins
    have hx : bss e < n := by omega
    have hle := first_owner_le ht hx
    have hlt := lt_first_owner ht hx
    have := (hall _ le_rfl hpos).mp (hzero _ le_rfl hpos) _ (owner_lt ht hx)
    exact ⟨owner n t (bss e), by omega, by omega⟩
  · rintro ⟨i, h₁, h₂⟩ x hx₁ hx₂
    refine (hall x hx₁ hx₂).mpr fun j _ ⟨h₃, h₄, hcut⟩ => ?_
    have hi := (mem_iff ht (show x < n by omega)).mp ⟨show first n t i ≤ x by omega, by omega⟩
    obtain rfl := hi.symm.trans ((mem_iff ht (show x < n by omega)).mp ⟨h₃, h₄⟩)
    omega

omit h ht in
theorem sum_doneTwice_eq_zero_iff {e : ℕ} :
    ((List.range t).map fun i => if DoneTwice n t bss i e then 1 else 0).sum = 0 ↔
    ∀ i < t, ¬ DoneTwice n t bss i e := by
  simp only [List.sum_eq_zero_iff_forall_eq_nat, List.mem_map, List.mem_range,
    forall_exists_index, and_imp, forall_apply_eq_imp_iff₂]
  exact forall₂_congr fun i _ => Nat.one_ne_zero.ite_eq_right_iff

/-- **Everything is done exactly once just when no thread does a non-empty equality bucket
twice.** -/
theorem exactlyOnce_iff (cfg : Config) (lastLevel : Bool) :
    ExactlyOnce cfg lastLevel nb n t bss ↔
      ∀ e, IsEqual nb e → bss e < bss (e + 1) → ∀ i < t, ¬ DoneTwice n t bss i e := by
  constructor
  · rintro ⟨honce, -⟩ e he hpos
    have := honce e he (bss e) le_rfl hpos
    rwa [countP_postOps h ht cfg lastLevel he le_rfl hpos, Nat.add_eq_left,
      sum_doneTwice_eq_zero_iff] at this
  · refine fun hnone => ⟨fun e he x hx₁ hx₂ => ?_,
      fun c hc hne hpos => count_postOps h ht hc hne hpos⟩
    rw [countP_postOps h ht cfg lastLevel he hx₁ hx₂, Nat.add_eq_left, sum_doneTwice_eq_zero_iff]
    exact hnone e he (hx₁.trans_lt hx₂)

end

/-- Boundaries of 8192 elements: a hundred small ones, 7900 equal ones, and 192 large ones. -/
def manyEqual (b : ℕ) : ℕ :=
  if b = 0 then 0 else if b = 1 then 100 else if b ≤ 3 then 8000 else 8192

theorem manyEqual_boundaries : Boundaries true 4 8192 manyEqual :=
  ⟨by decide, rfl, rfl, by decide, fun _ => ⟨rfl, le_rfl, rfl⟩⟩

/-- Boundaries of 8192 elements: a thousand small ones, 192 equal ones, and 7000 large ones. -/
def fewEqual (b : ℕ) : ℕ :=
  if b = 0 then 0 else if b = 1 then 1000 else if b ≤ 3 then 1192 else 8192

theorem fewEqual_boundaries : Boundaries true 4 8192 fewEqual :=
  ⟨by decide, rfl, rfl, by decide, fun _ => ⟨rfl, le_rfl, rfl⟩⟩

/-- Two threads that share the large elements do nothing twice. -/
theorem exactlyOnce_fewEqual : ExactlyOnce defaultConfig false 4 8192 2 fewEqual :=
  (exactlyOnce_iff fewEqual_boundaries (by decide) defaultConfig false).mpr fun e he _ i hi => by
    obtain rfl : e = 1 := by omega
    revert i
    decide

/-- The first one of two threads shares the equal elements of its stripe, and then moves all of them
again. -/
theorem not_exactlyOnce_manyEqual : ¬ ExactlyOnce defaultConfig false 4 8192 2 manyEqual := by
  rintro ⟨honce, -⟩
  have := honce 1 (by decide) 100 le_rfl (by decide)
  revert this
  decide

end Ps4o
