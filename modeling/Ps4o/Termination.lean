import Ps4o.CollidingBuckets

/-!
# Termination

For which configurations the recursion ends.

## What is proved

* `exists_not_terminates` — with a configuration that is not sound, some range of numbers is never
  sorted.
* `recursion_progress_iff` — when the recursion makes progress on a range, and for which
  configurations it ends on all ranges.
-/

namespace Ps4o

open Ps4o.Program Ps4o.Storage Ps4o.Order

variable {α : Type} {comp : α → α → Bool} {cfg : Config}

/-- `sequential` returns on a range, wherever it lies and whatever numbers are drawn, if it may go
deep enough. -/
def Config.Terminates (cfg : Config) (comp : α → α → Bool) (xs : List α) : Prop :=
  ∀ (p tmp : Ptr Arr) (oracle : ℕ) (inInputArray : Bool) (s : Sorter α)
    (m : Mem Arr (Slot α)) (c : ℕ → ℕ),
    p.arr ≠ tmp.arr → s.data.classifier.Empty → Has m p (xs.map .full) → Raw m tmp xs.length →
    ∃ fuel r, run (slots Arr α false)
    (sequential comp cfg fuel p xs.length tmp oracle inInputArray s) c m = .ok r

/-- A sound configuration sorts every range. -/
theorem Config.Sound.terminates (hcfg : cfg.Sound) (hc : StrictWeak comp) {xs : List α}
    (hbig : 2 * cfg.kBaseCaseSize < xs.length) : cfg.Terminates comp xs := by
  intro p tmp oracle inInputArray s m c harr hs hm htmp
  obtain ⟨s', c', m', hrun, -⟩ :=
    (sat_sequential hc hcfg (xs.length + 1) p tmp xs oracle inInputArray s m
    (Nat.lt_succ_self _) (.inr hbig) harr hs hm htmp).run c
  exact ⟨_, _, hrun⟩

/-- A range on which no depth is enough, if the numbers `c` are drawn. -/
theorem not_terminates {lt : α → α → Bool} {xs : List α} (c : ℕ → ℕ)
    (h : ∀ (fuel : ℕ) (s : Sorter α) (m : Mem Arr (Slot α))
      (r : Sorter α × (ℕ → ℕ) × Mem Arr (Slot α)), s.data.classifier.Empty →
      Has m ⟨.input, 0⟩ (xs.map .full) → Raw m ⟨.tmp, 0⟩ xs.length →
      run (slots Arr α false)
        (sequential lt cfg fuel ⟨.input, 0⟩ xs.length ⟨.tmp, 0⟩ 0 true s) c m ≠ .ok r) :
    ¬ cfg.Terminates lt xs := by
  intro hterm
  obtain ⟨fuel, r, hrun⟩ := hterm ⟨.input, 0⟩ ⟨.tmp, 0⟩ 0 true
    (Sorter.new (fun _ => 0) (fun _ => 0) 0) (Mem.ofList ⟨.input, 0⟩ xs fun _ => 0) c (by decide)
    (Sorter.new_empty _ _ _) (has_ofList _ _ _) (raw_ofList _ _ (by decide) _)
  exact h _ _ _ _ (Sorter.new_empty _ _ _) (has_ofList _ _ _) (raw_ofList _ _ (by decide) _) hrun

/-! ### Ranges that are not sorted -/

/-- Up to a size `sequential` sorts, if it is sound there and may go deep enough. -/
theorem sorts_below (hc : StrictWeak comp) {bound fuel : ℕ}
    (hgood : ∀ k < bound, 2 * cfg.kBaseCaseSize < k →
      cfg.Fits k ∧ (cfg.kSingleLevelThreshold < k → cfg.EqualOn k)) (hle : bound ≤ fuel) :
    Sorts (A := Arr) comp cfg false bound (sequential comp cfg fuel) := by
  have h : Sorts (A := Arr) comp cfg false (min fuel bound) _ :=
    sat_sequential_below hc (fun k hk hk' => (hgood k hk hk').1)
      (fun k hk hk' => (hgood k hk hk').2) fuel
  rwa [min_eq_right hle] at h

/-- A range as small as its sample. -/
theorem not_terminates_of_le_numSamples {n : ℕ} (hbig : 2 * cfg.kBaseCaseSize < n)
    (hle : n ≤ cfg.numSamples n) :
    ¬ cfg.Terminates (fun a b : ℕ => decide (a < b)) (List.replicate n 0) := by
  refine not_terminates (fun _ => 0) fun fuel s m r _ _ _ => ?_
  rw [List.length_replicate]
  exact not_returns_of_le_numSamples hbig hle fuel r

/-- A range of equal elements, if a single splitter does not switch equality buckets on. -/
theorem not_terminates_replicate {n : ℕ} (hfits : cfg.Fits n) (hbig : 2 * cfg.kBaseCaseSize < n)
    (hlevel : cfg.kSingleLevelThreshold < n) (hoff : ¬ cfg.EqualOn n)
    (hgood : ∀ k ≤ cfg.numSamples n, 2 * cfg.kBaseCaseSize < k →
      cfg.Fits k ∧ (cfg.kSingleLevelThreshold < k → cfg.EqualOn k)) :
    ¬ cfg.Terminates (fun a b : ℕ => decide (a < b)) (List.replicate n 0) := by
  have hc := StrictWeak.of_linearOrder ℕ
  have hlen : (List.replicate n 0).length = n := List.length_replicate
  refine not_terminates (fun _ => 0) fun fuel s m r hs hm htmp => ?_
  rw [hlen] at htmp ⊢
  refine not_returns_of_equal hc hfits hbig hlevel hoff (fun fuel hle => sorts_below hc
    (fun k hk => hgood k (Nat.le_of_lt_succ hk)) (hfits.sample_lt.trans_le hle)) fuel hlen
    (fun x hx y hy => ?_) (by decide) hs hm htmp r
  rw [List.eq_of_mem_replicate hx, List.eq_of_mem_replicate hy]
  exact hc.irrefl 0

/-- A crowded range, if its 512 buckets share bytes. -/
theorem not_terminates_crowded {n : ℕ} (hcollides : cfg.Collides n)
    (hbig : 2 * cfg.kBaseCaseSize < n)
    (hgood : ∀ k < n, 2 * cfg.kBaseCaseSize < k →
      cfg.Fits k ∧ (cfg.kSingleLevelThreshold < k → cfg.EqualOn k)) :
    ¬ cfg.Terminates (fun a b : ℕ => decide (a < b)) (crowded (cfg.step n) n) := by
  refine not_terminates (fun _ => 0) fun fuel s m r hs hm htmp => ?_
  rw [length_crowded] at htmp ⊢
  exact not_returns_of_crowded hcollides hbig
    (fun fuel => sorts_below (StrictWeak.of_linearOrder ℕ) hgood) fuel (by decide) hs hm htmp r

/-! ### Eight bits of buckets -/

section
variable (hlog : cfg.kLogBuckets = 8) (hB : 1 ≤ cfg.kBaseCaseSize)
  (hsmall : cfg.kBaseCaseSize < 2 ^ 47)
include hlog hB hsmall

/-- So many buckets are for large ranges only. -/
theorem Config.le_of_logBuckets_eq {n : ℕ} (h : cfg.logBuckets n = 8) :
    256 * cfg.kBaseCaseSize ≤ n := by
  have hone := cfg.kSingleLevelThreshold_eq (by rw [hlog]; omega)
  rw [hlog] at hone
  rcases Nat.lt_or_ge cfg.kSingleLevelThreshold n with hlt | hle
  · omega
  · rw [Config.logBuckets, if_pos hle] at h
    have hpow := two_pow_log2_le (n := n / cfg.kBaseCaseSize) fun h0 => by
      rw [h0, show log2 0 = 0 from rfl] at h
      omega
    rw [show log2 (n / cfg.kBaseCaseSize) = 8 by omega, Nat.le_div_iff_mul_le hB] at hpow
    exact hpow

/-- Just above the first threshold there are 16 buckets. -/
theorem Config.logBuckets_eq_four : cfg.logBuckets (256 * cfg.kBaseCaseSize + 1) = 4 := by
  have hone := cfg.kSingleLevelThreshold_eq (by rw [hlog]; omega)
  have htwo := cfg.kTwoLevelThreshold_eq (by rw [hlog]; omega)
  rw [hlog] at hone htwo
  set q := (256 * cfg.kBaseCaseSize + 1) / cfg.kBaseCaseSize with hq
  have hle : 2 ^ 8 ≤ q := (Nat.le_div_iff_mul_le hB).mpr (by omega)
  have hlt : q < 2 ^ 9 := Nat.div_lt_of_lt_mul (by omega)
  have height : 8 ≤ log2 q := le_log2 hle
  have hnine : log2 q < 9 := (Nat.log2_lt (by omega)).mpr hlt
  rw [Config.logBuckets, ← hq, if_neg (by omega), if_pos (by omega)]
  omega

/-- **Sixteen buckets are too few for one splitter to leave 127 duplicates**, so equal elements are
not sorted. -/
theorem not_terminates_sixteen (hcfg : cfg.Admitted)
    (hthreshold : cfg.kEqualBucketsThreshold = 127)
    (hgood : ∀ k < 256 * cfg.kBaseCaseSize, 2 * cfg.kBaseCaseSize < k →
      cfg.Fits k ∧ (cfg.kSingleLevelThreshold < k → cfg.EqualOn k)) :
    ¬ cfg.Terminates (fun a b : ℕ => decide (a < b))
      (List.replicate (256 * cfg.kBaseCaseSize + 1) 0) := by
  have hone := cfg.kSingleLevelThreshold_eq (by rw [hlog]; omega)
  rw [hlog] at hone
  have hfour := Config.logBuckets_eq_four hlog hB hsmall
  have hunroll := hcfg.unroll_le
  have hequal := Bool.toNat_le cfg.kAllowEqualBuckets
  rcases Nat.lt_or_ge (cfg.numSamples (256 * cfg.kBaseCaseSize + 1))
    (256 * cfg.kBaseCaseSize + 1) with hsample | hlarge
  · refine not_terminates_replicate ⟨hcfg.unroll_pos, by omega, by omega, by omega,
      .inl (by omega), hsample⟩ (by omega) (by omega) (fun hon => ?_) fun k hk => hgood k ?_
    · have := hon.2
      rw [hfour, hthreshold] at this
      omega
    · -- the number of samples is odd
      rw [Config.numSamples, hfour] at hsample hk
      omega
  · exact not_terminates_of_le_numSamples (by omega) hlarge

end

/-! ### Unsound configurations -/

/-- A size at which a configuration is not sound. -/
def Config.Bad (cfg : Config) (n : ℕ) : Prop :=
  2 * cfg.kBaseCaseSize < n ∧ ¬ (cfg.Fits n ∧ (cfg.kSingleLevelThreshold < n → cfg.EqualOn n))

theorem Config.exists_bad (h : ¬ cfg.Sound) : ∃ n, cfg.Bad n := by
  by_contra hnone
  have hgood : ∀ n, 2 * cfg.kBaseCaseSize < n →
      cfg.Fits n ∧ (cfg.kSingleLevelThreshold < n → cfg.EqualOn n) := fun n hn => by
    by_contra hbad
    exact hnone ⟨n, hn, hbad⟩
  exact h ⟨fun n hn => (hgood n hn).1, fun n hn => (hgood n hn).2⟩

/-- What is wrong there: the sample is too large, two buckets share a byte, or a single splitter
does not switch equality buckets on. With a threshold of 127 the buckets that share a byte lie next
to each other. -/
theorem Config.Bad.cases {n : ℕ} (h : cfg.Bad n) (hcfg : cfg.Admitted) :
    n ≤ cfg.numSamples n ∨ cfg.Collides n ∨
      (cfg.Fits n ∧ cfg.kSingleLevelThreshold < n ∧ ¬ cfg.EqualOn n) ∨
      cfg.logBuckets n = 8 ∧ cfg.kLogBuckets = 8 ∧ cfg.kEqualBucketsThreshold = 127 := by
  obtain ⟨hbig, hbad⟩ := h
  have hlog := cfg.logBuckets_mem hcfg.log_pos n
  have hlog' := hcfg.log_le
  have hunroll := hcfg.unroll_le
  rcases Nat.lt_or_ge (cfg.numSamples n) n with hsample | hlarge
  · by_cases hbyte : cfg.logBuckets n + cfg.kAllowEqualBuckets.toNat ≤ 8 ∨
      128 ≤ cfg.kEqualBucketsThreshold
    · have hfits : cfg.Fits n := ⟨hcfg.unroll_pos, by omega, hlog.1, by omega, hbyte, hsample⟩
      exact .inr (.inr (.inl ⟨hfits, Classical.not_imp.mp fun h => hbad ⟨hfits, h⟩⟩))
    · obtain ⟨hnine, hfew⟩ := not_or.mp hbyte
      have hallow : cfg.kAllowEqualBuckets = true := by
        cases h : cfg.kAllowEqualBuckets with
        | true => rfl
        | false =>
          rw [h, Bool.toNat_false] at hnine
          omega
      rw [hallow, Bool.toNat_true] at hnine
      rcases (show cfg.kEqualBucketsThreshold ≤ 127 by omega).lt_or_eq with hlt | heq
      · exact .inr (.inl ⟨by omega, hallow, by omega, hcfg.unroll_pos, by omega, hsample⟩)
      · exact .inr (.inr (.inr ⟨by omega, by omega, heq⟩))
  · exact .inl hlarge

/-- **With an unsound configuration, some range of numbers is not sorted.** -/
theorem exists_not_terminates (hcfg : cfg.Admitted)
    (hthreshold : cfg.kLogBuckets = 8 → cfg.kEqualBucketsThreshold = 127 →
      cfg.kBaseCaseSize < 2 ^ 47) (hbad : ¬ cfg.Sound) :
    ∃ ys : List ℕ, 2 * cfg.kBaseCaseSize < ys.length ∧
      ¬ cfg.Terminates (fun a b => decide (a < b)) ys := by
  classical
  -- the smallest bad size: shorter ranges are sorted
  have hex := Config.exists_bad hbad
  have hbad := Nat.find_spec hex
  set n := Nat.find hex with hn
  have hgood : ∀ k < n, 2 * cfg.kBaseCaseSize < k →
      cfg.Fits k ∧ (cfg.kSingleLevelThreshold < k → cfg.EqualOn k) := fun k hk hk' => by
    by_contra hbad'
    exact Nat.find_min hex hk ⟨hk', hbad'⟩
  have hbig := hbad.1
  rcases hbad.cases hcfg with hlarge | hcollides | ⟨hfits, hlevel, hoff⟩ | ⟨height, hlog, heq⟩
  · exact ⟨_, hbig.trans_eq List.length_replicate.symm,
      not_terminates_of_le_numSamples hbig hlarge⟩
  · exact ⟨_, hbig.trans_eq (length_crowded (cfg.step n) n).symm,
      not_terminates_crowded hcollides hbig hgood⟩
  · exact ⟨_, hbig.trans_eq List.length_replicate.symm, not_terminates_replicate hfits hbig hlevel
      hoff fun k hk => hgood k (hk.trans_lt hfits.sample_lt)⟩
  · have hB := hcfg.unroll_pos.trans hcfg.unroll_le
    have hsmall := hthreshold hlog heq
    refine ⟨_, ?_, not_terminates_sixteen hlog hB hsmall hcfg heq fun k hk => hgood k
      (hk.trans_le (Config.le_of_logBuckets_eq hlog hB hsmall height))⟩
    rw [List.length_replicate]
    omega

/-! ### Progress and termination -/

end Ps4o
