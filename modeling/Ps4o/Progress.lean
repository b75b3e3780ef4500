import Ps4o.Partitioning

/-!
# Progress

When partitioning leaves a bucket as large as the range, so that the recursion makes no
progress.

## What is proved

* `stuck_iff` — a bucket that is not an equality bucket holds the whole range just when only
  one splitter has been chosen, there are no equality buckets, and the splitter is a maximum.
* `size_lt_of_equalOn` — when a single splitter switches equality buckets on, every other
  bucket is smaller than the range.
-/

namespace Ps4o

open Ps4o.Program Ps4o.Storage Ps4o.Order

variable {A α : Type} {comp : α → α → Bool}

/-- An equality bucket. -/
def Layout.IsEqualBucket (L : Layout comp A) (b : ℕ) : Prop :=
  L.useEqualBuckets = true ∧ b % 2 = 1 ∧ b < L.numBuckets - 2

/-- A bucket with all elements in it. -/
theorem Layout.size_eq_iff (L : Layout comp A) (b : ℕ) : L.size b = L.n ↔ ∀ k ∈ L.keys, b = k := by
  rw [Layout.size, Layout.n, ← L.length_eq, List.count_eq_length]

theorem Layout.size_le (L : Layout comp A) (b : ℕ) : L.size b ≤ L.n := by
  rw [Layout.n, ← L.length_eq]
  exact List.count_le_length

section
variable (hc : StrictWeak comp) {cfg : Config} {n : ℕ} {sample : List α}
  (h : cfg.Sample comp n sample) {p tmp : Ptr A} (harr : p.arr ≠ tmp.arr) (rest : List α)

/-- The bucket of an element of the range. -/
theorem Config.key_mem {x : α} (hx : x ∈ sample ++ rest) :
    Classifier.bucketOf comp (cfg.equalFrom comp n sample) (cfg.splittersFrom comp n sample) x ∈
      (cfg.layout hc h harr rest).keys :=
  List.mem_map_of_mem hx

include hc h in
/-- Two splitters chosen lie in different buckets. -/
theorem Config.bucketOf_ne {s t : α} {ds : List α}
    (hds : cfg.chosenFrom comp n sample = s :: t :: ds) :
    Classifier.bucketOf comp (cfg.equalFrom comp n sample) (cfg.splittersFrom comp n sample) s <
      Classifier.bucketOf comp (cfg.equalFrom comp n sample)
        (cfg.splittersFrom comp n sample) t := by
  obtain ⟨z, hz, -⟩ := h.splitters_eq hc
  have hsorted := h.splitters_sorted hc
  set splitters := cfg.splittersFrom comp n sample with hsp
  have h0 : splitters[0]? = some s := by rw [hz, hds]; rfl
  obtain ⟨hlt, h0⟩ := List.getElem?_eq_some_iff.mp h0
  have hst : comp s t = true := by
    have := (h.chosen hc).increasing
    rw [hds] at this
    exact (List.pairwise_cons.mp this).1 t (by simp)
  have hs : Classifier.lowerBound comp splitters s = 0 := by
    have := (Classifier.lt_lowerBound_iff hc hsorted s hlt).not.mpr (by rw [h0, hc.irrefl]; simp)
    omega
  have ht : 0 < Classifier.lowerBound comp splitters t := by
    rw [Classifier.lt_lowerBound_iff hc hsorted t hlt, h0, hst]
  have hle := Bool.toNat_le ((splitters[0]?).elim true fun r => !comp s r)
  simp only [Classifier.bucketOf, hs]
  split <;> omega

/-- A single splitter makes two leaves. -/
theorem Config.leavesFrom_singleton {s : α} (hds : cfg.chosenFrom comp n sample = [s]) :
    cfg.leavesFrom comp n sample = 1 := by
  rw [Config.leavesFrom, hds]
  rfl

include hc h in
theorem Config.splittersFrom_singleton {s : α} (hds : cfg.chosenFrom comp n sample = [s]) :
    cfg.splittersFrom comp n sample = [s] := by
  obtain ⟨z, hz, -⟩ := h.splitters_eq hc
  rw [hz, hds, Config.leavesFrom_singleton hds]
  rfl

/-- **When a bucket holds everything.** -/
theorem stuck_iff (hlen : (sample ++ rest).length = n) :
    (∃ b < (cfg.layout hc h harr rest).numBuckets, ¬ (cfg.layout hc h harr rest).IsEqualBucket b ∧
        (cfg.layout hc h harr rest).size b = n) ↔
      ∃ s, cfg.chosenFrom comp n sample = [s] ∧ cfg.equalFrom comp n sample = false ∧
        ∀ x ∈ sample ++ rest, comp s x = false := by
  have hmem : ∀ x ∈ cfg.chosenFrom comp n sample, x ∈ sample ++ rest := fun x hx =>
    List.mem_append_left _ (mem_of_mem_picks ((h.chosen hc).subset x hx))
  constructor
  · rintro ⟨b, hb, hne, hsize⟩
    have hall := ((cfg.layout hc h harr rest).size_eq_iff b).mp (hsize.trans hlen.symm)
    have hkey : ∀ x ∈ sample ++ rest,
        b = Classifier.bucketOf comp (cfg.equalFrom comp n sample)
        (cfg.splittersFrom comp n sample) x :=
      fun x hx => hall _ (Config.key_mem hc h harr rest hx)
    match hds : cfg.chosenFrom comp n sample with
    | [] => exact absurd hds (h.chosen_ne_nil hc)
    | s :: t :: ds =>
      have hlt := Config.bucketOf_ne hc h hds
      rw [← hkey s (hmem s (by simp [hds])), ← hkey t (hmem t (by simp [hds]))] at hlt
      exact absurd hlt (lt_irrefl b)
    | [s] =>
      have hsp := Config.splittersFrom_singleton hc h hds
      have hs := hkey s (hmem s (by simp [hds]))
      have heq : cfg.equalFrom comp n sample = false := by
        by_contra heq
        rw [Bool.not_eq_false] at heq
        -- the splitter itself is in the equality bucket
        refine hne ⟨heq, ?_, ?_⟩
        · rw [hs, heq, hsp]
          simp [Classifier.bucketOf, Classifier.lowerBound, hc.irrefl]
        · rw [hs, heq, hsp, show (cfg.layout hc h harr rest).numBuckets =
            2 ^ cfg.leavesFrom comp n sample * (1 + (cfg.equalFrom comp n sample).toNat) from rfl,
            Config.leavesFrom_singleton hds, heq]
          simp [Classifier.bucketOf, Classifier.lowerBound, hc.irrefl]
      refine ⟨s, rfl, heq, fun x hx => ?_⟩
      have hx := (hkey x hx).symm.trans hs
      rw [heq, hsp] at hx
      cases hsx : comp s x with
      | false => rfl
      | true => simp [Classifier.bucketOf, Classifier.lowerBound, hsx, hc.irrefl] at hx
  · rintro ⟨s, hds, heq, hmax⟩
    have hsp := Config.splittersFrom_singleton hc h hds
    refine ⟨0, ?_, fun hb => Bool.false_ne_true (heq.symm.trans hb.1), ?_⟩
    · exact Nat.mul_pos (Nat.two_pow_pos _) (by omega)
    · refine (((cfg.layout hc h harr rest).size_eq_iff 0).mpr fun k hk => ?_).trans hlen
      obtain ⟨x, hx, rfl⟩ := List.mem_map.mp hk
      rw [heq, hsp]
      simp [Classifier.bucketOf, Classifier.lowerBound, hmax x hx]

/-- A single splitter is enough to switch equality buckets on. -/
def Config.EqualOn (cfg : Config) (n : ℕ) : Prop :=
  cfg.kAllowEqualBuckets = true ∧ cfg.kEqualBucketsThreshold ≤ ((2 ^ cfg.logBuckets n : ℕ) : ℤ) - 2

theorem Config.equalFrom_singleton {s : α} (hds : cfg.chosenFrom comp n sample = [s]) :
    cfg.equalFrom comp n sample = true ↔ cfg.EqualOn n := by
  rw [Config.equalFrom, hds, Config.EqualOn, Bool.and_eq_true,
    decide_eq_true_iff, List.length_singleton,
    show ((2 ^ cfg.logBuckets n : ℕ) : ℤ) - 1 - (1 : ℕ) = ((2 ^ cfg.logBuckets n : ℕ) : ℤ) - 2 by
      omega]

/-- **Where equality buckets are on, every other bucket is smaller than the range.** -/
theorem size_lt_of_equalOn (hlen : (sample ++ rest).length = n) (hon : cfg.EqualOn n) {b : ℕ}
    (hb : b < (cfg.layout hc h harr rest).numBuckets)
    (hne : ¬ (cfg.layout hc h harr rest).IsEqualBucket b) :
    (cfg.layout hc h harr rest).size b < n := by
  refine lt_of_le_of_ne (((cfg.layout hc h harr rest).size_le b).trans hlen.le) fun heq => ?_
  obtain ⟨s, hds, hoff, -⟩ := (stuck_iff hc h harr rest hlen).mp ⟨b, hb, hne, heq⟩
  rw [(Config.equalFrom_singleton hds).mpr hon] at hoff
  cases hoff

end

/-! ### Ranges with many maxima -/

section

/-- How many elements of a range are as large as any. -/
def maxima (comp : α → α → Bool) (xs : List α) : ℕ := xs.countP fun x => xs.all fun y => !comp x y

/-- The recursion makes progress: the sample, which is sorted first, is shorter than the range, and
where there is a further level, so is every bucket that the recursion goes on with, whatever sample
is drawn: those that are neither equality buckets nor small. -/
def Config.Progress (cfg : Config) (comp : α → α → Bool) (xs : List α) : Prop :=
  cfg.numSamples xs.length < xs.length ∧ (cfg.kSingleLevelThreshold < xs.length →
  ∀ sample rest, (sample ++ rest).Perm xs → cfg.Sample comp xs.length sample →
    let useEqualBuckets := cfg.equalFrom comp xs.length sample
    let numBuckets := 2 ^ cfg.leavesFrom comp xs.length sample * (1 + useEqualBuckets.toNat)
    let keys := keysOf comp useEqualBuckets (cfg.splittersFrom comp xs.length sample)
      (sample ++ rest)
    ∀ b < numBuckets, ¬ (useEqualBuckets = true ∧ b % 2 = 1 ∧ b < numBuckets - 2) →
      2 * cfg.kBaseCaseSize < keys.count b → keys.count b < xs.length)

theorem maxima_perm {xs ys : List α} (h : xs.Perm ys) : maxima comp xs = maxima comp ys := by
  rw [maxima, h.countP_eq]
  refine List.countP_congr fun x _ => ?_
  simp only [List.all_eq_true]
  exact forall_congr' fun y => imp_congr_left h.mem_iff

/-- The first element looked at is chosen. -/
theorem chosen_cons (x : α) (picked : List α) : ∃ ds, chosen comp (x :: picked) = x :: ds := by
  induction picked using List.reverseRecOn with
  | nil => exact ⟨[], rfl⟩
  | append_singleton picked y ih =>
    obtain ⟨ds, hds⟩ := ih
    rw [← List.cons_append, chosen_concat, hds, skipDuplicates]
    split
    · exact ⟨ds ++ [y], rfl⟩
    · exact ⟨ds, rfl⟩

/-- If no element looked at is greater than the first one, it is the only one chosen. -/
theorem chosen_eq_singleton {x : α} {picked : List α} (h : ∀ y ∈ picked, comp x y = false) :
    chosen comp (x :: picked) = [x] := by
  induction picked using List.reverseRecOn with
  | nil => rfl
  | append_singleton picked y ih =>
    rw [← List.cons_append, chosen_concat, ih fun z hz => h z (List.mem_append_left _ hz),
      skipDuplicates, if_neg]
    simpa using h y (by simp)

variable {cfg : Config} {n : ℕ} {sample : List α}

/-- The first element looked at, and the others, which are behind it in the sample. -/
theorem Config.Sample.exists_picks (h : cfg.Sample comp n sample) :
    ∃ x tail, sample[cfg.step n - 1]? = some x ∧
    picks (cfg.step n) sample (2 ^ cfg.logBuckets n - 1) = x :: tail ∧
      ∀ y ∈ tail, ∃ i, cfg.step n - 1 ≤ i ∧ sample[i]? = some y := by
  have h2 := h.two_le
  have hlt : cfg.step n - 1 + 0 * cfg.step n < sample.length := by
    rw [h.length]
    exact Config.pick_lt (by omega)
  rw [Nat.zero_mul, Nat.add_zero] at hlt
  obtain ⟨k, hk⟩ : ∃ k, 2 ^ cfg.logBuckets n - 1 = k + 1 := ⟨2 ^ cfg.logBuckets n - 2, by omega⟩
  refine ⟨_, ((List.range k).map Nat.succ).filterMap fun i =>
    sample[cfg.step n - 1 + i * cfg.step n]?, List.getElem?_eq_getElem hlt, ?_, fun y hy => ?_⟩
  · rw [hk, picks, List.range_succ_eq_map, List.filterMap_cons_some]
    rw [Nat.zero_mul, Nat.add_zero]
    exact List.getElem?_eq_getElem hlt
  · obtain ⟨i, -, hi⟩ := List.mem_filterMap.mp hy
    exact ⟨_, Nat.le_add_right _ _, hi⟩

/-- If only one splitter has been chosen, and it is a maximum of the range, then so is the rest of
the sample from there on. -/
theorem Config.Sample.le_maxima (h : cfg.Sample comp n sample) (hc : StrictWeak comp)
    {rest : List α} {s : α} (hds : cfg.chosenFrom comp n sample = [s])
    (hmax : ∀ x ∈ sample ++ rest, comp s x = false) :
    cfg.step n * (2 ^ cfg.logBuckets n - 1) ≤ maxima comp (sample ++ rest) := by
  obtain ⟨x, tail, hx, hpicks, -⟩ := h.exists_picks
  obtain ⟨ds, hds'⟩ := @chosen_cons _ comp x tail
  obtain rfl : x = s := by
    rw [Config.chosenFrom, hpicks, hds'] at hds
    exact (List.cons.inj hds).1
  obtain ⟨hlt, hx⟩ := List.getElem?_eq_some_iff.mp hx
  have hall : ∀ y ∈ sample.drop (cfg.step n - 1), (sample ++ rest).all
      (fun z => !comp y z) = true := by
    intro y hy
    obtain ⟨j, hj, rfl⟩ := List.mem_iff_getElem.mp hy
    rw [List.length_drop] at hj
    rw [List.getElem_drop]
    have hle := Classifier.sorted_getElem hc h.sorted
      (show cfg.step n - 1 ≤ cfg.step n - 1 + j by omega) (by omega)
    rw [List.get_eq_getElem, hx] at hle
    simp only [List.all_eq_true, Bool.not_eq_true']
    exact fun z hz => hc.le_trans (hmax z hz) hle
  calc cfg.step n * (2 ^ cfg.logBuckets n - 1) = (sample.drop (cfg.step n - 1)).length := by
        have := h.two_le
        have : 1 ≤ cfg.step n := le_max_left _ _
        rw [List.length_drop, h.length, Config.numSamples, Nat.mul_sub_one]
        have := Nat.le_mul_of_pos_right (cfg.step n) (Nat.two_pow_pos (cfg.logBuckets n))
        omega
    _ = (sample.drop (cfg.step n - 1)).countP fun y => (sample ++ rest).all fun z => !comp y z :=
        (List.countP_eq_length.mpr hall).symm
    _ ≤ maxima comp (sample ++ rest) :=
        ((List.drop_sublist _ _).trans (List.sublist_append_left _ _)).countP_le

/-- A range with many maxima has a sample that consists of them, but for those elements that are not
looked at. -/
theorem exists_sample_of_maxima (hc : StrictWeak comp) {xs : List α}
    (hlog : 1 ≤ cfg.logBuckets xs.length) (hlen : cfg.numSamples xs.length ≤ xs.length)
    (hmany : cfg.step xs.length * (2 ^ cfg.logBuckets xs.length - 1) ≤ maxima comp xs) :
    ∃ sample rest, (sample ++ rest).Perm xs ∧ cfg.Sample comp xs.length sample ∧
      ∃ s, cfg.chosenFrom comp xs.length sample = [s] ∧ ∀ x ∈ sample ++ rest, comp s x = false := by
  set isMax : α → Bool := fun x => xs.all fun y => !comp x y with hisMax
  have hmax : ∀ x, isMax x = true ↔ ∀ y ∈ xs, comp x y = false := fun x => by
    simp only [hisMax, List.all_eq_true, Bool.not_eq_true']
  set maxes := xs.filter isMax with hmaxes
  set others := xs.filter fun x => !isMax x with hothers
  have hperm : (maxes ++ others).Perm xs := List.filter_append_perm isMax xs
  have hmem : ∀ x ∈ maxes, ∀ y ∈ xs, comp x y = false :=
    fun x hx => (hmax x).mp (List.mem_filter.mp hx).2
  have hsum : maxes.length + others.length = xs.length := by
    rw [← List.length_append, hperm.length_eq]
  have hmany' : cfg.step xs.length * (2 ^ cfg.logBuckets xs.length - 1) ≤ maxes.length := by
    rwa [hmaxes, ← List.countP_eq_length_filter]
  have hnum : cfg.numSamples xs.length = cfg.step xs.length * (2 ^ cfg.logBuckets xs.length - 1) +
      (cfg.step xs.length - 1) := by
    have : 1 ≤ cfg.step xs.length := le_max_left _ _
    have := Nat.le_mul_of_pos_right (cfg.step xs.length)
      (Nat.two_pow_pos (cfg.logBuckets xs.length))
    rw [Config.numSamples, Nat.mul_sub_one]
    omega
  -- as many others as are not looked at
  set d := min (cfg.step xs.length - 1) others.length with hd
  set e := cfg.numSamples xs.length - d with he
  have hle : e ≤ maxes.length := by omega
  have hlow : (insertionSorted comp (others.take d)).length = d := by
    rw [(insertionSorted_perm comp _).length_eq, List.length_take]
    omega
  have hsub : ∀ x ∈ insertionSorted comp (others.take d), x ∈ xs := fun x hx =>
    (List.mem_filter.mp (List.mem_of_mem_take ((insertionSorted_perm comp _).mem_iff.mp hx))).1
  have hsample : cfg.Sample comp xs.length
      (insertionSorted comp (others.take d) ++ maxes.take e) := by
    refine ⟨List.pairwise_append.mpr ⟨insertionSorted_sorted hc _, ?_, fun a ha b hb => ?_⟩,
      ?_, hlog⟩
    · refine List.Pairwise.imp_of_mem (R := fun _ _ => True) (fun {a b} ha hb _ => ?_)
        (List.pairwise_of_forall fun _ _ => trivial)
      exact hmem b (List.mem_of_mem_take hb) a (List.mem_filter.mp (List.mem_of_mem_take ha)).1
    · exact hmem b (List.mem_of_mem_take hb) a (hsub a ha)
    · rw [List.length_append, hlow, List.length_take]
      omega
  have hpermAll : (insertionSorted comp (others.take d) ++ maxes.take e ++
      (others.drop d ++ maxes.drop e)).Perm xs := by
    have hsplit : (others.take d ++ others.drop d ++ (maxes.take e ++ maxes.drop e)).Perm xs := by
      rw [List.take_append_drop, List.take_append_drop]
      exact List.perm_append_comm.trans hperm
    refine List.Perm.trans ?_ hsplit
    rw [List.append_assoc, List.append_assoc]
    refine (insertionSorted_perm comp _).append ?_
    rw [← List.append_assoc, ← List.append_assoc]
    exact List.perm_append_comm.append_right _
  refine ⟨_, _, hpermAll, hsample, ?_⟩
  obtain ⟨x, tail, hx, hpicks, htail⟩ := hsample.exists_picks
  have hhigh : ∀ i y, cfg.step xs.length - 1 ≤ i →
      (insertionSorted comp (others.take d) ++ maxes.take e)[i]? = some y →
      ∀ z ∈ xs, comp y z = false := by
    intro i y hi hy
    rw [List.getElem?_append_right (by omega)] at hy
    exact hmem y (List.mem_of_mem_take (List.mem_of_getElem? hy))
  have hxmax := hhigh _ x le_rfl hx
  refine ⟨x, ?_, fun y hy => hxmax y (hpermAll.mem_iff.mp hy)⟩
  rw [Config.chosenFrom, hpicks]
  refine chosen_eq_singleton fun y hy => hxmax y ?_
  obtain ⟨i, -, hy⟩ := htail y hy
  exact hpermAll.mem_iff.mp (List.mem_append_left _ (List.mem_of_getElem? hy))

/-- **The recursion makes progress on a range just when a sample is shorter than the range, and,
where there is a further level, a single splitter switches equality buckets on or there are too few
maxima** for all elements looked at to be one. -/
theorem progress_iff (hc : StrictWeak comp) (hcfg : cfg.Admitted) {xs : List α}
    (hbig : 2 * cfg.kBaseCaseSize < xs.length) :
    cfg.Progress comp xs ↔ cfg.numSamples xs.length < xs.length ∧
      (cfg.kSingleLevelThreshold < xs.length → cfg.EqualOn xs.length ∨
        maxima comp xs < cfg.step xs.length * (2 ^ cfg.logBuckets xs.length - 1)) := by
  have hlog := (cfg.logBuckets_mem hcfg.log_pos xs.length).1
  have harr : (⟨.input, 0⟩ : Ptr Arr).arr ≠ (⟨.tmp, 0⟩ : Ptr Arr).arr := by decide
  refine and_congr_right fun hlen => imp_congr_right fun _ => ⟨fun hprog => ?_, fun hcond => ?_⟩
  · by_contra hnot
    obtain ⟨hoff, hmany⟩ := not_or.mp hnot
    obtain ⟨sample, rest, hperm, hsample, s, hds, hmax⟩ :=
      exists_sample_of_maxima hc hlog hlen.le (Nat.le_of_not_lt hmany)
    have heq : cfg.equalFrom comp xs.length sample = false := by
      rw [← Bool.not_eq_true, Config.equalFrom_singleton hds]
      exact hoff
    obtain ⟨b, hb, hne, hsize⟩ := (stuck_iff hc hsample harr rest hperm.length_eq).mpr
      ⟨s, hds, heq, hmax⟩
    have hlt := hprog sample rest hperm hsample b hb hne (hbig.trans_eq hsize.symm)
    exact absurd (hsize.symm.trans_lt hlt) (lt_irrefl _)
  · intro sample rest hperm hsample useEqualBuckets numBuckets keys b hb hne hlarge
    have hle : (cfg.layout hc hsample harr rest).size b ≤ xs.length :=
      ((cfg.layout hc hsample harr rest).size_le b).trans hperm.length_eq.le
    refine lt_of_le_of_ne hle fun hsize => ?_
    obtain ⟨s, hds, heq, hmax⟩ := (stuck_iff hc hsample harr rest hperm.length_eq).mp
      ⟨b, hb, hne, hsize⟩
    rcases hcond with hon | hfew
    · rw [(Config.equalFrom_singleton hds).mpr hon] at heq
      cases heq
    · have := hsample.le_maxima hc hds hmax
      rw [maxima_perm hperm] at this
      omega

end

end Ps4o
