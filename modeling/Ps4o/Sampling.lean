import Ps4o.LocalClassification

/-!
# Sampling

Drawing a sample, sorting it, and building a classifier from it (`sampling.hpp`).

The sort of the sample is a parameter: it is `sequential` again, on fewer elements, in the
same sorter.
-/

namespace Ps4o

open Ps4o.Program Ps4o.Storage Ps4o.Order Ps4o.Arithmetic

variable {A α : Type}

/-- Selects a random sample in-place. -/
def selectSample (p : Ptr A) (n numSamples : ℕ) : Act A α Unit :=
  Prog.loop (fun k _ =>
    if n - k = 0 then
      undefined
    else do
      let i ← draw (n - k - 1)
      swapAt (p + k) (p + k + i)) numSamples ()

/-- How many elements of `n` are taken between two splitters. -/
def Config.step (cfg : Config) (n : ℕ) : ℕ := max 1 ⌊cfg.oversamplingFactor n⌋₊

theorem Config.one_le_step (cfg : Config) (n : ℕ) : 1 ≤ cfg.step n := le_max_left _ _

/-- The size of the sample of `n` elements. -/
def Config.numSamples (cfg : Config) (n : ℕ) : ℕ := cfg.step n * 2 ^ cfg.logBuckets n - 1

variable (comp : α → α → Bool)

/-- Chooses the splitters from a sorted sample, skipping duplicates. Answers the index of the
last one. -/
def chooseSplitters (p : Ptr A) (step numBuckets : ℕ) (c : Classifier α) :
    Act A α (ℕ × Classifier α) := do
  let splitter ← readAt (p + (step - 1))
  let c ← Prog.ofOption (c.newSorted 0 splitter)
  Prog.loop (fun i (last, c) => do
    let previous ← Prog.ofOption (c.sortedSplitter last)
    let splitter ← readAt (p + (step - 1 + (i + 1) * step))
    if comp previous splitter then
      let splitter ← readAt (p + (step - 1 + (i + 1) * step))
      let c ← Prog.ofOption (c.newSorted (last + 1) splitter)
      pure (last + 1, c)
    else
      pure (last, c)) (numBuckets - 2) (0, c)

/-- Fills the array of splitters up to `numBuckets - 1` of them with the element at `p`. -/
def fillSplitters (p : Ptr A) (diffSplitters numBuckets : ℕ) (c : Classifier α) :
    Act A α (Classifier α) :=
  Prog.loop (fun i c => do
    let splitter ← readAt p
    Prog.ofOption (c.newSorted (diffSplitters + i) splitter)) (numBuckets - 1 - diffSplitters) c

/-- What `buildClassifier` does once the sample of the `n` elements from `p` on is sorted: chooses
the splitters and fills the classifier. Answers it, how many buckets are used, and whether there
are equality buckets. -/
def buildFromSample (cfg : Config) (p : Ptr A) (n : ℕ) (c : Classifier α) :
    Act A α (Classifier α × ℕ × Bool) := do
  let numBuckets := 2 ^ cfg.logBuckets n
  let step := cfg.step n
  -- Choose the splitters
  let (last, c) ← chooseSplitters comp p step numBuckets c
  -- Check for duplicate splitters
  let diffSplitters := last + 1
  let useEqualBuckets : Bool := cfg.kAllowEqualBuckets &&
    decide (cfg.kEqualBucketsThreshold ≤ (numBuckets : ℤ) - 1 - diffSplitters)
  -- Fill the array to the next power of two
  let logBuckets := log2 diffSplitters + 1
  let c ← fillSplitters (p + (step - 1 + (numBuckets - 2) * step)) diffSplitters (2 ^ logBuckets) c
  -- Build the tree
  let c ← Prog.ofOption (c.build logBuckets)
  pure (c, 2 ^ logBuckets * (1 + useEqualBuckets.toNat), useEqualBuckets)

/-- Builds the classifier: samples the `n` elements from `p` on and sorts the sample with
`sort`, then fills the classifier that `classifier` finds. -/
def buildClassifier (cfg : Config)
    (sort : Ptr A → ℕ → Ptr A → ℕ → Bool → Sorter α → Act A α (Sorter α)) (p : Ptr A) (n : ℕ)
    (tmp : Ptr A) (oracle : ℕ) (classifier : Sorter α → Classifier α) (s : Sorter α) :
    Act A α (Sorter α × Classifier α × ℕ × Bool) := do
  -- Select the sample
  selectSample p n (cfg.numSamples n)
  -- Sort the sample
  let s ← sort p (cfg.numSamples n) tmp oracle true s
  let r ← buildFromSample comp cfg p n (classifier s)
  pure (s, r)

/-! ### The splitters -/

/-- The elements of a sorted sample that are looked at as splitters: every `step`-th. -/
def picks (step : ℕ) (sample : List α) (k : ℕ) : List α :=
  (List.range k).filterMap fun i => sample[step - 1 + i * step]?

/-- Adding a splitter, unless it is a duplicate of the last one. -/
def skipDuplicates (splitters : List α) (splitter : α) : List α :=
  if splitters.getLast?.elim true fun previous => comp previous splitter then splitters ++
    [splitter] else splitters

/-- The splitters chosen. -/
def chosen (picked : List α) : List α := picked.foldl (skipDuplicates comp) []

/-- The splitters chosen from a sorted sample of `n` elements. -/
def Config.chosenFrom (cfg : Config) (n : ℕ) (sample : List α) : List α :=
  chosen comp (picks (cfg.step n) sample (2 ^ cfg.logBuckets n - 1))

/-- The logarithm of the number of leaves of the classifier built from a sorted sample. -/
def Config.leavesFrom (cfg : Config) (n : ℕ) (sample : List α) : ℕ :=
  log2 (cfg.chosenFrom comp n sample).length + 1

/-- All splitters: those chosen, and the last one looked at up to one less than a power of two. -/
def Config.splittersFrom (cfg : Config) (n : ℕ) (sample : List α) : List α :=
  let ds := cfg.chosenFrom comp n sample
  ds ++ (picks (cfg.step n) sample (2 ^ cfg.logBuckets n - 1)).getLast?.elim []
    (List.replicate (2 ^ cfg.leavesFrom comp n sample - 1 - ds.length))

/-- Whether there are equality buckets. -/
def Config.equalFrom (cfg : Config) (n : ℕ) (sample : List α) : Bool :=
  cfg.kAllowEqualBuckets &&
    decide (cfg.kEqualBucketsThreshold ≤
      ((2 ^ cfg.logBuckets n : ℕ) : ℤ) - 1 - (cfg.chosenFrom comp n sample).length)

section
variable {comp}

theorem picks_succ {step k : ℕ} {sample : List α} {x : α}
    (h : sample[step - 1 + k * step]? = some x) :
    picks step sample (k + 1) = picks step sample k ++ [x] := by
  simp [picks, List.range_succ, h]

theorem chosen_concat (picked : List α) (x : α) :
    chosen comp (picked ++ [x]) = skipDuplicates comp (chosen comp picked) x := by
  simp [chosen]

theorem mem_of_mem_picks {step k : ℕ} {sample : List α} {x : α} (h : x ∈ picks step sample k) :
    x ∈ sample := by
  obtain ⟨i, -, hi⟩ := List.mem_filterMap.mp h
  exact List.mem_of_getElem? hi

/-- A sorted sample is looked at in order. -/
theorem picks_sorted {step k : ℕ} (hstep : 1 ≤ step) {sample : List α} (h : Sorted comp sample) :
    Sorted comp (picks step sample k) := by
  induction k with
  | zero => simp [picks, Sorted]
  | succ k ih =>
    cases hx : sample[step - 1 + k * step]? with
    | none => simpa [picks, List.range_succ, hx] using ih
    | some x =>
      rw [picks_succ hx]
      refine List.pairwise_append.mpr ⟨ih, by simp, fun a ha b hb => ?_⟩
      obtain rfl : b = x := by simpa using hb
      obtain ⟨i, hi, ha⟩ := List.mem_filterMap.mp ha
      obtain ⟨hlt, rfl⟩ := List.getElem?_eq_some_iff.mp hx
      obtain ⟨hlt', rfl⟩ := List.getElem?_eq_some_iff.mp ha
      refine List.pairwise_iff_getElem.mp h _ _ hlt' hlt ?_
      have := Nat.mul_lt_mul_of_pos_right (List.mem_range.mp hi) hstep
      omega

/-- What is chosen is looked at; it is strictly increasing, and ends with what was looked at
last or something no greater. -/
structure Chosen (comp : α → α → Bool) (picked ds : List α) : Prop where
  subset : ∀ x ∈ ds, x ∈ picked
  increasing : ds.Pairwise fun a b => comp a b = true
  last : ∀ x ∈ picked.getLast?, ∃ s, ds.getLast? = some s ∧ comp s x = false
  length_le : ds.length ≤ picked.length

theorem chosen_spec (hc : StrictWeak comp) {picked : List α} (h : Sorted comp picked) :
    Chosen comp picked (chosen comp picked) := by
  induction picked using List.reverseRecOn with
  | nil => exact ⟨by simp [chosen], by simp [chosen], by simp, by simp [chosen]⟩
  | append_singleton picked x ih =>
    obtain ⟨hsub, hinc, hlast, hlen⟩ := ih (List.pairwise_append.mp h).1
    rw [chosen_concat, skipDuplicates]
    split
    · next hx =>
      refine ⟨fun y hy => ?_, List.pairwise_append.mpr ⟨hinc, by simp, fun a ha b hb => ?_⟩,
        fun y hy => ?_, ?_⟩
      · rcases List.mem_append.mp hy with hy | hy
        · exact List.mem_append_left _ (hsub y hy)
        · exact List.mem_append_right _ hy
      · obtain rfl : b = x := by simpa using hb
        cases hds : (chosen comp picked).getLast? with
        | none => simp [List.getLast?_eq_none_iff.mp hds] at ha
        | some s =>
          have hsx : comp s b = true := by simpa [hds] using hx
          obtain ⟨ds, hds⟩ := List.getLast?_eq_some_iff.mp hds
          rw [hds] at ha hinc
          rcases List.mem_append.mp ha with ha | ha
          · exact hc.lt_trans ((List.pairwise_append.mp hinc).2.2 a ha s (by simp)) hsx
          · obtain rfl : a = s := by simpa using ha
            exact hsx
      · obtain rfl : x = y := by simpa using hy
        exact ⟨x, by simp, hc.irrefl x⟩
      · simpa using hlen
    · next hx =>
      refine ⟨fun y hy => List.mem_append_left _ (hsub y hy), hinc, fun y hy => ?_, by simp; omega⟩
      obtain rfl : x = y := by simpa using hy
      cases hds : (chosen comp picked).getLast? with
      | none => simp [hds] at hx
      | some s => exact ⟨s, rfl, by simpa [hds] using hx⟩

theorem length_picks {step k : ℕ} {sample : List α}
    (h : ∀ i < k, step - 1 + i * step < sample.length) : (picks step sample k).length = k := by
  induction k with
  | zero => rfl
  | succ k ih =>
    rw [picks_succ (List.getElem?_eq_getElem (h k (Nat.lt_succ_self k))), List.length_append,
      ih fun i hi => h i (Nat.lt_succ_of_lt hi)]
    rfl

/-- A sample is long enough for all splitters. -/
theorem Config.pick_lt {cfg : Config} {n i : ℕ} (hi : i < 2 ^ cfg.logBuckets n - 1) :
    cfg.step n - 1 + i * cfg.step n < cfg.numSamples n := by
  have hstep := cfg.one_le_step n
  have := Nat.mul_le_mul_right (cfg.step n) (show i + 2 ≤ 2 ^ cfg.logBuckets n by omega)
  rw [Nat.add_mul] at this
  rw [Config.numSamples, Nat.mul_comm (cfg.step n)]
  omega

/-! ### The size of a sample -/

namespace Config

variable {cfg : Config} {n : ℕ}

/-- The default oversampling: a step of more than one element takes many elements. -/
theorem step_eq_one_or (hover : cfg.kOversampleFactor = 20) (n : ℕ) :
    cfg.step n = 1 ∨ 2 ≤ cfg.step n ∧ cfg.step n + 8 ≤ log2 n := by
  rcases (cfg.one_le_step n).eq_or_lt with hone | htwo
  · exact .inl hone.symm
  · have hfloor : cfg.step n ≤ ⌊cfg.oversamplingFactor n⌋₊ := by
      rw [step] at htwo ⊢
      omega
    have hle : (cfg.step n : ℚ) ≤ max 1 (10 / 49 * (log2 n : ℚ)) :=
      (Nat.le_floor_iff' (by omega)).mp hfloor |>.trans (cfg.oversamplingFactor_le hover n)
    have hlog : (cfg.step n : ℚ) ≤ 10 / 49 * log2 n := by
      rcases le_max_iff.mp hle with h | h
      · exact absurd (Nat.cast_le_one.mp h) (by omega)
      · exact h
    have hlog' : (49 * cfg.step n : ℚ) ≤ 10 * log2 n := by linarith
    have : 49 * cfg.step n ≤ 10 * log2 n := by exact_mod_cast hlog'
    omega

/-- The default oversampling of a range that there is memory for. -/
theorem step_eq (hover : cfg.kOversampleFactor = 20) (hn : n < 2 ^ 63) :
    cfg.step n = max 1 (20 * log2 n / 100) := by
  have hexact : ∀ l < 63, max 1 ⌊(if toDouble (toDouble (20 / 100) * (l : ℕ)) < 1 then 1
      else toDouble (toDouble (20 / 100) * l))⌋₊ = max 1 (20 * l / 100) := by decide +kernel
  have hlog : log2 n < 63 := by
    rcases n.eq_zero_or_pos with rfl | hpos
    · decide
    · exact (Nat.log2_lt hpos.ne').mpr hn
  rw [step, oversamplingFactor, hover]
  exact hexact _ hlog

/-- **A sample, and one element more, fits into the range.** -/
theorem step_mul_le (hlog : 1 ≤ cfg.kLogBuckets) (hlog' : cfg.kLogBuckets ≤ 8)
    (hB : 1 ≤ cfg.kBaseCaseSize) (hover : cfg.kOversampleFactor = 20)
    (hn : 2 * cfg.kBaseCaseSize < n) : cfg.step n * 2 ^ cfg.logBuckets n ≤ n := by
  rcases step_eq_one_or hover n with hone | ⟨-, hlog₂⟩
  · rw [hone, Nat.one_mul]
    exact cfg.two_pow_logBuckets_le hlog' hB hn
  · have hk : cfg.logBuckets n ≤ 8 := (cfg.logBuckets_mem hlog n).2.trans hlog'
    calc cfg.step n * 2 ^ cfg.logBuckets n ≤ 2 ^ cfg.step n * 2 ^ 8 :=
          Nat.mul_le_mul Nat.lt_two_pow_self.le (Nat.pow_le_pow_right (by omega) hk)
      _ = 2 ^ (cfg.step n + 8) := (pow_add 2 _ _).symm
      _ ≤ 2 ^ log2 n := Nat.pow_le_pow_right (by omega) (by omega)
      _ ≤ n := two_pow_log2_le (by omega)

/-- There is an element in a sample, and fewer than in the range. -/
theorem numSamples_mem (hlog : 1 ≤ cfg.kLogBuckets) (hlog' : cfg.kLogBuckets ≤ 8)
    (hB : 1 ≤ cfg.kBaseCaseSize) (hover : cfg.kOversampleFactor = 20)
    (hn : 2 * cfg.kBaseCaseSize < n) : 1 ≤ cfg.numSamples n ∧ cfg.numSamples n < n := by
  have hle := step_mul_le hlog hlog' hB hover hn
  have hstep := cfg.one_le_step n
  have htwo : 2 ≤ 2 ^ cfg.logBuckets n :=
    Nat.le_self_pow (by have := (cfg.logBuckets_mem hlog n).1; omega) 2
  have hmul : 1 * 2 ≤ cfg.step n * 2 ^ cfg.logBuckets n := Nat.mul_le_mul hstep htwo
  rw [numSamples]
  omega

/-- Sorting `n` elements begins with sorting a sample of `m` elements. -/
def SortsSample (cfg : Config) (n m : ℕ) : Prop := 2 * cfg.kBaseCaseSize < n ∧ m = cfg.numSamples n

end Config

/-- What a sample of the right size is good for. -/
structure Config.Sample (cfg : Config) (comp : α → α → Bool) (n : ℕ) (sample : List α) : Prop where
  sorted : Sorted comp sample
  length : sample.length = cfg.numSamples n
  log_pos : 1 ≤ cfg.logBuckets n

namespace Config.Sample

variable {cfg : Config} {n : ℕ} {sample : List α} (h : cfg.Sample comp n sample)
include h

theorem length_picks :
    (picks (cfg.step n) sample (2 ^ cfg.logBuckets n - 1)).length = 2 ^ cfg.logBuckets n - 1 :=
  Ps4o.length_picks fun i hi => by rw [h.length]; exact Config.pick_lt hi

theorem two_le : 2 ≤ 2 ^ cfg.logBuckets n := Nat.le_self_pow (by have := h.log_pos; omega) 2

/-- The last element looked at. -/
theorem getLast_picks :
    ∃ z, (picks (cfg.step n) sample (2 ^ cfg.logBuckets n - 1)).getLast? = some z ∧
    sample[cfg.step n - 1 + (2 ^ cfg.logBuckets n - 2) * cfg.step n]? = some z := by
  have h2 := h.two_le
  have hlt : cfg.step n - 1 + (2 ^ cfg.logBuckets n - 2) * cfg.step n < sample.length := by
    rw [h.length]
    exact Config.pick_lt (by omega)
  refine ⟨_, ?_, List.getElem?_eq_getElem hlt⟩
  rw [show 2 ^ cfg.logBuckets n - 1 = 2 ^ cfg.logBuckets n - 2 + 1 by omega,
    picks_succ (List.getElem?_eq_getElem hlt), List.getLast?_append]
  rfl

variable (hc : StrictWeak comp)
include hc

theorem chosen : Chosen comp (picks (cfg.step n) sample (2 ^ cfg.logBuckets n - 1))
    (cfg.chosenFrom comp n sample) :=
  chosen_spec hc (picks_sorted (le_max_left _ _) h.sorted)

theorem chosen_ne_nil : cfg.chosenFrom comp n sample ≠ [] := by
  obtain ⟨z, hz, -⟩ := h.getLast_picks
  obtain ⟨s, hs, -⟩ := (h.chosen hc).last z hz
  intro h0
  simp [h0] at hs

omit h hc in
variable (comp cfg n sample) in
theorem chosen_lt_leaves :
    (cfg.chosenFrom comp n sample).length < 2 ^ cfg.leavesFrom comp n sample :=
  Nat.lt_log2_self

/-- At most as many leaves as there might have been. -/
theorem leaves_le : cfg.leavesFrom comp n sample ≤ cfg.logBuckets n := by
  have hlen := (h.chosen hc).length_le
  have hpos := List.length_pos_of_ne_nil (h.chosen_ne_nil hc)
  rw [h.length_picks] at hlen
  have hlt : Nat.log2 (cfg.chosenFrom comp n sample).length < cfg.logBuckets n :=
    (Nat.log2_lt (by omega)).mpr (by omega)
  exact hlt

theorem splitters_eq : ∃ z, cfg.splittersFrom comp n sample = cfg.chosenFrom comp n sample ++
      List.replicate (2 ^ cfg.leavesFrom comp n sample - 1 - (cfg.chosenFrom comp n sample).length)
        z ∧
    sample[cfg.step n - 1 + (2 ^ cfg.logBuckets n - 2) * cfg.step n]? = some z ∧
    ∃ s, (cfg.chosenFrom comp n sample).getLast? = some s ∧ comp s z = false := by
  obtain ⟨z, hz, hs⟩ := h.getLast_picks
  exact ⟨z, by rw [Config.splittersFrom, hz]; rfl, hs, (h.chosen hc).last z hz⟩

theorem length_splitters :
    (cfg.splittersFrom comp n sample).length = 2 ^ cfg.leavesFrom comp n sample - 1 := by
  obtain ⟨z, hz, -⟩ := h.splitters_eq hc
  have := chosen_lt_leaves comp cfg n sample
  rw [hz, List.length_append, List.length_replicate]
  omega

/-- All splitters come from the sample. -/
theorem splitters_subset {x : α} (hx : x ∈ cfg.splittersFrom comp n sample) : x ∈ sample := by
  obtain ⟨z, hz, hs, -⟩ := h.splitters_eq hc
  rw [hz] at hx
  rcases List.mem_append.mp hx with hx | hx
  · exact mem_of_mem_picks ((h.chosen hc).subset x hx)
  · rw [List.eq_of_mem_replicate hx]
    exact List.mem_of_getElem? hs

/-- The splitters are sorted: those chosen strictly, the others like the last of them. -/
theorem splitters_sorted : Sorted comp (cfg.splittersFrom comp n sample) := by
  obtain ⟨z, hz, hs, s, hl, hsz⟩ := h.splitters_eq hc
  obtain ⟨z', hz', hs'⟩ := h.getLast_picks
  obtain rfl : z = z' := Option.some.inj (hs.symm.trans hs')
  rw [hz]
  refine List.pairwise_append.mpr ⟨(h.chosen hc).increasing.imp fun hab => hc.asymm hab,
    ?_, fun a ha b hb => ?_⟩
  · exact List.pairwise_replicate.mpr (.inr (hc.irrefl z))
  · rw [List.eq_of_mem_replicate hb]
    -- what was looked at last is not less than anything looked at
    obtain ⟨picked, hpicked⟩ := List.getLast?_eq_some_iff.mp hz'
    have hsorted := picks_sorted (k := 2 ^ cfg.logBuckets n - 1)
      (cfg.one_le_step n) h.sorted
    have ha' := (h.chosen hc).subset a ha
    rw [hpicked] at hsorted
    rw [hpicked] at ha'
    rcases List.mem_append.mp ha' with ha' | ha'
    · exact (List.pairwise_append.mp hsorted).2.2 a ha' z (by simp)
    · obtain rfl : a = z := by simpa using ha'
      exact hc.irrefl a

end Config.Sample

/-! ### What the code does -/

variable [DecidableEq A] {lax : Bool} {R : Set (Loc A)} {m : Mem A (Slot α)} {p : Ptr A}

/-- Selecting a sample permutes the elements. -/
theorem sat_selectSample {xs : List α} {numSamples : ℕ} (hn : numSamples ≤ xs.length)
    (hR : seg p xs.length ⊆ R) (hm : Has m p (xs.map .full)) :
    Sat (slots A α lax) R (selectSample p xs.length numSamples) m fun _ m' =>
      ∃ ys : List α, ys.Perm xs ∧ Has m' p (ys.map .full) := by
  refine sat_loop (fun _ _ (m : Mem A (Slot α)) => ∃ ys : List α, ys.Perm xs ∧
    Has m p (ys.map .full)) ⟨xs, .rfl, hm⟩ fun k hk _ m hm => ?_
  obtain ⟨ys, hperm, hm⟩ := hm
  have hlen := hperm.length_eq
  rw [if_neg (by omega), sat_bind]
  refine sat_draw fun i hi => ?_
  have hk' : k < ys.length := by omega
  have hi' : k + i < ys.length := by omega
  rw [Ptr.add_assoc]
  refine sat_swapAt (hR (elem_add_mem_seg.mpr (by omega))) (hR (elem_add_mem_seg.mpr (by omega)))
    (hm _ (.full ys[k]) (by simp [hk'])) (hm _ (.full ys[k + i]) (by simp [hi'])) ?_
  refine ⟨(ys.set k ys[k + i]).set (k + i) ys[k], (List.set_set_perm hk' hi').trans hperm, ?_⟩
  rw [List.map_set, List.map_set]
  exact (hm.set k _).set (k + i) _

/-- **The sample always fits and shrinks**, with the default oversampling, which rounding does not
change: there are two buckets at least, and at most as many as configured; a sample has fewer
elements than the range, from which it is drawn without leaving it; all splitters are in the sample;
and sorting samples of samples comes to an end. -/
theorem sample_shrinks (cfg : Config) (hlog : 1 ≤ cfg.kLogBuckets) (hlog' : cfg.kLogBuckets ≤ 8)
    (hB : 1 ≤ cfg.kBaseCaseSize) (hover : cfg.kOversampleFactor = 20) :
    (∀ n, 2 * cfg.kBaseCaseSize < n →
      (n < 2 ^ 63 → cfg.step n = max 1 (20 * log2 n / 100)) ∧
      (1 ≤ cfg.logBuckets n ∧ cfg.logBuckets n ≤ cfg.kLogBuckets) ∧
      (1 ≤ cfg.numSamples n ∧ cfg.numSamples n < n) ∧
      (∀ k < cfg.numSamples n, 1 ≤ n - k ∧ ∀ i ≤ n - k - 1, k + i < n) ∧
      (∀ (p : Ptr A) (m : Mem A (Slot α)) (xs : List α), xs.length = n → Has m p (xs.map .full) →
        Sat (slots A α lax) (seg p n) (selectSample p n (cfg.numSamples n)) m fun _ m' =>
          ∃ ys : List α, ys.Perm xs ∧ Has m' p (ys.map .full)) ∧
      ∀ i, 1 ≤ i → i < 2 ^ cfg.logBuckets n →
      cfg.step n - 1 + (i - 1) * cfg.step n < cfg.numSamples n) ∧
    WellFounded fun m n => cfg.SortsSample n m := by
  have hmem : ∀ n, 2 * cfg.kBaseCaseSize < n → 1 ≤ cfg.numSamples n ∧ cfg.numSamples n < n :=
    fun n hn => Config.numSamples_mem hlog hlog' hB hover hn
  refine ⟨fun n hn => ⟨Config.step_eq hover, cfg.logBuckets_mem hlog n, hmem n hn, fun k hk => ?_,
    fun p m xs hxs hm => ?_, fun i hi hi' => ?_⟩, ?_⟩
  · have hlt := (hmem n hn).2
    exact ⟨by omega, fun i hi => by omega⟩
  · subst hxs
    exact sat_selectSample (hmem _ hn).2.le subset_rfl hm
  · exact Config.pick_lt (by omega)
  · -- samples of samples are ever smaller
    refine Subrelation.wf ?_ Nat.lt_wfRel.wf
    rintro m n ⟨hn, rfl⟩
    exact (hmem n hn).2

/-- Samples of ranges with small base cases. -/
theorem sample_shrinks_small :
    (∀ n, 2 < n →
      (n < 2 ^ 63 → Config.step { kBaseCaseSize := 1 } n = max 1 (20 * log2 n / 100)) ∧
      (1 ≤ Config.logBuckets { kBaseCaseSize := 1 } n ∧
        Config.logBuckets { kBaseCaseSize := 1 } n ≤ 7) ∧
      (1 ≤ Config.numSamples { kBaseCaseSize := 1 } n ∧
        Config.numSamples { kBaseCaseSize := 1 } n < n) ∧
      (∀ k < Config.numSamples { kBaseCaseSize := 1 } n, 1 ≤ n - k ∧ ∀ i ≤ n - k - 1, k + i < n) ∧
      (∀ (p : Ptr Unit) (m : Mem Unit (Slot ℕ)) (xs : List ℕ), xs.length = n →
        Has m p (xs.map .full) →
        Sat (slots Unit ℕ false) (seg p n)
        (selectSample p n (Config.numSamples { kBaseCaseSize := 1 } n)) m fun _ m' =>
          ∃ ys : List ℕ, ys.Perm xs ∧ Has m' p (ys.map .full)) ∧
      ∀ i, 1 ≤ i → i < 2 ^ Config.logBuckets { kBaseCaseSize := 1 } n →
        Config.step { kBaseCaseSize := 1 } n - 1 + (i - 1) * Config.step { kBaseCaseSize := 1 } n <
          Config.numSamples { kBaseCaseSize := 1 } n) ∧
    WellFounded fun m n => Config.SortsSample { kBaseCaseSize := 1 } n m :=
  sample_shrinks { kBaseCaseSize := 1 } (by decide) (by decide) (by decide) rfl

theorem sat_chooseSplitters {sample : List α} {step numBuckets : ℕ} {c : Classifier α}
    (hnb : 2 ≤ numBuckets) (hlt : ∀ i < numBuckets - 1, step - 1 + i * step < sample.length)
    (hc : c.Empty) (hR : seg p sample.length ⊆ R) (hm : Has m p (sample.map .full)) :
    Sat (slots A α lax) R (chooseSplitters comp p step numBuckets c) m fun r m' =>
      m' = m ∧ r.1 + 1 = (chosen comp (picks step sample (numBuckets - 1))).length ∧
        r.2.Filled (chosen comp (picks step sample (numBuckets - 1))) := by
  have hread : ∀ i < numBuckets - 1, ∃ x, sample[step - 1 + i * step]? = some x ∧
      .elem (p + (step - 1 + i * step)) ∈ R ∧ m.slot (p + (step - 1 + i * step)) = .full x :=
      fun i hi =>
    ⟨_, List.getElem?_eq_getElem (hlt i hi), hR (elem_add_mem_seg.mpr (hlt i hi)),
      hm _ _ (by simp [hlt i hi])⟩
  obtain ⟨x, hx, hR₀, hm₀⟩ := hread 0 (by omega)
  have hp : picks step sample 1 = [x] := by rw [picks_succ hx]; rfl
  simp only [Nat.zero_mul, Nat.add_zero] at hR₀ hm₀
  rw [chooseSplitters, sat_bind]
  refine sat_readAt hR₀ hm₀ ?_
  obtain ⟨c₁, hc₁, hf₁⟩ := hc.filled.newSorted x
  rw [sat_bind, sat_ofOption]
  refine ⟨c₁, by simpa using hc₁, ?_⟩
  refine (sat_loop (fun i (r : ℕ × Classifier α) m' => m' = m ∧
    r.1 + 1 = (chosen comp (picks step sample (i + 1))).length ∧
    r.2.Filled (chosen comp (picks step sample (i + 1)))) ?_ fun i hi r m' hr => ?_).imp
    fun r m' hr => ?_
  · simpa [hp, chosen, skipDuplicates] using hf₁
  · obtain ⟨last, c⟩ := r
    obtain ⟨rfl, hlast, hf⟩ := hr
    obtain ⟨y, hy, hRi, hmi⟩ := hread (i + 1) (by omega)
    obtain ⟨s, hs⟩ : ∃ s, (chosen comp (picks step sample (i + 1)))[last]? = some s :=
      ⟨_, List.getElem?_eq_getElem (by omega)⟩
    have hlast? : (chosen comp (picks step sample (i + 1))).getLast? = some s := by
      rw [List.getLast?_eq_getElem?, ← hlast, Nat.add_sub_cancel, hs]
    rw [sat_bind, sat_ofOption]
    refine ⟨s, hf.sortedSplitter hs, ?_⟩
    rw [sat_bind]
    refine sat_readAt hRi hmi ?_
    rw [picks_succ hy, chosen_concat, skipDuplicates, hlast?, Option.elim_some]
    split
    · rw [sat_bind]
      refine sat_readAt hRi hmi ?_
      obtain ⟨c', hc', hf'⟩ := hf.newSorted y
      rw [sat_bind, sat_ofOption]
      refine ⟨c', by rwa [hlast], rfl, ?_, hf'⟩
      rw [List.length_append, List.length_singleton, ← hlast]
    · exact ⟨rfl, hlast, hf⟩
  · rwa [show numBuckets - 2 + 1 = numBuckets - 1 by omega] at hr

theorem sat_fillSplitters {x : α} {ds : List α} {numBuckets : ℕ} {c : Classifier α}
    (hc : c.Filled ds) (hR : .elem p ∈ R) (hm : m.slot p = .full x) :
    Sat (slots A α lax) R (fillSplitters p ds.length numBuckets c) m fun c' m' =>
      m' = m ∧ c'.Filled (ds ++ List.replicate (numBuckets - 1 - ds.length) x) := by
  refine sat_loop (fun i (c : Classifier α) m' => m' = m ∧ c.Filled (ds ++ List.replicate i x))
    ⟨rfl, by simpa⟩ fun i hi c m' hr => ?_
  obtain ⟨rfl, hf⟩ := hr
  obtain ⟨c', hc', hf'⟩ := hf.newSorted x
  rw [sat_bind]
  refine sat_readAt hR hm (sat_ofOption.mpr ⟨c', by simpa using hc', rfl, ?_⟩)
  rwa [List.replicate_succ', ← List.append_assoc]

end

/-! ### Building the classifier -/

/-- What a sort of `n` elements may touch. -/
def workspace (p tmp : Ptr A) (oracle n : ℕ) : Set (Loc A) := seg p n ∪ seg tmp n ∪ byteSeg oracle n

theorem workspace_subset {p tmp : Ptr A} {oracle i n N : ℕ} (h : i + n ≤ N) :
    workspace (p + i) (tmp + i) (oracle + i) n ⊆ workspace p tmp oracle N :=
  Set.union_subset_union (Set.union_subset_union (seg_subset h) (seg_subset h)) (byteSeg_subset h)

@[simp] theorem elem_mem_workspace {p tmp q : Ptr A} {oracle n : ℕ} :
    .elem q ∈ workspace p tmp oracle n ↔ .elem q ∈ seg p n ∨ .elem q ∈ seg tmp n := by
  simp [workspace]

@[simp] theorem byte_mem_workspace {p tmp : Ptr A} {oracle n i : ℕ} :
    .byte i ∈ workspace p tmp oracle n ↔ oracle ≤ i ∧ i < oracle + n := by
  simp [workspace]

/-- `sort` sorts fewer than `bound` elements: from `p`, with raw storage at `tmp`, into whichever
of the two is the input array, leaving the other one raw. Small ranges that are not in the input
array are left out. -/
def Sorts [DecidableEq A] (cfg : Config) (lax : Bool) (bound : ℕ)
    (sort : Ptr A → ℕ → Ptr A → ℕ → Bool → Sorter α → Act A α (Sorter α)) : Prop :=
  ∀ (p tmp : Ptr A) (xs : List α) (oracle : ℕ) (inInputArray : Bool)
    (s : Sorter α) (m : Mem A (Slot α)),
    xs.length < bound → (inInputArray = true ∨ 2 * cfg.kBaseCaseSize < xs.length) →
    p.arr ≠ tmp.arr →
    s.data.classifier.Empty → Has m p (xs.map .full) → Raw m tmp xs.length →
    Sat (slots A α lax) (workspace p tmp oracle xs.length)
      (sort p xs.length tmp oracle inInputArray s) m fun s' m' => s'.data.classifier.Empty ∧
        (∃ ys : List α, ys.Perm xs ∧ Sorted comp ys ∧
          Has m' (if inInputArray then p else tmp) (ys.map .full)) ∧
        Raw m' (if inInputArray then tmp else p) xs.length

section
variable {comp} [DecidableEq A] {lax : Bool} {m : Mem A (Slot α)} {p tmp : Ptr A} {cfg : Config}

theorem Sorts.mono {bound bound' : ℕ}
    {sort : Ptr A → ℕ → Ptr A → ℕ → Bool → Sorter α → Act A α (Sorter α)}
    (h : Sorts comp cfg lax bound sort) (hle : bound' ≤ bound) : Sorts comp cfg lax bound' sort :=
  fun p tmp xs oracle flag s m hlt => h p tmp xs oracle flag s m (by omega)

/-- A classifier is built from a sorted sample. -/
theorem sat_buildFromSample {R : Set (Loc A)} (hc : StrictWeak comp) {n : ℕ} {sample : List α}
    {c : Classifier α} (h : cfg.Sample comp n sample) (hcl : c.Empty) (hR : seg p sample.length ⊆ R)
    (hm : Has m p (sample.map .full)) :
    Sat (slots A α lax) R (buildFromSample comp cfg p n c) m fun r m' =>
      m' = m ∧ r.1.Built (cfg.leavesFrom comp n sample) (cfg.splittersFrom comp n sample) ∧
        r.2 = (2 ^ cfg.leavesFrom comp n sample * (1 + (cfg.equalFrom comp n sample).toNat),
          cfg.equalFrom comp n sample) := by
  rw [buildFromSample, sat_bind]
  refine (sat_chooseSplitters h.two_le (fun i hi => ?_) hcl hR hm).imp ?_
  · rw [h.length]
    exact Config.pick_lt hi
  rintro ⟨last, c⟩ m₃ ⟨rfl, hlast, hf⟩
  obtain ⟨z, hz, hzs, -⟩ := h.splitters_eq hc
  have hzlt := (List.getElem?_eq_some_iff.mp hzs).1
  rw [sat_bind]
  simp only at hlast hf ⊢
  rw [hlast]
  refine (sat_fillSplitters hf (hR (elem_add_mem_seg.mpr hzlt))
    (hm _ (.full z) (by simp [hzs]))).imp ?_
  rintro c₄ m₄ ⟨rfl, hf₄⟩
  obtain ⟨c₅, hbuild, hbuilt⟩ :=
    hf₄.built (k := cfg.leavesFrom comp n sample) (Nat.le_add_left 1 _) (by
    have := h.length_splitters hc
    rw [hz] at this
    exact this)
  rw [sat_bind, sat_ofOption]
  exact ⟨c₅, hbuild, rfl, by rw [hz]; exact hbuilt, rfl⟩

/-- A classifier is built from the elements in front, once they have been drawn. -/
theorem sat_buildFromDrawn {sort : Ptr A → ℕ → Ptr A → ℕ → Bool → Sorter α → Act A α (Sorter α)}
    {bound : ℕ} (hc : StrictWeak comp) (hsort : Sorts comp cfg lax bound sort) {ys : List α}
    {n oracle : ℕ} {classifier : Sorter α → Classifier α} {s : Sorter α} (hn : ys.length = n)
    (hbound : cfg.numSamples n < bound) (hns : cfg.numSamples n ≤ n) (hlog : 1 ≤ cfg.logBuckets n)
    (harr : p.arr ≠ tmp.arr) (hs : s.data.classifier.Empty)
    (hcl : ∀ s : Sorter α, s.data.classifier.Empty → (classifier s).Empty)
    (hm : Has m p (ys.map .full)) (htmp : Raw m tmp n) :
    Sat (slots A α lax) (workspace p tmp oracle n)
      (do
        let s ← sort p (cfg.numSamples n) tmp oracle true s
        let r ← buildFromSample comp cfg p n (classifier s)
        pure (s, r)) m fun r m' =>
        r.1.data.classifier.Empty ∧ Raw m' tmp n ∧ ∃ sample : List α,
          sample.Perm (ys.take (cfg.numSamples n)) ∧
          Has m' p ((sample ++ ys.drop (cfg.numSamples n)).map .full) ∧
          cfg.Sample comp n sample ∧
          r.2.1.Built (cfg.leavesFrom comp n sample) (cfg.splittersFrom comp n sample) ∧
          r.2.2 = (2 ^ cfg.leavesFrom comp n sample * (1 + (cfg.equalFrom comp n sample).toNat),
            cfg.equalFrom comp n sample) := by
  have hRp : seg p n ⊆ workspace p tmp oracle n := fun l hl => .inl (.inl hl)
  -- the sample is sorted in place
  set numSamples := cfg.numSamples n with hnum
  have hlen : (ys.take numSamples).length = numSamples := by
    rw [List.length_take]
    omega
  rw [← List.take_append_drop numSamples ys, List.map_append, has_append,
    List.length_map, hlen] at hm
  have hsat := hsort p tmp (ys.take numSamples) oracle true s m (by rwa [hlen])
    (.inl rfl) harr hs hm.1 fun i hi => htmp i (by rw [hlen] at hi; omega)
  rw [hlen] at hsat
  rw [sat_bind]
  refine hsat.frame.mono (workspace_subset (p := p) (i := 0) (by omega)) ?_
  rintro s₂ m₂ ⟨⟨hs₂, ⟨sample, hsperm, hsorted, hm₂⟩, hraw₂⟩, hf₂⟩
  simp only [if_true] at hm₂ hraw₂
  have hslen : sample.length = numSamples := hsperm.length_eq.trans hlen
  have hsample : cfg.Sample comp n sample := ⟨hsorted, hslen, hlog⟩
  have hm₃ : Has m₂ p ((sample ++ ys.drop numSamples).map .full) := by
    rw [List.map_append, has_append, List.length_map, hslen]
    exact ⟨hm₂, hm.2.frame hf₂ fun i hi => by simp [elem_mem_seg, harr]⟩
  have htmp₃ : Raw m₂ tmp n := by
    rw [show n = numSamples + (n - numSamples) by omega, raw_add] at htmp ⊢
    exact ⟨hraw₂, htmp.2.frame hf₂ fun i hi => by simp [elem_mem_seg, harr.symm]⟩
  -- the splitters are copied
  rw [List.map_append, has_append] at hm₃
  have hRs : seg p sample.length ⊆ workspace p tmp oracle n :=
    (seg_subset (p := p) (i := 0) (by omega)).trans hRp
  rw [sat_bind]
  refine (sat_buildFromSample hc hsample (hcl s₂ hs₂) hRs hm₃.1).imp ?_
  rintro r m₃ ⟨rfl, hbuilt, hr⟩
  refine ⟨hs₂, htmp₃, sample, hsperm, ?_, hsample, hbuilt, hr⟩
  rw [List.map_append, has_append]
  exact hm₃

/-- **A classifier is built from a sample of the elements**, which are permuted meanwhile. -/
theorem sat_buildClassifier {sort : Ptr A → ℕ → Ptr A → ℕ → Bool → Sorter α → Act A α (Sorter α)}
    {bound : ℕ} (hc : StrictWeak comp) (hsort : Sorts comp cfg lax bound sort) {xs : List α}
    {oracle : ℕ} {classifier : Sorter α → Classifier α} {s : Sorter α}
    (hbound : cfg.numSamples xs.length < bound) (hns : cfg.numSamples xs.length ≤ xs.length)
    (hlog : 1 ≤ cfg.logBuckets xs.length) (harr : p.arr ≠ tmp.arr) (hs : s.data.classifier.Empty)
    (hcl : ∀ s : Sorter α, s.data.classifier.Empty → (classifier s).Empty)
    (hm : Has m p (xs.map .full)) (htmp : Raw m tmp xs.length) :
    Sat (slots A α lax) (workspace p tmp oracle xs.length)
      (buildClassifier comp cfg sort p xs.length tmp oracle classifier s) m fun r m' =>
        r.1.data.classifier.Empty ∧ Raw m' tmp xs.length ∧ ∃ sample rest : List α,
          (sample ++ rest).Perm xs ∧ Has m' p ((sample ++ rest).map .full) ∧
          cfg.Sample comp xs.length sample ∧
          r.2.1.Built (cfg.leavesFrom comp xs.length sample)
            (cfg.splittersFrom comp xs.length sample) ∧
          r.2.2 = (2 ^ cfg.leavesFrom comp xs.length sample *
            (1 + (cfg.equalFrom comp xs.length sample).toNat),
            cfg.equalFrom comp xs.length sample) := by
  have hRp : seg p xs.length ⊆ workspace p tmp oracle xs.length := fun l hl => .inl (.inl hl)
  rw [buildClassifier, sat_bind]
  refine ((sat_selectSample hns subset_rfl hm).frame).mono hRp ?_
  rintro _ m₁ ⟨⟨ys, hperm, hm₁⟩, hf₁⟩
  have htmp₁ : Raw m₁ tmp xs.length :=
    htmp.frame hf₁ fun i _ => by simp [elem_mem_seg, harr.symm]
  refine (sat_buildFromDrawn hc hsort hperm.length_eq hbound hns hlog harr hs hcl hm₁ htmp₁).imp ?_
  rintro r m₂ ⟨hs₂, htmp₂, sample, hsperm, hm₂, hsample⟩
  refine ⟨hs₂, htmp₂, sample, _, ?_, hm₂, hsample⟩
  refine (hsperm.append_right _).trans ?_
  rwa [List.take_append_drop]

end

end Ps4o
