import Ps4o.LocalClassification
import Ps4o.Order.Stripes
import Ps4o.Program.Pool

/-!
# Parallel classification

Every thread classifies its stripe and copies its counters into the shared ones; the first
thread then finds out where the elements of each thread go in each bucket
(`local_classification.hpp`).

## What is proved

* `offsetScan_cursor`, `offsetScan_save` — from histograms of the stripes, the scan finds where
  each thread's part of each bucket begins, and where the buckets begin.
* `rowsAreHistograms_iff` — the copied counters are the histograms of the stripes, whatever
  the counters were before, just when there is enough for the last thread to do.
-/

namespace Ps4o

open Ps4o.Program Ps4o.Storage Ps4o.Order Ps4o.Order.Stripes

variable {A α : Type} (comp : α → α → Bool)

/-- The classification of a stripe of `n` elements from `p` on. -/
def classifyStripe (cfg : Config) (useEqualBuckets : Bool) (p : Ptr A) (n oracle : ℕ)
    (c : Classifier α) (s : Sorter α) : Act A α (Sorter α) :=
  if 0 < n then classifyLocally comp cfg useEqualBuckets p n oracle c s else pure s

/-- `parallelClassification` up to its first barrier. Answers the sorter, and the thread's row of
`shared_->bucket_size`, which was `row`. -/
def parallelClassification (cfg : Config) (useEqualBuckets : Bool) (p : Ptr A) (n oracle : ℕ)
    (c : Classifier α) (row : ℕ → ℕ) (s : Sorter α) : Act A α (Sorter α × (ℕ → ℕ)) := do
  let s ← classifyStripe comp cfg useEqualBuckets p n oracle c s
  pure (s, fun bucket => if bucket < s.numBuckets then s.data.bucketSize bucket else row bucket)

/-- What the first thread computes for all. -/
structure Offsets where
  /-- `bucket_start` of each thread. -/
  bucketStart : ℕ → ℕ → ℕ
  /-- `bucket_start_save`. -/
  bucketStartSave : ℕ → ℕ
  /-- How many elements have been counted. -/
  off : ℕ

/-- One bucket, for the first threads. -/
def scanThreads (rows : ℕ → ℕ → ℕ) (bucket : ℕ) : (numThreads : ℕ) → Offsets → Offsets
  | 0, o => o
  | thread + 1, o =>
    let o := scanThreads rows bucket thread o
    { o with
      bucketStart := Function.update o.bucketStart thread
        (Function.update (o.bucketStart thread) bucket o.off)
      off := o.off + rows thread bucket }

/-- The first buckets, for all threads. -/
def offsetScan (rows : ℕ → ℕ → ℕ) (numThreads : ℕ) : (numBuckets : ℕ) → Offsets → Offsets
  | 0, o => { o with bucketStartSave := Function.update o.bucketStartSave 0 0, off := 0 }
  | bucket + 1, o =>
    let o := scanThreads rows bucket numThreads (offsetScan rows numThreads bucket o)
    { o with bucketStartSave := Function.update o.bucketStartSave (bucket + 1) o.off }

/-! ### The scan -/

section
variable (rows : ℕ → ℕ → ℕ) (o : Offsets)

theorem scanThreads_spec (b t : ℕ) :
    (scanThreads rows b t o).bucketStartSave = o.bucketStartSave ∧
      (scanThreads rows b t o).off = o.off + partialSum (fun i => rows i b) t ∧
      ∀ i c, (scanThreads rows b t o).bucketStart i c =
        if i < t ∧ c = b then o.off + partialSum (fun i => rows i b) i else o.bucketStart i c := by
  induction t with
  | zero => simp [scanThreads, partialSum]
  | succ t ih =>
    obtain ⟨hsave, hoff, hstart⟩ := ih
    refine ⟨hsave, ?_, fun i c => ?_⟩
    · rw [scanThreads, hoff, partialSum, Nat.add_assoc]
    · simp only [scanThreads, Function.update_apply, hoff]
      by_cases hi : i = t
      · subst hi
        by_cases hcb : c = b
        · simp [hcb]
        · simp [hcb, hstart]
      · rw [if_neg hi, hstart]
        exact if_congr (and_congr_left' (by omega)) rfl rfl

theorem offsetScan_spec (t nb : ℕ) :
    (offsetScan rows t nb o).off = partialSum (fun c => partialSum (fun i => rows i c) t) nb ∧
      (∀ b ≤ nb, (offsetScan rows t nb o).bucketStartSave b =
        partialSum (fun c => partialSum (fun i => rows i c) t) b) ∧
      ∀ i < t, ∀ b < nb, (offsetScan rows t nb o).bucketStart i b =
        partialSum (fun c => partialSum (fun i => rows i c) t) b + partialSum
          (fun i => rows i b) i := by
  induction nb with
  | zero =>
    refine ⟨rfl, fun b hb => ?_, fun i _ b hb => absurd hb (Nat.not_lt_zero b)⟩
    rw [Nat.le_zero.mp hb]
    rfl
  | succ nb ih =>
    obtain ⟨hoff, hsave, hstart⟩ := ih
    obtain ⟨hsave', hoff', hstart'⟩ := scanThreads_spec rows (offsetScan rows t nb o) nb t
    refine ⟨?_, fun b hb => ?_, fun i hi b hb => ?_⟩
    · rw [offsetScan, hoff', hoff, partialSum]
    · simp only [offsetScan, Function.update_apply]
      split
      · next h => rw [hoff', hoff, h, partialSum]
      · next h => rw [hsave', hsave b (by omega)]
    · simp only [offsetScan, hstart', hoff]
      split
      · next h => rw [h.2]
      · next h => exact hstart i hi b (by omega)

variable {rows}

/-- Counting in all stripes before one is counting all elements before it. -/
theorem partialSum_slice {ks : List ℕ} {t b : ℕ} (h : ∀ i < t, rows i b = (slice ks t i).count b) :
    ∀ i ≤ t, partialSum (fun i => rows i b) i = seen ks (first ks.length t i) b := by
  intro i
  induction i with
  | zero => simp [partialSum]
  | succ i ih =>
    intro hi
    rw [partialSum, ih (by omega), h i hi, seen, seen, ← List.count_append, take_append_slice]

/-- **The scan finds where the buckets begin.** -/
theorem offsetScan_save {ks : List ℕ} {t nb : ℕ} (ht : 1 ≤ t)
    (h : ∀ i < t, ∀ b < nb, rows i b = (slice ks t i).count b) {b : ℕ} (hb : b ≤ nb) :
    (offsetScan rows t nb o).bucketStartSave b = start ks b := by
  rw [(offsetScan_spec rows o t nb).2.1 b hb]
  refine partialSum_count fun c hc => ?_
  rw [partialSum_slice (fun i hi => h i hi c (by omega)) t le_rfl, first_last ht, seen_length]

/-- **The scan finds where a thread's part of a bucket begins**: after all smaller elements, and
those of the bucket in earlier stripes. -/
theorem offsetScan_cursor {ks : List ℕ} {t nb : ℕ} (ht : 1 ≤ t)
    (h : ∀ i < t, ∀ b < nb, rows i b = (slice ks t i).count b) {i b : ℕ} (hi : i < t)
    (hb : b < nb) :
    (offsetScan rows t nb o).bucketStart i b = start ks b + seen ks (first ks.length t i) b := by
  rw [(offsetScan_spec rows o t nb).2.2 i hi b hb,
    partialSum_slice (fun i hi => h i hi b hb) i hi.le,
    ← (offsetScan_spec rows o t nb).2.1 b hb.le, offsetScan_save o ht h hb.le]

end

/-! ### The rows -/

/-- All threads classify their stripes of the `n` elements from `p` on; the sorters and the rows
are what was there before. -/
def classificationPool (cfg : Config) (useEqualBuckets : Bool) (p : Ptr A) (n t oracle : ℕ)
    (c : Classifier α) (rows : ℕ → ℕ → ℕ) (sorters : Fin t → Sorter α) (m : Mem A (Slot α)) :
    Pool (Cmd A α) Cmd.Ans (Fin t) (Sorter α × (ℕ → ℕ)) (Mem A (Slot α)) where
  prog i := parallelClassification comp cfg useEqualBuckets (p + first n t i)
    (first n t (i + 1) - first n t i) (oracle + first n t i) c (rows i) (sorters i)
  mem := m

variable [DecidableEq A]

/-- Whatever the counters are before, and however the threads take turns: none is ever stuck, the
row a thread has copied is the histogram of its stripe, and all rows together count all
elements. -/
def RowsAreHistograms (cfg : Config) (useEqualBuckets : Bool) (p : Ptr A) (t oracle : ℕ)
    (c : Classifier α) (splitters xs : List α) (m : Mem A (Slot α)) : Prop :=
  ∀ (numBuckets : ℕ), numBuckets = c.numBuckets * (1 + useEqualBuckets.toNat) →
    ∀ (rows : ℕ → ℕ → ℕ) (sorters : Fin t → Sorter α), (∀ i, (sorters i).numBuckets = numBuckets) →
      ∀ sched log P, Pool.run (slots A α false) sched
          (classificationPool comp cfg useEqualBuckets p xs.length t oracle c rows sorters m) =
            some (log, P) →
        (∀ i, ¬ P.Stuck (slots A α false) i) ∧
        (∀ (i : Fin t) s row, P.prog i = .ret (s, row) → ∀ b < numBuckets,
          row b = (slice (keysOf comp useEqualBuckets splitters xs) t i).count b) ∧
        ∀ rows' : ℕ → ℕ → ℕ, (∀ i : Fin t, ∃ s, P.prog i = .ret (s, rows' i)) →
          ∀ o, (offsetScan rows' t numBuckets o).bucketStartSave numBuckets = xs.length

variable {comp} {cfg : Config} {p : Ptr A} {c : Classifier α} {k oracle t : ℕ}
  {splitters xs : List α} {m : Mem A (Slot α)}

omit [DecidableEq A] in
/-- What a thread may touch. -/
def stripeRegion (p : Ptr A) (oracle n t i : ℕ) : Set (Loc A) :=
  seg (p + first n t i) (first n t (i + 1) - first n t i) ∪
    byteSeg (oracle + first n t i) (first n t (i + 1) - first n t i)

omit [DecidableEq A] in
theorem stripeRegion_disjoint {n i j : ℕ} (hij : i ≠ j) {l : Loc A}
    (hl : l ∈ stripeRegion p oracle n t i) : l ∉ stripeRegion p oracle n t j := by
  have hsep : first n t (i + 1) ≤ first n t j ∨ first n t (j + 1) ≤ first n t i := by
    rcases Nat.lt_or_gt_of_ne hij with h | h
    · exact .inl (first_mono h)
    · exact .inr (first_mono h)
  cases l with
  | elem q =>
    simp only [stripeRegion, Set.mem_union, elem_mem_seg, elem_notMem_byteSeg,
      Ptr.add_arr, Ptr.add_off, or_false] at hl ⊢
    omega
  | byte b =>
    simp only [stripeRegion, Set.mem_union, byte_notMem_seg, byte_mem_byteSeg, false_or] at hl ⊢
    omega

/-- Classifying a stripe that is long enough counts it, and leaves the elements. -/
theorem sat_parallelClassification (lax eq : Bool) (oracle : ℕ) (hc : StrictWeak comp)
    (hsorted : Sorted comp splitters) (h : c.Built k splitters) (hk : k ≤ 8)
    (hU : 1 ≤ cfg.kUnrollClassifier) (hm : Has m p (xs.map .full)) {i : ℕ}
    (hlen : cfg.kUnrollClassifier ≤ first xs.length t (i + 1) - first xs.length t i) (row : ℕ → ℕ)
    (s : Sorter α) : Sat (slots A α lax) (stripeRegion p oracle xs.length t i)
      (parallelClassification comp cfg eq (p + first xs.length t i)
        (first xs.length t (i + 1) - first xs.length t i) (oracle + first xs.length t i) c row s) m
          fun r m' =>
      (∀ b < s.numBuckets, r.2 b = (slice (keysOf comp eq splitters xs) t i).count b) ∧
        r.1.data.classifier = s.data.classifier ∧ m'.slot = m.slot ∧
        Oracle m' (oracle + first xs.length t i) (slice (keysOf comp eq splitters xs) t i) := by
  rw [parallelClassification, sat_bind, classifyStripe, if_pos (by omega), ← length_slice]
  have hm' : Has m (p + first xs.length t i) ((slice xs t i).map .full) := by
    intro j v hv
    rw [← slice_map] at hv
    have := slice_getElem? _ _ _ _ _ hv
    rw [List.length_map] at this
    rw [Ptr.add_assoc]
    exact hm _ _ this
  have hkeys : keysOf comp eq splitters (slice xs t i) =
      slice (keysOf comp eq splitters xs) t i := by
    rw [keysOf, keysOf, slice_map]
  refine (sat_classifyLocally hc hsorted h hk hU (by rwa [length_slice]) ?_ ?_ hm' s).imp ?_
  · rw [stripeRegion, length_slice]
    exact Set.subset_union_left
  · rw [stripeRegion, length_slice]
    exact Set.subset_union_right
  · rintro s' m' ⟨rfl, hslot, ho⟩
    rw [hkeys] at ho
    exact ⟨fun b hb => (if_pos hb).trans ((counted_of_lt hb).trans (by rw [hkeys])), rfl, hslot, ho⟩

/-- A last stripe without elements leaves a thread with what it has counted the last time. -/
theorem not_rowsAreHistograms (hk : 1 ≤ c.numBuckets) (eq : Bool) (ht : 1 ≤ t)
    (h : first xs.length t (t - 1) = xs.length) :
    ¬ RowsAreHistograms comp cfg eq p t oracle c splitters xs m := by
  intro hrows
  have hlast : first xs.length t (t - 1 + 1) = xs.length := by
    rw [Nat.sub_add_cancel ht, first_last ht]
  -- counters that are not zero
  let s : Sorter α := ⟨⟨fun _ => 0, fun _ => 1, c⟩, c.numBuckets * (1 + eq.toNat)⟩
  have hpos : 0 < c.numBuckets * (1 + eq.toNat) := Nat.mul_pos hk (by omega)
  obtain ⟨-, hret, -⟩ := hrows _ rfl (fun _ _ => 0) (fun _ => s) (fun _ => rfl) [] [] _ rfl
  have hrow := hret ⟨t - 1, by omega⟩ s (fun bucket => if bucket < s.numBuckets then 1 else 0) (by
    simp only [classificationPool, parallelClassification, classifyStripe, hlast, h,
      Nat.sub_self, lt_irrefl, if_false]
    rfl) 0 hpos
  have hnil : slice (keysOf comp eq splitters xs) t (t - 1) = [] := by
    rw [← List.length_eq_zero_iff, length_slice, length_keysOf, hlast, h, Nat.sub_self]
  rw [if_pos hpos, hnil, List.count_nil] at hrow
  cases hrow

/-- **The rows are histograms just when the last stripe has an element for every lane of the
unrolled loop.** A stripe with fewer elements is not classified as it should be: without elements,
the row is what was counted the last time. -/
theorem rowsAreHistograms_iff (hc : StrictWeak comp) (hsorted : Sorted comp splitters)
    (h : c.Built k splitters) (eq : Bool) (hk : k ≤ 8) (hU : 1 ≤ cfg.kUnrollClassifier) (ht : 1 ≤ t)
    (hm : Has m p (xs.map .full)) : RowsAreHistograms comp cfg eq p t oracle c splitters xs m ↔
      first xs.length t (t - 1) + cfg.kUnrollClassifier ≤ xs.length := by
  constructor
  · intro hrows
    by_contra hshort
    rcases Nat.lt_or_ge (first xs.length t (t - 1)) xs.length with hlt | hge
    · -- the loop gets fewer elements than it assumes
      have hlast : first xs.length t (t - 1 + 1) = xs.length := by
        rw [Nat.sub_add_cancel ht, first_last ht]
      let s : Sorter α := ⟨⟨fun _ => 0, fun _ => 0, c⟩, c.numBuckets * (1 + eq.toNat)⟩
      obtain ⟨hst, -⟩ := hrows _ rfl (fun _ _ => 0) (fun _ => s) (fun _ => rfl) [] [] _ rfl
      refine hst ⟨t - 1, by omega⟩ ?_
      simp only [Pool.Stuck, classificationPool, parallelClassification, classifyStripe, hlast,
        if_pos (show 0 < xs.length - first xs.length t (t - 1) by omega), classifyLocally,
        Classifier.classifyRange,
        h.log, if_pos (show 1 ≤ k ∧ k ≤ 8 from ⟨h.log_pos, hk⟩), Classifier.classifyUnrolled,
        if_pos (show xs.length - first xs.length t (t - 1) = 0 ∨
          xs.length - first xs.length t (t - 1) < cfg.kUnrollClassifier by omega)]
      trivial
    · refine not_rowsAreHistograms ?_ eq ht (le_antisymm first_le hge) hrows
      rw [h.num]
      exact Nat.two_pow_pos k
  · rintro hlong _ rfl rows sorters hnb sched log P hrun
    have hiso : Pool.Isolated (slots A α false)
        (fun i : Fin t => stripeRegion p oracle xs.length t i)
        (fun i r _ => ∀ b < c.numBuckets * (1 + eq.toNat),
          r.2 b = (slice (keysOf comp eq splitters xs) t i).count b)
        (classificationPool comp cfg eq p xs.length t oracle c rows sorters m) := by
      refine ⟨fun i j hij l hl => stripeRegion_disjoint (fun h => hij (Fin.ext h)) hl, fun i => ?_⟩
      have hlen : xs.length - first xs.length t (t - 1) ≤ _ := last_shortest ht i.isLt
      have hsat := sat_parallelClassification false eq oracle hc hsorted h hk hU hm
        (show _ ≤ first xs.length t (i + 1) - first xs.length t i by omega) (rows i) (sorters i)
      rw [hnb i] at hsat
      exact hsat.imp fun r m' hr => hr.1
    obtain ⟨hst, -, hret, -⟩ := hiso.run hrun
    have hrow : ∀ (i : Fin t) s row, P.prog i = .ret (s, row) → ∀ b < c.numBuckets * (1 + eq.toNat),
        row b = (slice (keysOf comp eq splitters xs) t i).count b := fun i s row hp => by
      obtain ⟨_, hrow, -⟩ := hret i _ hp
      exact hrow
    refine ⟨hst, hrow, fun rows' hrows o => ?_⟩
    have hall : ∀ i < t, ∀ b < c.numBuckets * (1 + eq.toNat),
        rows' i b = (slice (keysOf comp eq splitters xs) t i).count b := fun i hi b hb => by
      obtain ⟨s, hs⟩ := hrows ⟨i, hi⟩
      exact hrow ⟨i, hi⟩ s _ hs b hb
    rw [offsetScan_save o ht hall le_rfl, start_eq_length (fun b hb => ?_), length_keysOf]
    obtain ⟨x, -, rfl⟩ := List.mem_map.mp hb
    have hlt : Classifier.bucketOf comp eq splitters x < 2 ^ (k + eq.toNat) :=
      Classifier.bucketOf_lt eq h.length x
    rw [h.num]
    cases eq <;> simpa [pow_succ] using hlt

/-- Seven threads for 49 elements. -/
theorem rowsAreHistograms_seven : ∃ c : Classifier ℕ, c.Built 1 [24] ∧
    RowsAreHistograms (fun a b => decide (a < b)) defaultConfig true (⟨.input, 0⟩ : Ptr Arr) 7 0 c
      [24] (List.range 49) (Mem.ofList ⟨.input, 0⟩ (List.range 49) fun _ => 0) := by
  obtain ⟨c, hc⟩ := exists_built 24
  refine ⟨c, hc, ?_⟩
  exact (rowsAreHistograms_iff (StrictWeak.of_linearOrder ℕ)
    (List.pairwise_singleton _ _) hc true (by decide)
    (by decide) (by decide) (has_ofList _ _ _)).mpr (by decide)

/-- Eight threads for 49 elements of 2048 bytes, each of them partitioned in parallel: the last
thread has nothing to do. -/
theorem stale_row_eight :
    Config.numThreadsFor 49 2048 8 = 8 ∧ 2 * defaultConfig.kBaseCaseSize < 49 ∧
    ∃ c : Classifier ℕ, c.Built 1 [24] ∧
      ¬ RowsAreHistograms (fun a b => decide (a < b)) defaultConfig true
        (⟨.input, 0⟩ : Ptr Arr) 8 0 c [24] (List.range 49)
          (Mem.ofList ⟨.input, 0⟩ (List.range 49) fun _ => 0) := by
  refine ⟨by decide, by decide, ?_⟩
  obtain ⟨c, hc⟩ := exists_built 24
  refine ⟨c, hc, not_rowsAreHistograms ?_ true (by decide) (by decide)⟩
  rw [hc.num]
  decide

end Ps4o
