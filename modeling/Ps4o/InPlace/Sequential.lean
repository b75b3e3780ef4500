import Ps4o.InPlace.Partitioning
import Ps4o.Sequential

/-!
# Sorting in place

The recursion of the in-place algorithm, for one thread (`sequential.hpp`), with the sampling that
it calls and that calls it (`sampling.hpp`), and the interface (`ips4o.hpp`).

## What is proved

* `sat_buildClassifier` — a classifier is built from a sample that is sorted in the range.
* `sat_sequential` — one level of the recursion after the other, every range is sorted.
* `sort_sorts_in_place` — **the in-place sort terminates and sorts**.
-/

namespace Ps4o.InPlace

open Ps4o.Program Ps4o.Storage Ps4o.Order

variable {α : Type}

/-! ### The code -/

section
variable (comp : α → α → Bool) (cfg : Config) (kInitializedStorage : Bool) (kBlockSize : ℕ)

/-- Builds a classifier for the `n` elements from `p` on, in `target`; the sample is sorted with
`sort`. Answers how many buckets are used, and whether there are equality buckets. -/
def buildClassifier (sort : Ptr Area → ℕ → Sorter α → Act Area α (Sorter α))
    (target : Sorter α → Classifier α) (p : Ptr Area) (n : ℕ) (s : Sorter α) :
    Act Area α (Sorter α × Classifier α × ℕ × Bool) := do
  -- Select the sample
  selectSample p n (cfg.numSamples n)
  -- Sort the sample
  let s ← sort p (cfg.numSamples n) s
  -- Choose the splitters and build the tree
  let r ← buildFromSample comp cfg p n (target s)
  pure (s, r)

/-- `partition<false>`: one thread partitions the `n` elements from `p` on. Answers whether there
are equality buckets; the boundaries of the buckets are in the sorter. -/
def partitionSequential (sort : Ptr Area → ℕ → Sorter α → Act Area α (Sorter α)) (p : Ptr Area)
    (n : ℕ) (s : Sorter α) : Act Area α (Sorter α × Bool) := do
  -- Sampling
  let (s, classifier, numBuckets, useEqualBuckets) ←
    buildClassifier comp cfg sort (fun s => s.data.classifier) p n s
  -- Set parameters for this partitioning step
  let s := { s with data := { s.data with classifier := classifier }, numBuckets := numBuckets }
  let s ← partition comp cfg kInitializedStorage kBlockSize useEqualBuckets (n + 1) p n s
  pure (s, useEqualBuckets)

/-- The recursive call on a bucket. -/
def sortBucket (sort : Ptr Area → ℕ → Sorter α → Act Area α (Sorter α)) (p : Ptr Area)
    (bucketStart : ℕ → ℕ) (i : ℕ) (s : Sorter α) : Act Area α (Sorter α) :=
  let start := bucketStart i
  let stop := bucketStart (i + 1)
  if stop - start > 2 * cfg.kBaseCaseSize then sort (p + start) (stop - start) s else pure s

/-- The recursive calls on the buckets. -/
def sortBuckets (sort : Ptr Area → ℕ → Sorter α → Act Area α (Sorter α)) (p : Ptr Area)
    (equalBuckets : Bool) (bucketStart : ℕ → ℕ) (numBuckets : ℕ) (s : Sorter α) :
    Act Area α (Sorter α) :=
  if equalBuckets then do
    let s ← Prog.loop (fun i s => sortBucket cfg sort p bucketStart (2 * i) s)
      ((numBuckets + 1) / 2) s
    sortBucket cfg sort p bucketStart (numBuckets - 1) s
  else
    Prog.loop (fun i s => sortBucket cfg sort p bucketStart i s) numBuckets s

/-- What `sequential` does with more than a base case. -/
def sequentialRec (sort : Ptr Area → ℕ → Sorter α → Act Area α (Sorter α)) (p : Ptr Area) (n : ℕ)
    (s : Sorter α) : Act Area α (Sorter α) := do
  -- Do the partitioning
  let (s, equalBuckets) ← partitionSequential comp cfg kInitializedStorage kBlockSize sort p n s
  -- Final base case is executed in cleanup step, so we're done here
  if n ≤ cfg.kSingleLevelThreshold then
    pure s
  else
    -- Recurse
    sortBuckets cfg sort p equalBuckets s.bucketStart s.numBuckets s

/-- `sequential`, at most `fuel` calls deep: sorts the `n` elements from `p` on. -/
def sequential : (fuel : ℕ) → Ptr Area → (n : ℕ) → Sorter α → Act Area α (Sorter α)
  | 0, _, _, _ => .halt .fuel
  | fuel + 1, p, n, s =>
    -- Check for base case
    if n ≤ 2 * cfg.kBaseCaseSize then do
      baseCaseSort comp p n
      pure s
    else
      sequentialRec comp cfg kInitializedStorage kBlockSize (sequential fuel) p n s

/-- The test for sorted input, if it is asked for. -/
def checkSorted (check : Bool) (p : Ptr Area) (n : ℕ) : Act Area α Bool :=
  if check then sortedCaseSort comp p n else pure false

/-- `SequentialSorter::operator()`, on the `n` elements from `p` on. -/
def SequentialSorter.sort (fuel : ℕ) (check : Bool) (p : Ptr Area) (n : ℕ) (s : Sorter α) :
    Act Area α (Sorter α) := do
  if ← checkSorted comp check p n then
    pure s
  else
    sequential comp cfg kInitializedStorage kBlockSize fuel p n s

/-- `ips4o::sort`, on the `n` elements from `p` on; `s` is what the new sorter starts with. -/
def sort (fuel : ℕ) (p : Ptr Area) (n : ℕ) (s : Sorter α) : Act Area α Unit := do
  if ← sortedCaseSort comp p n then
    pure ()
  else if n ≤ cfg.kBaseCaseMultiplier * cfg.kBaseCaseSize then
    baseCaseSort comp p n
  else do
    let _ ← SequentialSorter.sort comp cfg kInitializedStorage kBlockSize fuel false p n s
    pure ()

end

/-! ### What a sorter finds and leaves behind -/

section
variable {cfg : Config} {init : Bool} {B n k i : ℕ} {p : Ptr Area} {s : Sorter α}
  {m m' : Mem Area (Slot α)}

/-- A sorter does not depend on what is in the array. -/
theorem Sorter.Fresh.frame (h : s.Fresh cfg init B m) (hp : p.arr = .input)
    (hf : Frame m m' (seg p n)) : s.Fresh cfg init B m' where
  classifier := h.classifier
  buffers b hb := (h.buffers b hb).frame rfl rfl hf fun _ _ =>
    notMem_seg_of_arr (by simp [Buffers.data, hp])
  zero := h.zero
  idle c := hf.ready (h.idle c) fun _ _ => notMem_seg_of_arr (by simp [swapBlockAt, hp])
  overflow := hf.ready h.overflow fun _ _ => notMem_seg_of_arr (by simp [overflowBlock, hp])

theorem seg_subset_partitionSpace (cfg : Config) (B : ℕ) :
    seg p n ⊆ partitionSpace cfg.kMaxBuckets B n p := fun _ hl => .inl (.inl (.inl hl))

/-- A part of the range is worked on with the same buffers. -/
theorem partitionSpace_subset (h : i + k ≤ n) :
    partitionSpace cfg.kMaxBuckets B k (p + i) ⊆ partitionSpace cfg.kMaxBuckets B n p := by
  refine Set.union_subset_union_left _ (Set.union_subset_union_left _ ?_)
  exact Set.union_subset_union_left _ (seg_subset h)

/-- What is not in a part of the range is not worked on with it. -/
theorem notMem_partitionSpace {x : ℕ} (hp : p.arr = .input) (h : x < i ∨ i + k ≤ x) :
    .elem (p + x) ∉ partitionSpace cfg.kMaxBuckets B k (p + i) := by
  rintro (((hmem | hmem | hmem) | hmem) | hmem)
  · simp only [elem_mem_seg, Ptr.add_off, Ptr.add_arr, true_and] at hmem
    omega
  all_goals exact notMem_seg_of_arr (by simp [swapBlockAt, overflowBlock, hp]) hmem

end

/-- `sort` sorts fewer than `bound` elements. -/
def Sorts (comp : α → α → Bool) (cfg : Config) (init : Bool) (B bound : ℕ)
    (sort : Ptr Area → ℕ → Sorter α → Act Area α (Sorter α)) : Prop :=
  ∀ (p : Ptr Area) (xs : List α) (s : Sorter α) (m : Mem Area (Slot α)), p.arr = .input →
    xs.length < bound → s.Fresh cfg init B m → Has m p (xs.map .full) →
    Sat (slots Area α init) (partitionSpace cfg.kMaxBuckets B xs.length p) (sort p xs.length s) m
      fun s' m' => s'.Fresh cfg init B m' ∧
        ∃ ys : List α, ys.Perm xs ∧ Sorted comp ys ∧ Has m' p (ys.map .full)

/-! ### Sampling -/

section
variable {comp : α → α → Bool} {cfg : Config} {init : Bool} {B n bound : ℕ} {p : Ptr Area}
  {xs : List α} {m : Mem Area (Slot α)} {s : Sorter α}
  {sort : Ptr Area → ℕ → Sorter α → Act Area α (Sorter α)}

/-- **A classifier is built from a sample of the elements**, which are permuted meanwhile. -/
theorem sat_buildClassifier (hc : StrictWeak comp) (hsort : Sorts comp cfg init B bound sort)
    {target : Sorter α → Classifier α}
    (htarget : ∀ s m, s.Fresh cfg init B m → (target s).Empty) (hp : p.arr = .input)
    (hbound : cfg.numSamples xs.length < bound) (hns : cfg.numSamples xs.length ≤ xs.length)
    (hlog : 1 ≤ cfg.logBuckets xs.length) (hs : s.Fresh cfg init B m)
    (hm : Has m p (xs.map .full)) :
    Sat (slots Area α init) (partitionSpace cfg.kMaxBuckets B xs.length p)
      (buildClassifier comp cfg sort target p xs.length s) m fun r m' =>
        ∃ (s₁ : Sorter α) (sample : List α) (rest : List α) (c : Classifier α),
          s₁.Fresh cfg init B m' ∧
          (sample ++ rest).Perm xs ∧ Has m' p ((sample ++ rest).map .full) ∧
          cfg.Sample comp xs.length sample ∧
          c.Built (cfg.leavesFrom comp xs.length sample)
            (cfg.splittersFrom comp xs.length sample) ∧
          r = (s₁, c,
            2 ^ cfg.leavesFrom comp xs.length sample *
              (1 + (cfg.equalFrom comp xs.length sample).toNat),
            cfg.equalFrom comp xs.length sample) := by
  set n := xs.length with hn
  have hR := seg_subset_partitionSpace (p := p) (n := n) cfg B
  rw [buildClassifier, sat_bind]
  refine (sat_frame (sat_selectSample hns subset_rfl hm)).mono hR ?_
  rintro _ m₁ ⟨⟨ys, hperm, hm₁⟩, hf₁⟩
  -- the sample is sorted in place
  set numSamples := cfg.numSamples n with hnum
  have hlen : (ys.take numSamples).length = numSamples := by
    rw [List.length_take, hperm.length_eq]
    omega
  rw [← List.take_append_drop numSamples ys, List.map_append, has_append, List.length_map, hlen]
    at hm₁
  have hsat := hsort p (ys.take numSamples) s m₁ hp (by rwa [hlen]) (hs.frame hp hf₁) hm₁.1
  rw [hlen] at hsat
  rw [sat_bind]
  refine (sat_frame hsat).mono (partitionSpace_subset (p := p) (i := 0) (by omega)) ?_
  rintro s₂ m₂ ⟨⟨hs₂, sample, hsperm, hsorted, hm₂⟩, hf₂⟩
  have hslen : sample.length = numSamples := hsperm.length_eq.trans hlen
  have hsample : cfg.Sample comp n sample := ⟨hsorted, hslen, hlog⟩
  have hrest : Has m₂ (p + numSamples) ((ys.drop numSamples).map .full) := by
    refine hf₂.has hm₁.2 fun i _ => ?_
    rw [Ptr.add_assoc]
    exact notMem_partitionSpace (p := p) (i := 0) hp (.inr (by omega))
  -- the splitters are copied
  have hRs : seg p sample.length ⊆ partitionSpace cfg.kMaxBuckets B n p :=
    (seg_subset (p := p) (i := 0) (by omega)).trans hR
  rw [sat_bind]
  refine (sat_buildFromSample hc hsample (htarget s₂ m₂ hs₂) hRs hm₂).imp ?_
  rintro ⟨c, r⟩ m₃ ⟨rfl, hbuilt, rfl⟩
  refine ⟨s₂, sample, ys.drop numSamples, c, hs₂, ?_, ?_, hsample, hbuilt, rfl⟩
  · refine (hsperm.append_right _).trans ?_
    rwa [List.take_append_drop]
  · rw [List.map_append, has_append, List.length_map, hslen]
    exact ⟨hm₂, hrest⟩

end

/-! ### The recursion on the buckets -/

namespace Bucketed

variable {comp : α → α → Bool} {cfg : Config} {init : Bool} {B nb b bound : ℕ} {key : α → ℕ}
  {p : Ptr Area} {xs : List α} {bss : ℕ → ℕ} {done done' : ℕ → Prop} {zs : ℕ → List α}
  {m m' : Mem Area (Slot α)} {s : Sorter α}

theorem mono (hz : Bucketed comp key p xs nb bss done zs m)
    (h : ∀ b < nb, done' b → done b) : Bucketed comp key p xs nb bss done' zs m :=
  ⟨hz.length, hz.has, hz.keyed, fun b hb hd => hz.sorted b hb (h b hb hd)⟩

theorem mem (hz : Bucketed comp key p xs nb bss done zs m) (hb : b < nb) {x : α} (hx : x ∈ zs b) :
    key x = b := by
  have hmem : x ∈ (zs b : Multiset α) := hx
  rw [hz.keyed b hb] at hmem
  exact (Multiset.mem_filter.mp hmem).2

/-- How large a bucket is. -/
theorem size (hz : Bucketed comp key p xs nb bss done zs m) (hb : b < nb) :
    bss (b + 1) - bss b = (xs.map key).count b := by
  have hcard := congrArg Multiset.card (hz.keyed b hb)
  rw [← Multiset.countP_eq_card_filter, Multiset.coe_countP, Multiset.coe_card] at hcard
  rw [← hz.length b hb, hcard, List.count, List.countP_map]
  rfl

/-- The elements of a bucket are sorted when none of them is less than another one. -/
theorem sorted_of_tied (hz : Bucketed comp key p xs nb bss done zs m)
    (h : ∀ b < nb, done' b → ∀ x y, key x = b → key y = b → comp y x = false) :
    Bucketed comp key p xs nb bss (fun b => done' b ∨ done b) zs m := by
  refine ⟨hz.length, hz.has, hz.keyed, fun b hb hd => ?_⟩
  rcases hd with htied | hdone
  · refine List.Pairwise.imp_of_mem (R := fun _ _ => True) (fun {x y} hx hy _ => ?_)
      (List.pairwise_of_forall fun _ _ => trivial)
    exact h b hb htied x y (hz.mem hb hx) (hz.mem hb hy)
  · exact hz.sorted b hb hdone

/-- **Sorted buckets make a sorted range.** -/
theorem sorts (hz : Bucketed comp key p xs nb bss done zs m)
    (hbound : Boundaries false nb xs.length bss) (hkey : ∀ x ∈ xs, key x < nb)
    (hordered : ∀ x y, key x < key y → comp y x = false) (hdone : ∀ b < nb, done b) :
    ∃ ys : List α, ys.Perm xs ∧ Sorted comp ys ∧ Has m p (ys.map .full) := by
  refine ⟨(List.range nb).flatMap zs, perm_buckets hz.keyed hkey,
    List.pairwise_flatMap.mpr ⟨?_, ?_⟩, (has_buckets hbound hz.length hz.has le_rfl).2⟩
  · intro b hb
    have hb := List.mem_range.mp hb
    exact hz.sorted b hb (hdone b hb)
  · refine List.Pairwise.imp_of_mem (fun {b c} hb hc hbc => ?_) List.pairwise_lt_range
    intro x hx y hy
    refine hordered x y ?_
    rwa [hz.mem (List.mem_range.mp hb) hx, hz.mem (List.mem_range.mp hc) hy]

/-- A bucket is replaced by its elements in another order. -/
theorem replace (hz : Bucketed comp key p xs nb bss done zs m)
    (hbound : Boundaries false nb xs.length bss) (hp : p.arr = .input) (hb : b < nb) {ys : List α}
    (hperm : ys.Perm (zs b)) (hsorted : Sorted comp ys) (hhas : Has m' (p + bss b) (ys.map .full))
    (hf : Frame m m' (partitionSpace cfg.kMaxBuckets B (zs b).length (p + bss b))) :
    Bucketed comp key p xs nb bss (fun c => c = b ∨ done c) (Function.update zs b ys) m' := by
  refine ⟨fun c hc => ?_, fun c hc => ?_, fun c hc => ?_, fun c hc hd => ?_⟩ <;>
    rcases eq_or_ne c b with rfl | hcb
  · rw [Function.update_self, hperm.length_eq, hz.length c hc]
  · rw [Function.update_of_ne hcb, hz.length c hc]
  · rwa [Function.update_self]
  · rw [Function.update_of_ne hcb]
    refine hf.has (hz.has c hc) fun i hi => ?_
    rw [Ptr.add_assoc]
    refine notMem_partitionSpace hp ?_
    rw [hz.length c hc] at hi
    rw [hz.length b hb]
    rcases Nat.lt_or_gt_of_ne hcb with hlt | hgt
    · have := hbound.mono (show c + 1 ≤ b from hlt) hb.le
      omega
    · have := hbound.mono (show b + 1 ≤ c from hgt) hc.le
      omega
  · rw [Function.update_self, Multiset.coe_eq_coe.mpr hperm, hz.keyed c hc]
  · rw [Function.update_of_ne hcb, hz.keyed c hc]
  · rwa [Function.update_self]
  · rw [Function.update_of_ne hcb]
    exact hz.sorted c hc (hd.resolve_left hcb)

variable {sort : Ptr Area → ℕ → Sorter α → Act Area α (Sorter α)}

/-- **The recursive call sorts a bucket**, and leaves all others alone. -/
theorem sat_sortBucket (hsort : Sorts comp cfg init B bound sort)
    (hz : Bucketed comp key p xs nb bss done zs m) (hbound : Boundaries false nb xs.length bss)
    (hp : p.arr = .input) (hs : s.Fresh cfg init B m) (hb : b < nb)
    (hsmall : bss (b + 1) - bss b ≤ 2 * cfg.kBaseCaseSize → done b)
    (hlt : 2 * cfg.kBaseCaseSize < bss (b + 1) - bss b → bss (b + 1) - bss b < bound) :
    Sat (slots Area α init) (partitionSpace cfg.kMaxBuckets B xs.length p)
      (sortBucket cfg sort p bss b s) m fun s' m' => s'.Fresh cfg init B m' ∧ ∃ zs',
        Bucketed comp key p xs nb bss (fun c => c = b ∨ done c) zs' m' := by
  rw [sortBucket]
  split
  · next hbig =>
    have hsat := hsort (p + bss b) (zs b) s m hp (by rw [hz.length b hb]; exact hlt hbig) hs
      (hz.has b hb)
    rw [← hz.length b hb]
    refine (sat_frame hsat).mono (partitionSpace_subset ?_) ?_
    · have hstep := hbound.step b hb
      have hend := hbound.mono (show b + 1 ≤ nb from hb) le_rfl
      rw [hbound.last] at hend
      rw [hz.length b hb]
      omega
    rintro s' m' ⟨⟨hs', ys, hperm, hsorted, hhas⟩, hf⟩
    exact ⟨hs', _, hz.replace hbound hp hb hperm hsorted hhas hf⟩
  · next hno =>
    refine ⟨hs, zs, hz.mono fun c hc hd => ?_⟩
    rcases hd with rfl | hd
    · exact hsmall (Nat.le_of_not_lt hno)
    · exact hd

/-- **The recursive calls sort all buckets** that are not sorted yet; equality buckets are left
out. -/
theorem sat_sortBuckets (hsort : Sorts comp cfg init B bound sort) {eq : Bool}
    (hz : Bucketed comp key p xs nb bss done zs m) (hbound : Boundaries false nb xs.length bss)
    (hp : p.arr = .input) (hs : s.Fresh cfg init B m)
    (hsmall : ∀ b < nb, bss (b + 1) - bss b ≤ 2 * cfg.kBaseCaseSize → done b)
    (heven : eq = true → nb % 2 = 0 ∧ 4 ≤ nb)
    (hequal : ∀ b < nb, eq = true → b % 2 = 1 → b < nb - 2 → done b)
    (hlt : ∀ b < nb, ¬ (eq = true ∧ b % 2 = 1 ∧ b < nb - 2) →
      2 * cfg.kBaseCaseSize < bss (b + 1) - bss b → bss (b + 1) - bss b < bound) :
    Sat (slots Area α init) (partitionSpace cfg.kMaxBuckets B xs.length p)
      (sortBuckets cfg sort p eq bss nb s) m fun s' m' => s'.Fresh cfg init B m' ∧ ∃ zs',
        Bucketed comp key p xs nb bss (fun _ => True) zs' m' := by
  -- one bucket more, of which it is known that it comes next
  have hnext : ∀ i j b (s : Sorter α) m, b < nb → ¬ (eq = true ∧ b % 2 = 1 ∧ b < nb - 2) →
      (∀ c < nb, c < j → c = b ∨ c < i ∨ done c) →
      (s.Fresh cfg init B m ∧ ∃ zs, Bucketed comp key p xs nb bss (fun c => c < i ∨ done c) zs m) →
      Sat (slots Area α init) (partitionSpace cfg.kMaxBuckets B xs.length p)
        (sortBucket cfg sort p bss b s) m fun s' m' => s'.Fresh cfg init B m' ∧ ∃ zs',
          Bucketed comp key p xs nb bss (fun c => c < j ∨ done c) zs' m' := by
    rintro i j b s m hb hne hj ⟨hs, zs, hz⟩
    refine (hz.sat_sortBucket hsort hbound hp hs hb (fun h => .inr (hsmall b hb h))
      (hlt b hb hne)).imp ?_
    rintro s' m' ⟨hs', zs', hz'⟩
    refine ⟨hs', zs', hz'.mono fun c hc hd => ?_⟩
    rcases hd with hcj | hd
    · exact hj c hc hcj
    · exact .inr (.inr hd)
  have hstart : s.Fresh cfg init B m ∧ ∃ zs,
      Bucketed comp key p xs nb bss (fun c => c < 0 ∨ done c) zs m :=
    ⟨hs, zs, hz.mono fun c _ hd => hd.resolve_left (Nat.not_lt_zero c)⟩
  rw [sortBuckets]
  split
  · next heq =>
    obtain ⟨hmod, hfour⟩ := heven heq
    rw [sat_bind]
    -- after `i` rounds the buckets below `2 * i` are sorted, the last of them an equality bucket,
    -- unless it is the last bucket of all
    refine (sat_loop (fun i (s : Sorter α) m => s.Fresh cfg init B m ∧ ∃ zs,
      Bucketed comp key p xs nb bss (fun c => c < min (2 * i) (nb - 1) ∨ done c) zs m)
      (by simpa using hstart) fun i hi s m hI => ?_).imp fun s m hI => ?_
    · refine hnext _ _ _ s m (by omega) (fun hne => by omega) (fun c hc hcj => ?_) hI
      rcases Nat.lt_or_ge c (min (2 * i) (nb - 1)) with hlt | hge
      · exact .inr (.inl hlt)
      · rcases eq_or_ne c (2 * i) with rfl | hne
        · exact .inl rfl
        · exact .inr (.inr (hequal c hc heq (by omega) (by omega)))
    · refine (hnext _ nb (nb - 1) s m (by omega) (fun hne => by omega) (fun c hc _ => ?_) hI).imp ?_
      · omega
      · rintro s' m' ⟨hs', zs', hz'⟩
        exact ⟨hs', zs', hz'.mono fun c hc _ => .inl hc⟩
  · next heq =>
    refine (sat_loop (fun i (s : Sorter α) m => s.Fresh cfg init B m ∧ ∃ zs,
      Bucketed comp key p xs nb bss (fun c => c < i ∨ done c) zs m) hstart
      fun i hi s m hI => ?_).imp ?_
    · exact hnext i (i + 1) i s m hi (fun hne => heq hne.1) (fun c _ hcj => by omega) hI
    · rintro s' m' ⟨hs', zs', hz'⟩
      exact ⟨hs', zs', hz'.mono fun c hc _ => .inl hc⟩

end Bucketed

/-! ### Sorting -/

/-- What sorting in place relies on: a sample has fewer elements than the range, and where there is
a further level, one splitter is enough to switch equality buckets on. -/
structure Sound (cfg : Config) : Prop extends cfg.Admitted where
  sample_lt : ∀ n, 2 * cfg.kBaseCaseSize < n → cfg.numSamples n < n
  equalOn : ∀ n, cfg.kSingleLevelThreshold < n → cfg.EqualOn n

/-- Where there is a further level, there are half as many levels at least as are configured. -/
theorem half_le_logBuckets {cfg : Config} (hcfg : cfg.Admitted)
    (hwide : cfg.kBaseCaseSize * 2 ^ cfg.kLogBuckets < 2 ^ 63) {n : ℕ}
    (hn : cfg.kSingleLevelThreshold < n) : (cfg.kLogBuckets + 1) / 2 ≤ cfg.logBuckets n := by
  have hbase : 0 < cfg.kBaseCaseSize := hcfg.unroll_pos.trans hcfg.unroll_le
  have hle : 2 ^ cfg.kLogBuckets * cfg.kBaseCaseSize ≤ n := by
    rw [Nat.mul_comm, ← cfg.kSingleLevelThreshold_eq hwide]
    exact hn.le
  have hlog : cfg.kLogBuckets ≤ log2 (n / cfg.kBaseCaseSize) :=
    le_log2 ((Nat.le_div_iff_mul_le hbase).mpr hle)
  have hpos := hcfg.log_pos
  rw [Config.logBuckets, if_neg (by omega)]
  split_ifs <;> omega

/-- **When a configuration is sound**: with the default oversampling, and equality buckets that are
switched on by few duplicates. -/
theorem sound_of_threshold {cfg : Config} (hcfg : cfg.Admitted)
    (hwide : cfg.kBaseCaseSize * 2 ^ cfg.kLogBuckets < 2 ^ 63) (hover : cfg.kOversampleFactor = 20)
    (hallow : cfg.kAllowEqualBuckets = true)
    (hthreshold : cfg.kEqualBucketsThreshold ≤ 2 ^ ((cfg.kLogBuckets + 1) / 2) - 2) :
    Sound cfg where
  toAdmitted := hcfg
  sample_lt _ hn := (Config.numSamples_mem hcfg.log_pos hcfg.log_le
    (hcfg.unroll_pos.trans hcfg.unroll_le) hover hn).2
  equalOn n hn := by
    have hpow : 2 ^ ((cfg.kLogBuckets + 1) / 2) ≤ 2 ^ cfg.logBuckets n :=
      Nat.pow_le_pow_right (by decide) (half_le_logBuckets hcfg hwide hn)
    refine ⟨hallow, hthreshold.trans ?_⟩
    have : ((2 ^ ((cfg.kLogBuckets + 1) / 2) : ℕ) : ℤ) ≤ (2 ^ cfg.logBuckets n : ℕ) := by
      exact_mod_cast hpow
    push_cast at this ⊢
    omega

/-- `Config<>` of the in-place algorithm. -/
def inPlaceConfig : Config := { kLogBuckets := 8 }

theorem inPlaceConfig_sound : Sound inPlaceConfig :=
  sound_of_threshold ⟨by decide, by decide, by decide, by decide⟩ (by decide) rfl rfl (by decide)

section
variable {comp : α → α → Bool} {cfg : Config} {init : Bool} {B n bound : ℕ} {p : Ptr Area}
  {xs : List α} {m : Mem Area (Slot α)} {s : Sorter α}
  {sort : Ptr Area → ℕ → Sorter α → Act Area α (Sorter α)}

/-- What partitioning begins with, when the classifier has been built from a sample. -/
theorem Sorter.Fresh.sampled (hs : s.Fresh cfg init B m) (hc : StrictWeak comp)
    (hcfg : cfg.Admitted) {sample : List α} (hsample : cfg.Sample comp n sample)
    {c : Classifier α}
    (hbuilt : c.Built (cfg.leavesFrom comp n sample) (cfg.splittersFrom comp n sample)) :
    Sampled comp cfg init B (cfg.leavesFrom comp n sample) (cfg.equalFrom comp n sample)
      (cfg.splittersFrom comp n sample)
      { s with
        data := { s.data with classifier := c }
        numBuckets := 2 ^ cfg.leavesFrom comp n sample *
          (1 + (cfg.equalFrom comp n sample).toNat) } m where
  weak := hc
  sorted := hsample.splitters_sorted hc
  built := hbuilt
  log_le := (hsample.leaves_le hc).trans (cfg.logBuckets_mem hcfg.log_pos n).2
  equal h := by
    rw [Config.equalFrom, Bool.and_eq_true] at h
    exact h.1
  num := by cases cfg.equalFrom comp n sample <;> simp [pow_succ]
  empty := hs.buffers
  zero := hs.zero

/-- The elements of an equality bucket are tied. -/
theorem tied_of_equalBucket (hc : StrictWeak comp) {splitters : List α}
    (hsorted : Sorted comp splitters) {k b : ℕ} (hl : splitters.length = 2 ^ k - 1) {eq : Bool}
    (h : eq = true ∧ b % 2 = 1 ∧ b < 2 ^ k * (1 + eq.toNat) - 2) {x y : α}
    (hx : Classifier.bucketOf comp eq splitters x = b)
    (hy : Classifier.bucketOf comp eq splitters y = b) : comp y x = false := by
  obtain ⟨rfl, hodd, hlast⟩ := h
  rw [Bool.toNat_true] at hlast
  have hlt : b / 2 < splitters.length := by omega
  have hb : b = 2 * (b / 2) + 1 := by omega
  exact hc.le_trans (Classifier.bucketOf_equal hc hsorted (hx.trans hb) hlt).2
    (Classifier.bucketOf_equal hc hsorted (hy.trans hb) hlt).1

/-- **One level of the recursion sorts**, when what it recurses on is sorted. -/
theorem sat_sequentialRec (hc : StrictWeak comp) (hcfg : Sound cfg) (hB : 1 ≤ B)
    (hsort : Sorts comp cfg init B xs.length sort) (hp : p.arr = .input)
    (hn : 2 * cfg.kBaseCaseSize < xs.length) (hs : s.Fresh cfg init B m)
    (hm : Has m p (xs.map .full)) :
    Sat (slots Area α init) (partitionSpace cfg.kMaxBuckets B xs.length p)
      (sequentialRec comp cfg init B sort p xs.length s) m fun s' m' => s'.Fresh cfg init B m' ∧
        ∃ ys : List α, ys.Perm xs ∧ Sorted comp ys ∧ Has m' p (ys.map .full) := by
  have hlt := hcfg.sample_lt xs.length hn
  rw [sequentialRec, partitionSequential, bind_assoc, sat_bind]
  refine (sat_buildClassifier hc hsort (fun s m hs => hs.classifier) hp hlt hlt.le
    (cfg.logBuckets_mem hcfg.log_pos _).1 hs hm).imp ?_
  rintro _ m₁ ⟨s₁, sample, rest, c, hs₁, hperm, hm₁, hsample, hbuilt, rfl⟩
  have hlen := hperm.length_eq
  rw [← hlen] at hsample hbuilt hn hsort ⊢
  have hsampled := hs₁.sampled hc hcfg.toAdmitted hsample hbuilt
  rw [bind_assoc, sat_bind]
  refine (sat_partition hsampled hcfg.toAdmitted hB hp hn hm₁ hs₁.idle hs₁.overflow
    (Nat.lt_succ_self _)).imp ?_
  rintro s₂ m₂ ⟨hs₂, hnum, hbound, zs, hz⟩
  dsimp only at hnum hbound hz ⊢
  have hfinish : ∀ {zs m'}, Bucketed comp (Classifier.bucketOf comp
      (cfg.equalFrom comp (sample ++ rest).length sample)
      (cfg.splittersFrom comp (sample ++ rest).length sample)) p (sample ++ rest)
      (2 ^ cfg.leavesFrom comp (sample ++ rest).length sample *
        (1 + (cfg.equalFrom comp (sample ++ rest).length sample).toNat))
      s₂.bucketStart (fun _ => True) zs m' →
      ∃ ys : List α, ys.Perm xs ∧ Sorted comp ys ∧ Has m' p (ys.map .full) := by
    intro zs m' hz
    obtain ⟨ys, hys, hsorted, hhas⟩ := hz.sorts hbound (fun x _ => hsampled.key_lt x)
      (fun x y => Classifier.bucketOf_ordered hc _) fun _ _ => trivial
    exact ⟨ys, hys.trans hperm, hsorted, hhas⟩
  have hz' := hz.sorted_of_tied fun b _ h x y =>
    tied_of_equalBucket hc (hsample.splitters_sorted hc) (hsample.length_splitters hc) h
  rw [pure_bind]
  dsimp only
  split
  · next hle => exact ⟨hs₂, hfinish (hz'.mono fun _ _ _ => .inr (.inl hle))⟩
  · next hgt =>
    rw [hnum]
    refine (hz'.sat_sortBuckets hsort hbound hp hs₂ (fun b _ hsmall => .inr (.inr hsmall))
      (even_numBuckets (Nat.le_add_left 1 _) _) (fun b _ heq hodd hlast => .inl ⟨heq, hodd, hlast⟩)
      fun b hb hne _ => ?_).imp ?_
    · have hdisj : (⟨.input, 0⟩ : Ptr Arr).arr ≠ (⟨.tmp, 0⟩ : Ptr Arr).arr := by decide
      rw [hz.size hb]
      exact size_lt_of_equalOn hc hsample hdisj rest rfl (hcfg.equalOn _ (by omega)) hb hne
    · rintro s₃ m₃ ⟨hs₃, zs, hz₃⟩
      exact ⟨hs₃, hfinish hz₃⟩

/-- **Sorting**: `sequential` sorts every range that has fewer elements than it may be deep. -/
theorem sat_sequential (hc : StrictWeak comp) (hcfg : Sound cfg) (hB : 1 ≤ B) (fuel : ℕ) :
    Sorts comp cfg init B fuel (sequential comp cfg init B fuel) := by
  induction fuel with
  | zero => exact fun p xs s m _ hlt => absurd hlt (Nat.not_lt_zero _)
  | succ fuel ih =>
    intro p xs s m hp hlt hs hm
    rw [sequential]
    split
    · rw [sat_bind]
      refine (sat_frame (sat_baseCaseSort comp hm)).mono (seg_subset_partitionSpace cfg B) ?_
      rintro _ m' ⟨hm', hf⟩
      exact ⟨hs.frame hp hf, _, insertionSorted_perm comp xs, insertionSorted_sorted hc xs, hm'⟩
    · next hgt =>
      refine sat_sequentialRec hc hcfg hB (fun p ys s m hp hys => ?_) hp (by omega) hs hm
      exact ih p ys s m hp (by omega)

/-! ### The interface -/

/-- The sorter sorts. -/
theorem sat_sorter (hc : StrictWeak comp) (hcfg : Sound cfg) (hB : 1 ≤ B) {fuel : ℕ}
    (hfuel : xs.length < fuel) (check : Bool) (hp : p.arr = .input) (hs : s.Fresh cfg init B m)
    (hm : Has m p (xs.map .full)) :
    Sat (slots Area α init) (partitionSpace cfg.kMaxBuckets B xs.length p)
      (SequentialSorter.sort comp cfg init B fuel check p xs.length s) m fun s' m' =>
        s'.Fresh cfg init B m' ∧
        ∃ ys : List α, ys.Perm xs ∧ Sorted comp ys ∧ Has m' p (ys.map .full) := by
  have htest : Sat (slots Area α init) (seg p xs.length) (checkSorted comp check p xs.length) m
      fun b m' =>
        (b = true → ∃ ys : List α, ys.Perm xs ∧ Sorted comp ys ∧ Has m' p (ys.map .full)) ∧
        (b = false → m' = m) := by
    cases check with
    | false => exact sat_ret.mpr ⟨by simp, fun _ => rfl⟩
    | true => exact sat_sortedCaseSort comp hc hm
  rw [SequentialSorter.sort, sat_bind]
  refine (sat_frame htest).mono (seg_subset_partitionSpace cfg B) ?_
  rintro b m₁ ⟨⟨htrue, hfalse⟩, hf⟩
  cases b with
  | true => exact ⟨hs.frame hp hf, htrue rfl⟩
  | false =>
    obtain rfl := hfalse rfl
    exact sat_sequential hc hcfg hB fuel p xs s m₁ hp hfuel hs hm

/-- `ips4o::sort` sorts. -/
theorem sat_sort (hc : StrictWeak comp) (hcfg : Sound cfg) (hB : 1 ≤ B) {fuel : ℕ}
    (hfuel : xs.length < fuel) (hp : p.arr = .input) (hs : s.Fresh cfg init B m)
    (hm : Has m p (xs.map .full)) :
    Sat (slots Area α init) (partitionSpace cfg.kMaxBuckets B xs.length p)
      (InPlace.sort comp cfg init B fuel p xs.length s) m fun _ m' =>
        ∃ ys : List α, ys.Perm xs ∧ Sorted comp ys ∧ Has m' p (ys.map .full) := by
  rw [InPlace.sort, sat_bind]
  refine (sat_sortedCaseSort comp hc hm).mono (seg_subset_partitionSpace cfg B) ?_
  rintro b m₁ ⟨htrue, hfalse⟩
  cases b with
  | true => exact htrue rfl
  | false =>
    obtain rfl := hfalse rfl
    simp only [Bool.false_eq_true, if_false]
    split
    · refine (sat_baseCaseSort comp hm).mono (seg_subset_partitionSpace cfg B) fun _ m' hm' => ?_
      exact ⟨_, insertionSorted_perm comp xs, insertionSorted_sorted hc xs, hm'⟩
    · rw [sat_bind]
      exact (sat_sorter hc hcfg hB hfuel false hp hs hm).imp fun _ _ h => h.2

/-- **The in-place sort terminates and sorts**: for every array, every strict weak order, every size
of a block, whatever numbers are drawn, and with every configuration in which equality buckets are
switched on by few duplicates. It changes nothing outside of the range and the buffers, and leaves a
sorter as it has found it. The recursion is at most as deep as the array is long. -/
theorem sort_sorts_in_place (hc : StrictWeak comp) (hcfg : cfg.Admitted)
    (hwide : cfg.kBaseCaseSize * 2 ^ cfg.kLogBuckets < 2 ^ 63)
    (hover : cfg.kOversampleFactor = 20) (hallow : cfg.kAllowEqualBuckets = true)
    (hthreshold : cfg.kEqualBucketsThreshold ≤ 2 ^ ((cfg.kLogBuckets + 1) / 2) - 2) (hB : 1 ≤ B)
    {fuel : ℕ} (hfuel : xs.length < fuel) (hp : p.arr = .input) (hs : s.Fresh cfg init B m)
    (hm : Has m p (xs.map .full)) (choices : ℕ → ℕ) :
    (∃ c' m', run (slots Area α init) (InPlace.sort comp cfg init B fuel p xs.length s) choices m =
      .ok ((), c', m') ∧
      (slots Area α init).AgreeOn (partitionSpace cfg.kMaxBuckets B xs.length p)ᶜ m m' ∧
      ∃ ys : List α, ys.Perm xs ∧ Sorted comp ys ∧ Has m' p (ys.map .full)) ∧
    ∀ check, ∃ s' c' m', run (slots Area α init)
        (SequentialSorter.sort comp cfg init B fuel check p xs.length s) choices m =
        .ok (s', c', m') ∧
      (slots Area α init).AgreeOn (partitionSpace cfg.kMaxBuckets B xs.length p)ᶜ m m' ∧
      s'.Fresh cfg init B m' ∧
      ∃ ys : List α, ys.Perm xs ∧ Sorted comp ys ∧ Has m' p (ys.map .full) := by
  have hsound := sound_of_threshold hcfg hwide hover hallow hthreshold
  constructor
  · obtain ⟨_, c', m', hrun, h, hf⟩ := (sat_sort hc hsound hB hfuel hp hs hm).frame.run choices
    exact ⟨c', m', hrun, hf, h⟩
  · intro check
    obtain ⟨s', c', m', hrun, ⟨hs', h⟩, hf⟩ :=
      (sat_sorter hc hsound hB hfuel check hp hs hm).frame.run choices
    exact ⟨s', c', m', hrun, hf, hs', h⟩

end

/-- A new sorter: only its buffers, its bucket sizes and its classifier have been set. -/
def Sorter.new (B : ℕ) (bucketPointers : ℕ → BucketPointers) (numBuckets : ℕ)
    (bucketStart : ℕ → ℕ) (overflow : Bool) : Sorter α :=
  ⟨⟨fun _ => 0, .start B, bucketPointers, ⟨fun _ => .raw, fun _ => .raw, 0, 0⟩⟩, numBuckets,
    bucketStart, overflow⟩

/-- A new sorter is fresh, when the storage it uses can be used. -/
theorem Sorter.new_fresh (cfg : Config) (bucketPointers : ℕ → BucketPointers)
    (numBuckets : ℕ) (bucketStart : ℕ → ℕ) (overflow : Bool) {init : Bool} {B : ℕ}
    {m : Mem Area (Slot α)} (h : ∀ (q : Ptr Area), q.arr ≠ .input → Ready init m q B) :
    (Sorter.new B bucketPointers numBuckets bucketStart overflow).Fresh cfg init B m where
  classifier := ⟨rfl, fun _ => rfl, fun _ => rfl⟩
  buffers b _ := Buffers.start_holds (h (Buffers.data B b) (by simp [Buffers.data]))
  zero _ _ := rfl
  idle c := h (swapBlockAt c) (by simp [swapBlockAt])
  overflow := h overflowBlock (by simp [overflowBlock])

/-- Five thousand numbers with many equal ones, from the third place of the array on, in blocks of
256. -/
theorem sort_sorts_in_place_nat :
    (∃ c' m', run (slots Area ℕ false) (InPlace.sort (fun a b => decide (a < b)) inPlaceConfig false
        256 5001 ⟨.input, 2⟩ 5000 (Sorter.new 256 (fun _ => .set 7 3) 5 (fun b => b) true))
        (fun i => 31 * i) (Mem.ofList ⟨.input, 2⟩ ((List.range 5000).map fun i => i * 37 % 50)
          fun _ => 9) = .ok ((), c', m') ∧
      (slots Area ℕ false).AgreeOn (partitionSpace inPlaceConfig.kMaxBuckets 256 5000 ⟨.input, 2⟩)ᶜ
        (Mem.ofList ⟨.input, 2⟩ ((List.range 5000).map fun i => i * 37 % 50) fun _ => 9) m' ∧
      ∃ ys : List ℕ, ys.Perm ((List.range 5000).map fun i => i * 37 % 50) ∧
        Sorted (fun a b => decide (a < b)) ys ∧ Has m' ⟨.input, 2⟩ (ys.map .full)) := by
  have hfuel : ((List.range 5000).map fun i => i * 37 % 50).length < 5001 := by simp
  have hraw : ∀ q : Ptr Area, q.arr ≠ .input → Ready false (Mem.ofList ⟨Area.input, 2⟩
      ((List.range 5000).map fun i => i * 37 % 50) fun _ => 9) q 256 :=
    fun q hq _ => raw_ofList _ _ hq _
  have h := (sort_sorts_in_place (StrictWeak.of_linearOrder ℕ)
    ⟨by decide, by decide, by decide, by decide⟩ (by decide) rfl rfl (by decide) (by decide)
    hfuel rfl
    (Sorter.new_fresh inPlaceConfig (fun _ => .set 7 3) 5 (fun b => b) true hraw)
    (has_ofList ⟨Area.input, 2⟩ _ fun _ => 9) fun i => 31 * i).1
  simpa using h

end Ps4o.InPlace
