import Ps4o.InPlace.ArrangedBlocks

/-!
# Partitioning in place

`partition` of the in-place algorithm, by one thread (`partitioning.hpp`): the elements are
classified, the blocks are brought to their buckets, and the margins are filled.

## What is proved

* `sat_arrangeBlocks` — classification and block permutation, as one step.
* `sat_partition` — partitioning leaves every bucket with its elements, those sorted that the
  recursion does not come back to, and the sorter as it was.
* `partition_in_place` — **every bucket holds the elements classified into it**, no other memory is
  accessed than the range and the buffers, no loop runs on, and all buffers are empty again.
-/

namespace Ps4o.InPlace

open Ps4o.Program Ps4o.Storage Ps4o.Order

variable {α : Type}

/-! ### The code -/

/-- Resets local data after partitioning is done. -/
def LocalData.reset (cfg : Config) (d : LocalData α) : Option (LocalData α) := do
  let c ← d.classifier.reset
  pure { d with
    classifier := c
    bucketSize := fun i => if i < cfg.kMaxBuckets then 0 else d.bucketSize i }

/-- Main partitioning function, of `n` elements from `p` on, once the classifier has been built; no
loop of the block permutation takes more than `fuel` rounds. -/
def partition (comp : α → α → Bool) (cfg : Config) (kInitializedStorage : Bool) (kBlockSize : ℕ)
    (useEqualBuckets : Bool) (fuel : ℕ) (p : Ptr Area) (n : ℕ) (s : Sorter α) :
    Act Area α (Sorter α) := do
  let s := { s with overflow := false }
  -- Local Classification
  let s ← sequentialClassification comp cfg kInitializedStorage kBlockSize useEqualBuckets p n s
  -- Compute which bucket can cause overflow
  let overflowBucket := computeOverflowBucket kBlockSize s.bucketStart s.numBuckets
  -- Block Permutation
  let ptrs ← permuteBlocks comp kInitializedStorage kBlockSize useEqualBuckets
    s.data.classifier p fuel n s.numBuckets ⟨s.data.bucketPointers, s.overflow⟩
  let s := { s with
    data := { s.data with bucketPointers := ptrs.bucketPointers }
    overflow := ptrs.overflow }
  -- Cleanup
  let s ← writeMargins comp cfg kInitializedStorage kBlockSize p n 0
    s.numBuckets overflowBucket none 0 s
  let data ← Prog.ofOption (s.data.reset cfg)
  pure { s with data := data }

/-! ### Buckets in place -/

/-- What partitioning works on: the range, the buffers, the swap blocks and the overflow block. -/
def partitionSpace (kMaxBuckets B n : ℕ) (p : Ptr Area) : Set (Loc Area) :=
  permuteSpace B n p ∪ bufferSpace kMaxBuckets B

/-- Every bucket of the range holds exactly the elements of `xs` that have been classified into it,
and all buffers are empty. -/
structure Partitioned (cfg : Config) (init : Bool) (B : ℕ) (key : α → ℕ) (p : Ptr Area)
    (xs : List α) (s : Sorter α) (m : Mem Area (Slot α)) (ys : List α) : Prop where
  boundaries : Boundaries false s.numBuckets xs.length s.bucketStart
  perm : ys.Perm xs
  has : Has m p (ys.map .full)
  bucket : ∀ b < s.numBuckets, ∀ (i : ℕ) (x : α), ys[i]? = some x →
    (s.bucketStart b ≤ i ∧ i < s.bucketStart (b + 1) ↔ key x = b)
  buffers : ∀ b < cfg.kMaxBuckets, s.data.buffers.Holds init B m b ([] : List α)
  zero : ∀ b < cfg.kMaxBuckets, s.data.bucketSize b = 0
  idle : Idle init B m
  overflow : Ready init m overflowBlock B

section
variable {n nb : ℕ} {bss : ℕ → ℕ} {key : α → ℕ} {p : Ptr Area} {m : Mem Area (Slot α)} {xs : List α}
  {zs : ℕ → List α}

/-- Buckets that hold their elements make a range. -/
theorem has_buckets (h : Boundaries false nb n bss)
    (hz : ∀ b < nb, (zs b).length = bss (b + 1) - bss b)
    (hm : ∀ b < nb, Has m (p + bss b) ((zs b).map .full)) {i : ℕ} (hi : i ≤ nb) :
    ((List.range i).flatMap zs).length = bss i ∧
    Has m p (((List.range i).flatMap zs).map .full) := by
  induction i with
  | zero => exact ⟨h.zero.symm, has_nil⟩
  | succ i ih =>
    obtain ⟨hlen, hhas⟩ := ih (by omega)
    have hstep := h.step i hi
    rw [List.range_succ, List.flatMap_append, List.flatMap_singleton, List.map_append,
      has_append, List.length_append, List.length_map, hlen, hz i hi]
    exact ⟨Nat.add_sub_of_le hstep, hhas, hm i hi⟩

/-- The element at a position is one of the bucket there. -/
theorem mem_bucket (h : Boundaries false nb n bss)
    (hz : ∀ b < nb, (zs b).length = bss (b + 1) - bss b)
    (hm : ∀ b < nb, Has m (p + bss b) ((zs b).map .full)) {b i : ℕ} {x : α} (hb : b < nb)
    (hx : ((List.range nb).flatMap zs)[i]? = some x) (h₁ : bss b ≤ i) (h₂ : i < bss (b + 1)) :
    x ∈ zs b := by
  have hlt : i - bss b < (zs b).length := by
    rw [hz b hb]
    omega
  have hslot := (has_buckets h hz hm le_rfl).2 i (.full x) (by rw [List.getElem?_map, hx]; rfl)
  have hslot' := hm b hb (i - bss b) (.full (zs b)[i - bss b]) (by simp [hlt])
  rw [Ptr.add_assoc, Nat.add_sub_of_le h₁, hslot] at hslot'
  rw [Slot.full.inj hslot']
  exact List.getElem_mem hlt

/-- An element is in the bucket of its key. -/
theorem mem_bucket_iff (h : Boundaries false nb n bss)
    (hz : ∀ b < nb, (zs b).length = bss (b + 1) - bss b)
    (hm : ∀ b < nb, Has m (p + bss b) ((zs b).map .full))
    (hkey : ∀ b < nb, (zs b : Multiset α) = (xs : Multiset α).filter fun x => key x = b) {b i : ℕ}
    {x : α} (hb : b < nb) (hx : ((List.range nb).flatMap zs)[i]? = some x) :
    bss b ≤ i ∧ i < bss (b + 1) ↔ key x = b := by
  have hin : ∀ c < nb, bss c ≤ i → i < bss (c + 1) → key x = c := by
    intro c hc h₁ h₂
    have hmem : x ∈ (zs c : Multiset α) := mem_bucket h hz hm hc hx h₁ h₂
    rw [hkey c hc] at hmem
    exact (Multiset.mem_filter.mp hmem).2
  refine ⟨fun hi => hin b hb hi.1 hi.2, ?_⟩
  rintro rfl
  have hi := (List.getElem?_eq_some_iff.mp hx).1
  rw [(has_buckets h hz hm le_rfl).1, h.last] at hi
  obtain ⟨c, hc, h₁, h₂⟩ := h.exists_bucket hi
  rw [hin c hc h₁ h₂]
  exact ⟨h₁, h₂⟩

/-- Buckets that have the elements with their keys have all elements. -/
theorem perm_buckets
    (hz : ∀ b < nb, (zs b : Multiset α) = (xs : Multiset α).filter fun x => key x = b)
    (hkey : ∀ x ∈ xs, key x < nb) : ((List.range nb).flatMap zs).Perm xs := by
  have hbucket : ∀ b ∈ List.range nb, (zs b).Perm (bucket (xs.map key) xs b) := by
    intro b hb
    rw [bucket_map, ← Multiset.coe_eq_coe, hz b (List.mem_range.mp hb), Multiset.filter_coe]
    rfl
  refine (List.Perm.flatMap_left _ hbucket).trans
    (distributed_perm (List.length_map key) fun c hc => ?_)
  obtain ⟨x, hx, rfl⟩ := List.mem_map.mp hc
  exact hkey x hx

end

/-! ### The step -/

/-- No splitters, empty buffers, and bucket sizes that are zero. -/
structure Sorter.Fresh (cfg : Config) (init : Bool) (B : ℕ) (s : Sorter α)
    (m : Mem Area (Slot α)) : Prop where
  classifier : s.data.classifier.Empty
  buffers : ∀ b < cfg.kMaxBuckets, s.data.buffers.Holds init B m b ([] : List α)
  zero : ∀ b < cfg.kMaxBuckets, s.data.bucketSize b = 0
  idle : Idle init B m
  overflow : Ready init m overflowBlock B

/-- What `partition` does before it fills the margins; answers the overflow bucket, too. -/
def arrangeBlocks (comp : α → α → Bool) (cfg : Config) (init : Bool) (B : ℕ) (eq : Bool) (fuel : ℕ)
    (p : Ptr Area) (n : ℕ) (s : Sorter α) : Act Area α (Sorter α × Option ℕ) := do
  let s ← sequentialClassification comp cfg init B eq p n { s with overflow := false }
  let ptrs ← permuteBlocks comp init B eq s.data.classifier p fuel n s.numBuckets
    ⟨s.data.bucketPointers, s.overflow⟩
  pure ({ s with
    data := { s.data with bucketPointers := ptrs.bucketPointers }
    overflow := ptrs.overflow }, computeOverflowBucket B s.bucketStart s.numBuckets)

theorem partition_eq (comp : α → α → Bool) (cfg : Config) (init : Bool) (B : ℕ) (eq : Bool)
    (fuel : ℕ) (p : Ptr Area) (n : ℕ) (s : Sorter α) :
    partition comp cfg init B eq fuel p n s = (do
      let r ← arrangeBlocks comp cfg init B eq fuel p n s
      let s ← writeMargins comp cfg init B p n 0 r.1.numBuckets r.2 none 0 r.1
      let data ← Prog.ofOption (s.data.reset cfg)
      pure { s with data := data }) := by
  simp only [partition, arrangeBlocks, bind_assoc, pure_bind]

/-- The blocks of every bucket are in its slots, or in the overflow block, and its other elements
are in its buffer: no margin has been filled. -/
structure BlocksArranged (cfg : Config) (init : Bool) (B nb : ℕ) (key : α → ℕ) (p : Ptr Area)
    (xs : List α) (s : Sorter α) (overflowBucket : Option ℕ) (m : Mem Area (Slot α))
    (blocks : ℕ → ℕ) (o : ℕ → Bool) (main last buf : ℕ → List α) : Prop where
  boundaries : Boundaries false nb xs.length s.bucketStart
  filling : Filling init B xs.length nb cfg.kMaxBuckets p s blocks o main last buf 0 s m fun _ => []
  uses : ∀ b < nb, o b = true ↔ some b = overflowBucket ∧ s.overflow = true
  keyed : ∀ b < nb, ((main b ++ last b ++ buf b : List α) : Multiset α) =
    (xs : Multiset α).filter fun x => key x = b
  idle : Idle init B m

/-- The buckets of the `n` elements from `p` on, between their boundaries; those for which `done`
holds are sorted. -/
structure Bucketed (comp : α → α → Bool) (key : α → ℕ) (p : Ptr Area) (xs : List α) (nb : ℕ)
    (bss : ℕ → ℕ) (done : ℕ → Prop) (zs : ℕ → List α) (m : Mem Area (Slot α)) : Prop where
  length : ∀ b < nb, (zs b).length = bss (b + 1) - bss b
  has : ∀ b < nb, Has m (p + bss b) ((zs b).map .full)
  keyed : ∀ b < nb, (zs b : Multiset α) = (xs : Multiset α).filter fun x => key x = b
  sorted : ∀ b < nb, done b → Sorted comp (zs b)

section
variable {comp : α → α → Bool} {cfg : Config} {init : Bool} {B k : ℕ} {eq : Bool} {p : Ptr Area}
  {xs splitters : List α} {m : Mem Area (Slot α)} {s : Sorter α}

/-- **The blocks are arranged**: elements are classified, and blocks are permuted. -/
theorem sat_arrangeBlocks (h : Sampled comp cfg init B k eq splitters s m) (hcfg : cfg.Admitted)
    (hB : 1 ≤ B) (hp : p.arr = .input) (hn : 2 * cfg.kBaseCaseSize < xs.length)
    (hm : Has m p (xs.map .full)) (hidle : Idle init B m) (hover : Ready init m overflowBlock B)
    {fuel : ℕ} (hfuel : xs.length < fuel) :
    Sat (slots Area α init) (partitionSpace cfg.kMaxBuckets B xs.length p)
      (arrangeBlocks comp cfg init B eq fuel p xs.length s) m fun r m' =>
        r.1.numBuckets = s.numBuckets ∧ r.1.data.classifier = s.data.classifier ∧
        ∃ blocks o main last buf, BlocksArranged cfg init B s.numBuckets
          (Classifier.bucketOf comp eq splitters) p xs r.1 r.2 m' blocks o main last buf := by
  set key := Classifier.bucketOf comp eq splitters
  set nb := s.numBuckets
  have hunroll := hcfg.unroll_le
  rw [arrangeBlocks, sat_bind]
  refine (sat_frame (sat_sequentialClassification (s := { s with overflow := false })
    ⟨h.weak, h.sorted, h.built, h.log_le, h.equal, h.num, h.empty, h.zero⟩ hcfg hB hp
    (by omega) hm)).mono (Set.union_subset_union_left _ fun l hl => .inl (.inl hl)) ?_
  rintro s₁ m₁ ⟨⟨blocks, buf, hst, hstart, hptr, hcl, hnum, hov⟩, hframe₁⟩
  dsimp only at hst hstart hptr hcl hnum hov
  have hkeys : ∀ x, key x < nb := h.key_lt
  have hbound : Boundaries false nb xs.length s₁.bucketStart := by
    refine ⟨Nat.one_le_two_pow.trans_eq h.num.symm, (hstart 0 (Nat.zero_le _)).trans start_zero,
      (hstart nb le_rfl).trans ?_, fun b hb => ?_, by simp⟩
    · rw [start_eq_length, length_keysOf]
      intro b hb
      obtain ⟨x, -, rfl⟩ := List.mem_map.mp hb
      exact hkeys x
    · rw [hstart b hb.le, hstart (b + 1) hb]
      exact start_le_succ b
  have hsize : ∀ b < nb, s₁.bucketStart (b + 1) =
      s₁.bucketStart b + fullBlocks B key blocks b * B + (buf b).length := by
    intro b hb
    rw [hstart b hb.le, hstart (b + 1) hb, start_succ, keysOf, hst.count hb, Nat.add_assoc]
  -- the swap blocks and the overflow block have not been used
  have hspare : ∀ {q : Ptr Area}, q.arr ≠ .input → q.arr ≠ .buffers → Ready init m q B →
      Ready init m₁ q B := by
    intro q hq₁ hq₂ hready
    refine hframe₁.ready hready fun i _ hmem => ?_
    rcases hmem with hmem | hmem
    · exact notMem_seg_of_arr (by rwa [hp]) hmem
    · exact notMem_seg_of_arr hq₂ hmem
  have hover₁ : Ready init m₁ overflowBlock B :=
    hspare (by simp [overflowBlock]) (by simp [overflowBlock]) hover
  have hperm := hst.permutes (s := ⟨s₁.data.bucketPointers, s₁.overflow⟩) hbound hB rfl hov
    (fun b hb => congrArg BucketPointers.w ((hptr b hb).trans
      (setPointers_eq hB (hb.trans_eq hnum.symm))))
    (fun b hb => congrArg BucketPointers.r ((hptr b hb).trans
      (setPointers_eq hB (hb.trans_eq hnum.symm)))) hover₁
  have hfits : ∀ b < nb, _ := fun b hb => hst.fits hB hsize hb
  have hcount : ∀ b < nb, ((blocks.flatten : Multiset α).countP fun x => key x = b) =
      fullBlocks B key blocks b * B :=
    fun b _ => by rw [Multiset.coe_countP, fullBlocks_mul hst.block]
  rw [sat_bind, hnum, hcl]
  refine (sat_frame (sat_permuteBlocks (f := fullBlocks B key blocks) hbound hB hp
    (h.built.classify h.weak h.sorted (h.log_le.trans (hcfg.log_le.trans (by decide))) eq)
    hcount hfits hperm (fun c => hspare (by simp [swapBlockAt]) (by simp [swapBlockAt]) (hidle c))
    (hst.sum_lt hB hfuel))).mono Set.subset_union_left ?_
  rintro ptrs m₂ ⟨⟨W, E, cont, hs₂, hdone, hidle₂⟩, hframe₂⟩
  have ha := hs₂.arranged hbound hB hdone hcount hfits
  have hbuf₂ : ∀ b < cfg.kMaxBuckets, s₁.data.buffers.Holds init B m₂ b (buf b) := fun b hb =>
    (hst.holds b hb).frame rfl rfl hframe₂ fun x _ hmem => by
      rcases hmem with (hmem | hmem | hmem) | hmem
      · exact notMem_seg_of_arr (by simp [Buffers.data, hp]) hmem
      all_goals exact notMem_seg_of_arr (by simp [Buffers.data, swapBlockAt, overflowBlock]) hmem
  have hlazy : ∀ b < nb, 1 ≤ fullBlocks B key blocks b → buf b ≠ [] :=
    fun b _ hpos => hst.buf_ne_nil hpos hB
  have hnone : ∀ b, nb ≤ b → buf b = [] := by
    intro b hb
    refine List.eq_nil_iff_forall_not_mem.mpr fun x hx => ?_
    exact absurd ((hst.keyed b x hx).symm.trans_lt (hkeys x)) (Nat.not_lt_of_le hb)
  refine ⟨rfl, hcl, fullBlocks B key blocks,
    usesOverflow B xs.length s₁.bucketStart (fullBlocks B key blocks),
    mainOf B xs.length s₁.bucketStart (fullBlocks B key blocks) cont,
    lastOf B xs.length s₁.bucketStart (fullBlocks B key blocks) cont, buf,
    hbound, ?_, ?_, fun b hb => ?_, hidle₂⟩
  · refine Arranged.filling ha hbound hB hs₂.mem (fun b hb => ?_) hsize hlazy hbuf₂ h.num_le hnone
    rw [← hs₂.w_eq hbound hB hcount hdone hb]
    exact hs₂.w b hb
  · exact fun b hb => ha.uses_iff hbound hB hs₂.mem.overflow hsize hlazy hb
  · rw [← hst.filter_eq hb, ha.filter_eq hbound hB hs₂.all hb]
    rfl

/-- **Partitioning** leaves every bucket with the elements that have been classified into it, sorts
those that are small, and all where there is no further level, and leaves the sorter fresh. -/
theorem sat_partition (h : Sampled comp cfg init B k eq splitters s m) (hcfg : cfg.Admitted)
    (hB : 1 ≤ B) (hp : p.arr = .input) (hn : 2 * cfg.kBaseCaseSize < xs.length)
    (hm : Has m p (xs.map .full)) (hidle : Idle init B m) (hover : Ready init m overflowBlock B)
    {fuel : ℕ} (hfuel : xs.length < fuel) :
    Sat (slots Area α init) (partitionSpace cfg.kMaxBuckets B xs.length p)
      (partition comp cfg init B eq fuel p xs.length s) m fun s' m' =>
        s'.Fresh cfg init B m' ∧ s'.numBuckets = s.numBuckets ∧
        Boundaries false s.numBuckets xs.length s'.bucketStart ∧ ∃ zs,
        Bucketed comp (Classifier.bucketOf comp eq splitters) p xs s.numBuckets s'.bucketStart
          (fun b => xs.length ≤ cfg.kSingleLevelThreshold ∨
            s'.bucketStart (b + 1) - s'.bucketStart b ≤ 2 * cfg.kBaseCaseSize) zs m' := by
  set nb := s.numBuckets
  rw [partition_eq, sat_bind]
  refine (sat_arrangeBlocks h hcfg hB hp hn hm hidle hover hfuel).imp ?_
  rintro ⟨s₁, overflowBucket⟩ m₁ ⟨hnum, hcl, blocks, o, main, last, buf, ha⟩
  dsimp only at hnum hcl ha ⊢
  rw [sat_bind, hnum]
  refine (sat_frame (sat_writeMargins ha.boundaries hB hp ha.uses h.num_le
    ha.filling)).mono ?_ ?_
  · exact Set.union_subset_union_left _ (Set.union_subset_union_left _ Set.subset_union_left)
  rintro s₂ m₂ ⟨⟨zs, hfin, hsorted⟩, hframe⟩
  have hstart : s₂.bucketStart = s₁.bucketStart := (congrArg Sorter.bucketStart hfin.same :)
  have hnum₂ : s₂.numBuckets = nb := (congrArg Sorter.numBuckets hfin.same :).trans hnum
  have hcl₂ : s₂.data.classifier = s.data.classifier :=
    (congrArg (fun s => s.data.classifier) hfin.same :).trans hcl
  obtain ⟨c, hreset, hempty⟩ := h.built.reset
  rw [sat_bind, sat_ofOption]
  refine ⟨{ s₂.data with
    classifier := c
    bucketSize := fun i => if i < cfg.kMaxBuckets then 0 else s₂.data.bucketSize i }, by
      rw [LocalData.reset, hcl₂, hreset]
      rfl, ⟨hempty, fun b hb => hfin.empty b hb (Nat.lt_or_ge b nb), fun b hb => if_pos hb,
      fun current => ?_, ?_⟩, hnum₂, ?_, zs, ?_⟩
  · refine hframe.ready (ha.idle current) fun i _ hmem => ?_
    rcases hmem with (hmem | hmem) | hmem
    · exact notMem_seg_of_arr (by simp [swapBlockAt, hp]) hmem
    all_goals exact notMem_seg_of_arr (by simp [swapBlockAt, overflowBlock]) hmem
  · exact hfin.spare fun b h₁ h₂ => absurd h₂ (Nat.not_lt_of_le h₁)
  · rw [hstart]
    exact ha.boundaries
  · rw [hstart]
    refine ⟨fun b hb => (hfin.done b hb).1, fun b hb => (hfin.done b hb).2.2, fun b hb => ?_,
      fun b hb hdone => hsorted b hb hdone h.weak⟩
    rw [← ha.keyed b hb]
    exact Multiset.coe_eq_coe.mpr (hfin.done b hb).2.1

/-- **Partitioning in place**: nothing is accessed but the range and the buffers, the loops end,
every bucket holds the elements classified into it, and the buffers are empty again. -/
theorem partition_in_place (h : Sampled comp cfg init B k eq splitters s m) (hcfg : cfg.Admitted)
    (hB : 1 ≤ B) (hp : p.arr = .input) (hn : 2 * cfg.kBaseCaseSize < xs.length)
    (hm : Has m p (xs.map .full)) (hidle : Idle init B m) (hover : Ready init m overflowBlock B)
    {fuel : ℕ} (hfuel : xs.length < fuel) :
    Sat (slots Area α init) (partitionSpace cfg.kMaxBuckets B xs.length p)
      (partition comp cfg init B eq fuel p xs.length s) m fun s' m' =>
        s'.numBuckets = s.numBuckets ∧
        ∃ ys, Partitioned cfg init B (Classifier.bucketOf comp eq splitters) p xs s' m' ys := by
  refine (sat_partition h hcfg hB hp hn hm hidle hover hfuel).imp ?_
  rintro s' m' ⟨hfresh, hnum, hbound, zs, hz⟩
  refine ⟨hnum, (List.range s.numBuckets).flatMap zs, ?_,
    perm_buckets hz.keyed fun x _ => h.key_lt x,
    (has_buckets hbound hz.length hz.has le_rfl).2, ?_, hfresh.buffers, hfresh.zero, hfresh.idle,
    hfresh.overflow⟩
  · rwa [hnum]
  · intro b hb i x hx
    rw [hnum] at hb
    exact mem_bucket_iff hbound hz.length hz.has hz.keyed hb hx

end

/-- 49 numbers, two buckets besides those of equal elements, and blocks of four elements. -/
theorem partition_in_place_fortyNine : ∃ s : Sorter ℕ,
    Sat (slots Area ℕ false) (partitionSpace defaultConfig.kMaxBuckets 4 49 ⟨.input, 0⟩)
      (partition (fun a b => decide (a < b)) defaultConfig false 4 true 50 ⟨.input, 0⟩ 49 s)
      (Mem.ofList ⟨.input, 0⟩ (List.range 49) fun _ => 0) fun s' m' =>
        s'.numBuckets = s.numBuckets ∧
        ∃ ys, Partitioned defaultConfig false 4
          (Classifier.bucketOf (fun a b => decide (a < b)) true [24]) ⟨.input, 0⟩
            (List.range 49) s' m' ys := by
  obtain ⟨c, hc⟩ := exists_built 24
  have hraw : ∀ {q : Ptr Area} {n : ℕ}, q.arr ≠ .input →
      Ready false (Mem.ofList ⟨.input, 0⟩ (List.range 49) fun _ => 0) q n :=
      fun hq _ => raw_ofList _ _ hq _
  refine ⟨⟨⟨fun _ => 0, .start 4, fun _ => .set 0 0, c⟩, 4, fun _ => 0, false⟩, ?_⟩
  exact partition_in_place (k := 1)
    ⟨StrictWeak.of_linearOrder ℕ, List.pairwise_singleton _ _, hc, by decide, fun _ => rfl, rfl,
      fun b _ => Buffers.start_holds (hraw (by simp [Buffers.data])), fun _ _ => rfl⟩
    ⟨by decide, by decide, by decide, by decide⟩ (by decide) rfl (by decide)
      (has_ofList _ (List.range 49) _) (fun _ => hraw (by simp [swapBlockAt]))
    (hraw (by simp [overflowBlock])) (by decide)

end Ps4o.InPlace
