import Ps4o.Progress

/-!
# Sequential sorting

The recursion (`sequential.hpp`), and the interface (`ps4o.hpp`).
-/

namespace Ps4o

open Ps4o.Program Ps4o.Storage Ps4o.Order

variable {A α : Type} (comp : α → α → Bool)

/-- The recursive call on a bucket. -/
def sortBucket (cfg : Config) (sort : Ptr A → ℕ → Ptr A → ℕ → Bool → Sorter α → Act A α (Sorter α))
    (p tmp : Ptr A) (oracle : ℕ) (inInputArray : Bool) (bss : ℕ → ℕ) (bucket : ℕ) (s : Sorter α) :
    Act A α (Sorter α) :=
  let start := bss bucket
  let stop := bss (bucket + 1)
  if stop - start > 2 * cfg.kBaseCaseSize then
    sort (tmp + start) (stop - start) (p + start) (oracle + start) (!inInputArray) s
  else
    pure s

/-- The recursive calls on the buckets. -/
def sortBuckets (cfg : Config) (sort : Ptr A → ℕ → Ptr A → ℕ → Bool → Sorter α → Act A α (Sorter α))
    (p tmp : Ptr A) (oracle : ℕ) (inInputArray equalBuckets : Bool) (bss : ℕ → ℕ) (numBuckets : ℕ)
    (s : Sorter α) : Act A α (Sorter α) :=
  if equalBuckets then do
    let s ← Prog.loop (fun i s => sortBucket cfg sort p tmp oracle inInputArray bss (2 * i) s)
      ((numBuckets + 1) / 2) s
    sortBucket cfg sort p tmp oracle inInputArray bss (numBuckets - 1) s
  else
    Prog.loop (fun i s => sortBucket cfg sort p tmp oracle inInputArray bss i s) numBuckets s

/-- `sequential_rec`. -/
def sequentialRec (cfg : Config)
    (sort : Ptr A → ℕ → Ptr A → ℕ → Bool → Sorter α → Act A α (Sorter α)) (p : Ptr A) (n : ℕ)
    (tmp : Ptr A) (oracle : ℕ) (inInputArray : Bool) (s : Sorter α) : Act A α (Sorter α) := do
  let lastLevel : Bool := decide (n ≤ cfg.kSingleLevelThreshold)
  -- Do the partitioning
  let (equalBuckets, bss, s) ← partition comp cfg sort p n tmp oracle lastLevel inInputArray s
  -- Final base case is executed in cleanup step, so we're done here
  if lastLevel then
    pure s
  else
    sortBuckets cfg sort p tmp oracle inInputArray equalBuckets bss s.numBuckets s

/-- `sequential`, at most `fuel` calls deep: sorts the `n` elements from `p` on, with `tmp` for
temporary storage, into the physical input array. -/
def sequential (cfg : Config) :
    (fuel : ℕ) → Ptr A → (n : ℕ) → Ptr A → (oracle : ℕ) → Bool → Sorter α → Act A α (Sorter α)
  | 0, _, _, _, _, _, _ => .halt .fuel
  | fuel + 1, p, n, tmp, oracle, inInputArray, s =>
    -- Check for base case
    if n ≤ 2 * cfg.kBaseCaseSize then do
      baseCaseSort comp p n
      if inInputArray then pure () else moveAssign p tmp n
      pure s
    else
      sequentialRec comp cfg (sequential cfg fuel) p n tmp oracle inInputArray s

/-! ### The interface -/

/-- The test for sorted input, if it is asked for. -/
def checkSorted (check : Bool) (n : ℕ) : Act Arr α Bool :=
  if check then sortedCaseSort comp ⟨.input, 0⟩ n else pure false

/-- `SequentialSorter::operator()`, on `n` elements of the input array. -/
def SequentialSorter.sort (cfg : Config) (fuel : ℕ) (check : Bool) (n : ℕ) (s : Sorter α) :
    Act Arr α (Sorter α) := do
  if ← checkSorted comp check n then
    pure s
  else if n ≤ 2 * cfg.kBaseCaseSize then do
    baseCaseSort comp ⟨.input, 0⟩ n
    pure s
  else
    sequential comp cfg fuel ⟨.input, 0⟩ n ⟨.tmp, 0⟩ 0 true s

/-- `ps4o::sort`, on `n` elements of the input array; `s` is what the new sorter starts with. -/
def sort (cfg : Config) (fuel n : ℕ) (s : Sorter α) : Act Arr α Unit := do
  if ← sortedCaseSort comp ⟨.input, 0⟩ n then
    pure ()
  else if n ≤ cfg.kBaseCaseMultiplier * cfg.kBaseCaseSize then
    baseCaseSort comp ⟨.input, 0⟩ n
  else do
    let _ ← SequentialSorter.sort comp cfg fuel false n s
    pure ()

/-! ### The recursion on the buckets -/

namespace Layout

variable {comp} {L : Layout comp A} {cfg : Config} {inInputArray : Bool}

variable (L cfg inInputArray) in
/-- The buckets up to `i` are finished, of the later ones those that partitioning has finished. -/
def Sorting (i : ℕ) (m : Mem A (Slot α)) : Prop :=
  ∀ b < L.numBuckets,
    if b < i ∨ L.Finishes cfg false b then Finished comp L.p L.tmp inInputArray (L.start b)
      (L.bucket b) m
    else Distributed L.p L.tmp (L.start b) (L.bucket b) m

theorem Buckets.sorting {m : Mem A (Slot α)} (h : L.Buckets cfg false inInputArray L.numBuckets m) :
    L.Sorting cfg inInputArray 0 m := by
  intro b hb
  have := h b hb
  simpa only [hb, true_and, Nat.not_lt_zero, false_or] using this

/-- Looking at a bucket that is finished already. -/
theorem Sorting.skip {m : Mem A (Slot α)} {b : ℕ} (h : L.Sorting cfg inInputArray b m)
    (hb : L.Finishes cfg false b) : L.Sorting cfg inInputArray (b + 1) m := by
  intro c hc
  have := h c hc
  by_cases hcb : c = b
  · subst hcb
    rw [if_pos (.inr hb)] at this
    rwa [if_pos (.inr hb)]
  · rwa [if_congr (show (c < b + 1 ∨ L.Finishes cfg false c) ↔ (c < b ∨ L.Finishes cfg false c) by
      rw [show c < b + 1 ↔ c < b by omega]) rfl rfl]

/-- Finished buckets make a finished range. -/
theorem finished_of_buckets {m : Mem A (Slot α)}
    (h : ∀ b < L.numBuckets, Finished comp L.p L.tmp inInputArray (L.start b) (L.bucket b) m) :
    (∃ ys : List α, ys.Perm L.elems ∧ Sorted comp ys ∧
        Has m (if inInputArray then L.p else L.tmp) (ys.map .full)) ∧
      Raw m (if inInputArray then L.tmp else L.p) L.n := by
  have hpre : ∀ i ≤ L.numBuckets,
      (∃ ys : List α, ys.Perm (distributed L.keys L.elems i) ∧ Sorted comp ys ∧
      Has m (if inInputArray then L.p else L.tmp) (ys.map .full)) ∧
      Raw m (if inInputArray then L.tmp else L.p) (L.start i) := by
    intro i
    induction i with
    | zero =>
      exact fun _ => ⟨⟨[], by simp [distributed], by simp [Sorted], by simp⟩,
        fun i hi => by simp at hi⟩
    | succ i ih =>
      intro hi
      obtain ⟨⟨ys, hperm, hsorted, hm⟩, hraw⟩ := ih (by omega)
      obtain ⟨⟨zs, hperm', hsorted', hm'⟩, hraw'⟩ := h i (by omega)
      have hlen : ys.length = L.start i := hperm.length_eq.trans (length_distributed L.length_eq i)
      refine ⟨⟨ys ++ zs, ?_, List.pairwise_append.mpr ⟨hsorted, hsorted', fun y hy z hz => ?_⟩, ?_⟩,
        ?_⟩
      · rw [distributed_succ]
        exact hperm.append hperm'
      · obtain ⟨c, hc, hy⟩ := List.mem_flatMap.mp (hperm.mem_iff.mp hy)
        exact L.ordered c i y z (List.mem_range.mp hc) hy (hperm'.mem_iff.mp hz)
      · rw [List.map_append, has_append, List.length_map, hlen]
        exact ⟨hm, hm'⟩
      · rw [L.start_add_size, raw_add]
        rw [L.length_bucket] at hraw'
        exact ⟨hraw, hraw'⟩
  obtain ⟨⟨ys, hperm, hsorted, hm⟩, hraw⟩ := hpre _ le_rfl
  refine ⟨⟨ys, hperm.trans (distributed_perm L.length_eq L.key_lt), hsorted, hm⟩, ?_⟩
  rwa [show L.start L.numBuckets = L.n from (start_eq_length L.key_lt).trans L.length_eq] at hraw

variable [DecidableEq A] {lax : Bool} {m : Mem A (Slot α)} {b oracle : ℕ} {bss : ℕ → ℕ}
  {s : Sorter α} {sort : Ptr A → ℕ → Ptr A → ℕ → Bool → Sorter α → Act A α (Sorter α)}

/-- **The recursive call on a bucket finishes it**, and leaves all others alone. -/
theorem sat_sortBucket (hsort : Sorts comp cfg lax L.n sort) (hs : s.data.classifier.Empty)
    (hbss : ∀ b ≤ L.numBuckets, bss b = L.start b) (hb : b < L.numBuckets)
    (hne : ¬ L.IsEqualBucket b) (hlt : 2 * cfg.kBaseCaseSize < L.size b → L.size b < L.n)
    (h : L.Sorting cfg inInputArray b m) :
    Sat (slots A α lax) (workspace L.p L.tmp oracle L.n)
      (sortBucket cfg sort L.p L.tmp oracle inInputArray bss b s) m
      fun s' m' => s'.data.classifier.Empty ∧ L.Sorting cfg inInputArray (b + 1) m' := by
  have hsize : bss (b + 1) - bss b = L.size b := by
    rw [hbss b hb.le, hbss (b + 1) hb, L.start_add_size, Nat.add_sub_cancel_left]
  rw [sortBucket, hsize, hbss b hb.le]
  split
  · next hbig =>
    have hnot : ¬ (b < b ∨ L.Finishes cfg false b) := by
      rintro (hlt | hfin | hfin | hfin)
      · omega
      · exact hne hfin
      · cases hfin
      · omega
    have hdist := h b hb
    rw [if_neg hnot] at hdist
    have hsat := hsort (L.tmp + L.start b) (L.p + L.start b) (L.bucket b)
      (oracle + L.start b) (!inInputArray) s m
      (by rw [L.length_bucket]; exact hlt hbig) (.inr (by rwa [L.length_bucket]))
        (by simpa using L.arr_ne.symm) hs
      hdist.1 hdist.2
    rw [L.length_bucket] at hsat
    refine hsat.frame.mono ?_ ?_
    · refine (workspace_subset (L.end_le b)).trans ?_
      rw [workspace, workspace, Set.union_comm (seg L.tmp _)]
    rintro s' m' ⟨⟨hs', hsorted, hraw⟩, hf⟩
    refine ⟨hs', fun c hc => ?_⟩
    by_cases hcb : c = b
    · subst hcb
      rw [if_pos (.inl (Nat.lt_succ_self c))]
      cases inInputArray with
      | true => exact ⟨hsorted, by rwa [L.length_bucket]⟩
      | false => exact ⟨hsorted, by rwa [L.length_bucket]⟩
    · have hc' := h c hc
      have hd : ∀ i < (L.bucket c).length,
          .elem (L.p + L.start c + i) ∉ workspace (L.tmp + L.start b) (L.p + L.start b)
          (oracle + L.start b) (L.size b) ∧
          .elem (L.tmp + L.start c + i) ∉
            workspace (L.tmp + L.start b) (L.p + L.start b) (oracle + L.start b) (L.size b) :=
                fun i hi => by
        have := L.notMem_region hcb hi
        simp only [region, bucketRegion, Set.mem_union] at this
        simp only [elem_mem_workspace]
        tauto
      rw [if_congr (show (c < b + 1 ∨ L.Finishes cfg false c) ↔ (c < b ∨ L.Finishes cfg false c) by
        rw [show c < b + 1 ↔ c < b by omega]) rfl rfl]
      split_ifs at hc' ⊢
      · exact hc'.frame hf hd
      · exact hc'.frame hf hd
  · next hsmall =>
    exact ⟨hs, h.skip (.inr (.inr (by omega)))⟩

variable (oracle) in
/-- **The recursive calls finish all buckets.** -/
theorem sat_sortBuckets (hsort : Sorts comp cfg lax L.n sort) (hs : s.data.classifier.Empty)
    (hbss : ∀ b ≤ L.numBuckets, bss b = L.start b)
    (hlt : ∀ b < L.numBuckets, ¬ L.IsEqualBucket b →
      2 * cfg.kBaseCaseSize < L.size b → L.size b < L.n)
    (h : L.Sorting cfg inInputArray 0 m) :
    Sat (slots A α lax) (workspace L.p L.tmp oracle L.n)
      (sortBuckets cfg sort L.p L.tmp oracle inInputArray L.useEqualBuckets bss L.numBuckets s) m
      fun s' m' => s'.data.classifier.Empty ∧ L.Sorting cfg inInputArray L.numBuckets m' := by
  rw [sortBuckets]
  split
  · next heq =>
    obtain ⟨heven, hfour⟩ := L.even heq
    rw [sat_bind]
    -- after `i` rounds the buckets below `2 * i - 1` are finished, the last of them an equality
    -- bucket
    refine (sat_loop (fun i (s : Sorter α) m => s.data.classifier.Empty ∧
      L.Sorting cfg inInputArray (2 * i - 1) m) ⟨hs, h⟩ fun i hi s m hm => ?_).imp fun s m hm => ?_
    · have hm' : L.Sorting cfg inInputArray (2 * i) m := by
        rcases Nat.eq_zero_or_pos i with rfl | hpos
        · exact hm.2
        · have := hm.2.skip (.inl ⟨heq, by omega, by omega⟩)
          rwa [show 2 * i - 1 + 1 = 2 * i by omega] at this
      refine (sat_sortBucket hsort hm.1 hbss (by omega) (fun hne => by have := hne.2.1; omega)
        (hlt _ (by omega) fun hne => by have := hne.2.1; omega) hm').imp fun s m hm => ?_
      rwa [show 2 * (i + 1) - 1 = 2 * i + 1 by omega]
    · rw [show 2 * ((L.numBuckets + 1) / 2) - 1 = L.numBuckets - 1 by omega] at hm
      refine (sat_sortBucket hsort hm.1 hbss (by omega) (fun hne => by have := hne.2.2; omega)
        (hlt _ (by omega) fun hne => by have := hne.2.2; omega) hm.2).imp fun s m hm => ?_
      rwa [show L.numBuckets - 1 + 1 = L.numBuckets by omega] at hm
  · next heq =>
    refine sat_loop (fun i (s : Sorter α) m => s.data.classifier.Empty ∧
      L.Sorting cfg inInputArray i m) ⟨hs, h⟩ fun i hi s m hm => ?_
    exact sat_sortBucket hsort hm.1 hbss hi (fun hne => heq hne.1)
      (hlt _ hi fun hne => heq hne.1) hm.2

end Layout

/-! ### Sorting -/

/-- What sorting relies on: every range that is partitioned fits, and where there is a further
level, one splitter is enough to switch equality buckets on. -/
structure Config.Sound (cfg : Config) : Prop where
  fits : ∀ n, 2 * cfg.kBaseCaseSize < n → cfg.Fits n
  equalOn : ∀ n, 2 * cfg.kBaseCaseSize < n → cfg.kSingleLevelThreshold < n → cfg.EqualOn n

section
variable {comp} [DecidableEq A] {lax : Bool} {cfg : Config}

/-- **One level of the recursion sorts**, when what it recurses on is sorted. -/
theorem sat_sequentialRec {sort : Ptr A → ℕ → Ptr A → ℕ → Bool → Sorter α → Act A α (Sorter α)}
    {p tmp : Ptr A} {xs : List α} {n oracle : ℕ} {inInputArray : Bool} {s : Sorter α}
    {m : Mem A (Slot α)} (hc : StrictWeak comp) (hn : xs.length = n) (hfits : cfg.Fits n)
    (hon : cfg.kSingleLevelThreshold < n → cfg.EqualOn n) (hsort : Sorts comp cfg lax n sort)
    (harr : p.arr ≠ tmp.arr) (hs : s.data.classifier.Empty) (hm : Has m p (xs.map .full))
    (htmp : Raw m tmp n) :
    Sat (slots A α lax) (workspace p tmp oracle n)
      (sequentialRec comp cfg sort p n tmp oracle inInputArray s) m
      fun s' m' => s'.data.classifier.Empty ∧
        (∃ ys : List α, ys.Perm xs ∧ Sorted comp ys ∧
          Has m' (if inInputArray then p else tmp) (ys.map .full)) ∧
        Raw m' (if inInputArray then tmp else p) n := by
  rw [sequentialRec, sat_bind]
  refine (sat_partition hc hn hfits (hsort.mono hfits.sample_lt) harr hs hm htmp).imp ?_
  rintro ⟨eq, bss, s₁⟩ m₁ ⟨hs₁, sample, rest, hsample, hperm, heq, hnb, hbss, hbuckets⟩
  have hlen : (sample ++ rest).length = n := hperm.length_eq.trans hn
  simp only at hs₁ heq hnb hbss hbuckets
  set L := cfg.layout hc hsample harr rest with hL
  subst heq
  rw [hnb] at hbss hbuckets
  have hdone : ∀ m', (∀ b < L.numBuckets, Finished comp L.p L.tmp inInputArray
      (L.start b) (L.bucket b) m') →
      (∃ ys : List α, ys.Perm xs ∧ Sorted comp ys ∧
        Has m' (if inInputArray then p else tmp) (ys.map .full)) ∧
        Raw m' (if inInputArray then tmp else p) n := fun m' h => by
    obtain ⟨⟨ys, hys, hsorted, hm'⟩, hraw⟩ := Layout.finished_of_buckets h
    exact ⟨⟨ys, hys.trans hperm, hsorted, hm'⟩, by rwa [show L.n = n from hlen] at hraw⟩
  dsimp only
  by_cases hlast : n ≤ cfg.kSingleLevelThreshold
  · rw [if_pos (decide_eq_true hlast)]
    refine ⟨hs₁, hdone m₁ fun b hb => ?_⟩
    have := hbuckets b hb
    rwa [if_pos ⟨hb, .inr (.inl (by simpa using hlast))⟩] at this
  · rw [if_neg (by rw [decide_eq_true_iff]; exact hlast)]
    rw [decide_eq_false hlast] at hbuckets
    have hsort' : Sorts comp cfg lax L.n sort := by rwa [show L.n = n from hlen]
    have hsat := Layout.sat_sortBuckets oracle hsort' hs₁ hbss (fun b hb hne _ => by
      rw [show L.n = n from hlen]
      exact size_lt_of_equalOn hc hsample harr rest hlen (hon (by omega)) hb hne) hbuckets.sorting
    rw [show L.n = n from hlen] at hsat
    rw [hnb]
    refine hsat.imp fun s' m' hm' => ⟨hm'.1, hdone m' fun b hb => ?_⟩
    have := hm'.2 b hb
    rwa [if_pos (.inl hb)] at this

/-- Up to a size, `sequential` sorts every range that has fewer elements than it may be deep, if up
to this size there is progress. -/
theorem sat_sequential_below (hc : StrictWeak comp) {bound : ℕ}
    (hfits : ∀ n < bound, 2 * cfg.kBaseCaseSize < n → cfg.Fits n)
    (hon : ∀ n < bound, 2 * cfg.kBaseCaseSize < n → cfg.kSingleLevelThreshold < n → cfg.EqualOn n)
    (fuel : ℕ) : Sorts comp cfg lax (min fuel bound) (sequential (A := A) comp cfg fuel) := by
  induction fuel with
  | zero =>
    exact fun p tmp xs oracle flag s m hlt => absurd (hlt.trans_le (min_le_left _ _))
      (Nat.not_lt_zero _)
  | succ fuel ih =>
    intro p tmp xs oracle inInputArray s m hlt hsmall harr hs hm htmp
    rw [sequential]
    split
    · next hle =>
      obtain rfl : inInputArray = true := hsmall.resolve_right (by omega)
      rw [sat_bind]
      refine (sat_baseCaseSort comp hm).frame.mono (fun l hl => .inl (.inl hl)) ?_
      rintro _ m' ⟨hm', hf⟩
      exact ⟨hs, ⟨insertionSorted comp xs, insertionSorted_perm comp xs,
        insertionSorted_sorted hc xs, hm'⟩,
        htmp.frame hf fun i _ => by simp [elem_mem_seg, harr.symm]⟩
    · next hgt =>
      exact sat_sequentialRec hc rfl (hfits _ (by omega) (by omega)) (hon _ (by omega) (by omega))
        (ih.mono (by omega)) harr hs hm htmp

/-- **Sorting**: `sequential` sorts every range that has fewer elements than it may be deep, into
the physical input array, whatever numbers are drawn. -/
theorem sat_sequential (hc : StrictWeak comp) (hcfg : cfg.Sound) (fuel : ℕ) :
    Sorts comp cfg lax fuel (sequential (A := A) comp cfg fuel) := by
  have h : Sorts comp cfg lax (min fuel fuel) (sequential (A := A) comp cfg fuel) :=
    sat_sequential_below hc (fun n _ => hcfg.fits n) (fun n _ => hcfg.equalOn n) fuel
  rwa [min_self] at h

end

/-! ### The default configuration -/

/-- **The default configuration is sound.** -/
theorem defaultConfig_sound : defaultConfig.Sound := by
  have hB : defaultConfig.kBaseCaseSize = 16 := rfl
  have h₁ : defaultConfig.kSingleLevelThreshold = 2048 := by decide
  have h₂ : defaultConfig.kTwoLevelThreshold = 262144 := by decide
  have hlog : ∀ n, defaultConfig.logBuckets n = if n ≤ 2048 then max 1 (log2 (n / 16)) else
      if n ≤ 262144 then max 1 ((log2 (n / 16) + 1) / 2) else 7 := fun n => by
    rw [Config.logBuckets, h₁, h₂, hB]
    rfl
  have hle : ∀ n, defaultConfig.logBuckets n ≤ 7 :=
    fun n => (defaultConfig.logBuckets_mem (by decide) n).2
  refine ⟨fun n hn => ⟨by decide, ?_, (defaultConfig.logBuckets_mem (by decide) n).1,
    (hle n).trans (by decide), .inl (Nat.succ_le_succ (hle n)), ?_⟩, fun n hn hn' => ⟨rfl, ?_⟩⟩
  · rw [hB] at hn
    exact le_trans (show 7 ≤ 33 by omega) (by omega)
  · exact (Config.numSamples_mem (by decide) (by decide) (by decide) rfl hn).2
  · rw [hB] at hn
    rw [h₁] at hn'
    have hk : 4 ≤ defaultConfig.logBuckets n := by
      rw [hlog, if_neg (by omega)]
      split_ifs
      · have : 7 ≤ log2 (n / 16) := le_log2 (by omega)
        omega
      · omega
    have : 2 ^ 4 ≤ 2 ^ defaultConfig.logBuckets n := Nat.pow_le_pow_right (by omega) hk
    rw [show defaultConfig.kEqualBucketsThreshold = 5 from rfl]
    omega

/-! ### The interface -/

section
variable {comp} {m : Mem Arr (Slot α)} {xs : List α} {cfg : Config}

/-- The sorter sorts. -/
theorem sat_sorter (hc : StrictWeak comp) (hcfg : cfg.Sound) {fuel n : ℕ} (hn : xs.length = n)
    (hfuel : n < fuel) (check : Bool) {s : Sorter α} (hs : s.data.classifier.Empty)
    (hm : Has m ⟨.input, 0⟩ (xs.map .full)) (htmp : Raw m ⟨.tmp, 0⟩ n) :
    Sat (slots Arr α false) (workspace ⟨.input, 0⟩ ⟨.tmp, 0⟩ 0 n)
      (SequentialSorter.sort comp cfg fuel check n s) m fun s' m' => s'.data.classifier.Empty ∧
        (∃ ys : List α, ys.Perm xs ∧ Sorted comp ys ∧ Has m' ⟨.input, 0⟩ (ys.map .full)) ∧
        Raw m' ⟨.tmp, 0⟩ n := by
  subst hn
  have hR : seg ⟨.input, 0⟩ xs.length ⊆ workspace (⟨.input, 0⟩ : Ptr Arr) ⟨.tmp, 0⟩ 0 xs.length :=
    fun l hl => .inl (.inl hl)
  rw [SequentialSorter.sort, sat_bind]
  -- the test for sorted input
  have htest : Sat (slots Arr α false) (seg ⟨.input, 0⟩ xs.length)
      (checkSorted comp check xs.length) m fun b m' =>
        (b = true → ∃ ys : List α, ys.Perm xs ∧ Sorted comp ys ∧
          Has m' ⟨.input, 0⟩ (ys.map .full)) ∧
          (b = false → m' = m) := by
    cases check with
    | false => exact sat_ret.mpr ⟨(nomatch ·), fun _ => rfl⟩
    | true => exact sat_sortedCaseSort comp hc hm
  refine htest.frame.mono hR ?_
  rintro b m₁ ⟨⟨htrue, hfalse⟩, hf⟩
  have htmp₁ : Raw m₁ ⟨.tmp, 0⟩ xs.length := htmp.frame hf fun i _ => by simp [elem_mem_seg]
  cases b with
  | true => exact ⟨hs, htrue rfl, htmp₁⟩
  | false =>
    obtain rfl := hfalse rfl
    simp only [Bool.false_eq_true, if_false]
    split
    · rw [sat_bind]
      refine (sat_baseCaseSort comp hm).frame.mono hR ?_
      rintro _ m' ⟨hm', hf'⟩
      exact ⟨hs, ⟨insertionSorted comp xs, insertionSorted_perm comp xs,
        insertionSorted_sorted hc xs, hm'⟩, htmp.frame hf' fun i _ => by simp [elem_mem_seg]⟩
    · exact sat_sequential hc hcfg fuel ⟨.input, 0⟩ ⟨.tmp, 0⟩ xs 0 true s m₁ hfuel (.inl rfl)
        (by simp) hs hm htmp

/-- `ps4o::sort` sorts, and leaves the temporary storage raw. -/
theorem sat_sort (hc : StrictWeak comp) (hcfg : cfg.Sound) {fuel n : ℕ} (hn : xs.length = n)
    (hfuel : n < fuel) {s : Sorter α} (hs : s.data.classifier.Empty)
    (hm : Has m ⟨.input, 0⟩ (xs.map .full)) (htmp : Raw m ⟨.tmp, 0⟩ n) :
    Sat (slots Arr α false) (workspace ⟨.input, 0⟩ ⟨.tmp, 0⟩ 0 n) (Ps4o.sort comp cfg fuel n s) m
      fun _ m' =>
      (∃ ys : List α, ys.Perm xs ∧ Sorted comp ys ∧ Has m' ⟨.input, 0⟩ (ys.map .full)) ∧
      Raw m' ⟨.tmp, 0⟩ n := by
  subst hn
  have hR : seg ⟨.input, 0⟩ xs.length ⊆ workspace (⟨.input, 0⟩ : Ptr Arr) ⟨.tmp, 0⟩ 0 xs.length :=
    fun l hl => .inl (.inl hl)
  rw [Ps4o.sort, sat_bind]
  refine (sat_sortedCaseSort comp hc hm).frame.mono hR ?_
  rintro b m₁ ⟨⟨htrue, hfalse⟩, hf⟩
  cases b with
  | true => exact ⟨htrue rfl, htmp.frame hf fun i _ => by simp [elem_mem_seg]⟩
  | false =>
    obtain rfl := hfalse rfl
    simp only [Bool.false_eq_true, if_false]
    split
    · refine (sat_baseCaseSort comp hm).frame.mono hR ?_
      rintro _ m' ⟨hm', hf'⟩
      exact ⟨⟨insertionSorted comp xs, insertionSorted_perm comp xs,
        insertionSorted_sorted hc xs, hm'⟩, htmp.frame hf' fun i _ => by simp [elem_mem_seg]⟩
    · rw [sat_bind]
      exact (sat_sorter hc hcfg rfl hfuel false hs hm htmp).imp fun s' m' h => h.2

/-- **The sequential sort terminates and sorts**: with the default configuration, for every array,
every strict weak order, whatever numbers are drawn, and whatever earlier sorts have left in the
local data. The recursion is at most as deep as the array is long. -/
theorem sort_sorts (hc : StrictWeak comp) {fuel : ℕ} (hfuel : xs.length < fuel) {s : Sorter α}
    (hs : s.data.classifier.Empty) (hm : Has m ⟨.input, 0⟩ (xs.map .full))
    (htmp : Raw m ⟨.tmp, 0⟩ xs.length) (choices : ℕ → ℕ) :
    (∃ c' m', run (slots Arr α false) (Ps4o.sort comp defaultConfig fuel xs.length s) choices m =
      .ok ((), c', m') ∧
      ∃ ys : List α, ys.Perm xs ∧ Sorted comp ys ∧ Has m' ⟨.input, 0⟩ (ys.map .full)) ∧
    ∀ check, ∃ s' c' m',
      run (slots Arr α false)
        (SequentialSorter.sort comp defaultConfig fuel check xs.length s) choices m =
        .ok (s', c', m') ∧
      s'.data.classifier.Empty ∧ Raw m' ⟨.tmp, 0⟩ xs.length ∧
      ∃ ys : List α, ys.Perm xs ∧ Sorted comp ys ∧ Has m' ⟨.input, 0⟩ (ys.map .full) := by
  constructor
  · obtain ⟨_, c', m', hrun, h⟩ :=
      (sat_sort hc defaultConfig_sound rfl hfuel hs hm htmp).run choices
    exact ⟨c', m', hrun, h.1⟩
  · intro check
    obtain ⟨s', c', m', hrun, hs', h, hraw⟩ :=
      (sat_sorter hc defaultConfig_sound rfl hfuel check hs hm htmp).run choices
    exact ⟨s', c', m', hrun, hs', hraw, h⟩

end

/-- A new sorter, with arbitrary counters. -/
def Sorter.new (bucketStart bucketSize : ℕ → ℕ) (numBuckets : ℕ) : Sorter α :=
  ⟨⟨bucketStart, bucketSize, ⟨fun _ => .raw, fun _ => .raw, 0, 0⟩⟩, numBuckets⟩

theorem Sorter.new_empty (bucketStart bucketSize : ℕ → ℕ) (numBuckets : ℕ) :
    (Sorter.new bucketStart bucketSize numBuckets : Sorter α).data.classifier.Empty :=
  ⟨rfl, fun _ => rfl, fun _ => rfl⟩

/-- Five thousand numbers with many equal ones, sorted by a sorter whose counters hold anything. -/
theorem sort_sorts_nat : ∃ c' m', run (slots Arr ℕ false)
    (Ps4o.sort (fun a b => decide (a < b)) defaultConfig 5001 5000
      (Sorter.new (fun b => b) (fun b => 7 * b) 3))
    (fun i => 31 * i) (Mem.ofList ⟨.input, 0⟩ ((List.range 5000).map fun i => i * 37 % 50)
      fun _ => 9) = .ok ((), c', m') ∧
    ∃ ys : List ℕ, ys.Perm ((List.range 5000).map fun i => i * 37 % 50) ∧
      Sorted (fun a b => decide (a < b)) ys ∧ Has m' ⟨.input, 0⟩ (ys.map .full) := by
  have hfuel : ((List.range 5000).map fun i => i * 37 % 50).length < 5001 := by simp
  have h := (sort_sorts (StrictWeak.of_linearOrder ℕ) hfuel
    (Sorter.new_empty (fun b => b) (fun b => 7 * b) 3)
    (has_ofList _ _ fun _ => 9) (raw_ofList _ _ (show Arr.tmp ≠ .input by decide) _)
    fun i => 31 * i).1
  simpa using h

end Ps4o
