import Ps4o.Finishing
import Ps4o.ParallelDistribution
import Ps4o.Program.Halting
import Ps4o.Sequential

/-!
# Parallel partitioning

A team of threads partitions a range (`partition<true>` in `partitioning.hpp`): one of them builds
the classifier, all of them classify their stripes, the first one finds the offsets, all of them
distribute their stripes, and then finish the buckets. There is a barrier after each of these
stages.

## What is proved

* `sat_partition_bits` — one thread alone partitions, when moving an element is copying it.
* `sat_partitionParallel` — **the threads partition together**, however they take turns: the
  elements are dealt out to the buckets in the same way, those of the buckets that are finished are
  in the physical input array, and the others in the other one.
* `upholds_partitionParallel` — the same of all stripes that have elements at all, where a thread
  may halt.
-/

namespace Ps4o

open Ps4o.Program Ps4o.Storage Ps4o.Order Ps4o.Order.Stripes

variable {A α : Type}

/-! ### The code -/

/-- What the threads share while they partition. -/
structure SharedData (α : Type) where
  /-- `bucket_size`, a row for each thread. -/
  bucketSize : ℕ → ℕ → ℕ
  /-- `bucket_start`. -/
  bucketStart : ℕ → ℕ
  /-- `num_buckets`. -/
  numBuckets : ℕ
  /-- `use_equal_buckets`. -/
  useEqualBuckets : Bool
  /-- The classifier for parallel partitioning. -/
  classifier : Classifier α

/-- What a team of threads with the ids of `Fin t` has found out by partitioning: whether there are
equality buckets, the bucket boundaries, the number of buckets; and their sorters. -/
abbrev TeamResult (t : ℕ) (α : Type) : Type := Bool × (ℕ → ℕ) × ℕ × (Fin t → Sorter α)

/-- A team of threads with the ids of `Fin t`. -/
abbrev SortingTeam (A α : Type) (t : ℕ) : Type 1 := Team (Cmd A α) Cmd.Ans (Fin t) (TeamResult t α)

section
variable (comp : α → α → Bool) (cfg : Config) (p : Ptr A) (n : ℕ) (tmp : Ptr A) (oracle : ℕ)
  (lastLevel inInputArray : Bool) {t : ℕ}

/-- Resets the local data of a thread, and the shared classifier if it is the first thread. -/
def resetData (numBuckets : ℕ) (c : Classifier α) (bs : ℕ → ℕ) (s : Sorter α) (myId : ℕ) :
    Act A α (Sorter α) := do
  let data ← Prog.ofOption { s.data with bucketStart := bs }.reset
  let _ ← Prog.ofOption (if myId = 0 then c.reset else some c)
  pure ⟨data, numBuckets⟩

/-- The buckets are finished, and then all data is reset. -/
def finishStage (useEqualBuckets : Bool) (numBuckets : ℕ) (bss : ℕ → ℕ) (c : Classifier α)
    (bs : Fin t → ℕ → ℕ) (sorter : Fin t → Sorter α) : SortingTeam A α t :=
  .stage (fun i => finishThread comp cfg p tmp lastLevel inInputArray bss useEqualBuckets numBuckets
    n t i) fun _ =>
    .stage (fun i => resetData numBuckets c (bs i) (sorter i) i) fun s =>
    .done (useEqualBuckets, bss, numBuckets, s)

/-- Block Permutation. -/
def distributionStage (useEqualBuckets : Bool) (numBuckets : ℕ) (o : Offsets) (c : Classifier α)
    (sorter : Fin t → Sorter α) : SortingTeam A α t :=
  .stage (fun i => distributeElements (p + first n t i) (first n t (i + 1) - first n t i) tmp
    (oracle + first n t i) (o.bucketStart i)) fun bs =>
      finishStage comp cfg p n tmp lastLevel inInputArray useEqualBuckets numBuckets
        o.bucketStartSave c bs sorter

/-- The rows of `bucket_size` when the threads have copied theirs. -/
def copyRows (rows : ℕ → ℕ → ℕ) (row : Fin t → ℕ → ℕ) (i : ℕ) : ℕ → ℕ :=
  if h : i < t then row ⟨i, h⟩ else rows i

/-- Local Classification. -/
def classificationStage (useEqualBuckets : Bool) (numBuckets : ℕ) (shared : SharedData α)
    (c : Classifier α) (sorter : Fin t → Sorter α) : SortingTeam A α t :=
  .stage (fun i => parallelClassification comp cfg useEqualBuckets (p + first n t i)
    (first n t (i + 1) - first n t i)
    (oracle + first n t i) c (shared.bucketSize i) ⟨(sorter i).data, numBuckets⟩) fun r =>
      distributionStage comp cfg p n tmp oracle lastLevel inInputArray useEqualBuckets numBuckets
        (offsetScan (copyRows shared.bucketSize fun i => (r i).2) t numBuckets
          ⟨copyRows (fun _ => shared.bucketStart) fun i => (r i).1.data.bucketStart,
            shared.bucketStart, 0⟩)
        c fun i => (r i).1

/-- `partition<true>`: the threads partition the `n` elements from `p` on. Thread `one` is the one
that builds the classifier. -/
def partitionParallel (sort : Ptr A → ℕ → Ptr A → ℕ → Bool → Sorter α → Act A α (Sorter α))
    (one : Fin t) (shared : SharedData α) (sorter : Fin t → Sorter α) : SortingTeam A α t :=
  -- Sampling
  .stage (fun i => if i = one then buildClassifier comp cfg sort p n tmp oracle
    (fun _ => shared.classifier) (sorter one)
    else .ret (sorter i, shared.classifier, shared.numBuckets, shared.useEqualBuckets)) fun r =>
      classificationStage comp cfg p n tmp oracle lastLevel inInputArray
        (r one).2.2.2 (r one).2.2.1 shared (r one).2.1 fun i => (r i).1

end

/-! ### What partitioning does -/

namespace Layout

variable {comp : α → α → Bool} (L : Layout comp A) (cfg : Config) (lastLevel inInputArray : Bool)

/-- The boundaries of the buckets. -/
theorem boundaries (hpos : 0 < L.n) {bss : ℕ → ℕ} (hbss : ∀ b ≤ L.numBuckets, bss b = L.start b) :
    Boundaries L.useEqualBuckets L.numBuckets L.n bss where
  pos := by
    obtain ⟨k, hk⟩ := List.exists_mem_of_length_pos (hpos.trans_eq L.length_eq.symm)
    exact Nat.one_le_iff_ne_zero.mpr fun hzero => absurd (L.key_lt k hk) (by omega)
  zero := (hbss 0 (Nat.zero_le _)).trans start_zero
  last := (hbss _ le_rfl).trans ((start_eq_length L.key_lt).trans L.length_eq)
  step b hb := by
    rw [hbss b hb.le, hbss (b + 1) hb]
    exact start_le_succ b
  equal heq := by
    obtain ⟨heven, hfour⟩ := L.even heq
    refine ⟨heven, hfour, ?_⟩
    have hzero : L.size (L.numBuckets - 2) = 0 := List.count_eq_zero.mpr (L.unused heq)
    have hsucc := L.start_add_size (L.numBuckets - 2)
    rw [hbss _ (by omega), hbss _ (by omega), show L.numBuckets - 1 =
      L.numBuckets - 2 + 1 by omega, hsucc, hzero, Nat.add_zero]

/-- The elements have been dealt out to the buckets: those of the buckets that partitioning finishes
are sorted, and in the physical input array, the others are where they have been distributed to. -/
def Dealt (m : Mem A α) : Prop :=
  ∀ b < L.numBuckets,
    if L.Finishes cfg lastLevel b then
      ∃ ys : List α, ys.Perm (L.bucket b) ∧ Sorted comp ys ∧
        Has m ((if inInputArray then L.p else L.tmp) + L.start b) ys
    else Has m (L.tmp + L.start b) (L.bucket b)

variable {L cfg lastLevel inInputArray}

/-- Finished objects are finished bits. -/
theorem Buckets.dealt {m : Mem A (Slot α)} {m' : Mem A α}
    (h : L.Buckets cfg lastLevel inInputArray L.numBuckets m) (hr : Rep m m') :
    L.Dealt cfg lastLevel inInputArray m' := by
  intro b hb
  have hb' := h b hb
  by_cases hfin : L.Finishes cfg lastLevel b
  · rw [if_pos ⟨hb, hfin⟩] at hb'
    rw [if_pos hfin]
    obtain ⟨⟨ys, hperm, hsorted, hys⟩, -⟩ := hb'
    exact ⟨ys, hperm, hsorted, hr.has hys⟩
  · rw [if_neg fun hf => hfin hf.2] at hb'
    rw [if_neg hfin]
    exact hr.has hb'.1

theorem Dealt.of_eq {m m' : Mem A α} (h : L.Dealt cfg lastLevel inInputArray m)
    (heq : ∀ i < L.n, m.slot (L.p + i) = m'.slot (L.p + i) ∧
      m.slot (L.tmp + i) = m'.slot (L.tmp + i)) : L.Dealt cfg lastLevel inInputArray m' := by
  intro b hb
  have hb' := h b hb
  have hend := L.end_le b
  by_cases hfin : L.Finishes cfg lastLevel b
  · rw [if_pos hfin] at hb' ⊢
    obtain ⟨ys, hperm, hsorted, hys⟩ := hb'
    have hlen := hperm.length_eq.trans (L.length_bucket b)
    refine ⟨ys, hperm, hsorted, hys.of_eq fun k hk => ?_⟩
    rw [Ptr.add_assoc]
    cases inInputArray with
    | true => exact (heq _ (by omega)).1
    | false => exact (heq _ (by omega)).2
  · rw [if_neg hfin] at hb' ⊢
    refine hb'.of_eq fun k hk => ?_
    rw [L.length_bucket] at hk
    rw [Ptr.add_assoc]
    exact (heq _ (by omega)).2

end Layout

/-- The `n` elements from `p` on, which were `xs`, have been partitioned: there are equality buckets
or not, the boundaries of the buckets are known, and the elements have been dealt out to them. -/
def Partitioned (comp : α → α → Bool) (cfg : Config) (p tmp : Ptr A) (xs : List α)
    (lastLevel inInputArray : Bool) (useEqualBuckets : Bool) (bss : ℕ → ℕ) (numBuckets : ℕ)
    (m : Mem A α) : Prop :=
  ∃ L : Layout comp A, L.p = p ∧ L.tmp = tmp ∧ L.elems.Perm xs ∧
    L.useEqualBuckets = useEqualBuckets ∧
    L.numBuckets = numBuckets ∧ (∀ b ≤ numBuckets, bss b = L.start b) ∧
    L.Dealt cfg lastLevel inInputArray m

section
variable [DecidableEq A] {comp : α → α → Bool} {cfg : Config} {p tmp : Ptr A} {n oracle : ℕ}
  {lastLevel inInputArray : Bool} {m : Mem A α} {xs : List α}

/-- What is elsewhere does not matter. -/
theorem Partitioned.agree {eq : Bool} {bss : ℕ → ℕ} {nb : ℕ} {m' : Mem A α}
    (h : Partitioned comp cfg p tmp xs lastLevel inInputArray eq bss nb m)
    (hm : (copies A α).AgreeOn (workspace p tmp oracle xs.length) m m') :
    Partitioned comp cfg p tmp xs lastLevel inInputArray eq bss nb m' := by
  obtain ⟨L, rfl, rfl, hperm, heq, hnb, hbss, hdealt⟩ := h
  refine ⟨L, rfl, rfl, hperm, heq, hnb, hbss, hdealt.of_eq fun i hi => ⟨?_, ?_⟩⟩
  · exact hm (.elem (L.p + i)) (.inl (.inl (elem_add_mem_seg.mpr (hperm.length_eq ▸ hi))))
  · exact hm (.elem (L.tmp + i)) (.inl (.inr (elem_add_mem_seg.mpr (hperm.length_eq ▸ hi))))

/-- **One thread partitions**, when moving an element is copying it. -/
theorem sat_partition_bits {sort : Ptr A → ℕ → Ptr A → ℕ → Bool → Sorter α → Act A α (Sorter α)}
    {s : Sorter α} (hc : StrictWeak comp) (hn : xs.length = n) (hfits : cfg.Fits n)
    (hsort : Sorts comp cfg false n sort) (harr : p.arr ≠ tmp.arr) (hs : s.data.classifier.Empty)
    (hm : Has m p xs) : Sat (copies A α) (workspace p tmp oracle n)
      (partition comp cfg sort p n tmp oracle lastLevel inInputArray s) m fun r m' =>
        r.2.2.data.classifier.Empty ∧
          Partitioned comp cfg p tmp xs lastLevel inInputArray r.1 r.2.1 r.2.2.numBuckets m' := by
  refine (sat_copies (sat_partition hc hn hfits (hsort.mono hfits.sample_lt) harr hs
    (has_within hm hn.le) (raw_within harr.symm n)) rep_within).imp ?_
  rintro ⟨eq, bss, s'⟩ m' ⟨ms, ⟨hs', sample, rest, hsample, hperm, heq, hnb, hbss, hbuckets⟩, hr⟩
  simp only at hs' heq hnb hbss hbuckets ⊢
  rw [hnb] at hbuckets
  exact ⟨hs', _, rfl, rfl, hperm, heq.symm, hnb.symm, hbss, hbuckets.dealt hr⟩

/-! ### The stages -/

omit [DecidableEq A] in
/-- All data can be reset. -/
theorem sat_resetData {σ : Type} {S : Semantics (Cmd A α) Cmd.Ans σ (Loc A)} {m : σ}
    {R : Set (Loc A)} {c c' : Classifier α} {bs : ℕ → ℕ} {s : Sorter α} {myId nb : ℕ}
    (hs : s.data.classifier.Empty) (hc : c.reset = some c') :
    Sat S R (resetData nb c bs s myId) m fun s' _ => s'.data.classifier.Empty := by
  have hreset : s.data.classifier.reset = some s.data.classifier := if_pos hs.1
  rw [resetData, sat_bind, sat_ofOption]
  refine ⟨{ s.data with bucketStart := bs }, by simp [LocalData.reset, hreset], ?_⟩
  rw [sat_bind, sat_ofOption]
  split
  · exact ⟨c', hc, hs⟩
  · exact ⟨c, rfl, hs⟩

omit [DecidableEq A] in
/-- What a segment holds are the elements of a bucket. -/
theorem elemsOf_eq {bss : ℕ → ℕ} {b : ℕ} {ys : List α} (h : Has m (tmp + bss b) ys)
    (hlen : ys.length = bss (b + 1) - bss b) : elemsOf (fun x => m.slot (tmp + x)) bss b = ys := by
  refine List.ext_getElem ((length_elemsOf _ _ _).trans hlen.symm) fun k h₁ h₂ => ?_
  have hk := h k _ (List.getElem?_eq_getElem h₂)
  rw [Ptr.add_assoc] at hk
  simp only [elemsOf, List.getElem_map, List.getElem_range, hk]

/-- **Finishing together**: when every bucket is where it begins, the threads finish what is to be
finished. -/
theorem sat_finishStage {t : ℕ} {L : Layout comp A} {bss : ℕ → ℕ} {c c' : Classifier α}
    {bs : Fin t → ℕ → ℕ} {sorter : Fin t → Sorter α} (hc : StrictWeak comp) (hpos : 0 < L.n)
    (ht : 1 ≤ t) (hbss : ∀ b ≤ L.numBuckets, bss b = L.start b) (hreset : c.reset = some c')
    (hs : ∀ i, (sorter i).data.classifier.Empty)
    (hm : ∀ b < L.numBuckets, Has m (L.tmp + L.start b) (L.bucket b)) :
    (finishStage comp cfg L.p L.n L.tmp lastLevel inInputArray L.useEqualBuckets
      L.numBuckets bss c bs sorter).Sat (copies A α) (workspace L.p L.tmp oracle L.n) m fun r m' =>
        (∀ i, (r.2.2.2 i).data.classifier.Empty) ∧
          Partitioned comp cfg L.p L.tmp L.elems lastLevel inInputArray r.1 r.2.1 r.2.2.1 m' := by
  have h := L.boundaries hpos hbss
  have helems : ∀ b < L.numBuckets, elemsOf (fun x => m.slot (L.tmp + x)) bss b = L.bucket b :=
      fun b hb => by
    refine elemsOf_eq (hbss b hb.le ▸ hm b hb) ?_
    rw [hbss b hb.le, hbss (b + 1) hb, L.start_add_size, L.length_bucket, Nat.add_sub_cancel_left]
  refine ⟨_, (finish_cooperate hc h ht L.arr_ne lastLevel inInputArray fun x _ => rfl).mono
    fun l hl => .inl hl, ?_⟩
  intro _ m₁ hm₁
  obtain ⟨hother, hequal⟩ := finished_of_threads h ht hm₁
  have hdealt : L.Dealt cfg lastLevel inInputArray m₁ := by
    intro b hb
    have hsize : bss (b + 1) - bss b = L.size b := by
      rw [hbss b hb.le, hbss (b + 1) hb, L.start_add_size, Nat.add_sub_cancel_left]
    by_cases heq : L.useEqualBuckets = true ∧ IsEqual L.numBuckets b
    · rw [if_pos (.inl heq)]
      refine ⟨L.bucket b, .rfl, L.equal heq.1 b heq.2.1 heq.2.2, fun k x hx => ?_⟩
      have hk : k < L.size b := L.length_bucket b ▸ (List.getElem?_eq_some_iff.mp hx).1
      rw [Ptr.add_assoc, ← hbss b hb.le, hequal _ ⟨b, heq, Nat.le_add_right _ _, by omega⟩,
        hbss b hb.le, ← Ptr.add_assoc]
      exact hm b hb k x hx
    · have hb' := hother b hb heq
      unfold Bucketed at hb'
      rw [helems b hb, hsize, hbss b hb.le] at hb'
      have hiff : L.Finishes cfg lastLevel b ↔ lastLevel = true ∨
          L.size b ≤ 2 * cfg.kBaseCaseSize :=
        ⟨fun hf => hf.resolve_left heq, .inr⟩
      rwa [if_congr hiff rfl rfl]
  have hpart : ∀ m', (copies A α).AgreeOn (workspace L.p L.tmp oracle L.n) m₁ m' →
      Partitioned comp cfg L.p L.tmp L.elems lastLevel inInputArray
      L.useEqualBuckets bss L.numBuckets m' :=
    fun m' hm' => Partitioned.agree ⟨L, rfl, rfl, .rfl, rfl, rfl, hbss, hdealt⟩ hm'
  refine ⟨_, Cooperate.of_sat_empty fun i => sat_resetData (hs i) hreset,
    fun s m₂ hm₂ m₃ hm₃ => ⟨fun i => ?_, ?_⟩⟩
  · obtain ⟨⟨_, hempty⟩, -⟩ := hm₂ i
    exact hempty
  · exact hpart m₃ ((hm₂ ⟨0, ht⟩).2.trans hm₃)

/-- **Distributing together**: with the cursors where they belong, every bucket comes to stand where
it begins. -/
theorem sat_distributionStage {t : ℕ} {L : Layout comp A} {o : Offsets} {c c' : Classifier α}
    {sorter : Fin t → Sorter α} (hc : StrictWeak comp) (hpos : 0 < L.n) (ht : 1 ≤ t)
    (hbyte : ∀ k ∈ L.keys, k < 256)
    (hcursor : ∀ i < t, ∀ b ∈ L.keys, o.bucketStart i b = cursor L.keys (first L.n t i) b)
    (hsave : ∀ b ≤ L.numBuckets, o.bucketStartSave b = L.start b) (hreset : c.reset = some c')
    (hs : ∀ i, (sorter i).data.classifier.Empty) (hm : Has m L.p L.elems)
    (ho : Oracle m oracle L.keys) :
    (distributionStage comp cfg L.p L.n L.tmp oracle lastLevel inInputArray
      L.useEqualBuckets L.numBuckets o c
      sorter).Sat (copies A α) (workspace L.p L.tmp oracle L.n) m fun r m' =>
        (∀ i, (r.2.2.2 i).data.classifier.Empty) ∧
          Partitioned comp cfg L.p L.tmp L.elems lastLevel inInputArray r.1 r.2.1 r.2.2.1 m' := by
  have hiso := distributionPool_isolated false L.length_eq hbyte hcursor L.arr_ne
    (has_within hm le_rfl)
    (show Oracle (m.within L.p L.n) oracle L.keys from ho) (raw_within L.arr_ne.symm L.n)
  have hkeys : L.keys.length = L.n := L.length_eq
  refine ⟨_, Cooperate.of_sat (fun i => ?_) hiso.disjoint fun i => sat_copies
    (hiso.sat i) rep_within, fun bs m₁ hm₁ => ?_⟩
  · -- a thread touches the elements of its stripe, and the places they go to
    have hle : first L.n t (i + 1) ≤ L.n := first_le
    have hle' : first L.n t i ≤ first L.n t (i + 1) := first_le_succ
    rintro l ⟨j, -, hj, hl⟩
    have hjn : j < L.n := (show j < first L.n t i + (first L.n t (i + 1) - first L.n t i)
      from hj).trans_le (by omega)
    rcases hl with rfl | rfl | rfl
    · exact .inl (.inl (elem_add_mem_seg.mpr hjn))
    · exact .inl (.inr (elem_add_mem_seg.mpr (hkeys ▸ dest_lt (hkeys ▸ hjn))))
    · exact .inr (byte_mem_byteSeg.mpr ⟨Nat.le_add_right _ _, Nat.add_lt_add_left hjn _⟩)
  · refine sat_finishStage hc hpos ht hsave hreset hs fun b _ => ?_
    have hdest : ∀ j x, L.elems[j]? = some x → m₁.slot (L.tmp + dest L.keys j) = x := by
      intro j x hx
      have hj := (List.getElem?_eq_some_iff.mp hx).1
      have hi₁ := first_owner_le ht hj
      have hi₂ := lt_first_owner ht hj
      obtain ⟨m₂, ⟨ms, ⟨-, -, htarget⟩, hrep⟩, hagree⟩ := hm₁ ⟨owner L.n t j, owner_lt ht hj⟩
      have hj' := hi₂.trans_eq (Nat.add_sub_of_le first_le_succ).symm
      exact (hagree (.elem (L.tmp + dest L.keys j)) ⟨j, hi₁, hj', .inr (.inl rfl)⟩).symm.trans
        (hrep.1 _ x (htarget j x hi₁ hi₂ hx))
    -- the objects that these bits stand for
    refine Rep.has (m := m₁.within L.tmp L.n) rep_within
      (has_bucket L.length_eq (fun j x hx => ?_) b)
    have hlt : dest L.keys j < L.n := hkeys ▸ dest_lt (hkeys ▸ (List.getElem?_eq_some_iff.mp hx).1)
    refine (if_pos ⟨rfl, Nat.le_add_right _ _, Nat.add_lt_add_left hlt _⟩).trans ?_
    rw [hdest j x hx]

/-- **Classifying together**: the scan of the counters puts the cursors where they belong. -/
theorem sat_classificationStage {t k : ℕ} {splitters : List α} {eq : Bool} {c : Classifier α}
    {shared : SharedData α} {sorter : Fin t → Sorter α} (hc : StrictWeak comp)
    (hsorted : Sorted comp splitters) (hb : c.Built k splitters) (hlog : k + eq.toNat ≤ 8)
    (hU : 1 ≤ cfg.kUnrollClassifier) (harr : p.arr ≠ tmp.arr) (ht : 1 ≤ t)
    (hlast : first xs.length t (t - 1) + cfg.kUnrollClassifier ≤ xs.length)
    (hs : ∀ i, (sorter i).data.classifier.Empty) (hm : Has m p xs) :
    (classificationStage comp cfg p xs.length tmp oracle lastLevel inInputArray eq
      (2 ^ k * (1 + eq.toNat)) shared c
      sorter).Sat (copies A α) (workspace p tmp oracle xs.length) m fun r m' =>
        (∀ i, (r.2.2.2 i).data.classifier.Empty) ∧
          Partitioned comp cfg p tmp xs lastLevel inInputArray r.1 r.2.1 r.2.2.1 m' := by
  let L : Layout comp A := Layout.ofSplitters hc hsorted hb.log_pos hb.length harr eq xs
  have hkeys : L.keys.length = xs.length := L.length_eq
  have hpos : 0 < xs.length := by omega
  have hbyte : ∀ b ∈ L.keys, b < 256 := fun b hbk => by
    obtain ⟨x, -, rfl⟩ := List.mem_map.mp hbk
    exact (Classifier.bucketOf_lt eq hb.length x).trans_le (Nat.pow_le_pow_right (by omega) hlog)
  obtain ⟨c', hreset, -⟩ := hb.reset
  have hstripe : ∀ i : Fin t, Sat (slots A α false) (stripeRegion p oracle xs.length t i)
      (parallelClassification comp cfg eq (p + first xs.length t i)
        (first xs.length t (i + 1) - first xs.length t i)
        (oracle + first xs.length t i) c (shared.bucketSize i) ⟨(sorter i).data, L.numBuckets⟩)
        (m.within p xs.length)
      fun r m' => (∀ b < L.numBuckets, r.2 b = (slice L.keys t i).count b) ∧
        r.1.data.classifier = (sorter i).data.classifier ∧ m'.slot = (m.within p xs.length).slot ∧
        Oracle m' (oracle + first xs.length t i) (slice L.keys t i) := fun i => by
    have hlen := last_shortest ht i.isLt (n := xs.length)
    exact sat_parallelClassification false eq oracle hc hsorted hb (by omega) hU
      (has_within hm le_rfl) (by omega) _ _
  refine ⟨_, Cooperate.of_sat (fun i => ?_)
    (fun i j hij l hl => stripeRegion_disjoint (fun h => hij (Fin.ext h)) hl)
    fun i => sat_copies (hstripe i) rep_within, fun r m₁ hm₁ => ?_⟩
  · have hle : first xs.length t (i + 1) ≤ xs.length := first_le
    have hle' : first xs.length t i ≤ first xs.length t (i + 1) := first_le_succ
    refine Set.union_subset (fun l hl => .inl (.inl (seg_subset ?_ hl))) fun l hl =>
      .inr (byteSeg_subset ?_ hl)
    · omega
    · omega
  · have hrows : ∀ i < t, ∀ b < L.numBuckets,
        copyRows shared.bucketSize (fun i => (r i).2) i b = (slice L.keys t i).count b :=
        fun i hi b hbn => by
      obtain ⟨_, ⟨_, ⟨hrow, -⟩, -⟩, -⟩ := hm₁ ⟨i, hi⟩
      rw [copyRows, dif_pos hi]
      exact hrow b hbn
    have hone : ∀ j < xs.length, m₁.slot (p + j) = m.slot (p + j) ∧
        ∀ b, L.keys[j]? = some b → m₁.byte (oracle + j) = UInt8.ofNat b := fun j hj => by
      have hi₁ := first_owner_le ht hj
      have hi₂ := lt_first_owner ht hj
      obtain ⟨m₂, ⟨ms, ⟨-, -, hslot, ho⟩, hrep⟩, hagree⟩ :=
        hm₁ ⟨owner xs.length t j, owner_lt ht hj⟩
      have hsub : first xs.length t (owner xs.length t j) +
          (j - first xs.length t (owner xs.length t j)) = j :=
        Nat.add_sub_of_le hi₁
      constructor
      · have hmem : (.elem (p + j) : Loc A) ∈ stripeRegion p oracle xs.length t
            (owner xs.length t j) :=
          .inl (elem_mem_seg.mpr ⟨rfl, by simp; omega, by simp; omega⟩)
        refine (hagree _ hmem).symm.trans (hrep.1 _ _ ?_)
        rw [hslot]
        exact if_pos ⟨rfl, by simp, by simpa⟩
      · intro b hjb
        have hmem : (.byte (oracle + j) : Loc A) ∈ stripeRegion p oracle xs.length t
            (owner xs.length t j) :=
          .inr (byte_mem_byteSeg.mpr ⟨by omega, by omega⟩)
        refine (hagree _ hmem).symm.trans ((congrFun hrep.2 _).symm.trans ?_)
        rw [← hkeys] at hi₁ hi₂
        have hslice := (getElem?_slice hi₁ hi₂).trans hjb
        rw [hkeys] at hslice
        have hbyte := ho _ b hslice
        rwa [Nat.add_assoc, hsub] at hbyte
    refine sat_distributionStage (L := L) hc hpos ht hbyte (fun i hi b hbk => ?_)
      (fun b hbn => ?_) hreset (fun i => ?_) (fun j x hx => ?_) fun j b hjb => ?_
    · refine (offsetScan_cursor _ ht hrows hi (L.key_lt b hbk)).trans ?_
      rw [hkeys]
      rfl
    · exact offsetScan_save _ ht hrows hbn
    · obtain ⟨_, ⟨_, ⟨-, hcl, -⟩, -⟩, -⟩ := hm₁ i
      rw [hcl]
      exact hs i
    · exact (hone j (List.getElem?_eq_some_iff.mp hx).1).1.trans (hm j x hx)
    · exact (hone j (hkeys ▸ (List.getElem?_eq_some_iff.mp hjb).1)).2 b hjb

/-- **One thread builds the classifier** while the others wait. -/
theorem cooperate_sampling {t : ℕ} (one : Fin t) (oracle : ℕ)
    {sort : Ptr A → ℕ → Ptr A → ℕ → Bool → Sorter α → Act A α (Sorter α)} {shared : SharedData α}
    {sorter : Fin t → Sorter α} (hc : StrictWeak comp) (hfits : cfg.Fits xs.length)
    (hsort : Sorts comp cfg false xs.length sort) (harr : p.arr ≠ tmp.arr)
    (hcl : shared.classifier.Empty) (hs : ∀ i, (sorter i).data.classifier.Empty) (hm : Has m p xs) :
    ∃ Q' : Fin t → Sorter α × Classifier α × ℕ × Bool → Mem A α → Prop,
      Cooperate (copies A α) (workspace p tmp oracle xs.length)
        (fun i => if i = one then buildClassifier comp cfg sort p xs.length tmp oracle
          (fun _ => shared.classifier) (sorter one)
          else .ret (sorter i, shared.classifier, shared.numBuckets, shared.useEqualBuckets)) m Q' ∧
      ∀ (r : Fin t → Sorter α × Classifier α × ℕ × Bool) (m₁ : Mem A α), (∀ i, Q' i (r i) m₁) →
      (∀ i, (r i).1.data.classifier.Empty) ∧ ∃ sample rest : List α,
        (sample ++ rest).Perm xs ∧ Has m₁ p (sample ++ rest) ∧ cfg.Sample comp xs.length sample ∧
        (r one).2.1.Built (cfg.leavesFrom comp xs.length sample)
          (cfg.splittersFrom comp xs.length sample) ∧
        (r one).2.2 = (2 ^ cfg.leavesFrom comp xs.length sample *
          (1 + (cfg.equalFrom comp xs.length sample).toNat), cfg.equalFrom comp xs.length sample) ∧
        cfg.leavesFrom comp xs.length sample + (cfg.equalFrom comp xs.length sample).toNat ≤ 8 := by
  have hbuild := sat_copies (@sat_buildClassifier A α comp _ false _ p tmp
    cfg sort _ hc hsort xs oracle
    (fun _ => shared.classifier) (sorter one) hfits.sample_lt hfits.sample_lt.le
    hfits.log_pos harr (hs one)
    (fun _ _ => hcl) (has_within hm le_rfl) (raw_within harr.symm xs.length)) rep_within
  refine ⟨_, Cooperate.single hbuild, fun r m₁ hr => ?_⟩
  have hone := hr one
  rw [if_pos rfl] at hone
  obtain ⟨m₂, ⟨ms, ⟨hs₁, -, sample, rest, hperm, hms, hsample, hbuilt, heq⟩, hrep⟩, hagree⟩ := hone
  have hlen : (sample ++ rest).length = xs.length := hperm.length_eq
  have hempty : ∀ i, (r i).1.data.classifier.Empty := fun i => by
    by_cases hi : i = one
    · rw [hi]
      exact hs₁
    · have hri := hr i
      rw [if_neg hi] at hri
      rw [hri]
      exact hs i
  have hm₁ : Has m₁ p (sample ++ rest) := (hrep.has hms).of_eq fun i hi =>
    hagree (.elem (p + i)) (.inl (.inl (elem_add_mem_seg.mpr (hlen ▸ hi))))
  exact ⟨hempty, sample, rest, hperm, hm₁, hsample, hbuilt, heq, hfits.leaves_add_le hc hsample⟩

omit [DecidableEq A] in
/-- The elements that the threads have partitioned are those there were before sampling. -/
theorem Partitioned.of_perm {ys : List α} {eq : Bool} {bss : ℕ → ℕ} {nb : ℕ}
    (h : Partitioned comp cfg p tmp ys lastLevel inInputArray eq bss nb m) (hperm : ys.Perm xs) :
    Partitioned comp cfg p tmp xs lastLevel inInputArray eq bss nb m := by
  obtain ⟨L, hp, htmp, hLperm, h⟩ := h
  exact ⟨L, hp, htmp, hLperm.trans hperm, h⟩

/-- **The threads partition together**: however they take turns, none of them ever halts, they touch
only the range, the temporary storage and the oracle, and in the end the range is partitioned. -/
theorem sat_partitionParallel {t : ℕ} {one : Fin t}
    {sort : Ptr A → ℕ → Ptr A → ℕ → Bool → Sorter α → Act A α (Sorter α)} {shared : SharedData α}
    {sorter : Fin t → Sorter α} (hc : StrictWeak comp) (hn : xs.length = n) (hfits : cfg.Fits n)
    (hsort : Sorts comp cfg false n sort) (harr : p.arr ≠ tmp.arr) (hcl : shared.classifier.Empty)
    (hs : ∀ i, (sorter i).data.classifier.Empty)
    (hlast : first n t (t - 1) + cfg.kUnrollClassifier ≤ n) (hm : Has m p xs) :
    (partitionParallel comp cfg p n tmp oracle lastLevel inInputArray sort one shared sorter).Sat
    (copies A α)
      (workspace p tmp oracle n) m fun r m' => (∀ i, (r.2.2.2 i).data.classifier.Empty) ∧
        Partitioned comp cfg p tmp xs lastLevel inInputArray r.1 r.2.1 r.2.2.1 m' := by
  subst hn
  obtain ⟨Q', hcoop, hnext⟩ := cooperate_sampling one oracle hc hfits hsort harr hcl hs hm
  refine ⟨Q', hcoop, fun r m₁ hr => ?_⟩
  obtain ⟨hempty, sample, rest, hperm, hm₁, hsample, hbuilt, heq, hlog⟩ := hnext r m₁ hr
  have hlen : (sample ++ rest).length = xs.length := hperm.length_eq
  have hstage := @sat_classificationStage A α _ comp cfg p tmp oracle lastLevel inInputArray m₁
    (sample ++ rest) t _ _ _ _
    shared (fun i => (r i).1) hc (hsample.splitters_sorted hc) hbuilt hlog hfits.unroll_pos harr
    (Nat.zero_lt_of_lt one.isLt) (by rwa [hlen]) hempty hm₁
  rw [hlen] at hstage
  dsimp only
  rw [heq]
  exact hstage.imp fun r m' h => ⟨h.1, h.2.of_perm hperm⟩

/-! ### Short stripes -/

omit [DecidableEq A] in
/-- A thread whose stripe is too short halts, and does nothing else. -/
theorem parallelClassification_halted {eq : Bool} {splitters : List α} {k : ℕ} {c : Classifier α}
    {row : ℕ → ℕ} {s : Sorter α} (hb : c.Built k splitters) (hk : k ≤ 8) (hpos : 0 < n)
    (hshort : n < cfg.kUnrollClassifier) :
    (parallelClassification comp cfg eq p n oracle c row s).Halted := by
  rw [parallelClassification, classifyStripe, if_pos hpos, classifyLocally,
    Classifier.classifyRange, hb.log,
    if_pos ⟨hb.log_pos, hk⟩, Classifier.classifyUnrolled, if_pos (.inr hshort)]
  exact ⟨_, rfl⟩

/-- **Classifying together**, when every stripe has elements: a thread halts, or the range is
partitioned. -/
theorem upholds_classificationStage {t k : ℕ} {splitters : List α} {eq : Bool} {c : Classifier α}
    {shared : SharedData α} {sorter : Fin t → Sorter α} (hc : StrictWeak comp)
    (hsorted : Sorted comp splitters) (hb : c.Built k splitters) (hlog : k + eq.toNat ≤ 8)
    (hU : 1 ≤ cfg.kUnrollClassifier) (harr : p.arr ≠ tmp.arr) (ht : 1 ≤ t)
    (hlast : first xs.length t (t - 1) < xs.length) (hs : ∀ i, (sorter i).data.classifier.Empty)
    (hm : Has m p xs) :
    (classificationStage comp cfg p xs.length tmp oracle lastLevel inInputArray eq
      (2 ^ k * (1 + eq.toNat)) shared c
      sorter).Upholds (copies A α) (workspace p tmp oracle xs.length) m fun r m' =>
        (∀ i, (r.2.2.2 i).data.classifier.Empty) ∧
          Partitioned comp cfg p tmp xs lastLevel inInputArray r.1 r.2.1 r.2.2.1 m' := by
  rcases Nat.lt_or_ge xs.length (first xs.length t (t - 1) +
    cfg.kUnrollClassifier) with hshort | hlong
  · have hhalted : ∀ i < t, first xs.length t (i + 1) - first xs.length t i <
        cfg.kUnrollClassifier → ∀ row s,
        (parallelClassification comp cfg eq (p + first xs.length t i)
          (first xs.length t (i + 1) - first xs.length t i)
          (oracle + first xs.length t i) c row s).Halted := fun i hi hlt row s => by
      have hle := last_shortest ht hi (n := xs.length)
      exact parallelClassification_halted hb (by omega) (by omega) hlt
    refine .inr ⟨fun i => stripeRegion p oracle xs.length t i, ⟨⟨t - 1, by omega⟩, ?_⟩, fun i => ?_,
      fun i j hij l hl => stripeRegion_disjoint (fun h => hij (Fin.ext h)) hl, fun i => ?_⟩
    · have hend : first xs.length t (t - 1 + 1) ≤ xs.length := first_le
      exact hhalted (t - 1) (by omega) (by omega) _ _
    · have hle : first xs.length t (i + 1) ≤ xs.length := first_le
      have hle' : first xs.length t i ≤ first xs.length t (i + 1) := first_le_succ
      refine Set.union_subset (fun l hl => .inl (.inl (seg_subset ?_ hl))) fun l hl =>
        .inr (byteSeg_subset ?_ hl)
      · omega
      · omega
    · rcases Nat.lt_or_ge (first xs.length t (i + 1) - first xs.length t i)
        cfg.kUnrollClassifier with hlt | hge
      · exact .inl (hhalted i i.isLt hlt _ _)
      · have hsat := sat_parallelClassification false eq oracle hc hsorted hb (by omega) hU
          (has_within hm le_rfl) hge (shared.bucketSize i) ⟨(sorter i).data, 2 ^ k * (1 + eq.toNat)⟩
        exact .inr ⟨_, sat_copies hsat rep_within⟩
  · exact (sat_classificationStage hc hsorted hb hlog hU harr ht hlong hs hm).upholds

/-- **The threads partition together**, when every stripe has elements: however they take turns,
they touch only the range, the temporary storage and the oracle; if they come to an end, which they
do not if a stripe is too short for the unrolled loop, the range is partitioned. -/
theorem upholds_partitionParallel {t : ℕ} {one : Fin t}
    {sort : Ptr A → ℕ → Ptr A → ℕ → Bool → Sorter α → Act A α (Sorter α)} {shared : SharedData α}
    {sorter : Fin t → Sorter α} (hc : StrictWeak comp) (hn : xs.length = n) (hfits : cfg.Fits n)
    (hsort : Sorts comp cfg false n sort) (harr : p.arr ≠ tmp.arr) (hcl : shared.classifier.Empty)
    (hs : ∀ i, (sorter i).data.classifier.Empty) (hlast : first n t (t - 1) < n) (hm : Has m p xs) :
    (partitionParallel comp cfg p n tmp oracle lastLevel inInputArray sort one shared
      sorter).Upholds (copies A α)
      (workspace p tmp oracle n) m fun r m' => (∀ i, (r.2.2.2 i).data.classifier.Empty) ∧
        Partitioned comp cfg p tmp xs lastLevel inInputArray r.1 r.2.1 r.2.2.1 m' := by
  subst hn
  obtain ⟨Q', hcoop, hnext⟩ := cooperate_sampling one oracle hc hfits hsort harr hcl hs hm
  refine .inl ⟨Q', hcoop, fun r m₁ hr => ?_⟩
  obtain ⟨hempty, sample, rest, hperm, hm₁, hsample, hbuilt, heq, hlog⟩ := hnext r m₁ hr
  have hlen : (sample ++ rest).length = xs.length := hperm.length_eq
  have hstage := @upholds_classificationStage A α _ comp cfg p tmp oracle lastLevel inInputArray m₁
    (sample ++ rest) t _ _ _ _
    shared (fun i => (r i).1) hc (hsample.splitters_sorted hc) hbuilt hlog hfits.unroll_pos harr
    (Nat.zero_lt_of_lt one.isLt) (by rwa [hlen]) hempty hm₁
  rw [hlen] at hstage
  dsimp only
  rw [heq]
  exact hstage.imp fun r m' h => ⟨h.1, h.2.of_perm hperm⟩

end

end Ps4o
