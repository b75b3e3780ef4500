import Ps4o.InPlace.BucketFilling

/-!
# Filling the margins, with several threads

All threads save the excess at the end of their parts, and when all of them have, fill the margins
(`cleanup`).

## What is proved

* `Scattered.sat_saveExcess` — what a thread has in its swap block.
* `threadSpace_disjoint` — no two threads use the same part of the memory.
* `sat_cleanup` — **every bucket holds its elements, and all buffers are empty, whatever the order
  of the threads' steps**.
-/

namespace Ps4o.InPlace

open Ps4o.Program Ps4o.Storage Ps4o.Order Ps4o.Order.Stripes

variable {α : Type}

/-! ### Saving and filling -/

section
variable {comp : α → α → Bool} {cfg : Config}
variable {init : Bool} {B n t K : ℕ} {p : Ptr Area} {s : Margins} {m m' : Mem Area α} {o : ℕ → Bool}
  {b : Buffers} {blocks : ℕ → ℕ} {main last : ℕ → List α} {buf : ℕ → ℕ → List α}

/-- The buffers of all threads from a bucket have no more elements than they have room for. -/
theorem length_buffered_le {buf : ℕ → List α} (h : ∀ j < t, (buf j).length ≤ B) :
    (buffered t buf).length ≤ t * B := by
  induction t with
  | zero => simp [buffered]
  | succ t ih =>
    have hle : ((List.range t).flatMap buf).length ≤ t * B :=
      ih fun j hj => h j (hj.trans (Nat.lt_succ_self t))
    have := h t (Nat.lt_succ_self t)
    rw [buffered, List.range_succ, List.flatMap_append, List.flatMap_singleton,
      List.length_append, Nat.succ_mul]
    omega

/-- What the threads save is as after any block permutation. -/
theorem Scattered.permuted (h : Scattered K B n t p s b m blocks o main last buf) :
    Permuted B s.numBuckets t s.bucketStart blocks s.write where
  fits i hi := by
    have := (h.pieces i hi).size
    omega
  buffered i hi := by
    have := (h.pieces i hi).size
    have := length_buffered_le fun j hj => (h.buffers i hi j hj).le
    omega
  flushed i hi hblocks := by
    have := (h.pieces i hi).size
    have := List.length_pos_iff.mpr ((h.pieces i hi).lazy hblocks)
    omega
  write i hi := (h.pieces i hi).write

variable (hB : 1 ≤ B) (hp : p.arr = .input) (ht : 1 ≤ t)
include hB hp ht

/-- **What a thread has in its swap block.** -/
theorem Scattered.sat_saveExcess (h : Scattered K B n t p s b m blocks o main last buf) (j : Fin t)
    {swap : Ptr Area} (hswap : swap.arr = .swap false) :
    Sat (copies Area α) (seg p n ∪ seg swap B)
      (saveExcess init B p s n swap (first s.numBuckets t (j + 1))) m fun saved m' =>
      (∀ i < first s.numBuckets t (j + 1), Kept B s m' swap saved
        (s.bucketStart (first s.numBuckets t (j + 1))) i (o i) (main i)) ∧
        Untouched m m' (seg swap B) := by
  have hbound := h.boundaries
  have hperm := h.permuted
  set k := first s.numBuckets t (j + 1)
  have hk : k ≤ s.numBuckets := first_le
  have hblocks : ∀ i < k, o i = false → main i ≠ [] → 1 ≤ blocks i := by
    intro i hi hoi hne
    obtain ⟨-, hlen, -⟩ := (h.pieces i (by omega)).noOverflow hoi
    refine Nat.one_le_iff_ne_zero.mpr fun h0 => hne (List.length_eq_zero_iff.mp ?_)
    rw [hlen, h0, Nat.zero_mul]
  have hin : ∀ i < k, ∀ saved : Saved, saved = saveMargins B n s.bucketStart s.write k →
      ¬ (some i = saved.swapBucket ∧ saved.inSwapBuffer ≠ 0) → o i = false → main i ≠ [] →
        s.bucketStart (i + 1) < s.write i → s.write i ≤ s.bucketStart k := by
    rintro i hi _ rfl hno hoi hne hlt
    by_contra hbeyond
    have hone := hblocks i hi hoi hne
    obtain ⟨-, -, hn⟩ := (h.pieces i (by omega)).noOverflow hoi
    rw [saveMargins_eq hbound hB hperm hi hk hone (by omega) (hn hone)] at hno
    exact hno ⟨rfl, by dsimp only; omega⟩
  rw [saveExcess]
  rcases Nat.eq_zero_or_pos (saveMargins B n s.bucketStart s.write k).inSwapBuffer with hzero | hpos
  · -- there is no excess, or the threads before have to do with it
    rw [hzero]
    exact ⟨fun i hi => ⟨fun _ h0 => absurd hzero h0, hin i hi _ rfl⟩, .refl m _⟩
  · obtain ⟨c, hc, heq, hone, hlt, hn⟩ := savings_of_pos hbound hB hperm ht (i := j) hpos
    change saveMargins B n s.bucketStart s.write k =
      ⟨some c, s.bucketStart (c + 1), s.write c - s.bucketStart (c + 1)⟩ at heq
    change s.bucketStart k < s.write c at hlt
    have hcn : c < s.numBuckets := hc.trans_le hk
    have hpieces := h.pieces c hcn
    have hoc : o c = false := by
      rw [← Bool.not_eq_true]
      intro hoc
      obtain ⟨-, -, hover, -⟩ := hpieces.overflow hoc
      omega
    rw [hoc] at hpieces
    obtain ⟨-, hmain, -⟩ := hpieces.noOverflow rfl
    have hmono := hbound.mono (show c + 1 ≤ k from hc) hk
    have hbehind : s.bucketStart (c + 1) < s.write c := by omega
    obtain ⟨-, hroom, hle⟩ := hpieces.extent.excess hB hbehind hone
    have hexcess := hpieces.extent.length_excess hB hbehind hone
    have halign := alignToNextBlock_lt hB (s.bucketStart c)
    have hmul := Nat.mul_le_mul_right B hone
    have hhas := hpieces.extent.has_main hB hbehind hone hpieces.hasMain
    rw [heq, sat_bind]
    refine (sat_readFrom_bits hexcess hhas.2 fun x _ y _ => elem_add_ne (by simp [hp, hswap])).mono
      (Set.union_subset_union (seg_subset (by omega)) (seg_mono (by omega))) ?_
    rintro _ m' ⟨hsaved, hsame⟩
    refine ⟨fun i hi => ⟨fun hi' _ => ?_, hin i hi _ heq.symm⟩, hsame.mono (seg_mono (by omega))⟩
    obtain rfl := Option.some.inj hi'
    refine ⟨hoc, ?_, hbehind, rfl, hsaved⟩
    intro hnil
    rw [hnil, List.length_nil] at hmain
    omega

omit hB hp ht in
/-- While it saves margins, a thread changes only its swap block. -/
theorem saveExcess_changes (swap : Ptr Area) (k : ℕ)
    (h : (saveMargins B n s.bucketStart s.write k).inSwapBuffer ≤ B) :
    (saveExcess init B p s n swap k : Act Area α Saved).All
    ((copies Area α).Changes (seg swap B)) := by
  refine Prog.All.bind (Prog.All.loop_lt (fun i hi _ => ?_) ()) fun _ => trivial
  refine Prog.All.bind (p := moveFrom _) ⟨fun c m a m' he => ?_, fun _ => trivial⟩ fun v => ?_
  · cases he
    exact .refl _ _ _
  · have hfoot : ({.elem (swap + i)} : Set (Loc Area)) ⊆ seg swap B := by
      rintro l rfl
      exact elem_add_mem_seg.mpr (hi.trans_le h)
    rw [put]
    split_ifs
    · exact ⟨Semantics.changes_of_foot hfoot, fun _ => trivial⟩
    · exact ⟨Semantics.changes_of_foot hfoot, fun _ => trivial⟩

end

/-! ### All threads -/

/-- What the threads have in common. -/
def commonSpace (K B n t : ℕ) (p : Ptr Area) (s : Margins) : Set (Loc Area) :=
  seg p n ∪ seg overflowBlock B ∪ dataOf B (buffersIn K t 0 s.numBuckets)

/-- What the threads work on, and their swap blocks. -/
def cleanupSpace (K B n t : ℕ) (p : Ptr Area) (s : Margins) : Set (Loc Area) :=
  commonSpace K B n t p s ∪ {l | ∃ j : Fin t, l ∈ seg (swapBlockOf B j) B}

/-- What thread `j` relies on while margins are saved. -/
def savingSpace (K B n t : ℕ) (p : Ptr Area) (s : Margins) (j : ℕ) : Set (Loc Area) :=
  commonSpace K B n t p s ∪ seg (swapBlockOf B j) B

/-- What thread `j` of `t` threads works on. -/
def threadSpace (K B t : ℕ) (p : Ptr Area) (s : Margins) (o : ℕ → Bool) (j : ℕ) : Set (Loc Area) :=
  partSpace K B t p s o (swapBlockOf B j) (first s.numBuckets t j) (first s.numBuckets t (j + 1))

/-- What cleanup leaves behind: bucket `i` holds the elements of `xs i`, and its buffers are as in
the beginning. -/
structure Cleaned (comp : α → α → Bool) (cfg : Config) (B n t : ℕ) (p : Ptr Area) (s : Margins)
    (b b' : Buffers) (m : Mem Area α) (xs : ℕ → List α) : Prop where
  filled : ∀ i < s.numBuckets, ∃ zs,
    BucketFilled comp cfg (n ≤ cfg.kSingleLevelThreshold) p s m i (xs i) zs
  stop : b'.stop = b.stop
  start : ∀ i < s.numBuckets, ∀ j < t, b'.ptr (j * cfg.kMaxBuckets + i) =
    (j * cfg.kMaxBuckets + i) * B
  other : ∀ i, s.numBuckets ≤ i → i < cfg.kMaxBuckets → ∀ j, b'.ptr (j * cfg.kMaxBuckets + i) =
    b.ptr (j * cfg.kMaxBuckets + i)

section
variable {comp : α → α → Bool} {cfg : Config}
variable {init : Bool} {B n t K : ℕ} {p : Ptr Area} {s : Margins} {m m' : Mem Area α} {o : ℕ → Bool}
  {b : Buffers} {blocks : ℕ → ℕ} {main last : ℕ → List α} {buf : ℕ → ℕ → List α}

theorem swapBlockOf_inj {j j' x x' : ℕ} (hx : x < B) (hx' : x' < B)
    (h : swapBlockOf B j + x = swapBlockOf B j' + x') : j = j' := by
  have hoff : j * B + x = j' * B + x' := congrArg Ptr.off h
  exact (add_mul_inj hx hx' hoff).1

/-- What others do elsewhere. -/
theorem untouched_of_agreeOn {R : Set (Loc Area)} (h : (copies Area α).AgreeOn R m m') :
    Untouched m m' Rᶜ :=
  fun q hq => (h (.elem q) (Set.notMem_compl_iff.mp hq)).symm

/-- The threads leave their swap blocks alone together. -/
theorem swap_notMem_common {q : Ptr Area} {k : ℕ} (hp : p.arr = .input) (hq : q.arr = .swap false)
    {l : Loc Area} (hl : l ∈ seg q k) : l ∉ commonSpace K B n t p s := by
  obtain ⟨x, -, rfl⟩ := hl
  rintro ((hmem | hmem) | ⟨k, -, hmem⟩)
  · exact notMem_seg_of_arr (by simp [hp, hq]) hmem
  · exact notMem_seg_of_arr (by simp [overflowBlock, hq]) hmem
  · exact notMem_seg_of_arr (by simp [Buffers.data, hq]) hmem

theorem Scattered.congr (h : Scattered K B n t p s b m blocks o main last buf) (hB : 1 ≤ B)
    {R : Set (Loc Area)} (hm : Untouched m m' R) (hR : ∀ l ∈ commonSpace K B n t p s, l ∉ R) :
    Scattered K B n t p s b m' blocks o main last buf where
  boundaries := h.boundaries
  le_max := h.le_max
  pieces i hi := (h.pieces i hi).congr hm
    (fun _ hx => hR _ (.inl (.inl (elem_add_mem_seg.mpr ((h.pieces i hi).main_lt hB hx)))))
    fun _ hx => hR _ (.inl (.inr (elem_add_mem_seg.mpr hx)))
  buffers i hi j hj := (h.buffers i hi j hj).congr rfl rfl hm fun _ hx =>
    hR _ (.inr ⟨_, ⟨i, Nat.zero_le i, hi, j, hj, rfl⟩, elem_add_mem_seg.mpr hx⟩)
  overflow := h.overflow

/-- What a thread works on is in one of the arrays. -/
theorem mem_threadSpace (h : Scattered K B n t p s b m blocks o main last buf) (hp : p.arr = .input)
    {j : ℕ} {q : Ptr Area} (hq : .elem q ∈ threadSpace K B t p s o j) :
    match q.arr with
    | .input => p.off + s.bucketStart (first s.numBuckets t j) ≤ q.off ∧
        q.off < p.off + s.bucketStart (first s.numBuckets t (j + 1))
    | .swap _ => ∃ x, x < B ∧ q = swapBlockOf B j + x
    | .overflow => ∃ i, (first s.numBuckets t j ≤ i ∧ i < first s.numBuckets t (j + 1)) ∧ o i = true
    | .buffers => ∃ i u, (first s.numBuckets t j ≤ i ∧ i < first s.numBuckets t (j + 1)) ∧
        ∃ x, x < B ∧ q.off = (u * K + i) * B + x := by
  obtain (((hq | ⟨x, hx, he⟩) | ⟨i, h₁, h₂, ho, hq⟩) | ⟨k, ⟨i, h₁, h₂, u, -, rfl⟩, x, hx, he⟩) := hq
  · have hmono := h.boundaries.mono (first_le_succ (n := s.numBuckets) (t := t) (i := j)) first_le
    rw [elem_mem_seg] at hq
    obtain ⟨harr, hle, hlt⟩ := hq
    have harr : q.arr = .input := harr.trans hp
    simp only [Ptr.add_off] at hle hlt
    rw [harr]
    exact ⟨hle, by omega⟩
  · obtain rfl := Loc.elem.inj he
    exact ⟨x, hx, rfl⟩
  · obtain ⟨x, -, he⟩ := hq
    obtain rfl := Loc.elem.inj he
    exact ⟨i, ⟨h₁, h₂⟩, ho⟩
  · obtain rfl := Loc.elem.inj he
    exact ⟨i, u, ⟨h₁, h₂⟩, x, hx, rfl⟩

theorem threadSpace_subset (h : Scattered K B n t p s b m blocks o main last buf) (j : Fin t) :
    threadSpace K B t p s o j ⊆ cleanupSpace K B n t p s := by
  have hle : s.bucketStart (first s.numBuckets t (j + 1)) ≤ n := by
    rw [← h.boundaries.last]
    exact h.boundaries.mono first_le le_rfl
  have hmono := h.boundaries.mono (first_le_succ (n := s.numBuckets) (t := t) (i := j)) first_le
  rintro l (((hl | hl) | ⟨_, _, _, _, hl⟩) | ⟨k, ⟨i, h₁, h₂, hk⟩, hl⟩)
  · exact .inl (.inl (.inl (seg_subset (by omega) hl)))
  · exact .inr ⟨j, hl⟩
  · exact .inl (.inl (.inr hl))
  · exact .inl (.inr ⟨k, ⟨i, Nat.zero_le i, h₂.trans_le first_le, hk⟩, hl⟩)

/-- No thread works on what another one works on. -/
theorem threadSpace_disjoint (h : Scattered K B n t p s b m blocks o main last buf)
    (hp : p.arr = .input) (ht : 1 ≤ t) {j j' : ℕ} (hj : j ≠ j') {l : Loc Area}
    (hl : l ∈ threadSpace K B t p s o j) : l ∉ threadSpace K B t p s o j' := by
  have hbound := h.boundaries
  -- a bucket belongs to one thread
  have howner : ∀ i, first s.numBuckets t j ≤ i ∧ i < first s.numBuckets t (j + 1) →
      ¬ (first s.numBuckets t j' ≤ i ∧ i < first s.numBuckets t (j' + 1)) := by
    intro i h₁ h₂
    have hi : i < s.numBuckets := h₁.2.trans_le first_le
    exact hj (((mem_iff ht hi).mp h₁).symm.trans ((mem_iff ht hi).mp h₂))
  intro hl'
  cases l with
  | byte x =>
    obtain (((hmem | hmem) | ⟨_, _, _, _, hmem⟩) | ⟨_, _, hmem⟩) := hl
    all_goals exact byte_notMem_seg hmem
  | elem q =>
    have h₁ := mem_threadSpace h hp hl
    have h₂ := mem_threadSpace h hp hl'
    cases harr : q.arr with
    | input =>
      rw [harr] at h₁ h₂
      rcases Nat.lt_or_gt_of_ne hj with hlt | hgt
      · have := hbound.mono (first_mono (n := s.numBuckets) (t := t)
          (show j + 1 ≤ j' from hlt)) first_le
        omega
      · have := hbound.mono (first_mono (n := s.numBuckets) (t := t)
          (show j' + 1 ≤ j from hgt)) first_le
        omega
    | swap c =>
      rw [harr] at h₁ h₂
      obtain ⟨x, hx, rfl⟩ := h₁
      obtain ⟨x', hx', he⟩ := h₂
      exact hj (swapBlockOf_inj hx hx' he)
    | overflow =>
      rw [harr] at h₁ h₂
      obtain ⟨i, hi, ho⟩ := h₁
      obtain ⟨i', hi', ho'⟩ := h₂
      have h₁ := ((h.overflow i (hi.2.trans_le first_le)).mp ho).1
      have h₂ := ((h.overflow i' (hi'.2.trans_le first_le)).mp ho').1
      obtain rfl := Option.some.inj (h₁.trans h₂.symm)
      exact howner i hi hi'
    | buffers =>
      rw [harr] at h₁ h₂
      obtain ⟨i, u, hi, x, hx, he⟩ := h₁
      obtain ⟨i', u', hi', x', hx', he'⟩ := h₂
      have hK : ∀ {i j}, i < first s.numBuckets t (j + 1) → i < K :=
        fun hi => (hi.trans_le first_le).trans_le h.le_max
      obtain ⟨hk, -⟩ := add_mul_inj hx hx' (he.symm.trans he')
      obtain ⟨-, rfl⟩ := add_mul_inj (hK hi.2) (hK hi'.2) hk
      exact howner i hi hi'

variable (hB : 1 ≤ B) (hp : p.arr = .input) (ht : 1 ≤ t)
include hB hp ht

/-- The threads save margins at the same time. -/
theorem Scattered.cooperate_saving (h : Scattered K B n t p s b m blocks o main last buf) :
    Cooperate (copies Area α) (cleanupSpace K B n t p s)
      (fun j : Fin t => saveExcess init B p s n (swapBlockOf B j) (first s.numBuckets t (j + 1))) m
        fun j saved m' =>
      Scattered K B n t p s b m' blocks o main last buf ∧ ∀ i < first s.numBuckets t (j + 1),
        Kept B s m' (swapBlockOf B j) saved (s.bucketStart (first s.numBuckets t (j + 1))) i (o i)
          (main i) := by
  have hrest : ∀ j : Fin t, savingSpace K B n t p s j ⊆ cleanupSpace K B n t p s :=
    fun j => Set.union_subset_union_right _ fun l hl => ⟨j, hl⟩
  have hown : ∀ j : Fin t, seg (swapBlockOf B j) B ⊆ savingSpace K B n t p s j :=
    fun j => Set.subset_union_right
  refine (Cooperate.of_changes hrest hown (fun j j' hjj l hl hl' => ?_)
    (fun j => (h.sat_saveExcess hB hp ht j rfl).mono ?_ fun _ _ hq => hq) fun j =>
    saveExcess_changes _ _ ?_).imp ?_
  · rcases hl' with hl' | hl'
    · exact swap_notMem_common hp rfl hl hl'
    · obtain ⟨x, hx, rfl⟩ := hl
      obtain ⟨x', hx', he⟩ := hl'
      exact hjj (Fin.ext (swapBlockOf_inj hx hx' (Loc.elem.inj he)))
  · exact Set.union_subset_union_left _ (Set.subset_union_left.trans Set.subset_union_left)
  · rcases Nat.eq_zero_or_pos (savings B n s.numBuckets t s.bucketStart s.write
      j).inSwapBuffer with hzero | hpos
    · exact (le_of_eq hzero).trans (Nat.zero_le B)
    · obtain ⟨c, hc, heq, -⟩ := savings_of_pos h.boundaries hB h.permuted ht hpos
      have hle := h.permuted.write_le h.boundaries hB (hc.trans_le first_le)
      have hlt := alignToNextBlock_lt hB (s.bucketStart (c + 1))
      change (savings B n s.numBuckets t s.bucketStart s.write j).inSwapBuffer ≤ B
      rw [heq]
      dsimp only
      omega
  · rintro j saved m' ⟨m₂, ⟨hkept, hsame⟩, hag⟩
    have hsame' := untouched_of_agreeOn hag
    refine ⟨(h.congr hB hsame fun l hl hl' => swap_notMem_common hp rfl hl' hl).congr hB hsame'
      fun l hl hl' => hl' (.inl hl),
      fun i hi => (hkept i hi).congr hsame' fun x hx hmem =>
      hmem (.inr (elem_add_mem_seg.mpr (hx.trans_le ?_)))⟩
    exact (h.pieces i (hi.trans_le first_le)).excess_le hB

/-- The threads write margins at the same time. -/
theorem Scattered.cooperate_filling
    (h : Scattered cfg.kMaxBuckets B n t p s b m blocks o main last buf) {saved : Fin t → Saved}
    (hk : ∀ j : Fin t, ∀ i < first s.numBuckets t (j + 1),
      Kept B s m (swapBlockOf B j) (saved j)
      (s.bucketStart (first s.numBuckets t (j + 1))) i (o i) (main i)) :
    Cooperate (copies Area α) (cleanupSpace cfg.kMaxBuckets B n t p s)
      (fun j : Fin t => writeMarginsOf comp cfg init B p s n t (first s.numBuckets t j)
        (first s.numBuckets t (j + 1))
        (computeOverflowBucket B s.bucketStart s.numBuckets) (swapBlockOf B j) (saved j) b) m
          fun j b' m' =>
      b.Emptied b' B (buffersIn cfg.kMaxBuckets t (first s.numBuckets t j)
        (first s.numBuckets t (j + 1))) ∧
        ∀ i, first s.numBuckets t j ≤ i → i < first s.numBuckets t (j + 1) →
          ∃ zs, BucketFilled comp cfg (n ≤ cfg.kSingleLevelThreshold) p s m' i
            (main i ++ last i ++ buffered t (buf i)) zs := by
  refine (Cooperate.of_sat (fun j => threadSpace_subset h j)
    (fun j j' hjj l hl => threadSpace_disjoint h hp ht (fun he => hjj (Fin.ext he)) hl)
    fun j => h.sat_writeMarginsOf hB hp first_le_succ first_le rfl fun i _ hi => hk j i hi).imp ?_
  rintro j b' m' ⟨m₂, ⟨hemp, hdone⟩, hag⟩
  refine ⟨hemp, fun i h₁ h₂ => ?_⟩
  obtain ⟨zs, hperm, hhas, hsorted⟩ := hdone i h₁ h₂
  refine ⟨zs, hperm, (untouched_of_agreeOn hag).has hhas fun x hx hmem =>
    hmem (.inl (.inl (.inl ?_))), hsorted⟩
  have hlen := hperm.length_eq.trans (h.pieces i (h₂.trans_le first_le)).length
  have hmono := h.boundaries.mono h₁ (h₂.le.trans first_le)
  have hmono' := h.boundaries.mono (show i + 1 ≤ first s.numBuckets t (j + 1) from h₂) first_le
  simp only [elem_mem_seg, Ptr.add_off, Ptr.add_arr, true_and]
  omega

/-- **What cleanup leaves behind**, whatever the order of the threads' steps. -/
theorem Scattered.sat_cleaned
    (h : Scattered cfg.kMaxBuckets B n t p s b m blocks o main last buf) :
    (cleanup comp cfg init B p s n t b).Sat (copies Area α)
      (cleanupSpace cfg.kMaxBuckets B n t p s) m fun b' m' =>
      Cleaned comp cfg B n t p s b b' m' fun i => main i ++ last i ++ buffered t (buf i) := by
  refine ⟨_, h.cooperate_saving hB hp ht, fun saved m₁ h₁ => ?_⟩
  have hone := (h₁ ⟨0, ht⟩).1
  refine ⟨_, hone.cooperate_filling hB hp ht fun j => (h₁ j).2, fun bs m₂ h₂ m₃ hag => ?_⟩
  have hmod : ∀ i < cfg.kMaxBuckets, ∀ j, (j * cfg.kMaxBuckets + i) % cfg.kMaxBuckets = i := by
    intro i hi j
    rw [Nat.mul_comm, Nat.mul_add_mod, Nat.mod_eq_of_lt hi]
  refine ⟨fun i hi => ?_, rfl, fun i hi j hj => ?_, fun i hi hik j => ?_⟩
  · obtain ⟨zs, hperm, hhas, hsorted⟩ := (h₂ ⟨owner s.numBuckets t i, owner_lt ht hi⟩).2 i
      (first_owner_le ht hi) (lt_first_owner ht hi)
    refine ⟨zs, hperm, (untouched_of_agreeOn hag).has hhas fun x hx hmem => hmem
      (.inl (.inl (.inl ?_))), hsorted⟩
    have hlen := hperm.length_eq.trans (h.pieces i hi).length
    have hstep := h.boundaries.step i hi
    have hend := h.boundaries.end_le hi
    rw [Ptr.add_assoc, elem_add_mem_seg]
    omega
  · have howner := owner_lt ht hi
    simp only [Buffers.gather, hmod i (hi.trans_le h.le_max), dif_pos howner]
    exact (h₂ ⟨owner s.numBuckets t i, howner⟩).1.start _
      ⟨i, first_owner_le ht hi, lt_first_owner ht hi, j, hj, rfl⟩
  · simp only [Buffers.gather, hmod i hik]
    split
    · next howner =>
      exact (h₂ ⟨_, howner⟩).1.other _ (notMem_buffersIn (first_le.trans h.le_max) hik
        (.inr (first_le.trans hi)))
    · rfl

/-- **Every bucket holds its elements in the end, and all buffers are empty**, whatever the order of
the threads' steps. -/
theorem sat_cleanup (h : Scattered cfg.kMaxBuckets B n t p s b m blocks o main last buf) :
    (cleanup comp cfg init B p s n t b).Sat (copies Area α)
    (cleanupSpace cfg.kMaxBuckets B n t p s) m fun b' m' =>
      ∀ i < s.numBuckets, (∃ zs : List α, zs.Perm (main i ++ last i ++ buffered t (buf i)) ∧
        zs.length = s.bucketStart (i + 1) - s.bucketStart i ∧ Has m' (p + s.bucketStart i) zs) ∧
        ∀ j < t, b'.size B (j * cfg.kMaxBuckets + i) = 0 := by
  refine h.sat_cleaned hB hp ht |>.imp fun b' m' hclean i hi => ⟨?_, fun j hj => ?_⟩
  · obtain ⟨zs, hperm, hhas, -⟩ := hclean.filled i hi
    exact ⟨zs, hperm, hperm.length_eq.trans (h.pieces i hi).length, hhas⟩
  · rw [Buffers.size, hclean.stop, hclean.start i hi j hj, (h.buffers i hi j hj).stop]
    omega

end

/-- Three buckets: the second one has a block that ends with the third one's second element, and the
block of the third one is the overflow block. -/
def threeBuckets : Margins :=
  ⟨3, fun i => if i = 0 then 0 else if i = 1 then 1 else if i = 2 then 6 else 11,
    fun i => if i = 0 then 0 else if i = 1 then 8 else 12, true⟩

/-- The first thread has an element in each of the buffers of its two buckets, the second one has
one in that of its only bucket. -/
def threeBuffers : Buffers :=
  ⟨fun k => k * 4 + if k = 0 ∨ k = 1 ∨ k = 258 then 1 else 0, fun k => k * 4 + 4⟩

/-- Every slot holds its number. -/
def numbered : Mem Area ℕ := ⟨fun q => q.off, fun _ => 0⟩

/-- The elements in the blocks in the array. -/
def threeMain (i : ℕ) : List ℕ := if i = 1 then [4, 5, 6, 7] else []

/-- The elements in the overflow block. -/
def threeLast (i : ℕ) : List ℕ := if i = 2 then [0, 1, 2, 3] else []

/-- The elements in the buffers. -/
def threeBuf (i j : ℕ) : List ℕ := if i = 0 ∧ j = 0 then [0] else if i = 1 ∧ j = 0 then [4]
    else if i = 2 ∧ j = 1 then [1032] else []

theorem has_numbered {q : Ptr Area} {vs : List ℕ} (h : vs = List.range' q.off vs.length) :
    Has numbered q vs := by
  intro i v hv
  have hi := (List.getElem?_eq_some_iff.mp hv).1
  rw [h, List.getElem?_range' hi, Nat.one_mul] at hv
  exact Option.some.inj hv

theorem scattered_three :
    Scattered defaultConfig.kMaxBuckets 4 11 2 ⟨.input, 0⟩ threeBuckets threeBuffers numbered
    (fun i => if i = 0 then 0 else 1) (fun i => decide (i = 2)) threeMain threeLast threeBuf where
  boundaries := ⟨by decide, rfl, rfl, by decide, fun h => absurd h Bool.false_ne_true⟩
  le_max := by decide
  pieces i hi := by
    obtain rfl | rfl | rfl : i = 0 ∨ i = 1 ∨ i = 2 := by
      have hi : i < 3 := hi
      omega
    · exact ⟨rfl, rfl, by decide, by decide, has_nil, by decide, nofun⟩
    · exact ⟨rfl, rfl, by decide, by decide, has_numbered rfl, by decide, nofun⟩
    · exact ⟨rfl, rfl, by decide, by decide, has_nil, nofun,
        fun _ => ⟨rfl, rfl, by decide, has_numbered rfl⟩⟩
  buffers i hi j hj := by
    obtain rfl | rfl | rfl : i = 0 ∨ i = 1 ∨ i = 2 := by
      have hi : i < 3 := hi
      omega
    all_goals obtain rfl | rfl : j = 0 ∨ j = 1 := by omega
    all_goals exact ⟨rfl, rfl, by decide, has_numbered rfl⟩
  overflow := by decide

/-- Two threads fill the margins of these buckets. -/
theorem sat_cleanup_three :
    (cleanup (fun a b => decide (a < b)) defaultConfig true 4 ⟨.input, 0⟩ threeBuckets 11 2
    threeBuffers).Sat (copies Area ℕ)
      (cleanupSpace defaultConfig.kMaxBuckets 4 11 2 ⟨.input, 0⟩ threeBuckets) numbered
    fun b' m' => ∀ i < 3,
      (∃ zs : List ℕ, zs.Perm (threeMain i ++ threeLast i ++ buffered 2 (threeBuf i)) ∧
      zs.length = threeBuckets.bucketStart (i + 1) - threeBuckets.bucketStart i ∧
      Has m' ((⟨.input, 0⟩ : Ptr Area) + threeBuckets.bucketStart i) zs) ∧
      ∀ j < 2, b'.size 4 (j * defaultConfig.kMaxBuckets + i) = 0 :=
  sat_cleanup (by decide) rfl (by decide) scattered_three

end Ps4o.InPlace
