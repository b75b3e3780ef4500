import Ps4o.InPlace.ParallelPermutation
import Ps4o.InPlace.PermutationProgress

/-!
# Partitioning in place, with several threads

`partition` in the parallel case (`partitioning.hpp`), from the sample to the reset: one of the
threads builds the classifier, all of them classify their stripes and move empty blocks, permute
blocks, and fill the margins.

## The model

`Partitioning` says where the threads are. Between barriers they take their steps in any order:
within a stage of a team command by command, and in the block permutation command by command and
access by access. What a thread does to its own data at a barrier is done there. Elements are bits.

## What is proved

* `sat_classification` — what block permutation begins with.
* `ReadyToPermute.sat_cleanupOf` — what the threads leave behind.
* `Partitioning.Ok` — what holds wherever the threads are: **every step keeps it** (`Ok.step`),
  nobody is stuck (`Ok.not_stuck`), and the threads can return (`Ok.canReturn`).
* `partition_in_parallel` — **what the threads have done when they have returned**.
-/

namespace Ps4o.InPlace

open Ps4o.Program Ps4o.Storage Ps4o.Order

variable {α : Type} {t : ℕ}

/-! ### The code -/

/-- The buffers of thread `j`, as those of a single thread. -/
def Buffers.ofThread (kMaxBuckets kBlockSize j : ℕ) (b : Buffers) : Buffers where
  ptr i := b.ptr (j * kMaxBuckets + i) - j * (kMaxBuckets * kBlockSize)
  stop i := b.stop (j * kMaxBuckets + i) - j * (kMaxBuckets * kBlockSize)

/-- Where the threads are in `partition`. -/
inductive Partitioning (t : ℕ) (α : Type) : Type 1 where
  /-- They have called it. -/
  | called (shared : SharedData α) (ds : Fin t → LocalData α) (m : Mem Area α)
  /-- Sampling and local classification. -/
  | classifying (T : Team (Cmd Area α) Cmd.Ans (Fin t) (SharedData α × (Fin t → LocalData α)))
    (m : Mem Area α)
  /-- Block permutation. -/
  | permuting (shared : SharedData α) (ds : Fin t → LocalData α) (f : Working t α (Mem Area α))
  /-- Cleanup. -/
  | cleaning (shared : SharedData α) (ds : Fin t → LocalData α)
    (T : Team (Cmd Area α) Cmd.Ans (Fin t) Buffers) (m : Mem Area α)
  /-- They have returned. -/
  | returned (shared : SharedData α) (ds : Fin t → LocalData α) (m : Mem Area α)

/-- The memory. -/
def Partitioning.mem : Partitioning t α → Mem Area α
  | .called _ _ m | .classifying _ m | .cleaning _ _ _ m | .returned _ _ m => m
  | .permuting _ _ f => f.mem

section
variable (comp : α → α → Bool) (cfg : Config) (kInitializedStorage : Bool) (kBlockSize fuel : ℕ)
  (p : Ptr Area) (n : ℕ)

/-- Thread `i` builds the classifier while the others wait; the sample is sorted at most `fuel`
calls deep. -/
def buildShared (i : Fin t) (shared : SharedData α) (ds : Fin t → LocalData α) (j : Fin t) :
    Act Area α (LocalData α × Classifier α × ℕ × Bool) :=
  if j = i then
    localProg cfg.kMaxBuckets kBlockSize i (do
      let (s, r) ← buildClassifier comp cfg
        (sequential comp cfg kInitializedStorage kBlockSize fuel) (fun _ => shared.classifier) p n
        ⟨ds i, shared.numBuckets, shared.bucketStart, false⟩
      pure (s.data, r))
  else .ret (ds j, shared.classifier, shared.numBuckets, shared.useEqualBuckets)

/-- Sampling and local classification: all threads know what thread `i` has built. -/
def classification (i : Fin t) (shared : SharedData α) (ds : Fin t → LocalData α) :
    Team (Cmd Area α) Cmd.Ans (Fin t) (SharedData α × (Fin t → LocalData α)) :=
  .stage (buildShared comp cfg kInitializedStorage kBlockSize fuel p n i shared ds) fun rs =>
    parallelClassification comp cfg kInitializedStorage kBlockSize p n t
      { shared with
        classifier := (rs i).2.1
        numBuckets := (rs i).2.2.1
        useEqualBuckets := (rs i).2.2.2 } fun j => (rs j).1

/-- Cleanup, with the overflow block of the thread that has set `shared_->overflow`. -/
def cleanupOf (shared : SharedData α) (ds : Fin t → LocalData α) (f : Working t α (Mem Area α)) :
    Team (Cmd Area α) Cmd.Ans (Fin t) Buffers :=
  (relocation (overflowAt kBlockSize (f.overflowThread.elim 0 Fin.val)) overflowAt_injective).team
    (cleanup comp cfg kInitializedStorage kBlockSize p (f.margins shared) n t
      (Buffers.together cfg.kMaxBuckets kBlockSize ds))

/-- The threads go on. -/
inductive Partitioning.Step : Partitioning t α → Partitioning t α → Prop where
  /-- Thread `i` is the one that builds the classifier. -/
  | build {shared : SharedData α} {ds : Fin t → LocalData α} {m : Mem Area α} (i : Fin t) :
    Step (.called shared ds m)
      (.classifying (classification comp cfg kInitializedStorage kBlockSize fuel p n i shared ds) m)
  /-- A thread takes a step, or all of them are at the barrier. -/
  | classify {T T' : Team (Cmd Area α) Cmd.Ans (Fin t) (SharedData α × (Fin t → LocalData α))}
      {m m' : Mem Area α} (h : Team.Step (copies Area α) (T, m) (T', m')) :
    Step (.classifying T m) (.classifying T' m')
  /-- All of them have classified their elements. -/
  | beginPermuting {shared : SharedData α} {ds : Fin t → LocalData α} {m : Mem Area α} :
    Step (.classifying (.done (shared, ds)) m)
      (.permuting shared ds (.start shared.numBuckets t shared.bucketPointers m))
  /-- Thread `i` takes a step. -/
  | permute {shared : SharedData α} {ds : Fin t → LocalData α} {f f' : Working t α (Mem Area α)}
      (i : Fin t) (choice : ℕ)
      (h : f.step comp kInitializedStorage kBlockSize shared.useEqualBuckets shared.classifier p
        (copies Area α) n shared.numBuckets i choice = some f') :
    Step (.permuting shared ds f) (.permuting shared ds f')
  /-- All of them have permuted blocks. -/
  | beginCleaning {shared : SharedData α} {ds : Fin t → LocalData α}
      {f : Working t α (Mem Area α)} (h : ∀ i, (f.workers i).prog = .ret .finished) :
    Step (.permuting shared ds f)
      (.cleaning { shared with bucketPointers := f.pointers } ds
        (cleanupOf comp cfg kInitializedStorage kBlockSize p n shared ds f) f.mem)
  /-- A thread takes a step, or all of them are at the barrier. -/
  | clean {shared : SharedData α} {ds : Fin t → LocalData α}
      {T T' : Team (Cmd Area α) Cmd.Ans (Fin t) Buffers} {m m' : Mem Area α}
      (h : Team.Step (copies Area α) (T, m) (T', m')) :
    Step (.cleaning shared ds T m) (.cleaning shared ds T' m')
  /-- All of them have filled margins; they reset their data. -/
  | reset {shared : SharedData α} {ds ds' : Fin t → LocalData α} {b : Buffers} {m : Mem Area α}
      (h : ∀ j, LocalData.reset cfg
        { ds j with buffers := b.ofThread cfg.kMaxBuckets kBlockSize j } = some (ds' j)) :
    Step (.cleaning shared ds (.done b) m) (.returned shared ds' m)

/-- What thread `i` does next is undefined. -/
def Partitioning.Stuck (i : Fin t) : Partitioning t α → Prop
  | .called _ _ _ | .returned _ _ _ => False
  | .classifying T m => T.Stuck (copies Area α) m i
  | .permuting shared _ f => ∃ choice, f.step comp kInitializedStorage kBlockSize
      shared.useEqualBuckets shared.classifier p (copies Area α) n shared.numBuckets i choice = none
  | .cleaning _ ds T m => T.Stuck (copies Area α) m i ∨ ∃ b, T = .done b ∧ LocalData.reset cfg
      { ds i with buffers := b.ofThread cfg.kMaxBuckets kBlockSize i } = none

end

/-! ### Sampling and local classification -/

/-- The classifier of `shared` has been built from a sample of `n` elements. -/
structure SharedData.BuiltFrom (comp : α → α → Bool) (cfg : Config) (n : ℕ) (sample : List α)
    (shared : SharedData α) : Prop where
  sampled : cfg.Sample comp n sample
  built : shared.classifier.Built (cfg.leavesFrom comp n sample)
    (cfg.splittersFrom comp n sample)
  equal : shared.useEqualBuckets = cfg.equalFrom comp n sample
  num : shared.numBuckets =
    2 ^ cfg.leavesFrom comp n sample * (1 + (cfg.equalFrom comp n sample).toNat)

/-- The bucket of an element. -/
def SharedData.bucketOf (comp : α → α → Bool) (cfg : Config) (n : ℕ) (sample : List α)
    (shared : SharedData α) : α → ℕ :=
  Classifier.bucketOf comp shared.useEqualBuckets (cfg.splittersFrom comp n sample)

/-- What all threads find when they call `partition`: an empty classifier, and bucket boundaries
that are zero. -/
structure SharedData.Blank (cfg : Config) (shared : SharedData α) : Prop where
  classifier : shared.classifier.Empty
  zero : ∀ b ≤ cfg.kMaxBuckets, shared.bucketStart b = 0

/-- Sampling and local classification are over: the elements are `sample` and `rest`. -/
def ReadyToPermute (comp : α → α → Bool) (cfg : Config) (B : ℕ) (p : Ptr Area) (xs : List α)
    (r : SharedData α × (Fin t → LocalData α)) (m : Mem Area α) : Prop :=
  ∃ (sample rest : List α) (shared : SharedData α) (ds : Fin t → LocalData α) (m₁ : Mem Area α)
    (feb : ℕ → ℕ) (blocks : Fin t → List (List α)) (buf : Fin t → ℕ → List α) (f : ℕ → ℕ → ℕ),
    (sample ++ rest).Perm xs ∧ shared.BuiltFrom comp cfg xs.length sample ∧
      (∀ j, (ds j).Blank cfg B) ∧
      StripesCompacted cfg.kMaxBuckets B (shared.bucketOf comp cfg xs.length sample) p
        (sample ++ rest) shared ds r m m₁ feb blocks buf f

section
variable {comp : α → α → Bool} {cfg : Config} {init : Bool} {B n fuel : ℕ} {p : Ptr Area}
  {xs sample : List α} {m m' : Mem Area α} {ds : Fin t → LocalData α} {shared : SharedData α}

theorem SharedData.BuiltFrom.toBuilt (h : shared.BuiltFrom comp cfg n sample) (hc : StrictWeak comp)
    (hcfg : cfg.Admitted) :
    shared.Built comp cfg (cfg.leavesFrom comp n sample) (cfg.splittersFrom comp n sample) where
  weak := hc
  sorted := h.sampled.splitters_sorted hc
  built := h.built
  log_le := (h.sampled.leaves_le hc).trans (cfg.logBuckets_mem hcfg.log_pos n).2
  equal heq := by
    rw [h.equal, Config.equalFrom, Bool.and_eq_true] at heq
    exact heq.1
  num := by
    rw [h.num, h.equal]
    cases cfg.equalFrom comp n sample <;> simp [pow_succ]

theorem SharedData.BuiltFrom.one_le (h : shared.BuiltFrom comp cfg n sample) :
    1 ≤ shared.numBuckets := by
  rw [h.num]
  exact Nat.mul_pos (Nat.two_pow_pos _) (Nat.le_add_right 1 _)

theorem SharedData.BuiltFrom.bucketOf_lt (h : shared.BuiltFrom comp cfg n sample)
    (hc : StrictWeak comp) (hcfg : cfg.Admitted) (x : α) :
    shared.bucketOf comp cfg n sample x < shared.numBuckets := by
  have hb := h.toBuilt hc hcfg
  rw [hb.num]
  exact Classifier.bucketOf_lt _ hb.built.length x

theorem SharedData.BuiltFrom.classify (h : shared.BuiltFrom comp cfg n sample)
    (hc : StrictWeak comp) (hcfg : cfg.Admitted) (x : α) :
    shared.classifier.classify comp shared.useEqualBuckets x =
      some (shared.bucketOf comp cfg n sample x) := by
  have hb := h.toBuilt hc hcfg
  exact hb.built.classify hc hb.sorted (hb.log_le.trans (hcfg.log_le.trans (by decide))) _ x

theorem SharedData.Built.num_le {k : ℕ} {splitters : List α}
    (h : shared.Built comp cfg k splitters) : shared.numBuckets ≤ cfg.kMaxBuckets := by
  rw [h.num, Config.kMaxBuckets]
  refine Nat.pow_le_pow_right (by decide) (Nat.add_le_add h.log_le ?_)
  cases heq : shared.useEqualBuckets with
  | false => exact Nat.zero_le _
  | true => rw [h.equal heq]

variable (init) in
/-- **A thread builds the classifier**, in the data that all threads share. -/
theorem sat_buildLocally (hc : StrictWeak comp) (hcfg : Sound cfg) (hB : 1 ≤ B)
    (hp : p.arr = .input) (hn : 2 * cfg.kBaseCaseSize < xs.length) (hfuel : xs.length ≤ fuel)
    (hempty : shared.classifier.Empty) {d : LocalData α} (hd : d.Blank cfg B) (j : ℕ)
    (hm : Has m p xs) :
    Sat (copies Area α) (localSpace cfg.kMaxBuckets B j xs.length p)
      (localProg cfg.kMaxBuckets B j (do
        let (s, r) ← buildClassifier comp cfg (sequential comp cfg init B fuel)
          (fun _ => shared.classifier) p xs.length
          ⟨d, shared.numBuckets, shared.bucketStart, false⟩
        pure (s.data, r))) m fun r m' => r.1.Blank cfg B ∧ ∃ sample rest,
          (sample ++ rest).Perm xs ∧ Has m' p (sample ++ rest) ∧
          SharedData.BuiltFrom comp cfg xs.length sample { shared with
            classifier := r.2.1
            numBuckets := r.2.2.1
            useEqualBuckets := r.2.2.2 } := by
  have hlt := hcfg.sample_lt xs.length hn
  have hlocal : Has (m.along (localAt cfg.kMaxBuckets B j)) p xs := by
    rw [has_local, localAt_input hp]
    exact hm
  have hfresh : Sorter.Fresh cfg init B ⟨d, shared.numBuckets, shared.bucketStart, false⟩
      ((m.along (localAt cfg.kMaxBuckets B j)).within p xs.length) :=
    LocalData.Blank.fresh hd hp _
  have hsat := sat_buildClassifier hc (sat_sequential hc hcfg hB fuel) (fun _ _ _ => hempty) hp
    (hlt.trans_le hfuel) hlt.le (cfg.logBuckets_mem hcfg.log_pos _).1 hfresh
    (has_within hlocal le_rfl)
  have hsat' : Sat (slots Area α init) (partitionSpace cfg.kMaxBuckets B xs.length p) (do
        let (s, r) ← buildClassifier comp cfg (sequential comp cfg init B fuel)
          (fun _ => shared.classifier) p xs.length
          ⟨d, shared.numBuckets, shared.bucketStart, false⟩
        pure (s.data, r)) ((m.along (localAt cfg.kMaxBuckets B j)).within p xs.length)
      fun r m' => r.1.Blank cfg B ∧ ∃ sample rest, (sample ++ rest).Perm xs ∧
        Has m' p ((sample ++ rest).map .full) ∧
          SharedData.BuiltFrom comp cfg xs.length sample { shared with
            classifier := r.2.1
            numBuckets := r.2.2.1
            useEqualBuckets := r.2.2.2 } := by
    refine sat_bind.mpr (hsat.imp ?_)
    rintro _ m' ⟨s, sample, rest, c, hs, hperm, hm', hsample, hbuilt, rfl⟩
    exact sat_ret.mpr ⟨hs.blank, sample, rest, hperm, hm', hsample, hbuilt, rfl, rfl⟩
  refine (sat_localProg hsat').imp ?_
  rintro r m' ⟨m₁, ⟨hblank, sample, rest, hperm, hm₁, hbuilt⟩, hrep⟩
  refine ⟨hblank, sample, rest, hperm, ?_, hbuilt⟩
  have hhas := hrep.has hm₁
  rwa [has_local, localAt_input hp] at hhas

/-- **Sampling and local classification**, whatever the order of the threads' steps. -/
theorem sat_classification (hc : StrictWeak comp) (hcfg : Sound cfg) (hB : 1 ≤ B) (ht : 1 ≤ t)
    (hn : 4 * t * B ≤ xs.length) (hu : cfg.kUnrollClassifier ≤ 2 * B + 1) (hp : p.arr = .input)
    (hbase : 2 * cfg.kBaseCaseSize < xs.length) (hfuel : xs.length ≤ fuel)
    (hshared : shared.Blank cfg) (hd : ∀ j, (ds j).Blank cfg B) (hm : Has m p xs) (i : Fin t) :
    Team.Sat (copies Area α) (teamSpace t cfg.kMaxBuckets B xs.length p)
      (classification comp cfg init B fuel p xs.length i shared ds) m
      (ReadyToPermute comp cfg B p xs) := by
  have hbuild := sat_buildLocally init hc hcfg hB hp hbase hfuel hshared.classifier (hd i) i hm
  refine ⟨_, (Cooperate.single hbuild).mono fun l hl => ⟨i, i.isLt, hl⟩, fun rs m₁ hrs => ?_⟩
  have hi := hrs i
  rw [if_pos rfl] at hi
  obtain ⟨m₂, ⟨hblank, sample, rest, hperm, hhas, hbuilt⟩, hag⟩ := hi
  have hds : ∀ j, (rs j).1.Blank cfg B := by
    intro j
    by_cases hj : j = i
    · rw [hj]
      exact hblank
    · have hrsj := hrs j
      rw [if_neg hj] at hrsj
      rw [hrsj]
      exact hd j
  have hlen := hperm.length_eq
  have hhas₁ : Has m₁ p (sample ++ rest) := by
    refine hhas.of_eq fun x hx => hag (.elem (p + x)) ⟨.elem (p + x), .inl (.inl (.inl ?_)), ?_⟩
    · exact ⟨x, hx.trans_eq hlen, rfl⟩
    · exact congrArg Loc.elem (localAt_input hp)
  have hb := hbuilt.toBuilt hc hcfg.toAdmitted
  rw [← hlen] at hn
  have hsat : Team.Sat _ _ (parallelClassification comp cfg init B p _ t _ _) m₁ _ :=
    sat_parallelClassification hb hcfg.toAdmitted hB ht hn hu hp hds
      (fun b hle => hshared.zero b (hle.trans hb.num_le)) hhas₁
  rw [hlen] at hsat
  exact hsat.imp fun r m' ⟨m₃, feb, blocks, buf, f, h⟩ =>
    ⟨sample, rest, _, _, m₃, feb, blocks, buf, f, hperm, hbuilt, hds, h⟩

end

/-! ### Block permutation -/

section
variable {K B n k i j : ℕ} {p q : Ptr Area}

/-- What a single thread works on, a thread finds in its own storage. -/
theorem seg_subset_localSpace (h : seg q k ⊆ partitionSpace K B n p) :
    seg (localAt K B j q) k ⊆ localSpace K B j n p := by
  rw [← local_seg]
  exact Set.image_mono h

theorem localSpace_subset_teamSpace (hj : j < t) : localSpace K B j n p ⊆ teamSpace t K B n p :=
  fun _ hl => ⟨j, hj, hl⟩

theorem overflow_subset_partitionSpace : seg overflowBlock B ⊆ partitionSpace K B n p :=
  fun _ hl => .inl (.inr hl)

theorem swapOf_eq (current : Bool) : swapOf B j current = localAt K B j (swapBlockAt current) := rfl

theorem overflowOf_eq : overflowOf B j = localAt K B j overflowBlock := rfl

/-- A slot that lies in the array as a whole. -/
theorem add_le_of_lt_maxOff {x : ℤ} (hB : 1 ≤ B) (hx : (B : ℤ) ∣ x) (hlt : x < maxOff B n) :
    x + B ≤ n := by
  have hle := Int.le_of_dvd (Int.sub_pos.mpr hlt) (dvd_sub dvd_maxOff hx)
  have halign := alignToNextBlock_lt hB (n + 1)
  rw [maxOff] at hle
  omega

/-- The blocks that are permuted belong to the threads. -/
theorem territory_subset_teamSpace (hB : 1 ≤ B) (ht : 1 ≤ t) (hp : p.arr = .input) :
    territory t B n p ⊆ teamSpace t K B n p := by
  rintro l ⟨place, hreal, hl⟩
  cases place with
  | slot x =>
    obtain ⟨hdvd, hpos, hlt⟩ := hreal
    have hle := add_le_of_lt_maxOff hB hdvd hlt
    exact seg_subset_teamSpace ht hp (seg_subset (p := p) (i := x.toNat) (by omega) hl)
  | swap i current =>
    exact localSpace_subset_teamSpace i.isLt
      (seg_subset_localSpace ((swap_subset current).trans Set.subset_union_left) hl)
  | overflow i =>
    exact localSpace_subset_teamSpace i.isLt
      (seg_subset_localSpace overflow_subset_partitionSpace hl)

end

section
variable {comp : α → α → Bool} {cfg : Config} {init : Bool} {B fuel : ℕ} {p : Ptr Area}
  {xs sample : List α} {m m' : Mem Area α} {ds : Fin t → LocalData α} {shared : SharedData α}
  {f f' : Working t α (Mem Area α)}
  (hc : StrictWeak comp) (hcfg : Sound cfg) (hB : 1 ≤ B) (ht : 1 ≤ t) (hn : 4 * t * B ≤ xs.length)
  (hp : p.arr = .input) (h : ReadyToPermute comp cfg B p xs (shared, ds) m)
  (hf : Working.Reaches comp init B shared.useEqualBuckets shared.classifier p (copies Area α)
    xs.length shared.numBuckets (.start shared.numBuckets t shared.bucketPointers m) f)
include hc hcfg hB ht hn hp h hf

/-- The threads move blocks as threads do that move them as a whole. -/
theorem ReadyToPermute.exists_matches : ∃ (feb full : ℕ → ℕ)
    (classify : Option (FullBlock B xs.length t (stripeBound B xs.length t) feb) → ℕ)
    (content : FullBlock B xs.length t (stripeBound B xs.length t) feb → List α)
    (s₀ s : Permuting t (FullBlock B xs.length t (stripeBound B xs.length t) feb))
    (L : Fin t → List (Place t)),
    Boundaries false shared.numBuckets xs.length shared.bucketStart ∧
      Classified B xs.length shared.numBuckets shared.bucketStart full classify s₀ ∧
      (∀ x, ∃ a l, content x = a :: l ∧ shared.classifier.classify comp shared.useEqualBuckets a =
        some (classify (some x))) ∧
      Reachable B xs.length shared.numBuckets classify s₀ s ∧
      Matches (bitStore α init B hB) content classify xs.length p f s L := by
  obtain ⟨sample, rest, shared₀, ds₀, m₁, feb, blocks, buf, g, hperm, hfrom, hblank, hs⟩ := h
  have hkey := hfrom.bucketOf_lt hc hcfg.toAdmitted
  have hclassify := hfrom.classify hc hcfg.toAdmitted
  obtain ⟨hcl, hnum, heq⟩ := hs.shared
  simp only at hcl hnum heq
  rw [← hcl, ← heq] at hclassify
  rw [← hperm.length_eq] at hn hf ⊢
  obtain ⟨s₀, hptr, hcl₀, hst⟩ := hs.exists_start hfrom.one_le hkey hB ht hn init
  rw [← show s₀.pointers = shared.bucketPointers from hptr, hnum] at hf
  have hbound := hs.boundaries hfrom.one_le hkey
  obtain ⟨s, L, hr, hM, -⟩ := hf.matches hbound hB hcl₀ hp (classify_blockAt hB hclassify) hst
  rw [hnum]
  exact ⟨feb, _, _, _, s₀, s, L, hbound, hcl₀, classify_blockAt hB hclassify, hr, hM⟩

/-- **Every step of a thread that permutes blocks is defined**, and touches only what belongs to the
threads. -/
theorem ReadyToPermute.step (i : Fin t) (choice : ℕ) : ∃ f',
    f.step comp init B shared.useEqualBuckets shared.classifier p (copies Area α) xs.length
      shared.numBuckets i choice = some f' ∧
      (copies Area α).AgreeOn (teamSpace t cfg.kMaxBuckets B xs.length p)ᶜ f.mem f'.mem := by
  obtain ⟨feb, full, classify, content, s₀, s, L, hbound, hcl₀, hhead, hr, hM⟩ :=
    h.exists_matches hc hcfg hB ht hn hp hf
  obtain ⟨f', -, -, hstep, -, -, hag⟩ := hM.step hbound hB hcl₀ hp hhead hr i choice
  exact ⟨f', hstep, hag.subset (Set.compl_subset_compl.mpr (territory_subset_teamSpace hB ht hp))⟩

/-- **The threads can finish.** -/
theorem ReadyToPermute.exists_finished : ∃ f', Working.Reaches comp init B shared.useEqualBuckets
    shared.classifier p (copies Area α) xs.length shared.numBuckets f f' ∧
      ∀ i, (f'.workers i).prog = .ret .finished := by
  obtain ⟨feb, full, classify, content, s₀, s, L, hbound, hcl₀, hhead, hr, hM⟩ :=
    h.exists_matches hc hcfg hB ht hn hp hf
  exact hM.exists_finished hbound hB hcl₀ hp hhead hr

end

/-! ### Cleanup -/

/-- What `partition` leaves behind: the elements are `sample` and `rest`, and those of bucket `b`
are `zs b`. -/
structure InBuckets (comp : α → α → Bool) (cfg : Config) (B : ℕ) (p : Ptr Area) (xs : List α)
    (shared : SharedData α) (ds : Fin t → LocalData α) (m : Mem Area α) (sample rest : List α)
    (zs : ℕ → List α) : Prop where
  perm : (sample ++ rest).Perm xs
  built : shared.BuiltFrom comp cfg xs.length sample
  boundaries : Boundaries false shared.numBuckets xs.length shared.bucketStart
  buckets : Bucketed comp (shared.bucketOf comp cfg xs.length sample) p xs shared.numBuckets
    shared.bucketStart (fun b => xs.length ≤ cfg.kSingleLevelThreshold ∨
      shared.bucketStart (b + 1) - shared.bucketStart b ≤ 2 * cfg.kBaseCaseSize) zs
    (m.within p xs.length)
  blank : ∀ j, (ds j).Blank cfg B

section
variable {K B n nb j : ℕ} {p : Ptr Area} {s : Margins}

/-- What cleanup works on belongs to the threads. -/
theorem cleanupSpace_subset_teamSpace (ht : 1 ≤ t) (hp : p.arr = .input) (hK : s.numBuckets ≤ K)
    (hj : j < t) :
    Loc.relocate (overflowAt B j) '' cleanupSpace K B n t p s ⊆ teamSpace t K B n p := by
  have hsame : ∀ {q : Ptr Area} {k : ℕ}, q.arr ≠ .overflow →
      Loc.relocate (overflowAt B j) '' seg q k = seg q k := by
    intro q k hq
    rw [relocate_seg fun i _ => overflowAt_add i, overflowAt_of_ne hq]
  rintro l ⟨l, ((hl | hl) | ⟨k, ⟨i, -, hi, j', hj', rfl⟩, hl⟩) | ⟨j', hl⟩, rfl⟩
  · refine seg_subset_teamSpace ht hp ?_
    rw [← hsame (by simp [hp])]
    exact ⟨l, hl, rfl⟩
  · refine localSpace_subset_teamSpace hj
      (seg_subset_localSpace overflow_subset_partitionSpace ?_)
    rw [← overflowOf_eq, ← overflowAt_overflowBlock, ← relocate_seg fun i _ => overflowAt_add i]
    exact ⟨l, hl, rfl⟩
  · refine localSpace_subset_teamSpace hj' (seg_subset_localSpace (q := Buffers.data B i)
      ((data_subset (hi.trans_le hK)).trans Set.subset_union_right) ?_)
    rw [localAt_data, ← hsame (by simp [Buffers.data])]
    exact ⟨l, hl, rfl⟩
  · refine localSpace_subset_teamSpace j'.isLt
      (seg_subset_localSpace ((swap_subset false).trans Set.subset_union_left) ?_)
    rw [← swapOf_eq, ← hsame (by simp [swapOf])]
    exact ⟨l, hl, rfl⟩

end

section
variable {cfg : Config} {B j : ℕ} {d : LocalData α}

/-- Without splitters, nothing is left to be reset but the bucket sizes. -/
theorem LocalData.reset_of_empty (h : d.classifier.Empty) : d.reset cfg = some { d with
    bucketSize := fun i => if i < cfg.kMaxBuckets then 0 else d.bucketSize i } := by
  simp only [LocalData.reset, Classifier.reset, if_pos h.log]
  rfl

/-- The buffers of thread `j` are empty. -/
theorem LocalData.blank_of_together {b : Buffers} (h : d.classifier.Empty)
    (hptr : ∀ i < cfg.kMaxBuckets, b.ptr (j * cfg.kMaxBuckets + i) = (j * cfg.kMaxBuckets + i) * B)
    (hstop : ∀ i < cfg.kMaxBuckets,
      b.stop (j * cfg.kMaxBuckets + i) = (j * cfg.kMaxBuckets + i) * B + B) :
    ∃ d', LocalData.reset cfg { d with buffers := b.ofThread cfg.kMaxBuckets B j } = some d' ∧
      d'.Blank cfg B := by
  have hmul : ∀ i, (j * cfg.kMaxBuckets + i) * B = j * (cfg.kMaxBuckets * B) + i * B := fun i => by
    rw [Nat.add_mul, Nat.mul_assoc]
  refine ⟨_, LocalData.reset_of_empty h, h, fun i hi => ?_, fun i hi => ?_, fun i hi => if_pos hi⟩
  · simp only [Buffers.ofThread, hptr i hi, hmul, Nat.add_sub_cancel_left]
  · simp only [Buffers.ofThread, hstop i hi, hmul, Nat.add_assoc, Nat.add_sub_cancel_left]

end

section
variable {comp : α → α → Bool} {cfg : Config} {init : Bool} {B fuel : ℕ} {p : Ptr Area}
  {xs sample : List α} {m m' : Mem Area α} {ds : Fin t → LocalData α} {shared : SharedData α}
  {f f' : Working t α (Mem Area α)}
  (hc : StrictWeak comp) (hcfg : Sound cfg) (hB : 1 ≤ B) (ht : 1 ≤ t) (hn : 4 * t * B ≤ xs.length)
  (hp : p.arr = .input) (h : ReadyToPermute comp cfg B p xs (shared, ds) m)
  (hf : Working.Reaches comp init B shared.useEqualBuckets shared.classifier p (copies Area α)
    xs.length shared.numBuckets (.start shared.numBuckets t shared.bucketPointers m) f)
  (hret : ∀ i, (f.workers i).prog = .ret .finished)
include hc hcfg hB ht hn hp h hf hret

/-- **What the threads leave behind**, whatever the order of their steps. -/
theorem ReadyToPermute.sat_cleanupOf :
    Team.Sat (copies Area α) (teamSpace t cfg.kMaxBuckets B xs.length p)
      (cleanupOf comp cfg init B p xs.length shared ds f) f.mem fun b m' =>
      ∃ ds', (∀ j : Fin t, LocalData.reset cfg
        { ds j with buffers := b.ofThread cfg.kMaxBuckets B j } = some (ds' j)) ∧
        ∃ sample rest zs, InBuckets comp cfg B p xs { shared with bucketPointers := f.pointers } ds'
          m' sample rest zs := by
  obtain ⟨sample, rest, shared₀, ds₀, m₁, feb, blocks, buf, g, hperm, hfrom, hblank, hs⟩ := h
  have hkey := hfrom.bucketOf_lt hc hcfg.toAdmitted
  have hclassify := hfrom.classify hc hcfg.toAdmitted
  have hK := (hfrom.toBuilt hc hcfg.toAdmitted).num_le
  obtain ⟨hcl, hnum, heq⟩ := hs.shared
  simp only at hcl hnum heq
  rw [← hcl, ← heq] at hclassify
  have hlen := hperm.length_eq
  rw [← hlen] at hn hf ⊢
  rw [hnum] at hf
  obtain ⟨blocks', o, main, last, hscat, hall⟩ := hs.exists_scattered hB ht hn hp hK hfrom.one_le
    hkey hclassify hf hret
  have hj : f.overflowThread.elim 0 Fin.val < t := by
    cases f.overflowThread with
    | none => exact ht
    | some j => exact j.isLt
  have hbound := hs.boundaries hfrom.one_le hkey
  have hcleaned : Team.Sat _ _ (cleanup comp cfg init B p _ _ t _) _ _ := hscat.sat_cleaned hB hp ht
  refine ((View.team_sat _ hcleaned).mono
    (cleanupSpace_subset_teamSpace ht hp (hscat.le_max) hj)).imp ?_
  intro b m' hclean
  -- the buffers that no bucket uses have been empty all the time
  have hblanks : ∀ j : Fin t, ∃ d', LocalData.reset cfg
      { ds j with buffers := b.ofThread cfg.kMaxBuckets B j } = some d' ∧ d'.Blank cfg B := by
    intro j
    have hkeeps : ∀ i < cfg.kMaxBuckets, _ := fun i hi =>
      Buffers.Keeps.together hi ((hs.stripe j).keeps i hi)
    refine LocalData.blank_of_together ?_ (fun i hi => ?_) fun i hi => ?_
    · have hsame : (ds j).classifier = (ds₀ j).classifier := (hs.stripe j).classifier
      rw [hsame]
      exact (hblank j).classifier
    · rcases Nat.lt_or_ge i shared.numBuckets with hlt | hge
      · exact hclean.start i hlt j j.isLt
      · have hnil : buf j i = [] := by
          refine List.eq_nil_iff_forall_not_mem.mpr fun x hx => ?_
          have hx := (hs.stripe j).keyed i x hx
          exact absurd (hkey x) (by omega)
        have hptr := (hkeeps i hi).ptr
        rw [hnil, List.length_nil, Nat.add_zero] at hptr
        exact (hclean.other i hge hi j).trans hptr
    · rw [hclean.stop]
      exact (hkeeps i hi).stop
  choose ds' hds' hblank' using hblanks
  have hfilled : ∀ i < shared.numBuckets, ∃ zs, _ := hclean.filled
  choose! zs hzs using hfilled
  have hlength : ∀ i < shared.numBuckets, (zs i).length =
      shared.bucketStart (i + 1) - shared.bucketStart i := fun i hi =>
    (hzs i hi).perm.length_eq.trans (hscat.pieces i hi).length
  have hbucket : SharedData.bucketOf comp cfg xs.length sample
      { shared with bucketPointers := f.pointers } =
        shared₀.bucketOf comp cfg xs.length sample := by
    simp only [SharedData.bucketOf, heq]
  refine ⟨ds', hds', sample, rest, zs, hperm, ⟨hfrom.sampled, ?_, heq.trans hfrom.equal,
    hnum.trans hfrom.num⟩, ?_,
    ⟨hlength, fun i hi => ?_, fun i hi => ?_, fun i hi hd => ?_⟩, hblank'⟩
  · simp only [hcl]
    exact hfrom.built
  · rw [← hlen]
    exact hnum ▸ hbound
  · have hhas := (hzs i hi).has
    change Has (m'.along _) _ _ at hhas
    rw [has_overflowAt, overflowAt_of_ne (by simp [hp])] at hhas
    refine has_within_add hhas ?_
    have hend := hscat.boundaries.end_le hi
    have hstep := hscat.boundaries.step i hi
    have hlength := hlength i hi
    rw [hlength, ← hlen]
    simp only [Working.margins] at hend hstep ⊢
    omega
  · rw [hbucket, ← Multiset.coe_eq_coe.mpr hperm, ← hall i (hi.trans_eq hnum)]
    exact Multiset.coe_eq_coe.mpr (hzs i hi).perm
  · refine (hzs i hi).sorted hc (hd.imp_left fun hle => decide_eq_true ?_)
    exact hlen.trans_le hle

end

/-! ### Whatever the order of the steps -/

/-- What holds wherever the threads are. -/
def Partitioning.Ok (comp : α → α → Bool) (cfg : Config) (init : Bool) (B : ℕ) (p : Ptr Area)
    (xs : List α) : Partitioning t α → Prop
  | .called shared ds m => shared.Blank cfg ∧ (∀ j, (ds j).Blank cfg B) ∧ Has m p xs
  | .classifying T m =>
    T.Sat (copies Area α) (teamSpace t cfg.kMaxBuckets B xs.length p) m
      (ReadyToPermute comp cfg B p xs)
  | .permuting shared ds f => ∃ m, ReadyToPermute comp cfg B p xs (shared, ds) m ∧
    Working.Reaches comp init B shared.useEqualBuckets shared.classifier p (copies Area α)
      xs.length shared.numBuckets (.start shared.numBuckets t shared.bucketPointers m) f
  | .cleaning shared ds T m =>
    T.Sat (copies Area α) (teamSpace t cfg.kMaxBuckets B xs.length p) m fun b m' =>
      ∃ ds', (∀ j : Fin t, LocalData.reset cfg
        { ds j with buffers := b.ofThread cfg.kMaxBuckets B j } = some (ds' j)) ∧
        ∃ sample rest zs, InBuckets comp cfg B p xs shared ds' m' sample rest zs
  | .returned shared ds m =>
    ∃ sample rest zs, InBuckets comp cfg B p xs shared ds m sample rest zs

section
variable {comp : α → α → Bool} {cfg : Config} {init : Bool} {B fuel : ℕ} {p : Ptr Area}
  {xs : List α} {s s' : Partitioning t α}
  (hc : StrictWeak comp) (hcfg : Sound cfg) (hB : 1 ≤ B) (ht : 1 ≤ t) (hn : 4 * t * B ≤ xs.length)
  (hp : p.arr = .input) (h : s.Ok comp cfg init B p xs)
include hc hcfg hB ht hn hp h

/-- **What a thread does next is defined.** -/
theorem Partitioning.Ok.not_stuck (i : Fin t) : ¬ s.Stuck comp cfg init B p xs.length i := by
  cases s with
  | called shared ds m => exact not_false
  | classifying T m => exact Team.Sat.not_stuck h i
  | permuting shared ds f =>
    obtain ⟨m, hready, hf⟩ := h
    rintro ⟨choice, hnone⟩
    obtain ⟨f', hstep, -⟩ := hready.step hc hcfg hB ht hn hp hf i choice
    rw [hnone] at hstep
    cases hstep
  | cleaning shared ds T m =>
    rintro (hstuck | ⟨b, rfl, hnone⟩)
    · exact Team.Sat.not_stuck h i hstuck
    · obtain ⟨ds', hds', -⟩ := h m (.refl _ _ m)
      rw [hds' i] at hnone
      cases hnone
  | returned shared ds m => exact not_false

/-- **Every step keeps what holds**, and touches only what belongs to the threads. -/
theorem Partitioning.Ok.step (hu : cfg.kUnrollClassifier ≤ 2 * B + 1)
    (hbase : 2 * cfg.kBaseCaseSize < xs.length) (hfuel : xs.length ≤ fuel)
    (hs : Partitioning.Step comp cfg init B fuel p xs.length s s') :
    s'.Ok comp cfg init B p xs ∧ (copies Area α).AgreeOn
      (teamSpace t cfg.kMaxBuckets B xs.length p)ᶜ s.mem s'.mem := by
  cases hs with
  | build i =>
    obtain ⟨hshared, hds, hm⟩ := h
    exact ⟨sat_classification hc hcfg hB ht hn hu hp hbase hfuel hshared hds hm i, .refl _ _ _⟩
  | classify hs => exact Team.Sat.step h hs
  | beginPermuting => exact ⟨⟨_, h _ (.refl _ _ _), .start⟩, .refl _ _ _⟩
  | permute i choice hs =>
    obtain ⟨m, hready, hf⟩ := h
    obtain ⟨f', hstep, hag⟩ := hready.step hc hcfg hB ht hn hp hf i choice
    obtain rfl := Option.some.inj (hstep.symm.trans hs)
    exact ⟨⟨m, hready, hf.step i choice hs⟩, hag⟩
  | beginCleaning hret =>
    obtain ⟨m, hready, hf⟩ := h
    exact ⟨hready.sat_cleanupOf hc hcfg hB ht hn hp hf hret, .refl _ _ _⟩
  | clean hs => exact Team.Sat.step h hs
  | reset hreset =>
    obtain ⟨ds', hds', hin⟩ := h _ (.refl _ _ _)
    obtain rfl := funext fun j => Option.some.inj ((hds' j).symm.trans (hreset j))
    exact ⟨hin, .refl _ _ _⟩

/-- **Every run keeps what holds.** -/
theorem Partitioning.Ok.run (hu : cfg.kUnrollClassifier ≤ 2 * B + 1)
    (hbase : 2 * cfg.kBaseCaseSize < xs.length) (hfuel : xs.length ≤ fuel)
    (hs : Relation.ReflTransGen (Partitioning.Step comp cfg init B fuel p xs.length) s s') :
    s'.Ok comp cfg init B p xs ∧ (copies Area α).AgreeOn
      (teamSpace t cfg.kMaxBuckets B xs.length p)ᶜ s.mem s'.mem := by
  induction hs with
  | refl => exact ⟨h, .refl _ _ _⟩
  | tail _ hstep ih =>
    obtain ⟨hok, hag⟩ := ih.1.step hc hcfg hB ht hn hp hu hbase hfuel hstep
    exact ⟨hok, ih.2.trans hag⟩

end

/-! ### The threads can return -/

section
variable {comp : α → α → Bool} {cfg : Config} {init : Bool} {B fuel : ℕ} {p : Ptr Area} {n : ℕ}

/-- The threads of a team take turns. -/
theorem Partitioning.classify_of_runs
    {T T' : Team (Cmd Area α) Cmd.Ans (Fin t) (SharedData α × (Fin t → LocalData α))}
    {m m' : Mem Area α}
    (hs : Relation.ReflTransGen (Team.Step (copies Area α)) (T, m) (T', m')) :
    Relation.ReflTransGen (Partitioning.Step comp cfg init B fuel p n)
      (.classifying T m) (.classifying T' m') :=
  hs.lift (fun s => Partitioning.classifying s.1 s.2) fun _ _ h => .classify h

/-- The threads permute blocks. -/
theorem Partitioning.permute_of_reaches {shared : SharedData α} {ds : Fin t → LocalData α}
    {f f' : Working t α (Mem Area α)}
    (hf : Working.Reaches comp init B shared.useEqualBuckets shared.classifier p (copies Area α)
      n shared.numBuckets f f') :
    Relation.ReflTransGen (Partitioning.Step comp cfg init B fuel p n)
      (.permuting shared ds f) (.permuting shared ds f') := by
  induction hf with
  | start => exact .refl
  | step i choice _ hs ih => exact ih.tail (.permute i choice hs)

/-- The threads of a team take turns. -/
theorem Partitioning.clean_of_runs {shared : SharedData α} {ds : Fin t → LocalData α}
    {T T' : Team (Cmd Area α) Cmd.Ans (Fin t) Buffers} {m m' : Mem Area α}
    (hs : Relation.ReflTransGen (Team.Step (copies Area α)) (T, m) (T', m')) :
    Relation.ReflTransGen (Partitioning.Step comp cfg init B fuel p n)
      (.cleaning shared ds T m) (.cleaning shared ds T' m') :=
  hs.lift (fun s => Partitioning.cleaning shared ds s.1 s.2) fun _ _ h => .clean h

variable (comp cfg init B fuel p n) in
/-- The threads can return. -/
def Partitioning.CanReturn (s : Partitioning t α) : Prop := ∃ shared ds m,
  Relation.ReflTransGen (Partitioning.Step comp cfg init B fuel p n) s (.returned shared ds m)

theorem Partitioning.CanReturn.head {s s' : Partitioning t α}
    (hs : Relation.ReflTransGen (Partitioning.Step comp cfg init B fuel p n) s s')
    (h : s'.CanReturn comp cfg init B fuel p n) : s.CanReturn comp cfg init B fuel p n := by
  obtain ⟨shared, ds, m, hs'⟩ := h
  exact ⟨shared, ds, m, hs.trans hs'⟩

variable {xs : List α} {s : Partitioning t α} {shared : SharedData α} {ds : Fin t → LocalData α}
  {m : Mem Area α}
  (hc : StrictWeak comp) (hcfg : Sound cfg) (hB : 1 ≤ B) (ht : 1 ≤ t) (hn : 4 * t * B ≤ xs.length)
  (hp : p.arr = .input) (hu : cfg.kUnrollClassifier ≤ 2 * B + 1)
  (hbase : 2 * cfg.kBaseCaseSize < xs.length) (hfuel : xs.length ≤ fuel)
include hc hcfg hB ht hn hp hu hbase hfuel

theorem Partitioning.Ok.canReturn_of_cleaning {T : Team (Cmd Area α) Cmd.Ans (Fin t) Buffers}
    (h : (Partitioning.cleaning shared ds T m).Ok comp cfg init B p xs) :
    (Partitioning.cleaning shared ds T m).CanReturn comp cfg init B fuel p xs.length := by
  obtain ⟨b, m', hruns⟩ := Team.Sat.exists_run h
  have hsteps : Relation.ReflTransGen (Partitioning.Step comp cfg init B fuel p xs.length)
      (.cleaning shared ds T m) _ := Partitioning.clean_of_runs hruns
  obtain ⟨ds', hds', -⟩ := (h.run hc hcfg hB ht hn hp hu hbase hfuel hsteps).1 m' (.refl _ _ _)
  exact ⟨shared, ds', m', hsteps.tail (.reset hds')⟩

theorem Partitioning.Ok.canReturn_of_permuting {f : Working t α (Mem Area α)}
    (h : (Partitioning.permuting shared ds f).Ok comp cfg init B p xs) :
    (Partitioning.permuting shared ds f).CanReturn comp cfg init B fuel p xs.length := by
  obtain ⟨m, hready, hf⟩ := id h
  obtain ⟨f', hreach, hret⟩ := hready.exists_finished hc hcfg hB ht hn hp hf
  have hsteps : Relation.ReflTransGen (Partitioning.Step comp cfg init B fuel p xs.length)
      (.permuting shared ds f) _ := (Partitioning.permute_of_reaches hreach).tail
    (.beginCleaning hret)
  have hok := (h.run hc hcfg hB ht hn hp hu hbase hfuel hsteps).1
  exact .head hsteps (hok.canReturn_of_cleaning hc hcfg hB ht hn hp hu hbase hfuel)

theorem Partitioning.Ok.canReturn_of_classifying
    {T : Team (Cmd Area α) Cmd.Ans (Fin t) (SharedData α × (Fin t → LocalData α))}
    (h : (Partitioning.classifying T m).Ok comp cfg init B p xs) :
    (Partitioning.classifying T m).CanReturn comp cfg init B fuel p xs.length := by
  obtain ⟨⟨shared, ds⟩, m', hruns⟩ := Team.Sat.exists_run h
  have hsteps : Relation.ReflTransGen (Partitioning.Step comp cfg init B fuel p xs.length)
      (.classifying T m) _ := (Partitioning.classify_of_runs hruns).tail .beginPermuting
  have hok := (h.run hc hcfg hB ht hn hp hu hbase hfuel hsteps).1
  exact .head hsteps (hok.canReturn_of_permuting hc hcfg hB ht hn hp hu hbase hfuel)

/-- **The threads can return**, wherever they are. -/
theorem Partitioning.Ok.canReturn (h : s.Ok comp cfg init B p xs) :
    s.CanReturn comp cfg init B fuel p xs.length := by
  cases s with
  | called shared ds m =>
    have hok := (h.step hc hcfg hB ht hn hp hu hbase hfuel (.build ⟨0, ht⟩)).1
    exact .head (.single (.build ⟨0, ht⟩))
      (hok.canReturn_of_classifying hc hcfg hB ht hn hp hu hbase hfuel)
  | classifying T m => exact h.canReturn_of_classifying hc hcfg hB ht hn hp hu hbase hfuel
  | permuting shared ds f => exact h.canReturn_of_permuting hc hcfg hB ht hn hp hu hbase hfuel
  | cleaning shared ds T m => exact h.canReturn_of_cleaning hc hcfg hB ht hn hp hu hbase hfuel
  | returned shared ds m => exact ⟨shared, ds, m, .refl⟩

end

/-- What a new sorter shares between its threads. -/
def SharedData.new (numBuckets : ℕ) (useEqualBuckets : Bool)
    (bucketPointers : ℕ → BucketPointers) : SharedData α :=
  ⟨⟨fun _ => .raw, fun _ => .raw, 0, 0⟩, numBuckets, useEqualBuckets, fun _ => 0, bucketPointers⟩

/-- What a new sorter has for each thread. -/
def LocalData.new (B : ℕ) (bucketPointers : ℕ → BucketPointers) : LocalData α :=
  ⟨fun _ => 0, .start B, bucketPointers, ⟨fun _ => .raw, fun _ => .raw, 0, 0⟩⟩

theorem SharedData.new_blank (cfg : Config) (numBuckets : ℕ) (useEqualBuckets : Bool)
    (bucketPointers : ℕ → BucketPointers) :
    (SharedData.new numBuckets useEqualBuckets bucketPointers : SharedData α).Blank cfg :=
  ⟨⟨rfl, fun _ => rfl, fun _ => rfl⟩, fun _ _ => rfl⟩

theorem LocalData.new_blank (cfg : Config) (B : ℕ) (bucketPointers : ℕ → BucketPointers) :
    (LocalData.new B bucketPointers : LocalData α).Blank cfg B :=
  ⟨⟨rfl, fun _ => rfl, fun _ => rfl⟩, fun _ _ => rfl, fun _ _ => rfl, fun _ _ => rfl⟩

end Ps4o.InPlace
