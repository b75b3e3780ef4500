import Ps4o.InPlace.StripedBlocks
import Ps4o.InPlace.ThreadStorage

/-!
# Local classification, with several threads

The threads share the array and the classifier that one of them has built. Each of them classifies
the elements of its stripe with buffers of its own; they add up how large the buckets are, and after
a barrier they move empty blocks (`parallelClassification` in `local_classification.hpp`).

## The model

Elements are bits. The additions to `bucket_start` are atomic and can be made in any order; here
they are made at the barrier. What a thread finds in its own storage is where `localAt` says.

## What is proved

* `sat_stripes` — the threads classify their stripes, whatever the order of their steps.
* `sat_compaction` — they move all full blocks to the front of their buckets.
* `sat_parallelClassification` — **both together, with the additions at the barrier**.
-/

namespace Ps4o.InPlace

open Ps4o.Program Ps4o.Storage Ps4o.Order

variable {α : Type}

/-! ### The code -/

/-- Data shared between all threads of a partitioning step. -/
structure SharedData (α : Type) where
  /-- The classifier. -/
  classifier : Classifier α
  /-- The number of buckets. -/
  numBuckets : ℕ
  /-- Whether there are buckets for equal elements. -/
  useEqualBuckets : Bool
  /-- Where the buckets begin. -/
  bucketStart : ℕ → ℕ
  /-- The pointers of the buckets. -/
  bucketPointers : ℕ → BucketPointers

section
variable (comp : α → α → Bool) (cfg : Config) (kInitializedStorage : Bool) (kBlockSize : ℕ)
  (p : Ptr Area) (n t : ℕ)

/-- A thread classifies its stripe, and answers the offset of the first empty block. -/
def classifyStripe (shared : SharedData α) (myId : ℕ) (d : LocalData α) :
    Act Area α (ℕ × LocalData α) :=
  let myBegin := stripeBegin kBlockSize n t myId
  let myEnd := stripeEnd kBlockSize n t myId
  if myEnd ≤ myBegin then
    -- Small input (less than two blocks per thread)
    pure (myBegin, d)
  else do
    let (firstEmptyBlock, s) ← classifyLocally comp cfg kInitializedStorage kBlockSize
      shared.useEqualBuckets p myBegin (myEnd - myBegin)
      ⟨{ d with classifier := shared.classifier }, shared.numBuckets, shared.bucketStart, false⟩
    pure (firstEmptyBlock, { s.data with classifier := d.classifier })

variable {t} in
/-- The threads whose stripes are not empty add to where a bucket begins how many elements the
buckets before it have. -/
def addSizes (sizes : Fin t → ℕ → ℕ) (shared : SharedData α) (b : ℕ) : ℕ :=
  shared.bucketStart b + if b ≤ shared.numBuckets then
    ∑ j : Fin t, if stripeEnd kBlockSize n t j ≤ stripeBegin kBlockSize n t j then 0
      else partialSum (sizes j) b
  else 0

variable {t} in
/-- Where the first empty block of each stripe is. -/
def firstEmptyBlocks {β : Type} (rs : Fin t → ℕ × β) (j : ℕ) : ℕ :=
  if h : j < t then (rs ⟨j, h⟩).1 else 0

/-- Sets the pointers of some buckets. -/
def setAll (pointers : ℕ → BucketPointers) (l : List (ℕ × BucketPointers)) : ℕ → BucketPointers :=
  l.foldl (fun pointers e => Function.update pointers e.1 e.2) pointers

/-- Local classification in the parallel case. -/
def parallelClassification (shared : SharedData α) (ds : Fin t → LocalData α) :
    Team (Cmd Area α) Cmd.Ans (Fin t) (SharedData α × (Fin t → LocalData α)) :=
  .stage (fun j : Fin t => localProg cfg.kMaxBuckets kBlockSize j
    (classifyStripe comp cfg kInitializedStorage kBlockSize p n t shared j (ds j))) fun rs =>
  let bucketStart := addSizes kBlockSize n (fun j => (rs j).2.bucketSize) shared
  (moveAllEmptyBlocks kBlockSize shared.numBuckets t bucketStart (firstEmptyBlocks rs) p n).bind
    fun pointers => .done ({ shared with
      bucketStart := bucketStart
      bucketPointers := setAll shared.bucketPointers pointers }, fun j => (rs j).2)

end

/-! ### One stripe -/

/-- The elements of the stripe of thread `j`. -/
def stripeOf (B t : ℕ) (xs : List α) (j : ℕ) : List α :=
  (xs.drop (stripeBound B xs.length t j)).take
    (stripeBound B xs.length t (j + 1) - stripeBound B xs.length t j)

/-- The shared classifier has been built. -/
structure SharedData.Built (comp : α → α → Bool) (cfg : Config) (k : ℕ) (splitters : List α)
    (shared : SharedData α) : Prop where
  weak : StrictWeak comp
  sorted : Sorted comp splitters
  built : shared.classifier.Built k splitters
  log_le : k ≤ cfg.kLogBuckets
  equal : shared.useEqualBuckets = true → cfg.kAllowEqualBuckets = true
  num : shared.numBuckets = 2 ^ (k + shared.useEqualBuckets.toNat)

/-- Thread `j` has classified the elements `ys` from offset `lo` on: `blocks` have been written
back, and its buffers hold `buf`. -/
structure StripeClassified (K B nb : ℕ) (key : α → ℕ) (p : Ptr Area) (j lo : ℕ) (ys : List α)
    (d : LocalData α) (m : Mem Area α) (r : ℕ × LocalData α) (blocks : List (List α))
    (buf : ℕ → List α) : Prop where
  write : r.1 = lo + blocks.length * B
  block : ∀ l ∈ blocks, ∃ b < nb, IsBlock B key b l
  keyed : ∀ b, ∀ x ∈ buf b, key x = b
  /-- Every element is in a block or in a buffer. -/
  all : (blocks.flatten : Multiset α) + ∑ b ∈ Finset.range nb,
    (buf b : Multiset α) = (ys : Multiset α)
  flushed : ∀ b < nb, fullBlocks B key blocks b = flushes B (ys.countP fun x => key x = b)
  size : ∀ b < nb, r.2.bucketSize b = ys.countP fun x => key x = b
  classifier : r.2.classifier = d.classifier
  has : Has m (p + lo) blocks.flatten
  keeps : ∀ b < K, r.2.buffers.Keeps B (m.along (localAt K B j)) b (buf b)

section
variable {comp : α → α → Bool} {cfg : Config} {init : Bool} {B k t j lo : ℕ} {p : Ptr Area}
  {xs ys splitters : List α} {m m' : Mem Area α} {d : LocalData α} {shared : SharedData α}

theorem SharedData.Built.sampled (h : shared.Built comp cfg k splitters) (hd : d.Blank cfg B)
    (hp : p.arr = .input) (m : Mem Area α) (n : ℕ) (bss : ℕ → ℕ) :
    Sampled comp cfg init B k shared.useEqualBuckets splitters
      ⟨{ d with classifier := shared.classifier }, shared.numBuckets, bss, false⟩
      (m.within p n) where
  weak := h.weak
  sorted := h.sorted
  built := h.built
  log_le := h.log_le
  equal := h.equal
  num := h.num
  empty _ hb := ⟨hd.ptr _ hb, hd.stop _ hb, Nat.zero_le B, has_nil,
    fun _ => raw_within (by simp [Buffers.data, hp]) _⟩
  zero := hd.zero

/-- The bits in a buffer. -/
theorem Buffers.Holds.keeps {b : Buffers} {i : ℕ} {vs : List α} {m₁ : Mem Area (Slot α)}
    (h : b.Holds init B m₁ i vs) (hm : Rep m₁ m) : b.Keeps B m i vs :=
  ⟨h.ptr, h.stop, h.le, hm.has h.has⟩

/-- What a single thread finds when it has classified all elements. -/
theorem Classifying.stripe {nb : ℕ} {key : α → ℕ} {m₁ : Mem Area (Slot α)} {d₁ : LocalData α}
    {write : ℕ} {blocks : List (List α)} {buf : ℕ → List α}
    (h : Classifying init B nb cfg.kMaxBuckets key p lo ys ys.length d (write, d₁) m₁ blocks buf)
    (hlazy : Lazy key blocks buf) (hB : 1 ≤ B) (hnb : nb ≤ cfg.kMaxBuckets)
    (hp : (p + lo).arr = .input) {c : Classifier α} {size : ℕ → ℕ}
    (hsize : ∀ b < nb, size b = ys.countP fun x => key x = b)
    (hm : Rep m₁ (m.along (localAt cfg.kMaxBuckets B j))) :
    StripeClassified cfg.kMaxBuckets B nb key p j lo ys { d with classifier := c } m
      (write, { d₁ with classifier := c, bucketSize := size }) blocks buf where
  write := h.write
  block := h.block
  keyed := h.keyed
  all := h.all.trans (by rw [List.take_length])
  flushed b hb := (h.fullBlocks_eq hlazy hB hnb hb).trans (by rw [List.take_length])
  size := hsize
  classifier := rfl
  has := by
    have hlocal := hm.has h.has
    rwa [has_local, localAt_input hp] at hlocal
  keeps b hb := (h.holds b hb).keeps hm

/-- **What a thread does with the elements of its stripe.** -/
theorem sat_classifyElements (h : shared.Built comp cfg k splitters) (hcfg : cfg.Admitted)
    (hB : 1 ≤ B) (hp : p.arr = .input) (hd : d.Blank cfg B)
    (hn : cfg.kUnrollClassifier ≤ ys.length) (hm : Has m (p + lo) ys) :
    Sat (copies Area α) (localSpace cfg.kMaxBuckets B j ys.length (p + lo))
      (localProg cfg.kMaxBuckets B j (do
        let r ← classifyLocally comp cfg init B shared.useEqualBuckets p lo ys.length
          ⟨{ d with classifier := shared.classifier }, shared.numBuckets, shared.bucketStart, false⟩
        pure (r.1, { r.2.data with classifier := d.classifier }))) m fun r m' => ∃ blocks buf,
      StripeClassified cfg.kMaxBuckets B shared.numBuckets
        (Classifier.bucketOf comp shared.useEqualBuckets splitters) p j lo ys d m' r blocks
          buf := by
  set key := Classifier.bucketOf comp shared.useEqualBuckets splitters
  have hlo : (p + lo).arr = .input := hp
  have hm' : Has (m.along (localAt cfg.kMaxBuckets B j)) (p + lo) ys := by
    rw [has_local, localAt_input hlo]
    exact hm
  have hsampled : Sampled comp cfg init B k shared.useEqualBuckets splitters
      ⟨{ d with classifier := shared.classifier }, shared.numBuckets, shared.bucketStart, false⟩
      ((m.along (localAt cfg.kMaxBuckets B j)).within (p + lo) ys.length) :=
    h.sampled hd hlo _ _ _
  have hnb := hsampled.num_le
  have hsat : Sat (slots Area α init) (seg (p + lo) ys.length ∪ bufferSpace cfg.kMaxBuckets B)
      (do
        let r ← classifyLocally comp cfg init B shared.useEqualBuckets p lo ys.length
          ⟨{ d with classifier := shared.classifier }, shared.numBuckets, shared.bucketStart, false⟩
        pure (r.1, { r.2.data with classifier := d.classifier }))
      ((m.along (localAt cfg.kMaxBuckets B j)).within (p + lo) ys.length) fun r m₁ =>
        ∃ d₁ blocks buf, Classifying init B shared.numBuckets cfg.kMaxBuckets key p lo ys ys.length
          { d with classifier := shared.classifier } (r.1, d₁) m₁ blocks buf ∧
          Lazy key blocks buf ∧ r.2 = { d₁ with
            classifier := d.classifier
            bucketSize := fun b => if b < shared.numBuckets then
              (keysOf comp shared.useEqualBuckets splitters ys).count b else d₁.bucketSize b } := by
    refine sat_bind.mpr
      ((sat_classifyLocally hsampled hcfg hB hp hn (has_within hm' le_rfl)).imp ?_)
    rintro r m₁ ⟨d₁, blocks, buf, hI, hlazy, hr⟩
    exact sat_ret.mpr ⟨d₁, blocks, buf, hI, hlazy, by rw [hr]⟩
  refine (sat_localProg hsat).mono (relocate_subset_localSpace ?_) ?_
  · exact Set.union_subset_union_left _ fun l hl => .inl (.inl hl)
  · rintro ⟨write, d'⟩ m' ⟨m₁, ⟨d₁, blocks, buf, hI, hlazy, rfl⟩, hrep⟩
    refine ⟨blocks, buf, hI.stripe hlazy hB hnb hlo (fun b hb => ?_) hrep⟩
    rw [if_pos hb, keysOf, List.count, List.countP_map]
    rfl

section
variable {K nb : ℕ} {key : α → ℕ} {r : ℕ × LocalData α} {blocks : List (List α)}
  {buf : ℕ → List α}
  (h : StripeClassified K B nb key p j lo ys d m r blocks buf)
include h

theorem StripeClassified.length_flatten : blocks.flatten.length = blocks.length * B :=
  length_flatten_blocks fun l hl => by
    obtain ⟨b, -, hb⟩ := h.block l hl
    exact hb.length

/-- The blocks are in the stripe. -/
theorem StripeClassified.length_le : blocks.length * B ≤ ys.length := by
  have hcard := congrArg Multiset.card h.all
  rw [Multiset.card_add, Multiset.coe_card, Multiset.coe_card, h.length_flatten] at hcard
  omega

/-- Only the stripe and the thread's own storage matter. -/
theorem StripeClassified.congr (hp : p.arr = .input)
    (hm : (copies Area α).AgreeOn (localSpace K B j ys.length (p + lo)) m m') :
    StripeClassified K B nb key p j lo ys d m' r blocks buf := by
  have hkeeps : ∀ b < K, Has (m'.along (localAt K B j))
      (Buffers.data B b) (buf b) := by
    intro b hb
    refine (h.keeps b hb).has.of_eq fun i hi => hm _ ⟨_, .inr (data_subset hb ⟨i, ?_, rfl⟩), rfl⟩
    exact hi.trans_le (h.keeps b hb).le
  refine { h with has := ?_, keeps := fun b hb => { h.keeps b hb with has := hkeeps b hb } }
  refine h.has.of_eq fun i hi => hm (.elem (p + lo + i))
    ⟨_, .inl (.inl (.inl ⟨i, ?_, rfl⟩)), congrArg Loc.elem (localAt_input hp)⟩
  rw [h.length_flatten] at hi
  exact hi.trans_le h.length_le

end

end

/-! ### All stripes -/

/-- What the threads work on together. -/
def teamSpace (t K B n : ℕ) (p : Ptr Area) : Set (Loc Area) :=
  {l | ∃ j < t, l ∈ localSpace K B j n p}

section
variable {B n t j : ℕ} (hB : 1 ≤ B) (ht : 1 ≤ t) (hn : 4 * t * B ≤ n)
include hB ht hn

theorem stripeBegin_eq (hj : j < t) : stripeBegin B n t j = stripeBound B n t j :=
  (min_eq_right (stripeBegin_lt hB ht hn hj).le).symm

/-- Every stripe has more than two blocks. -/
theorem stripeBound_step (hj : j < t) :
    stripeBound B n t j + 2 * B < stripeBound B n t (j + 1) := by
  have hstep := stripeBegin_step hB ht hn j
  rw [← stripeBegin_eq hB ht hn hj]
  cases Nat.eq_or_lt_of_le (show j + 1 ≤ t from hj) with
  | inl hlast =>
    have hle := le_alignToNextBlock hB n
    have hlt := alignToNextBlock_lt hB n
    rw [stripeBound, hlast, stripeBegin_last ht]
    rw [hlast, stripeBegin_last ht] at hstep
    omega
  | inr hlt =>
    rw [← stripeBegin_eq hB ht hn hlt]
    omega

/-- A slot is in one stripe. -/
theorem eq_stripe {i : ℕ} {p : Ptr Area} {l : Loc Area} (hi : i < t) (hj : j < t)
    (h₁ : l ∈ seg (p + stripeBound B n t i) (stripeBound B n t (i + 1) - stripeBound B n t i))
    (h₂ : l ∈ seg (p + stripeBound B n t j) (stripeBound B n t (j + 1) - stripeBound B n t j)) :
    i = j := by
  have hstriped : Striped B n t (stripeBound B n t) (stripeBegin B n t) := by
    refine striped_of_stripeBegin hB ht hn (fun j hj => ⟨le_rfl, ?_⟩)
      fun j _ => dvd_alignToNextBlock B _
    have hstep := stripeBound_step hB ht hn hj
    rw [stripeBegin_eq hB ht hn hj]
    exact (Nat.le_add_right _ _).trans hstep.le
  obtain ⟨x, hx, rfl⟩ := h₁
  obtain ⟨y, hy, he⟩ := h₂
  have hoff := (Ptr.mk.inj (Loc.elem.inj he)).2
  simp only [Ptr.add_off] at hoff
  exact hstriped.eq_of_mem hi hj (x := stripeBound B n t i + x) (by omega) (by omega) (by omega)
    (by omega)

end

section
variable {comp : α → α → Bool} {cfg : Config} {init : Bool} {B k t j : ℕ} {p : Ptr Area}
  {xs splitters : List α} {m m' : Mem Area α} {ds : Fin t → LocalData α} {shared : SharedData α}

theorem length_stripeOf : (stripeOf B t xs j).length =
    stripeBound B xs.length t (j + 1) - stripeBound B xs.length t j := by
  rw [stripeOf, List.length_take_of_le]
  rw [List.length_drop]
  exact Nat.sub_le_sub_right (Nat.min_le_left _ _) _

theorem has_stripeOf (h : Has m p xs) : Has m (p + stripeBound B xs.length t j)
    (stripeOf B t xs j) := by
  rw [← List.take_append_drop (stripeBound B xs.length t j) xs, has_append,
    List.length_take_of_le (Nat.min_le_left _ _)] at h
  have htake := h.2
  rw [← List.take_append_drop (stripeBound B xs.length t (j + 1) - stripeBound B xs.length t j)
    (xs.drop _), has_append] at htake
  exact htake.1

/-- **What the threads do with their stripes**, whatever the order of their steps. -/
theorem sat_stripes (h : shared.Built comp cfg k splitters) (hcfg : cfg.Admitted) (hB : 1 ≤ B)
    (ht : 1 ≤ t) (hn : 4 * t * B ≤ xs.length) (hu : cfg.kUnrollClassifier ≤ 2 * B + 1)
    (hp : p.arr = .input) (hd : ∀ j, (ds j).Blank cfg B) (hm : Has m p xs) :
    Cooperate (copies Area α) (teamSpace t cfg.kMaxBuckets B xs.length p)
      (fun j : Fin t => localProg cfg.kMaxBuckets B j
        (classifyStripe comp cfg init B p xs.length t shared j (ds j))) m fun j r m' =>
      ∃ blocks buf, StripeClassified cfg.kMaxBuckets B shared.numBuckets
        (Classifier.bucketOf comp shared.useEqualBuckets splitters) p j
        (stripeBound B xs.length t j) (stripeOf B t xs j) (ds j) m' r blocks buf := by
  have hsat : ∀ j : Fin t, Sat (copies Area α) (localSpace cfg.kMaxBuckets B j
      (stripeOf B t xs j).length (p + stripeBound B xs.length t j))
      (localProg cfg.kMaxBuckets B j (classifyStripe comp cfg init B p xs.length t shared j (ds j)))
      m fun r m' => ∃ blocks buf, StripeClassified cfg.kMaxBuckets B shared.numBuckets
        (Classifier.bucketOf comp shared.useEqualBuckets splitters) p j
        (stripeBound B xs.length t j) (stripeOf B t xs j) (ds j) m' r blocks buf := by
    intro j
    have hstep := stripeBound_step hB ht hn j.isLt
    have hlen : (stripeOf B t xs j).length =
        stripeBound B xs.length t (j + 1) - stripeBound B xs.length t j := length_stripeOf
    have hend : stripeEnd B xs.length t j = stripeBound B xs.length t (j + 1) := rfl
    rw [classifyStripe, stripeBegin_eq hB ht hn j.isLt, hend, if_neg (by omega), ← hlen]
    exact sat_classifyElements h hcfg hB hp (hd j) (by omega) (has_stripeOf hm)
  refine (Cooperate.of_sat (fun j l hl => ?_) (fun i j hij l hi hj => ?_) hsat).imp ?_
  · have hle : stripeBound B xs.length t (j + 1) ≤ xs.length := Nat.min_le_left _ _
    have hstep := stripeBound_step hB ht hn j.isLt
    refine ⟨j, j.isLt, Set.image_mono (partitionSpace_subset ?_) hl⟩
    rw [length_stripeOf]
    omega
  · have harr : ∀ x : ℕ, (p + x).arr = .input := fun _ => hp
    obtain ⟨h₁, h₂⟩ := mem_of_localSpaces (Fin.val_ne_of_ne hij) (harr _) (harr _) hi hj
    simp only [length_stripeOf] at h₁ h₂
    have heq : (i : ℕ) = j := eq_stripe hB ht hn i.isLt j.isLt h₁ h₂
    exact hij (Fin.ext heq)
  · rintro j r m' ⟨m₂, ⟨blocks, buf, hs⟩, hag⟩
    exact ⟨blocks, buf, hs.congr hp hag⟩

end

/-! ### Where the buckets begin -/

section
variable {B nb t j : ℕ} {xs : List α} {key : α → ℕ} {shared : SharedData α}
  (hB : 1 ≤ B) (ht : 1 ≤ t) (hn : 4 * t * B ≤ xs.length)
include hB ht hn

/-- **Every element is in a stripe.** -/
theorem sum_stripeOf : ∑ j : Fin t, (stripeOf B t xs j : Multiset α) = (xs : Multiset α) := by
  have hprefix : ∀ i ≤ t, ∑ j ∈ Finset.range i, (stripeOf B t xs j : Multiset α) =
      (xs.take (stripeBound B xs.length t i) : Multiset α) := by
    intro i
    induction i with
    | zero =>
      intro _
      simp [stripeBound, stripeBegin_zero hB ht]
    | succ i ih =>
      intro hi
      have hstep := stripeBound_step hB ht hn hi
      have hsplit := List.take_add (l := xs) (i := stripeBound B xs.length t i)
        (j := stripeBound B xs.length t (i + 1) - stripeBound B xs.length t i)
      rw [Nat.add_sub_of_le (by omega)] at hsplit
      rw [Finset.sum_range_succ, ih (Nat.le_of_succ_le hi), hsplit, ← Multiset.coe_add]
      rfl
  have hlast : stripeBound B xs.length t t = xs.length := by
    rw [stripeBound, stripeBegin_last ht]
    exact min_eq_left (le_alignToNextBlock hB _)
  rw [Finset.sum_fin_eq_sum_range]
  have hall := hprefix t le_rfl
  rw [hlast, List.take_length] at hall
  rw [← hall]
  exact Finset.sum_congr rfl fun j hj => dif_pos (Finset.mem_range.mp hj)

theorem sum_countP_stripeOf (P : α → Prop) [DecidablePred P] :
    ∑ j : Fin t, (stripeOf B t xs j).countP P = xs.countP P := by
  have hsum := congrArg (Multiset.countPAddMonoidHom P) (sum_stripeOf hB ht hn)
  simpa only [map_sum, Multiset.coe_countPAddMonoidHom, Multiset.coe_countP] using hsum

/-- **The threads find out where the buckets begin.** -/
theorem addSizes_eq (hzero : ∀ b ≤ shared.numBuckets, shared.bucketStart b = 0)
    {sizes : Fin t → ℕ → ℕ} (hsizes : ∀ j, ∀ b < shared.numBuckets,
      sizes j b = (stripeOf B t xs j).countP fun x => key x = b) {b : ℕ}
    (hb : b ≤ shared.numBuckets) : addSizes B xs.length sizes shared b = start (xs.map key) b := by
  have hpartial : ∀ j : Fin t, (if stripeEnd B xs.length t j ≤ stripeBegin B xs.length t j then 0
      else partialSum (sizes j) b) = (stripeOf B t xs j).countP fun x => key x < b := by
    intro j
    have hend : stripeEnd B xs.length t j = stripeBound B xs.length t (j + 1) := rfl
    have hstep := stripeBound_step hB ht hn j.isLt
    have hcount : ∀ c < b, sizes j c = ((stripeOf B t xs j).map key).count c := by
      intro c hc
      rw [hsizes j c (hc.trans_le hb), List.count, List.countP_map]
      rfl
    rw [stripeBegin_eq hB ht hn j.isLt, hend, if_neg (by omega), partialSum_count hcount, start,
      List.countP_map]
    rfl
  rw [addSizes, hzero b hb, if_pos hb, Nat.zero_add, Finset.sum_congr rfl fun j _ => hpartial j,
    sum_countP_stripeOf hB ht hn, start, List.countP_map]
  rfl

end

/-! ### Moving empty blocks -/

/-- The full blocks are at the front of their buckets: `f b x` says where the one at `x` was. -/
structure Fronts (B nb t : ℕ) (bss bd feb : ℕ → ℕ) (p : Ptr Area) (m m' : Mem Area α)
    (f : ℕ → ℕ → ℕ) : Prop where
  moved : Moved B nb t bss bd feb f
  slot : ∀ b < nb, ∀ x, B ∣ x → startOf B bss b ≤ x → x < frontOf B t bss bd feb b →
    ∀ i < B, m'.slot (p + (x + i)) = m.slot (p + (f b x + i))

section
variable {init : Bool} {B n nb t : ℕ} {bss feb : ℕ → ℕ} {p : Ptr Area} {m m' : Mem Area α}
  (hB : 1 ≤ B) (ht : 1 ≤ t) (hn : 4 * t * B ≤ n) (hbound : Boundaries false nb n bss)
  (h : Striped B n t (stripeBound B n t) feb)
include hB ht hn hbound h

/-- What one thread does. -/
theorem sat_finishClassification (j : Fin t) :
    Sat (copies Area α) (ownSpace B nb t bss (stripeBound B n t) feb p j)
      (finishClassification B nb t bss feb p n j) m fun ps m' => ∃ m₁ : Mem Area (Slot α),
      (ps = (List.range' (bucketRangeStart B nb bss (stripeBound B n t j))
        (bucketRangeEnd B nb t bss j (stripeBound B n t (j + 1))
        (bucketRangeStart B nb bss (stripeBound B n t j)) -
          bucketRangeStart B nb bss (stripeBound B n t j))).map
          (pointersOf B t bss (stripeBound B n t) feb) ∧
        ∃ f, MovedBy B nb t bss (stripeBound B n t) feb p (fun x => m.slot (p + x)) j
          (m.within p n) m₁ f) ∧ Rep m₁ m' := by
  have hbegin : ∀ j < t, stripeBegin B n t j = stripeBound B n t j := fun j =>
    stripeBegin_eq hB ht hn
  have hlt : stripeBound B n t j < stripeBound B n t (j + 1) := h.lt j j.isLt
  have hend : stripeEnd B n t j = stripeBound B n t (j + 1) := rfl
  have hin : ∀ x < n, (m.within p n).slot (p + x) = .full (m.slot (p + x)) := fun x hx =>
    if_pos ⟨rfl, Nat.le_add_right _ _, Nat.add_lt_add_left hx _⟩
  simp only [finishClassification, hbegin j j.isLt, hend]
  rw [if_neg (Nat.not_le.mpr hlt)]
  have hsat : Sat (slots Area α false) _ _ (m.within p n) _ :=
    sat_moveEmptyBlocks h hB hbound j.isLt hbegin (fun x hx => hin x (h.full_lt hx))
      (fun x hx => by rw [hin x hx]; simp) rfl rfl
  exact sat_copies hsat rep_within

/-- **The threads move all full blocks to the front of their buckets.** -/
theorem sat_compaction :
    Team.Sat (copies Area α) (seg p n) (moveAllEmptyBlocks B nb t bss feb p n) m fun ps m' =>
      ps = (List.range nb).map (pointersOf B t bss (stripeBound B n t) feb) ∧
        ∃ f, Fronts B nb t bss (stripeBound B n t) feb p m m' f := by
  set bd := stripeBound B n t
  have hdisj : ∀ i j : Fin t, i ≠ j → ∀ l ∈ ownSpace B nb t bss bd feb p i,
      l ∉ ownSpace B nb t bss bd feb p j := by
    rintro i j hij l ⟨x, rfl, hx⟩ ⟨y, he, hy⟩
    obtain rfl : x = y := by simpa using he
    exact hij (Fin.ext (Owns.unique h hB hbound i.isLt j.isLt hx hy))
  have hsub : ∀ i : Fin t, ownSpace B nb t bss bd feb p i ⊆ seg p n := by
    rintro i l ⟨x, rfl, ⟨b, -, hf⟩ | ⟨-, -, hlt⟩⟩
    · exact ⟨x, h.full_lt hf.1, rfl⟩
    · exact ⟨x, hlt.trans_le (h.le_n i.isLt), rfl⟩
  refine ⟨_, Cooperate.of_sat hsub hdisj (sat_finishClassification hB ht hn hbound h), ?_⟩
  intro ps m' hps m₃ hm₃
  choose m₂ hm₂ hag using hps
  choose m₁ hm₁ hrep using hm₂
  choose hptr F hF using hm₁
  obtain ⟨m₄, hm₄, hown⟩ := exists_rep hdisj hrep fun i => (hag i).trans (hm₃.subset (hsub i))
  have hcompacted : ∀ b < nb, ∃ f, Compacted B n t bss bd feb p (fun x => m.slot (p + x)) b
      (m.within p n) m₄ f := by
    intro b hb
    refine compacted_of_moved h hB hbound ht (fun x hx => ?_) hF (fun j x hx => ?_) hb
    · exact if_pos ⟨rfl, Nat.le_add_right _ _, Nat.add_lt_add_left (h.full_lt hx) _⟩
    · exact hown j _ ⟨x, rfl, hx⟩
  have hflatten : (List.ofFn ps).flatten = (List.range nb).map (pointersOf B t bss bd feb) := by
    obtain ⟨k, rfl⟩ : ∃ k, t = k + 1 := ⟨t - 1, (Nat.sub_add_cancel ht).symm⟩
    rw [flatten_pointers h hB hbound (Nat.lt_succ_self k) hptr, bucketRangeEnd,
      if_pos (Nat.add_sub_cancel k 1).symm]
  choose! f hf using hcompacted
  refine ⟨hflatten, f, fun b hb => (hf b hb).bijOn, fun b hb x hx h₁ h₂ i hi => ?_⟩
  exact hm₄.1 _ _ ((hf b hb).holds x hx h₁ h₂ i hi)

end

/-! ### Local classification -/

/-- Pointers that have been set. -/
theorem setAll_range {nb b : ℕ} (hb : b < nb) (f : ℕ → BucketPointers)
    (g : ℕ → ℕ × BucketPointers) (hg : ∀ b, (g b).1 = b) :
    setAll f ((List.range nb).map g) b = (g b).2 := by
  induction nb with
  | zero => exact absurd hb (Nat.not_lt_zero b)
  | succ nb ih =>
    simp only [setAll, List.range_succ, List.map_append, List.map_cons, List.map_nil,
      List.foldl_append, List.foldl_cons, List.foldl_nil, hg] at ih ⊢
    cases Nat.eq_or_lt_of_le (Nat.le_of_lt_succ hb) with
    | inl heq => rw [← heq, Function.update_self]
    | inr hlt => rw [Function.update_of_ne hlt.ne, ih hlt]

/-- What the threads have made of `xs`: at the barrier the memory was `m₁`, with `blocks j` in the
stripe of thread `j` and `buf j` in its buffers. -/
structure StripesCompacted {t : ℕ} (K B : ℕ) (key : α → ℕ) (p : Ptr Area) (xs : List α)
    (shared : SharedData α) (ds : Fin t → LocalData α) (r : SharedData α × (Fin t → LocalData α))
    (m' m₁ : Mem Area α) (feb : ℕ → ℕ) (blocks : Fin t → List (List α))
    (buf : Fin t → ℕ → List α) (f : ℕ → ℕ → ℕ) : Prop where
  stripe (j : Fin t) : StripeClassified K B shared.numBuckets key p j (stripeBound B xs.length t j)
    (stripeOf B t xs j) (ds j) m₁ (feb j, r.2 j) (blocks j) (buf j)
  fronts : Fronts B shared.numBuckets t r.1.bucketStart (stripeBound B xs.length t) feb p m₁ m' f
  /-- The threads' own storage is as it was at the barrier. -/
  own : (copies Area α).AgreeOn (teamSpace t K B xs.length p \ seg p xs.length) m₁ m'
  start : ∀ b ≤ shared.numBuckets, r.1.bucketStart b = start (xs.map key) b
  pointers : ∀ b < shared.numBuckets, r.1.bucketPointers b =
    (pointersOf B t r.1.bucketStart (stripeBound B xs.length t) feb b).2
  shared : r.1.classifier = shared.classifier ∧ r.1.numBuckets = shared.numBuckets ∧
    r.1.useEqualBuckets = shared.useEqualBuckets

/-- The buckets follow each other. -/
theorem boundaries_of_start {nb : ℕ} {bss : ℕ → ℕ} {key : α → ℕ} {xs : List α} (hnb : 1 ≤ nb)
    (hkey : ∀ x, key x < nb) (hstart : ∀ b ≤ nb, bss b = start (xs.map key) b) :
    Boundaries false nb xs.length bss where
  pos := hnb
  zero := (hstart 0 (Nat.zero_le nb)).trans start_zero
  last := by
    rw [hstart nb le_rfl, start_eq_length fun k hk => ?_, List.length_map]
    obtain ⟨x, -, rfl⟩ := List.mem_map.mp hk
    exact hkey x
  step b hb := by
    rw [hstart b hb.le, hstart (b + 1) hb]
    exact start_le_succ b
  equal := nofun

/-- The full blocks are at the beginning of the stripes. -/
theorem striped_of_classified {t K B nb : ℕ} {key : α → ℕ} {p : Ptr Area} {xs : List α}
    {ds : Fin t → LocalData α} {m : Mem Area α} {rs : Fin t → ℕ × LocalData α}
    {blocks : Fin t → List (List α)} {buf : Fin t → ℕ → List α} {feb : ℕ → ℕ}
    (hB : 1 ≤ B) (ht : 1 ≤ t) (hn : 4 * t * B ≤ xs.length)
    (h : ∀ j : Fin t, StripeClassified K B nb key p j (stripeBound B xs.length t j)
      (stripeOf B t xs j) (ds j) m (rs j) (blocks j) (buf j))
    (hfeb : ∀ j : Fin t, feb j = (rs j).1) :
    Striped B xs.length t (stripeBound B xs.length t) feb := by
  have heq : ∀ j (hj : j < t),
      feb j = stripeBegin B xs.length t j + (blocks ⟨j, hj⟩).length * B := by
    intro j hj
    rw [hfeb ⟨j, hj⟩, (h ⟨j, hj⟩).write, stripeBegin_eq hB ht hn hj]
  refine striped_of_stripeBegin hB ht hn (fun j hj => ?_) fun j hj => ?_
  · have hle := (h ⟨j, hj⟩).length_le
    have hstep := stripeBound_step hB ht hn hj
    have hend : stripeEnd B xs.length t j = stripeBound B xs.length t (j + 1) := rfl
    rw [length_stripeOf] at hle
    rw [heq j hj, hend, stripeBegin_eq hB ht hn hj]
    simp only at hle
    omega
  · rw [heq j hj]
    exact Nat.dvd_add (dvd_alignToNextBlock B _) (Nat.dvd_mul_left B _)

theorem seg_subset_teamSpace {t K B n : ℕ} {p : Ptr Area} (ht : 1 ≤ t) (hp : p.arr = .input) :
    seg p n ⊆ teamSpace t K B n p := by
  rintro l ⟨x, hx, rfl⟩
  exact ⟨0, ht, _, .inl (.inl (.inl ⟨x, hx, rfl⟩)), congrArg Loc.elem (localAt_input hp)⟩

section
variable {comp : α → α → Bool} {cfg : Config} {init : Bool} {B k t : ℕ} {p : Ptr Area}
  {xs splitters : List α} {m m' : Mem Area α} {ds : Fin t → LocalData α} {shared : SharedData α}

/-- **Local classification in the parallel case**, whatever the order of the threads' steps. -/
theorem sat_parallelClassification (h : shared.Built comp cfg k splitters) (hcfg : cfg.Admitted)
    (hB : 1 ≤ B) (ht : 1 ≤ t) (hn : 4 * t * B ≤ xs.length)
    (hu : cfg.kUnrollClassifier ≤ 2 * B + 1) (hp : p.arr = .input)
    (hd : ∀ j, (ds j).Blank cfg B) (hzero : ∀ b ≤ shared.numBuckets, shared.bucketStart b = 0)
    (hm : Has m p xs) :
    Team.Sat (copies Area α) (teamSpace t cfg.kMaxBuckets B xs.length p)
      (parallelClassification comp cfg init B p xs.length t shared ds) m fun r m' =>
      ∃ m₁ feb blocks buf f, StripesCompacted cfg.kMaxBuckets B
        (Classifier.bucketOf comp shared.useEqualBuckets splitters) p xs shared ds r m' m₁ feb
        blocks buf f := by
  set key := Classifier.bucketOf comp shared.useEqualBuckets splitters
  refine ⟨_, sat_stripes h hcfg hB ht hn hu hp hd hm, fun rs m₁ hrs => ?_⟩
  choose blocks buf hstripe using hrs
  set bss := addSizes B xs.length (fun j => (rs j).2.bucketSize) shared
  set feb := firstEmptyBlocks rs
  have hfeb : ∀ j : Fin t, feb j = (rs j).1 := fun j => dif_pos j.isLt
  have hstart : ∀ b ≤ shared.numBuckets, bss b = start (xs.map key) b := fun b hb =>
    addSizes_eq hB ht hn hzero (fun j c hc => (hstripe j).size c hc) hb
  have hnum : shared.numBuckets = 2 ^ (k + shared.useEqualBuckets.toNat) := h.num
  have hkey : ∀ x, key x < shared.numBuckets := fun x => by
    rw [hnum]
    exact Classifier.bucketOf_lt _ h.built.length x
  have hbound : Boundaries false shared.numBuckets xs.length bss :=
    boundaries_of_start (hnum ▸ Nat.one_le_two_pow) hkey hstart
  have hstriped := striped_of_classified hB ht hn hstripe hfeb
  have hne : Nonempty (Fin t) := ⟨⟨0, ht⟩⟩
  refine Team.Sat.bind (((sat_compaction hB ht hn hbound hstriped).frame
    (seg_subset_teamSpace ht hp)).imp ?_)
  rintro ps m₂ ⟨⟨hps, f, hf⟩, hown⟩ m₃ hm₃
  refine ⟨m₁, feb, blocks, buf, f, ⟨fun j => ?_, ⟨hf.moved, ?_⟩, ?_, hstart, ?_, rfl, rfl, rfl⟩⟩
  · have heq : (feb j, (rs j).2) = rs j := Prod.ext (hfeb j) rfl
    rw [heq]
    exact hstripe j
  · intro b hb x hx h₁ h₂ i hi
    have hle := add_le_of_dvd hx (hstriped.dvd_front ht b) h₂
    have hlt : x + i < xs.length := hstriped.lt_of_lt_front (h₁.trans (Nat.le_add_right x i))
      ((Nat.add_lt_add_left hi x).trans_le hle)
    exact (hm₃ _ (seg_subset_teamSpace ht hp ⟨x + i, hlt, rfl⟩)).symm.trans
      (hf.slot b hb x hx h₁ h₂ i hi)
  · exact hown.trans (hm₃.subset Set.sdiff_subset)
  · intro b hb
    rw [hps]
    exact setAll_range hb _ _ fun _ => rfl

end

end Ps4o.InPlace
