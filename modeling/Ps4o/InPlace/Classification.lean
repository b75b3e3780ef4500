import Mathlib.Algebra.Order.BigOperators.Group.Finset
import Mathlib.Algebra.Order.Group.Multiset
import Ps4o.InPlace.BlockPermutation
import Ps4o.InPlace.Buffers
import Ps4o.LocalClassification

/-!
# Local classification in place

Every element goes to the buffer of its bucket. When another element arrives for a full buffer, the
block in it is first written back to the array, where the elements have been classified already
(`local_classification.hpp`).

## What is proved

* `sat_classifyRange` — the elements are classified in order, a group of them before any of their
  callbacks.
* `sat_classifyLocally` — of any stripe: full blocks of one bucket each stand at its beginning, the
  rest is in the buffers, and every bucket that has blocks has elements in its buffer, too.
* `sat_sequentialClassification` — where the buckets begin, and their pointers.
-/

namespace Ps4o.InPlace

open Ps4o.Program Ps4o.Storage Ps4o.Order

variable {α : Type} (comp : α → α → Bool)

/-! ### The code -/

/-- Classifies the `n` elements from `p` on, `kUnroll` at a time, then the rest one by one. -/
def classifyUnrolled {β : Type} (kEqualBuckets : Bool) (kLogBuckets kUnroll : ℕ) (c : Classifier α)
    (p : Ptr Area) (n : ℕ) (yield : ℕ → Ptr Area → β → Act Area α β) (s : β) : Act Area α β :=
  let kNumBuckets := 2 ^ (kLogBuckets + kEqualBuckets.toNat)
  if n = 0 ∨ n < kUnroll then
    undefined
  else do
    let s ← Prog.loop (fun round s => do
      let b ← Classifier.unrolledLeaves comp kEqualBuckets kLogBuckets kUnroll c
        (p + round * kUnroll)
      Prog.loop (fun i s => yield (b i - kNumBuckets) (p + (round * kUnroll + i)) s) kUnroll s)
        (n / kUnroll) s
    Prog.loop (fun i s => do
      let b ← Classifier.restLeaf comp kEqualBuckets kLogBuckets c (p + (n / kUnroll * kUnroll + i))
      yield (b - kNumBuckets) (p + (n / kUnroll * kUnroll + i)) s) (n % kUnroll) s

/-- Classifies all elements using a callback. -/
def classifyRange {β : Type} (kEqualBuckets : Bool) (kUnroll : ℕ) (c : Classifier α) (p : Ptr Area)
    (n : ℕ) (yield : ℕ → Ptr Area → β → Act Area α β) (s : β) : Act Area α β :=
  if 1 ≤ c.logBuckets ∧ c.logBuckets ≤ 8 then
    classifyUnrolled comp kEqualBuckets c.logBuckets kUnroll c p n yield s
  else
    undefined

/-- Data local to a thread. -/
structure LocalData (α : Type) where
  /-- How many elements each bucket has. -/
  bucketSize : ℕ → ℕ
  /-- The buffers. -/
  buffers : Buffers
  /-- The pointers of the buckets. -/
  bucketPointers : ℕ → BucketPointers
  /-- The classifier. -/
  classifier : Classifier α

/-- A sorter. -/
structure Sorter (α : Type) where
  /-- `local_`. -/
  data : LocalData α
  /-- `num_buckets_`. -/
  numBuckets : ℕ
  /-- `bucket_start_`. -/
  bucketStart : ℕ → ℕ
  /-- Whether `overflow_` is set. -/
  overflow : Bool

/-- What is done with an element of `bucket`: only a full buffer is flushed, to offset `write` of
the range. -/
def classified (kInitializedStorage : Bool) (kBlockSize : ℕ) (p : Ptr Area) (bucket : ℕ)
    (it : Ptr Area) (r : ℕ × LocalData α) : Act Area α (ℕ × LocalData α) := do
  let (write, d) ← if r.2.buffers.isFull bucket then do
      let buffers ← r.2.buffers.writeTo kInitializedStorage kBlockSize bucket (p + r.1)
      pure (r.1 + kBlockSize, { r.2 with
        buffers := buffers
        bucketSize := Function.update r.2.bucketSize bucket (r.2.bucketSize bucket + kBlockSize) })
    else
      pure r
  let v ← moveFrom it
  let buffers ← d.buffers.push kInitializedStorage bucket v
  pure (write, { d with buffers := buffers })

/-- Classifies the `n` elements from offset `myBegin` on, and answers the offset of the first empty
block. -/
def classifyLocally (cfg : Config) (kInitializedStorage : Bool) (kBlockSize : ℕ)
    (kEqualBuckets : Bool) (p : Ptr Area) (myBegin n : ℕ) (s : Sorter α) :
    Act Area α (ℕ × Sorter α) := do
  let (write, d) ← classifyRange comp kEqualBuckets cfg.kUnrollClassifier
    s.data.classifier (p + myBegin) n
    (classified kInitializedStorage kBlockSize p) (myBegin, s.data)
  -- Update bucket sizes to account for partially filled buckets
  let bucketSize (i : ℕ) : ℕ :=
    if i < s.numBuckets then d.bucketSize i + d.buffers.size kBlockSize i else d.bucketSize i
  pure (write, { s with data := { d with bucketSize := bucketSize } })

/-- Finds bucket boundaries. -/
def findBoundaries (s : Sorter α) : Sorter α :=
  { s with
    bucketStart := fun i =>
      if i ≤ s.numBuckets then partialSum s.data.bucketSize i else s.bucketStart i }

/-- Sets the pointers of all buckets. -/
def setPointers (kBlockSize firstEmptyBlock : ℕ) (s : Sorter α) : Sorter α :=
  let pointers (bucket : ℕ) : BucketPointers :=
    let start := alignToNextBlock kBlockSize (s.bucketStart bucket)
    let stop := alignToNextBlock kBlockSize (s.bucketStart (bucket + 1))
    let read := if firstEmptyBlock ≤ start then start else if stop ≤ firstEmptyBlock then stop
      else firstEmptyBlock
    .set start ((read : ℤ) - kBlockSize)
  { s with data := { s.data with
      bucketPointers := fun i => if i < s.numBuckets then pointers i
        else s.data.bucketPointers i } }

/-- Local classification in the sequential case. -/
def sequentialClassification (cfg : Config) (kInitializedStorage : Bool) (kBlockSize : ℕ)
    (useEqualBuckets : Bool) (p : Ptr Area) (n : ℕ) (s : Sorter α) : Act Area α (Sorter α) := do
  let (firstEmptyBlock, s) ← classifyLocally comp cfg kInitializedStorage
    kBlockSize useEqualBuckets p 0 n s
  let s := findBoundaries s
  if s.bucketStart s.numBuckets ≠ n then undefined
    else pure (setPointers kBlockSize firstEmptyBlock s)

/-! ### Classifying a range -/

section
variable {β : Type} {comp} {init : Bool} {R : Set (Loc Area)} {m : Mem Area (Slot α)}
  (hc : StrictWeak comp) {splitters : List α} (hsorted : Sorted comp splitters) {c : Classifier α}
  {k : ℕ} (h : c.Built k splitters)
include hc hsorted h

/-- **The elements are classified in order**: whatever the callback keeps up from each element to
the next, it keeps up to the end, if it leaves the elements that are still to come. -/
theorem sat_classifyRange {eq : Bool} {kUnroll : ℕ} {p : Ptr Area} {xs : List α}
    {yield : ℕ → Ptr Area → β → Act Area α β} {s : β} (hk : k ≤ 8) (hU : 1 ≤ kUnroll)
    (hn : kUnroll ≤ xs.length) (hR : seg p xs.length ⊆ R) (I : ℕ → β → Mem Area (Slot α) → Prop)
    (hI : ∀ j s m, I j s m → ∀ (i : ℕ) (x : α), j ≤ i → xs[i]? = some x → m.slot (p + i) = .full x)
    (h₀ : I 0 s m) (hy : ∀ j (hj : j < xs.length) s m, I j s m →
      Sat (slots Area α init) R (yield (Classifier.bucketOf comp eq splitters xs[j]) (p + j) s) m
      (I (j + 1))) :
    Sat (slots Area α init) R (classifyRange comp eq kUnroll c p xs.length yield s) m
      (I xs.length) := by
  rw [classifyRange, if_pos ⟨h.log ▸ h.log_pos, h.log ▸ hk⟩, h.log, classifyUnrolled,
    if_neg (by omega)]
  exact Classifier.sat_unrolled hc hsorted h yield hU hR I hI h₀ hy

end

/-! ### Blocks and buffers -/

/-- A block of elements with key `b`. -/
structure IsBlock (B : ℕ) (key : α → ℕ) (b : ℕ) (l : List α) : Prop where
  length : l.length = B
  key : ∀ x ∈ l, key x = b

/-- Lists of which one is replaced: together with the old one, they have what the old ones had with
the new one. -/
theorem sum_update_list {f : ℕ → List α} {s : Finset ℕ} {i : ℕ} (hi : i ∈ s) (l : List α) :
    ∑ j ∈ s, (Function.update f i l j : Multiset α) + (f i : Multiset α) = ∑ j ∈ s,
      (f j : Multiset α) + (l : Multiset α) := by
  rw [← Finset.sum_erase_add s _ hi, ← Finset.sum_erase_add s (fun j => (f j : Multiset α)) hi,
    Function.update_self]
  have hsame : ∑ j ∈ s.erase i, (Function.update f i l j : Multiset α) = ∑ j ∈
      s.erase i, (f j : Multiset α) :=
    Finset.sum_congr rfl fun j hj => by rw [Function.update_of_ne (Finset.ne_of_mem_erase hj)]
  rw [hsame]
  exact add_right_comm _ _ _

theorem length_flatten_blocks {B : ℕ} {blocks : List (List α)} (h : ∀ l ∈ blocks, l.length = B) :
    blocks.flatten.length = blocks.length * B := by
  rw [List.length_flatten, List.map_congr_left h, List.map_const', List.sum_replicate_nat]

/-- The buffers that a thread uses. -/
def bufferSpace (kMaxBuckets B : ℕ) : Set (Loc Area) := seg ⟨.buffers, 0⟩ (kMaxBuckets * B)

theorem data_subset {kMaxBuckets B b : ℕ} (hb : b < kMaxBuckets) :
    seg (Buffers.data B b) B ⊆ bufferSpace kMaxBuckets B := by
  have hle := Nat.mul_le_mul_right B (Nat.succ_le_of_lt hb)
  rw [Nat.succ_mul] at hle
  rintro l ⟨i, hi, rfl⟩
  exact elem_mem_seg.mpr ⟨rfl, Nat.zero_le _, by simp only [Ptr.add_off, Buffers.data]; omega⟩

/-- The first `j` of the elements `xs` from offset `lo` on have been classified: `blocks` have been
written back, and the buffers hold `buf`. -/
structure Classifying (init : Bool) (B nb kMaxBuckets : ℕ) (key : α → ℕ) (p : Ptr Area) (lo : ℕ)
    (xs : List α) (j : ℕ) (d₀ : LocalData α) (r : ℕ × LocalData α) (m : Mem Area (Slot α))
    (blocks : List (List α)) (buf : ℕ → List α) : Prop where
  write : r.1 = lo + blocks.length * B
  block : ∀ l ∈ blocks, ∃ b < nb, IsBlock B key b l
  keyed : ∀ b, ∀ x ∈ buf b, key x = b
  holds : ∀ b < kMaxBuckets, r.2.buffers.Holds init B m b (buf b)
  size : ∀ b < nb, r.2.bucketSize b = blocks.flatten.countP fun x => key x = b
  same : r.2.classifier = d₀.classifier ∧ r.2.bucketPointers = d₀.bucketPointers
  /-- Every element is in a block or in a buffer. -/
  all : (blocks.flatten : Multiset α) + ∑ b ∈ Finset.range nb,
    (buf b : Multiset α) = (xs.take j : Multiset α)
  has : Has m (p + lo) (blocks.flatten.map .full)
  live : Live m (p + lo) xs.length
  rest : ∀ (i : ℕ) (x : α), j ≤ i → xs[i]? = some x → m.slot (p + lo + i) = .full x

/-- A bucket that has blocks has elements in its buffer. -/
def Lazy (key : α → ℕ) (blocks : List (List α)) (buf : ℕ → List α) : Prop :=
  ∀ l ∈ blocks, ∀ x ∈ l, buf (key x) ≠ []

section
variable {init : Bool} {B nb kMaxBuckets lo j : ℕ} {key : α → ℕ} {p : Ptr Area} {xs : List α}
  {d₀ : LocalData α} {r : ℕ × LocalData α} {m : Mem Area (Slot α)} {blocks : List (List α)}
  {buf : ℕ → List α}

theorem Classifying.length_flatten
    (h : Classifying init B nb kMaxBuckets key p lo xs j d₀ r m blocks buf) :
    blocks.flatten.length = blocks.length * B :=
  length_flatten_blocks fun l hl => by
    obtain ⟨b, -, hb⟩ := h.block l hl
    exact hb.length

/-- The blocks and a buffer have been classified. -/
theorem Classifying.length_le
    (h : Classifying init B nb kMaxBuckets key p lo xs j d₀ r m blocks buf) (hj : j ≤ xs.length)
    {b : ℕ} (hb : b < nb) : blocks.length * B + (buf b).length ≤ j := by
  have hcard := congrArg Multiset.card h.all
  rw [Multiset.card_add, Multiset.card_sum, Multiset.coe_card, Multiset.coe_card,
    List.length_take_of_le hj, h.length_flatten] at hcard
  have hle := Finset.single_le_sum (f := fun c => Multiset.card (buf c : Multiset α))
    (fun c _ => Nat.zero_le _) (Finset.mem_range.mpr hb)
  simp only [Multiset.coe_card] at hle hcard
  omega

/-- **A full buffer can be flushed**: there is room for a block among the elements that have been
classified. -/
theorem Classifying.sat_flush
    (h : Classifying init B nb kMaxBuckets key p lo xs j d₀ r m blocks buf) (hp : p.arr = .input)
    (hnb : nb ≤ kMaxBuckets) (hj : j ≤ xs.length) {b : ℕ} (hb : b < nb)
    (hfull : (buf b).length = B) :
    Sat (slots Area α init) (seg (p + lo) xs.length ∪ bufferSpace kMaxBuckets B)
      (r.2.buffers.writeTo init B b (p + r.1)) m fun buffers m' =>
        Classifying init B nb kMaxBuckets key p lo xs j d₀ (r.1 + B, { r.2 with
          buffers := buffers
          bucketSize := Function.update r.2.bucketSize b (r.2.bucketSize b + B) }) m'
            (blocks ++ [buf b])
          (Function.update buf b []) := by
  have hle := h.length_le hj hb
  have hdest : p + r.1 = p + lo + blocks.length * B := by rw [h.write, Ptr.add_assoc]
  have hsub : seg (p + r.1) B ⊆ seg (p + lo) xs.length := by
    rw [hdest]
    exact seg_subset (by omega)
  have hlive : Live m (p + r.1) B := by
    intro i hi
    rw [hdest, Ptr.add_assoc]
    exact h.live _ (by omega)
  refine (Buffers.sat_writeTo (h.holds b (hb.trans_le hnb)) hfull hlive hp).mono
    (Set.union_subset ((data_subset (hb.trans_le hnb)).trans Set.subset_union_right)
      (hsub.trans Set.subset_union_left)) ?_
  rintro buffers m' ⟨hb', rfl, hhas, hframe⟩
  have hinput : ∀ {i : ℕ}, i < blocks.length * B ∨ blocks.length * B + B ≤ i →
      .elem (p + lo + i) ∉ seg (Buffers.data B b) B ∪ seg (p + r.1) B := by
    rintro i hi (hmem | hmem)
    · exact notMem_seg_of_arr (by simp [hp, Buffers.data]) hmem
    · rw [hdest] at hmem
      simp only [elem_mem_seg, Ptr.add_arr, Ptr.add_off] at hmem
      omega
  refine ⟨?_, fun l hl => ?_, fun c x hx => ?_, fun c hc => ?_, fun c hc => ?_,
    h.same, ?_, ?_, fun i hi => ?_, fun i x hi hx => ?_⟩
  · simp only [h.write, List.length_append, List.length_singleton, Nat.succ_mul, Nat.add_assoc]
  · rcases List.mem_append.mp hl with hl | hl
    · exact h.block l hl
    · rw [List.mem_singleton.mp hl]
      exact ⟨b, hb, hfull, h.keyed b⟩
  · rcases eq_or_ne c b with rfl | hne
    · simp at hx
    · rw [Function.update_of_ne hne] at hx
      exact h.keyed c x hx
  · rcases eq_or_ne c b with rfl | hne
    · rw [Function.update_self]
      exact hb'
    · rw [Function.update_of_ne hne]
      refine (h.holds c hc).frame (Function.update_of_ne hne ..) rfl hframe ?_
      rintro x hx (hmem | hmem)
      · exact Buffers.data_notMem hne hx hmem
      · exact notMem_seg_of_arr (by simp [hp, Buffers.data]) hmem
  · dsimp only
    rw [List.flatten_append, List.countP_append, List.flatten_singleton]
    rcases eq_or_ne c b with rfl | hne
    · have hall : (buf c).countP (fun x => key x = c) = (buf c).length :=
        List.countP_eq_length.mpr (by simpa using h.keyed c)
      rw [Function.update_self, h.size c hc, hall, hfull]
    · have hnone : (buf b).countP (fun x => key x = c) = 0 :=
        List.countP_eq_zero.mpr fun x hx => by simpa [h.keyed b x hx] using hne.symm
      rw [Function.update_of_ne hne, h.size c hc, hnone, Nat.add_zero]
  · have hsum := sum_update_list (f := buf) (Finset.mem_range.mpr hb) ([] : List α)
    rw [Multiset.coe_nil, add_zero] at hsum
    rw [List.flatten_append, List.flatten_singleton, ← h.all, ← hsum, ← Multiset.coe_add, add_assoc]
    congr 1
    exact add_comm _ _
  · rw [List.flatten_append, List.flatten_singleton, List.map_append, has_append,
      List.length_map, h.length_flatten]
    refine ⟨hframe.has h.has fun i hi => hinput (.inl (by rwa [h.length_flatten] at hi)), ?_⟩
    rwa [← hdest]
  · by_cases hi' : i < blocks.length * B ∨ blocks.length * B + B ≤ i
    · rw [hframe _ (hinput hi')]
      exact h.live i hi
    · have hslot := live_of_has hhas (i - blocks.length * B) (by omega)
      rwa [hdest, Ptr.add_assoc, Nat.add_sub_of_le (by omega)] at hslot
  · rw [hframe _ (hinput (.inr (by omega)))]
    exact h.rest i x hi hx

/-- **An element goes to a buffer with room for it.** -/
theorem Classifying.sat_push (h : Classifying init B nb kMaxBuckets key p lo xs j d₀ r m blocks buf)
    (hp : p.arr = .input) (hnb : nb ≤ kMaxBuckets) {x : α} (hx : xs[j]? = some x) (hb : key x < nb)
    (hlt : (buf (key x)).length < B) :
    Sat (slots Area α init) (seg (p + lo) xs.length ∪ bufferSpace kMaxBuckets B)
      (do
        let v ← moveFrom (p + lo + j)
        let buffers ← r.2.buffers.push init (key x) v
        pure (r.1, { r.2 with buffers := buffers })) m fun r' m' =>
        Classifying init B nb kMaxBuckets key p lo xs (j + 1) d₀ r' m' blocks
          (Function.update buf (key x) (buf (key x) ++ [x])) := by
  have hj := (List.getElem?_eq_some_iff.mp hx).1
  have hle := h.length_le hj.le hb
  have hdata : seg (Buffers.data B (key x)) B ⊆ bufferSpace kMaxBuckets B :=
    data_subset (hb.trans_le hnb)
  rw [sat_bind]
  refine sat_moveFrom (.inl (elem_add_mem_seg.mpr hj)) (h.rest j x le_rfl hx) ?_
  have hne : ∀ c i, p + lo + j ≠ Buffers.data B c + i :=
    fun c i => elem_add_ne (by simp [hp, Buffers.data])
  have hmoved : Frame m (m.set (p + lo + j) .moved) {.elem (p + lo + j)} := (Frame.refl m _).set rfl
  have hholds : ∀ c < kMaxBuckets, r.2.buffers.Holds init B (m.set (p + lo + j) .moved) c (buf c) :=
      fun c hc =>
    (h.holds c hc).frame rfl rfl hmoved fun i _ he => hne c i (Loc.elem.inj he).symm
  rw [sat_bind]
  refine (Buffers.sat_push (hholds _ (hb.trans_le hnb)) hlt).mono
    (hdata.trans Set.subset_union_right) ?_
  rintro buffers m' ⟨hb', rfl, hframe⟩
  have hinput : ∀ i : ℕ, .elem (p + lo + i) ∉ seg (Buffers.data B (key x)) B := fun i =>
    notMem_seg_of_arr (show (p + lo).arr ≠ .buffers by simp [hp])
  have hslot : ∀ i, i ≠ j → m'.slot (p + lo + i) = m.slot (p + lo + i) := fun i hi => by
    rw [hframe _ (hinput i), Mem.set_slot, Function.update_of_ne (by simpa using hi)]
  refine ⟨h.write, h.block, fun c y hy => ?_, fun c hc => ?_, h.size, h.same, ?_, ?_,
    fun i hi => ?_, fun i y hi hy => ?_⟩
  · rcases eq_or_ne c (key x) with rfl | hcx
    · rw [Function.update_self, List.mem_append, List.mem_singleton] at hy
      rcases hy with hy | rfl
      · exact h.keyed _ y hy
      · rfl
    · rw [Function.update_of_ne hcx] at hy
      exact h.keyed c y hy
  · rcases eq_or_ne c (key x) with rfl | hcx
    · rw [Function.update_self]
      exact hb'
    · rw [Function.update_of_ne hcx]
      exact (hholds c hc).frame (Function.update_of_ne hcx ..) rfl hframe fun i hi =>
        Buffers.data_notMem hcx hi
  · have hsum := sum_update_list (f := buf) (Finset.mem_range.mpr hb) (buf (key x) ++ [x])
    rw [← Multiset.coe_add, ← add_assoc, add_right_comm] at hsum
    rw [add_right_cancel hsum, ← add_assoc, h.all, List.take_add_one, hx,
      Option.toList_some, Multiset.coe_add]
  · refine h.has.of_eq fun i hi => (hslot i ?_).symm
    rw [List.length_map, h.length_flatten] at hi
    omega
  · rcases eq_or_ne i j with rfl | hij
    · rw [hframe _ (hinput i), Mem.set_slot, Function.update_self]
      simp
    · rw [hslot i hij]
      exact h.live i hi
  · rw [hslot i (by omega)]
    exact h.rest i y (by omega) hy

/-- **What is done with an element** keeps the blocks and the buffers as they should be. -/
theorem Classifying.sat_classified
    (h : Classifying init B nb kMaxBuckets key p lo xs j d₀ r m blocks buf)
    (hlazy : Lazy key blocks buf) (hB : 1 ≤ B) (hp : p.arr = .input) (hnb : nb ≤ kMaxBuckets)
    {x : α} (hx : xs[j]? = some x) (hb : key x < nb) :
    Sat (slots Area α init) (seg (p + lo) xs.length ∪ bufferSpace kMaxBuckets B)
      (classified init B p (key x) (p + lo + j) r) m fun r' m' => ∃ blocks' buf',
        Classifying init B nb kMaxBuckets key p lo xs (j + 1) d₀ r' m' blocks' buf' ∧
        Lazy key blocks' buf' := by
  have hle := (h.holds _ (hb.trans_le hnb)).le
  rw [classified, (h.holds _ (hb.trans_le hnb)).isFull]
  by_cases hfull : (buf (key x)).length = B
  · rw [if_pos (by simpa using hfull), sat_bind]
    refine (h.sat_flush hp hnb (List.getElem?_eq_some_iff.mp hx).1.le hb hfull).imp
      fun buffers m' h' => ?_
    refine (h'.sat_push hp hnb hx hb (by simpa using Nat.lt_of_succ_le hB)).imp fun r' m'' h'' =>
      ⟨_, _, h'', fun l hl y hy => ?_⟩
    rw [Function.update_self, List.nil_append]
    by_cases hyx : key y = key x
    · rw [hyx, Function.update_self]
      simp
    · rw [Function.update_of_ne hyx, Function.update_of_ne hyx]
      rcases List.mem_append.mp hl with hl | hl
      · exact hlazy l hl y hy
      · rw [List.mem_singleton.mp hl] at hy
        exact absurd (h.keyed _ y hy) hyx
  · rw [if_neg (by simpa using hfull)]
    refine (h.sat_push hp hnb hx hb (by omega)).imp fun r' m'' h'' =>
      ⟨_, _, h'', fun l hl y hy => ?_⟩
    by_cases hyx : key y = key x
    · rw [hyx, Function.update_self]
      simp
    · rw [Function.update_of_ne hyx]
      exact hlazy l hl y hy

/-- The elements of a bucket are in its blocks and in its buffer. -/
theorem Classifying.count (h : Classifying init B nb kMaxBuckets key p lo xs j d₀ r m blocks buf)
    {b : ℕ} (hb : b < nb) :
    (blocks.flatten.countP fun x => key x = b) + (buf b).length = (xs.take j).countP
    fun x => key x = b := by
  have hcount := congrArg (Multiset.countP fun x => key x = b) h.all
  rw [Multiset.countP_add, Multiset.coe_countP, Multiset.coe_countP,
    ← Multiset.coe_countPAddMonoidHom, map_sum, Finset.sum_eq_single b] at hcount
  · have hall : (buf b).countP (fun x => key x = b) = (buf b).length :=
      List.countP_eq_length.mpr (by simpa using h.keyed b)
    rw [← hcount, Multiset.coe_countPAddMonoidHom, Multiset.coe_countP, hall]
  · intro c _ hcb
    rw [Multiset.coe_countPAddMonoidHom, Multiset.coe_countP, List.countP_eq_zero]
    intro x hx
    simpa [h.keyed c x hx] using hcb
  · exact fun hnot => absurd (Finset.mem_range.mpr hb) hnot

/-- Every element of `xs` is in one of the blocks at the beginning of the range, or in a buffer. -/
structure Stored (init : Bool) (B nb kMaxBuckets : ℕ) (key : α → ℕ) (p : Ptr Area) (xs : List α)
    (buffers : Buffers) (m : Mem Area (Slot α)) (blocks : List (List α)) (buf : ℕ → List α) :
    Prop where
  block : ∀ l ∈ blocks, ∃ b < nb, IsBlock B key b l
  keyed : ∀ b, ∀ x ∈ buf b, key x = b
  holds : ∀ b < kMaxBuckets, buffers.Holds init B m b (buf b)
  all : (blocks.flatten : Multiset α) + ∑ b ∈ Finset.range nb,
    (buf b : Multiset α) = (xs : Multiset α)
  has : Has m p (blocks.flatten.map .full)
  live : Live m p xs.length
  lazy : Lazy key blocks buf

end

/-! ### The whole range -/

/-- What partitioning begins with once the classifier has been built: empty buffers, and bucket
sizes that are zero. -/
structure Sampled (comp : α → α → Bool) (cfg : Config) (init : Bool) (B k : ℕ) (eq : Bool)
    (splitters : List α) (s : Sorter α) (m : Mem Area (Slot α)) : Prop where
  weak : StrictWeak comp
  sorted : Sorted comp splitters
  built : s.data.classifier.Built k splitters
  log_le : k ≤ cfg.kLogBuckets
  equal : eq = true → cfg.kAllowEqualBuckets = true
  num : s.numBuckets = 2 ^ (k + eq.toNat)
  empty : ∀ b < cfg.kMaxBuckets, s.data.buffers.Holds init B m b ([] : List α)
  zero : ∀ b < cfg.kMaxBuckets, s.data.bucketSize b = 0

section
variable {comp} {cfg : Config} {init : Bool} {B k : ℕ} {eq : Bool} {p : Ptr Area}
  {xs splitters : List α} {m : Mem Area (Slot α)} {s : Sorter α}
  (h : Sampled comp cfg init B k eq splitters s m)
include h

theorem Sampled.num_le : s.numBuckets ≤ cfg.kMaxBuckets := by
  rw [h.num, Config.kMaxBuckets]
  refine Nat.pow_le_pow_right (by decide) (Nat.add_le_add h.log_le ?_)
  cases heq : eq with
  | false => exact Nat.zero_le _
  | true => rw [h.equal heq]

theorem Sampled.key_lt (x : α) : Classifier.bucketOf comp eq splitters x < s.numBuckets := by
  rw [h.num]
  exact Classifier.bucketOf_lt eq h.built.length x

/-- Nothing has been classified yet. -/
theorem Sampled.classifying {lo : ℕ} (hm : Has m (p + lo) (xs.map .full)) :
    Classifying init B s.numBuckets cfg.kMaxBuckets (Classifier.bucketOf comp eq splitters) p
      lo xs 0 s.data (lo, s.data) m [] fun _ => [] := by
  refine ⟨by simp, nofun, nofun, h.empty, fun b hb => ?_, ⟨rfl, rfl⟩, by simp, has_nil, ?_,
    fun i x _ hx => hm i _ (by simp [hx])⟩
  · simpa using h.zero b (hb.trans_le h.num_le)
  · simpa using live_of_has hm

variable (hcfg : cfg.Admitted) (hB : 1 ≤ B) (hp : p.arr = .input)
include hcfg hB hp

/-- **Local classification** of any stripe. -/
theorem sat_classifyLocally {lo : ℕ} (hn : cfg.kUnrollClassifier ≤ xs.length)
    (hm : Has m (p + lo) (xs.map .full)) :
    Sat (slots Area α init) (seg (p + lo) xs.length ∪ bufferSpace cfg.kMaxBuckets B)
      (classifyLocally comp cfg init B eq p lo xs.length s) m fun r m' => ∃ d blocks buf,
        Classifying init B s.numBuckets cfg.kMaxBuckets (Classifier.bucketOf comp eq splitters)
          p lo xs xs.length s.data
          (r.1, d) m' blocks buf ∧ Lazy (Classifier.bucketOf comp eq splitters) blocks buf ∧
        r.2 = { s with
          data := { d with
            bucketSize := fun i =>
              if i < s.numBuckets then (keysOf comp eq splitters xs).count i
              else d.bucketSize i } } := by
  set key := Classifier.bucketOf comp eq splitters
  rw [classifyLocally, sat_bind]
  refine (sat_classifyRange h.weak h.sorted h.built (h.log_le.trans hcfg.log_le) hcfg.unroll_pos
    hn Set.subset_union_left (fun j (r : ℕ × LocalData α) m' => ∃ blocks buf,
      Classifying init B s.numBuckets cfg.kMaxBuckets key p lo xs j s.data r m' blocks buf ∧
      Lazy key blocks buf)
    ?_ ?_ ?_).imp ?_
  · rintro j r m' ⟨blocks, buf, hI, -⟩ i x hij hx
    exact hI.rest i x hij hx
  · exact ⟨[], fun _ => [], h.classifying hm, nofun⟩
  · rintro j hj r m' ⟨blocks, buf, hI, hlazy⟩
    exact hI.sat_classified hlazy hB hp h.num_le (List.getElem?_eq_getElem hj) (h.key_lt _)
  · rintro ⟨write, d⟩ m' ⟨blocks, buf, hI, hlazy⟩
    refine ⟨d, blocks, buf, hI, hlazy, ?_⟩
    have hsize : ∀ i < s.numBuckets, d.bucketSize i + d.buffers.size B i =
        (keysOf comp eq splitters xs).count i := by
      intro i hi
      rw [(hI.holds i (hi.trans_le h.num_le)).size, hI.size i hi, hI.count hi,
        List.take_length, keysOf, List.count, List.countP_map]
      rfl
    have hsizes : (fun i => if i < s.numBuckets then d.bucketSize i + d.buffers.size B i
        else d.bucketSize i) =
        fun i => if i < s.numBuckets then (keysOf comp eq splitters xs).count i
        else d.bucketSize i := by
      funext i
      split
      · next hi => exact hsize i hi
      · rfl
    simp only [hsizes]

/-- **Local classification in the sequential case**: every element is in a block or in a buffer, and
the boundaries of the buckets are known. -/
theorem sat_sequentialClassification (hn : cfg.kUnrollClassifier ≤ xs.length)
    (hm : Has m p (xs.map .full)) :
    Sat (slots Area α init) (seg p xs.length ∪ bufferSpace cfg.kMaxBuckets B)
      (sequentialClassification comp cfg init B eq p xs.length s) m fun s' m' => ∃ blocks buf,
        Stored init B s.numBuckets cfg.kMaxBuckets
          (Classifier.bucketOf comp eq splitters) p xs s'.data.buffers m' blocks buf ∧
        (∀ b ≤ s.numBuckets, s'.bucketStart b = start (keysOf comp eq splitters xs) b) ∧
        (∀ b < s.numBuckets, s'.data.bucketPointers b =
          (setPointers B (blocks.length * B) s').data.bucketPointers b) ∧
        s'.data.classifier = s.data.classifier ∧ s'.numBuckets = s.numBuckets ∧
        s'.overflow = s.overflow := by
  rw [sequentialClassification, sat_bind]
  have hsat : Sat _ (seg (p + 0) xs.length ∪ _) _ m _ := sat_classifyLocally h hcfg hB hp hn hm
  rw [Ptr.add_zero] at hsat
  refine hsat.imp ?_
  rintro ⟨write, s₁⟩ m' ⟨d, blocks, buf, hI, hlazy, hs₁⟩
  have hnum : s₁.numBuckets = s.numBuckets := (congrArg Sorter.numBuckets hs₁ :)
  have hover : s₁.overflow = s.overflow := (congrArg Sorter.overflow hs₁ :)
  have hbuffers : s₁.data.buffers = d.buffers := congrArg (fun s => s.data.buffers) hs₁
  have hcount : ∀ b < s.numBuckets, s₁.data.bucketSize b = (keysOf comp eq splitters xs).count b :=
      fun b hb =>
    (congrFun (congrArg (fun s => s.data.bucketSize) hs₁) b).trans (if_pos hb)
  have hstart : ∀ b ≤ s.numBuckets, (findBoundaries s₁).bucketStart b =
      start (keysOf comp eq splitters xs) b := by
    intro b hb
    rw [findBoundaries, hnum]
    exact (if_pos hb).trans (partialSum_count fun c hc => hcount c (hc.trans_le hb))
  have hlast : start (keysOf comp eq splitters xs) s.numBuckets = xs.length := by
    rw [start_eq_length, length_keysOf]
    intro b hb
    obtain ⟨x, -, rfl⟩ := List.mem_map.mp hb
    exact h.key_lt x
  have hwrite : write = blocks.length * B := by simpa using hI.write
  have hend : (findBoundaries s₁).bucketStart (findBoundaries s₁).numBuckets = xs.length :=
    (congrArg _ hnum).trans ((hstart _ le_rfl).trans hlast)
  dsimp only
  rw [if_neg (not_not.mpr hend), hwrite]
  refine ⟨blocks, buf, ⟨hI.block, hI.keyed, ?_, ?_, hI.has, hI.live, hlazy⟩, hstart, fun b hb => ?_,
    (congrArg (fun s => s.data.classifier) hs₁).trans hI.same.1, hnum, hover⟩
  · exact fun b hb => (hI.holds b hb).frame (congrFun (congrArg Buffers.ptr hbuffers) b)
      (congrFun (congrArg Buffers.stop hbuffers) b) (Frame.refl m' ∅) fun _ _ => id
  · rw [hI.all, List.take_length]
  · simp only [setPointers, findBoundaries, hnum, if_pos hb]

end

end Ps4o.InPlace
