import Ps4o.Classifier
import Ps4o.Order.Distribution

/-!
# Local classification

Counting how many elements go into each bucket, writing every element's bucket into the
oracle, and finding where the buckets begin (`local_classification.hpp`); the thread-local
data all of this works on (`memory.hpp`).

## What is proved

* `sat_classifyLocally` — the oracle then holds the buckets of the elements, and
  `bucketSize` their histogram.
* `sat_sequentialClassification` — a bucket begins where the smaller buckets end.
-/

namespace Ps4o

open Ps4o.Program Ps4o.Storage Ps4o.Order

variable {A α : Type}

/-- The arrays. -/
inductive Arr where
  /-- The input. -/
  | input
  /-- The temporary storage. -/
  | tmp
  deriving DecidableEq

/-! ### The code -/

/-- Data local to a thread. -/
structure LocalData (α : Type) where
  /-- Where the next element of each bucket goes. -/
  bucketStart : ℕ → ℕ
  /-- How many elements each bucket has. -/
  bucketSize : ℕ → ℕ
  /-- The classifier. -/
  classifier : Classifier α

/-- Resets local data after partitioning is done. -/
def LocalData.reset (d : LocalData α) : Option (LocalData α) := do
  let c ← d.classifier.reset
  pure { d with classifier := c }

/-- A sorter: its local data, and how many buckets it uses. -/
structure Sorter (α : Type) where
  /-- `local_`. -/
  data : LocalData α
  /-- `num_buckets_`. -/
  numBuckets : ℕ

variable (comp : α → α → Bool)

/-- Classifies the `n` elements from `p` on: their buckets go into the oracle from `oracle`
on, and are counted. -/
def classifyLocally (cfg : Config) (kEqualBuckets : Bool) (p : Ptr A) (n oracle : ℕ)
    (c : Classifier α) (s : Sorter α) : Act A α (Sorter α) := do
  let zeroed (bucket : ℕ) : ℕ := if bucket < s.numBuckets then 0 else s.data.bucketSize bucket
  let (_, bs) ← c.classifyRange comp kEqualBuckets cfg.kUnrollClassifier p n
      (fun bucket (oracle, bs) => do
    storeByte oracle (UInt8.ofNat bucket)
    pure (oracle + 1, Function.update bs bucket (bs bucket + 1))) (oracle, zeroed)
  pure { s with data := { s.data with bucketSize := bs } }

/-- The sum of the first `n` values, `std::partial_sum` up to there. -/
def partialSum (f : ℕ → ℕ) : ℕ → ℕ
  | 0 => 0
  | n + 1 => partialSum f n + f n

/-- Finds bucket boundaries. -/
def findBoundaries (s : Sorter α) : Sorter α :=
  let start (bucket : ℕ) : ℕ :=
    if bucket ≤ s.numBuckets then partialSum s.data.bucketSize bucket else s.data.bucketStart bucket
  { s with data := { s.data with bucketStart := start } }

/-- Classification in the sequential case. The bucket boundaries are left in `bucketStart`;
the caller has a copy of them. -/
def sequentialClassification (cfg : Config) (useEqualBuckets : Bool) (p : Ptr A) (n oracle : ℕ)
    (c : Classifier α) (s : Sorter α) : Act A α (Sorter α) := do
  let s ← classifyLocally comp cfg useEqualBuckets p n oracle c s
  pure (findBoundaries s)

/-! ### What is counted -/

/-- The oracle holds the keys from `oracle` on. -/
def Oracle {V : Type} (m : Mem A V) (oracle : ℕ) (ks : List ℕ) : Prop :=
  ∀ (j b : ℕ), ks[j]? = some b → m.byte (oracle + j) = UInt8.ofNat b

/-- The buckets of a list of elements. -/
def keysOf (useEqualBuckets : Bool) (splitters xs : List α) : List ℕ :=
  xs.map (Classifier.bucketOf comp useEqualBuckets splitters)

@[simp] theorem length_keysOf (eq : Bool) (splitters xs : List α) :
    (keysOf comp eq splitters xs).length = xs.length :=
  List.length_map _

/-- Counters of the buckets in use that are zero, then count keys. -/
def counted (s : Sorter α) (ks : List ℕ) (bucket : ℕ) : ℕ :=
  (if bucket < s.numBuckets then 0 else s.data.bucketSize bucket) + ks.count bucket

theorem counted_of_lt {s : Sorter α} {ks : List ℕ} {b : ℕ} (h : b < s.numBuckets) :
    counted s ks b = ks.count b := by
  simp [counted, h]

/-- A bucket begins where the smaller ones end. -/
theorem partialSum_count {f : ℕ → ℕ} {ks : List ℕ} {n : ℕ} (h : ∀ b < n, f b = ks.count b) :
    partialSum f n = start ks n := by
  induction n with
  | zero => simp [partialSum]
  | succ n ih =>
    rw [partialSum, ih fun b hb => h b (Nat.lt_succ_of_lt hb), h n (Nat.lt_succ_self n), start_succ]

section
variable [DecidableEq A] {comp} {lax : Bool} {R : Set (Loc A)} {m : Mem A (Slot α)} {p : Ptr A}
  {xs splitters : List α} {c : Classifier α} {k : ℕ} {cfg : Config}

/-- **Classifying writes the oracle and counts the buckets**, and leaves the elements. -/
theorem sat_classifyLocally (hc : StrictWeak comp) (hsorted : Sorted comp splitters)
    (h : c.Built k splitters) {eq : Bool} {oracle : ℕ} (hk : k ≤ 8) (hU : 1 ≤ cfg.kUnrollClassifier)
    (hn : cfg.kUnrollClassifier ≤ xs.length) (hR : seg p xs.length ⊆ R)
    (hR' : byteSeg oracle xs.length ⊆ R) (hm : Has m p (xs.map .full)) (s : Sorter α) :
    Sat (slots A α lax) R (classifyLocally comp cfg eq p xs.length oracle c s) m fun s' m' =>
      s' = { s with data := { s.data with
          bucketSize := counted s (keysOf comp eq splitters xs) } } ∧
        m'.slot = m.slot ∧ Oracle m' oracle (keysOf comp eq splitters xs) := by
  set ks := keysOf comp eq splitters xs with hks
  rw [classifyLocally, sat_bind]
  refine (Classifier.sat_classifyRange hc hsorted h hk hU hn hR
    (fun j r m' => r.1 = oracle + j ∧ (∀ b, r.2 b = counted s (ks.take j) b) ∧ m'.slot = m.slot ∧
      Oracle m' oracle (ks.take j))
    (fun j r m' hI i v hv => (congrFun hI.2.2.1 _).trans (hm i v hv)) ?_
    fun j hj r m' hI => ?_).imp ?_
  · exact ⟨rfl, fun b => by simp [counted], rfl, fun j b hb => by simp at hb⟩
  · obtain ⟨o, bs⟩ := r
    obtain ⟨rfl, hbs, hslot, ho⟩ := hI
    have hkj : ks[j]? = some (Classifier.bucketOf comp eq splitters xs[j]) := by
      simp [hks, keysOf, hj]
    have htake : ks.take (j + 1) = ks.take j ++ [Classifier.bucketOf comp eq splitters xs[j]] := by
      rw [List.take_add_one, hkj, Option.toList_some]
    rw [sat_bind]
    refine sat_storeByte (hR' (by simp [hj])) ⟨rfl, fun b => ?_, hslot, fun i b hi => ?_⟩
    · dsimp only at hbs ⊢
      rw [Function.update_apply, htake, counted, List.count_append, List.count_singleton, hbs, hbs]
      split
      · next hb => simp [hb, counted, Nat.add_assoc]
      · next hb => simp [Ne.symm hb, counted]
    · rw [htake] at hi
      have hlen : (ks.take j).length = j := by simp [hks]; omega
      rcases lt_or_ge i j with hij | hij
      · rw [List.getElem?_append_left (by omega)] at hi
        rw [Mem.setByte_byte, Function.update_of_ne (by omega)]
        exact ho i b hi
      · rw [List.getElem?_append_right (by omega), hlen] at hi
        obtain ⟨h0, rfl⟩ : i - j = 0 ∧ Classifier.bucketOf comp eq splitters xs[j] = b := by
          rw [List.getElem?_singleton] at hi
          split_ifs at hi with h0
          exact ⟨h0, Option.some.inj hi⟩
        obtain rfl : i = j := by omega
        simp
  · rintro ⟨o, bs⟩ m' ⟨-, hbs, hslot, ho⟩
    rw [show xs.length = ks.length by simp [hks], List.take_length] at hbs ho
    obtain rfl : bs = counted s ks := funext hbs
    exact ⟨rfl, hslot, ho⟩

variable (lax cfg) in
/-- **Classification in the sequential case** finds where each bucket begins. -/
theorem sat_sequentialClassification (eq : Bool) (oracle : ℕ) (hc : StrictWeak comp)
    (hsorted : Sorted comp splitters) (h : c.Built k splitters) (hk : k ≤ 8)
    (hU : 1 ≤ cfg.kUnrollClassifier) (hn : cfg.kUnrollClassifier ≤ xs.length)
    (hR : seg p xs.length ⊆ R) (hR' : byteSeg oracle xs.length ⊆ R) (hm : Has m p (xs.map .full))
    (s : Sorter α) :
    Sat (slots A α lax) R (sequentialClassification comp cfg eq p xs.length oracle c s) m
      fun s' m' =>
      (∀ b ≤ s.numBuckets, s'.data.bucketStart b = start (keysOf comp eq splitters xs) b) ∧
        s'.data.classifier = s.data.classifier ∧ s'.numBuckets = s.numBuckets ∧
        m'.slot = m.slot ∧ Oracle m' oracle (keysOf comp eq splitters xs) := by
  rw [sequentialClassification, sat_bind]
  refine (sat_classifyLocally hc hsorted h hk hU hn hR hR' hm s).imp ?_
  rintro s' m' ⟨rfl, hslot, ho⟩
  refine ⟨fun b hb => ?_, rfl, rfl, hslot, ho⟩
  exact (if_pos hb).trans (partialSum_count fun c hc => counted_of_lt (lt_of_lt_of_le hc hb))

end

end Ps4o
