import Ps4o.SplitterStorage
import Ps4o.Sequential

/-!
# The bytes of the oracle

The bucket of an element is counted as the wide number that the classifier yields, and scattered
by the byte that the oracle has kept of it. The static assertions admit up to `2 ^ 9` buckets.

## What is proved

* `scattersRight_iff` — classifying and distributing agree when at most 256 buckets are used, and
  otherwise exactly when no element is greater than the middle splitter, since then the upper half
  of the buckets is empty.
* `not_scattersRight_range` — with 256 leaves and equality buckets, different elements do not do.
-/

namespace Ps4o

open Ps4o.Program Ps4o.Storage Ps4o.Order

variable {A α : Type} (comp : α → α → Bool)

/-- The elements that the classifier puts into a bucket. -/
def classifiedInto (c : Classifier α) (eq : Bool) (b : ℕ) (xs : List α) : List α :=
  xs.filter fun x => decide (c.classify comp eq x = some b)

/-- The range from `p` on has been distributed: every slot from `tmp` on has been filled, and every
bucket holds exactly the elements classified into it. -/
structure BucketsFilled (c : Classifier α) (eq : Bool) (xs : List α) (tmp : Ptr A) (bss : ℕ → ℕ)
    (numBuckets : ℕ) (m : Mem A (Slot α)) : Prop where
  filled : ∀ i < xs.length, ∃ x, m.slot (tmp + i) = .full x
  first : bss 0 = 0
  last : bss numBuckets = xs.length
  size : ∀ b < numBuckets, bss (b + 1) = bss b + (classifiedInto comp c eq b xs).length
  holds : ∀ b < numBuckets, Has m (tmp + bss b) ((classifiedInto comp c eq b xs).map .full)

/-- The elements from `p` on are classified, every byte of the oracle is the bucket that has been
counted, and distributing by these bytes puts every element where it belongs. -/
def ScattersRight [DecidableEq A] (cfg : Config) (lax : Bool) (c : Classifier α) (eq : Bool)
    (p tmp : Ptr A) (oracle : ℕ) (xs : List α) (s : Sorter α) (m : Mem A (Slot α)) : Prop :=
  Sat (slots A α lax) (workspace p tmp oracle xs.length)
    (sequentialClassification comp cfg eq p xs.length oracle c s) m fun s₁ m₁ =>
      (∀ j (hj : j < xs.length), c.classify comp eq xs[j] = some (m₁.byte (oracle + j)).toNat) ∧
      (∀ b < s.numBuckets, s₁.data.bucketSize b = (classifiedInto comp c eq b xs).length) ∧
      Sat (slots A α lax) (workspace p tmp oracle xs.length)
        (distributeElements p xs.length tmp oracle s₁.data.bucketStart) m₁ fun _ m₂ =>
          BucketsFilled comp c eq xs tmp s₁.data.bucketStart s.numBuckets m₂

section
variable {comp} {splitters xs : List α} {c : Classifier α} {k : ℕ}

theorem classifiedInto_eq (hc : StrictWeak comp) (hs : Sorted comp splitters)
    (h : c.Built k splitters) (hk : k ≤ 8) (eq : Bool) (b : ℕ) :
    classifiedInto comp c eq b xs = bucket (keysOf comp eq splitters xs) xs b := by
  rw [keysOf, bucket_map]
  refine List.filter_congr fun x _ => ?_
  rw [h.classify hc hs (by omega) eq x]
  exact decide_eq_decide.mpr (Option.some_inj.trans Iff.rfl)

/-- With nine bits, the upper half of the buckets is for the elements greater than the middle
splitter. -/
theorem bucketOf_lt_iff (hc : StrictWeak comp) (hs : Sorted comp splitters)
    (hlen : splitters.length = 255) (x : α) :
    Classifier.bucketOf comp true splitters x < 256 ↔ ∀ s ∈ splitters[127]?, comp s x = false := by
  have hmid := Classifier.lt_lowerBound_iff hc hs x (show 127 < splitters.length by omega)
  have hle := Bool.toNat_le (splitters[Classifier.lowerBound comp splitters x]?.elim true
    fun s => !comp x s)
  rw [List.getElem?_eq_getElem (by omega)]
  simp only [Option.mem_def, Option.some.injEq, forall_eq', Classifier.bucketOf, if_true]
  rw [← Bool.not_eq_true, ← hmid]
  omega

variable [DecidableEq A] {lax : Bool} {m : Mem A (Slot α)} {p tmp : Ptr A} {cfg : Config}
  {oracle : ℕ} {eq : Bool} {s : Sorter α}

/-- Where every bucket fits in a byte, every element goes to the bucket it was counted for. -/
theorem scattersRight_of_lt (hc : StrictWeak comp) (hs : Sorted comp splitters)
    (h : c.Built k splitters) (hk : k ≤ 8) (hU : 1 ≤ cfg.kUnrollClassifier)
    (hn : cfg.kUnrollClassifier ≤ xs.length) (harr : p.arr ≠ tmp.arr)
    (hnb : s.numBuckets = 2 ^ (k + eq.toNat)) (hm : Has m p (xs.map .full))
    (htmp : Raw m tmp xs.length) (hlt : ∀ x ∈ xs, Classifier.bucketOf comp eq splitters x < 256) :
    ScattersRight comp cfg lax c eq p tmp oracle xs s m := by
  set ks := keysOf comp eq splitters xs with hks
  have hlen : ks.length = xs.length := length_keysOf _ _ _ _
  have hkey : ∀ b ∈ ks, b < s.numBuckets := fun b hb => by
    obtain ⟨x, -, rfl⟩ := List.mem_map.mp hb
    rw [hnb]
    exact Classifier.bucketOf_lt eq h.length x
  have hbyte : ∀ b ∈ ks, b < 256 := fun b hb => by
    obtain ⟨x, hx, rfl⟩ := List.mem_map.mp hb
    exact hlt x hx
  have hinto : ∀ b, classifiedInto comp c eq b xs = bucket ks xs b :=
    fun b => classifiedInto_eq hc hs h hk eq b
  have hRp : seg p xs.length ⊆ workspace p tmp oracle xs.length := fun l hl => .inl (.inl hl)
  have hRo : byteSeg oracle xs.length ⊆ workspace p tmp oracle xs.length := fun l hl => .inr hl
  rw [ScattersRight, sequentialClassification, sat_bind]
  refine (sat_classifyLocally hc hs h hk hU hn hRp hRo hm s).imp ?_
  rintro s₁ m₁ ⟨rfl, hslot, ho⟩
  have hstart : ∀ b ≤ s.numBuckets, partialSum (counted s ks) b = start ks b := fun b hb =>
    partialSum_count fun c hc => counted_of_lt (lt_of_lt_of_le hc hb)
  refine ⟨fun j hj => ?_, fun b hb => ?_, ?_⟩
  · have hkj : ks[j]? = some (Classifier.bucketOf comp eq splitters xs[j]) := by
      simp [hks, keysOf, hj]
    rw [h.classify hc hs (by omega) eq, ho j _ hkj, UInt8.toNat_ofNat',
      Nat.mod_eq_of_lt (hlt _ (List.getElem_mem hj))]
  · rw [hinto, length_bucket hlen]
    exact counted_of_lt hb
  · have hbs : ∀ b ≤ s.numBuckets,
      (findBoundaries { s with
        data := { s.data with bucketSize := counted s ks } }).data.bucketStart b =
        start ks b := fun b hb => (if_pos hb).trans (hstart b hb)
    have hsat := sat_distributeElements lax 0 xs.length oracle
      (findBoundaries { s with
        data := { s.data with bucketSize := counted s ks } }).data.bucketStart hlen (by omega) hbyte
      (fun b hb => by rw [hbs b (hkey b hb).le]; simp [cursor]) harr
      (fun j x _ _ hx => (congrFun hslot _).trans (hm j _ (by simp [hx])))
        (fun j b _ _ hb => ho j b hb)
      fun j _ hj => (congrFun hslot _).trans (htmp _ (by rw [← hlen]; exact dest_lt (by omega)))
    refine hsat.mono ?_ ?_
    · rintro l ⟨j, -, hj, rfl | rfl | rfl⟩
      · exact hRp ⟨j, by omega, rfl⟩
      · exact .inl (.inr ⟨_, by rw [← hlen]; exact dest_lt (by omega), rfl⟩)
      · exact hRo ⟨j, by omega, rfl⟩
    · rintro bs' m₂ ⟨-, -, -, hdest⟩
      have hdest' : ∀ j x, xs[j]? = some x → m₂.slot (tmp + dest ks j) = .full x := fun j x hx =>
        hdest j x (Nat.zero_le j) (by have := (List.getElem?_eq_some_iff.mp hx).1; omega) hx
      refine ⟨fun i hi => ?_, (hbs 0 (Nat.zero_le _)).trans start_zero, ?_,
        fun b hb => ?_, fun b hb => ?_⟩
      · obtain ⟨j, hj, rfl⟩ := dest_surj (show i < ks.length by omega)
        exact ⟨_, hdest' j _ (List.getElem?_eq_getElem (by omega))⟩
      · rw [hbs _ le_rfl, start_eq_length hkey, hlen]
      · rw [hbs _ hb, hbs _ hb.le, start_succ, hinto, length_bucket hlen]
      · rw [hbs _ hb.le, hinto]
        exact has_bucket hlen hdest' b

/-- A byte is less than 256, and so is every bucket that is kept in one. -/
theorem bucketOf_lt_of_byte {byte : ℕ → UInt8} (hc : StrictWeak comp) (hs : Sorted comp splitters)
    (h : c.Built k splitters) (hk : k ≤ 8)
    (hbyte : ∀ j (hj : j < xs.length), c.classify comp eq xs[j] = some (byte (oracle + j)).toNat)
    {x : α} (hx : x ∈ xs) : Classifier.bucketOf comp eq splitters x < 256 := by
  obtain ⟨j, hj, rfl⟩ := List.getElem_of_mem hx
  have hb := hbyte j hj
  rw [h.classify hc hs (by omega) eq, Option.some_inj] at hb
  rw [hb]
  exact UInt8.toNat_lt _

theorem ScattersRight.bucketOf_lt (hr : ScattersRight comp cfg lax c eq p tmp oracle xs s m)
    (hc : StrictWeak comp) (hs : Sorted comp splitters) (h : c.Built k splitters) (hk : k ≤ 8)
    {x : α} (hx : x ∈ xs) : Classifier.bucketOf comp eq splitters x < 256 := by
  obtain ⟨s₁, -, m₁, -, hbyte, -⟩ := hr.run fun _ => 0
  exact bucketOf_lt_of_byte hc hs h hk hbyte hx

/-- Every bucket fits in a byte when there are at most 256 of them, and with more exactly when no
element is greater than the middle splitter. -/
theorem fitsByte_iff (hc : StrictWeak comp) (hs : Sorted comp splitters) (h : c.Built k splitters)
    (hk : k ≤ 8) :
    (∀ x ∈ xs, Classifier.bucketOf comp eq splitters x < 256) ↔
      k + eq.toNat ≤ 8 ∨ ∀ x ∈ xs, ∀ s ∈ splitters[127]?, comp s x = false := by
  rcases Nat.lt_or_ge 8 (k + eq.toNat) with h9 | h8
  · have hlen := h.length
    have := Bool.toNat_le eq
    obtain rfl : k = 8 := by omega
    obtain rfl : eq = true := by
      cases eq with
      | true => rfl
      | false => exact absurd h9 (by simp)
    rw [or_iff_right (by omega)]
    exact forall₂_congr fun x _ => bucketOf_lt_iff hc hs hlen x
  · refine ⟨fun _ => .inl h8, fun _ x _ => ?_⟩
    exact (Classifier.bucketOf_lt eq h.length x).trans_le (Nat.pow_le_pow_right (by omega) h8)

/-- **The oracle's bytes are right** when at most 256 buckets are used, and with more exactly when
no element is greater than the middle splitter. -/
theorem scattersRight_iff (hc : StrictWeak comp) (hs : Sorted comp splitters)
    (h : c.Built k splitters) (hk : k ≤ 8) (hU : 1 ≤ cfg.kUnrollClassifier)
    (hn : cfg.kUnrollClassifier ≤ xs.length) (harr : p.arr ≠ tmp.arr)
    (hnb : s.numBuckets = 2 ^ (k + eq.toNat)) (hm : Has m p (xs.map .full))
    (htmp : Raw m tmp xs.length) : ScattersRight comp cfg lax c eq p tmp oracle xs s m ↔
      k + eq.toNat ≤ 8 ∨ ∀ x ∈ xs, ∀ s ∈ splitters[127]?, comp s x = false := by
  rw [← fitsByte_iff hc hs h hk]
  exact ⟨fun hr x hx => hr.bucketOf_lt hc hs h hk hx,
    scattersRight_of_lt hc hs h hk hU hn harr hnb hm htmp⟩

/-! ### One by one, and unrolled -/

/-- The unrolled loop yields of every element what `classify` returns, once and in order; and what
it is used for leaves the bucket of every element in the oracle, and how many elements each bucket
has. -/
def ClassifiesAlike (comp : α → α → Bool) (cfg : Config) (lax : Bool) (c : Classifier α) (eq : Bool)
    (p : Ptr A) (oracle : ℕ) (xs : List α) (s : Sorter α) (m : Mem A (Slot α)) : Prop :=
  Sat (slots A α lax) (seg p xs.length)
      (c.classifyUnrolled comp eq c.logBuckets cfg.kUnrollClassifier p xs.length
        (fun b bs => pure (bs ++ [b])) []) m
      (fun bs m' => m' = m ∧ bs.map some = xs.map (c.classify comp eq)) ∧
    Sat (slots A α lax) (seg p xs.length ∪ byteSeg oracle xs.length)
      (classifyLocally comp cfg eq p xs.length oracle c s) m fun s' m' =>
        (∀ j (hj : j < xs.length), c.classify comp eq xs[j] = some (m'.byte (oracle + j)).toNat) ∧
          ∀ b < s.numBuckets, s'.data.bucketSize b = (classifiedInto comp c eq b xs).length

/-- **The unrolled loop yields what `classify` returns.** -/
theorem sat_classifyUnrolled_list (hc : StrictWeak comp) (hs : Sorted comp splitters)
    (h : c.Built k splitters) (hk : k ≤ 9) (hU : 1 ≤ cfg.kUnrollClassifier)
    (hn : cfg.kUnrollClassifier ≤ xs.length) (hm : Has m p (xs.map .full)) :
    Sat (slots A α lax) (seg p xs.length)
      (c.classifyUnrolled comp eq c.logBuckets cfg.kUnrollClassifier p xs.length
        (fun b bs => pure (bs ++ [b])) []) m
      fun bs m' => m' = m ∧ bs.map some = xs.map (c.classify comp eq) := by
  rw [h.log]
  refine (Classifier.sat_classifyUnrolled hc hs h hU hn subset_rfl
    (fun j bs m' => m' = m ∧ bs = (xs.take j).map (Classifier.bucketOf comp eq splitters))
    (fun j bs m' hI => hI.1 ▸ hm) ⟨rfl, rfl⟩ fun j hj bs m' hI => ?_).imp ?_
  · obtain ⟨rfl, rfl⟩ := hI
    refine ⟨rfl, ?_⟩
    rw [List.take_add_one, List.getElem?_eq_getElem hj, Option.toList_some,
      List.map_append, List.map_singleton]
  · rintro bs m' ⟨rfl, rfl⟩
    refine ⟨rfl, ?_⟩
    rw [List.take_length, List.map_map]
    exact List.map_congr_left fun x _ => (h.classify hc hs hk eq x).symm

/-- **The unrolled classification agrees with the single one**: what it yields always does, and what
is left in the oracle does when the buckets fit in bytes. -/
theorem classifiesAlike_iff (hc : StrictWeak comp) (hs : Sorted comp splitters)
    (h : c.Built k splitters) (hk : k ≤ 8) (hU : 1 ≤ cfg.kUnrollClassifier)
    (hn : cfg.kUnrollClassifier ≤ xs.length) (hm : Has m p (xs.map .full)) :
    ClassifiesAlike comp cfg lax c eq p oracle xs s m ↔
      k + eq.toNat ≤ 8 ∨ ∀ x ∈ xs, ∀ s ∈ splitters[127]?, comp s x = false := by
  set ks := keysOf comp eq splitters xs with hks
  have hkj : ∀ j (hj : j < xs.length), ks[j]? =
      some (Classifier.bucketOf comp eq splitters xs[j]) := fun j hj => by
    simp [hks, keysOf, hj]
  have hclass : ∀ x, c.classify comp eq x = some (Classifier.bucketOf comp eq splitters x) :=
    h.classify hc hs (by omega) eq
  have hlocal : Sat (slots A α lax) (seg p xs.length ∪ byteSeg oracle xs.length)
      (classifyLocally comp cfg eq p xs.length oracle c s) m _ :=
    sat_classifyLocally hc hs h hk hU hn Set.subset_union_left Set.subset_union_right hm s
  rw [← fitsByte_iff hc hs h hk, ClassifiesAlike,
    and_iff_right (sat_classifyUnrolled_list hc hs h (by omega) hU hn hm)]
  constructor
  · intro hr x hx
    obtain ⟨s₁, -, m₁, -, hbyte, -⟩ := hr.run fun _ => 0
    exact bucketOf_lt_of_byte hc hs h hk hbyte hx
  · intro hlt
    refine hlocal.imp ?_
    rintro s' m' ⟨rfl, -, ho⟩
    refine ⟨fun j hj => ?_, fun b hb => ?_⟩
    · rw [hclass, ho j _ (hkj j hj), UInt8.toNat_ofNat',
        Nat.mod_eq_of_lt (hlt _ (List.getElem_mem hj))]
    · rw [classifiedInto_eq hc hs h hk eq b, length_bucket (length_keysOf _ _ _ _)]
      exact counted_of_lt hb

end

/-- Seven numbers, and one splitter. -/
theorem scattersRight_seven : ∃ c : Classifier ℕ, c.Built 1 [5] ∧
    (ScattersRight (fun a b => decide (a < b)) defaultConfig false c true ⟨Arr.input, 0⟩
        ⟨.tmp, 0⟩ 0 [7, 1, 5, 9, 4, 3, 8]
        ⟨⟨fun _ => 0, fun _ => 0, c⟩, 4⟩ (Mem.ofList ⟨.input, 0⟩ [7, 1, 5, 9, 4, 3, 8] fun _ => 0) ↔
      1 + true.toNat ≤ 8 ∨ ∀ x ∈ [7, 1, 5, 9, 4, 3, 8],
      ∀ s ∈ [5][127]?, decide (s < x) = false) := by
  have hempty : (⟨fun _ => .raw, fun _ => .raw, 0, 0⟩ : Classifier ℕ).Empty :=
    ⟨rfl, fun _ => rfl, fun _ => rfl⟩
  obtain ⟨c₁, -, hf⟩ := hempty.filled.newSorted 5
  obtain ⟨c, -, hb⟩ := hf.built (k := 1) le_rfl rfl
  exact ⟨c, hb, scattersRight_iff (.of_linearOrder ℕ) (List.pairwise_singleton _ _) hb
    (by decide) (by decide)
    (by decide) (by decide) rfl (has_ofList _ _ _) (raw_ofList _ _ (by decide) _)⟩

/-- Seven numbers, one splitter, and counters that have been used before. -/
theorem classifiesAlike_seven : ∃ c : Classifier ℕ, c.Built 1 [5] ∧
    (ClassifiesAlike (fun a b => decide (a < b)) defaultConfig false c true
        (⟨(), 0⟩ : Ptr Unit) 0 [7, 1, 5, 9, 4, 3, 8]
        ⟨⟨fun _ => 0, fun _ => 3, c⟩, 4⟩ (Mem.ofList ⟨(), 0⟩ [7, 1, 5, 9, 4, 3, 8] fun _ => 0) ↔
      1 + true.toNat ≤ 8 ∨ ∀ x ∈ [7, 1, 5, 9, 4, 3, 8],
      ∀ s ∈ [5][127]?, decide (s < x) = false) := by
  obtain ⟨c, hb⟩ := exists_built 5
  exact ⟨c, hb, classifiesAlike_iff (.of_linearOrder ℕ) (List.pairwise_singleton _ _) hb
    (by decide) (by decide) (by decide) (has_ofList _ _ _)⟩

/-- 255 splitters, and an element greater than the middle one. -/
theorem not_classifiesAlike_range : ∃ c : Classifier ℕ, c.Built 8 (List.range 255) ∧
    ¬ ClassifiesAlike (fun a b => decide (a < b))
      { kLogBuckets := 8 } false c true (⟨(), 0⟩ : Ptr Unit) 0
        [200, 1, 2, 3, 4, 5, 6] ⟨⟨fun _ => 0, fun _ => 0, c⟩, 512⟩
        (Mem.ofList ⟨(), 0⟩ [200, 1, 2, 3, 4, 5, 6] fun _ => 0) := by
  have hfilled : (⟨fun _ => .raw, fun i => ((List.range 255)[i]?).elim .raw .full,
    0, 0⟩ : Classifier ℕ).Filled (List.range 255) := ⟨fun _ => rfl, fun _ => rfl⟩
  obtain ⟨c, -, hb⟩ := hfilled.built (k := 8) (by decide) List.length_range
  have hs : Sorted (fun a b => decide (a < b)) (List.range 255) :=
    List.pairwise_lt_range.imp fun hab => decide_eq_false (Nat.not_lt_of_gt hab)
  refine ⟨c, hb, ?_⟩
  rintro ⟨-, hlocal⟩
  obtain ⟨s₁, -, m₁, -, hbyte, -⟩ := hlocal.run fun _ => 0
  have hlt := bucketOf_lt_of_byte (.of_linearOrder ℕ) hs hb le_rfl hbyte List.mem_cons_self
  rw [bucketOf_lt_iff (.of_linearOrder ℕ) hs List.length_range] at hlt
  have := hlt 127 (by simp)
  simp at this

/-! ### A configuration with too many buckets -/

/-- 256 leaves, and equality buckets in any case. -/
def wideConfig : Config := { kLogBuckets := 8, kEqualBucketsThreshold := 0 }

theorem wideConfig_logBuckets {n : ℕ} (hle : n ≤ 4096) :
    wideConfig.logBuckets n = max 1 (log2 (n / 16)) := by
  have hthreshold : wideConfig.kSingleLevelThreshold = 4096 := by decide
  rw [Config.logBuckets, if_pos (by simpa only [hthreshold] using hle)]
  rfl

theorem wideConfig_fits {n : ℕ} (hn : 32 < n) (hlt : n < 512) : wideConfig.Fits n := by
  have hlog := wideConfig_logBuckets (show n ≤ 4096 by omega)
  have hpos : 1 ≤ log2 (n / 16) := le_log2 (by omega)
  have hle : log2 (n / 16) ≤ 5 := Config.log2_div_le (by omega)
  have hl : log2 n ≤ 8 := Nat.lt_succ_iff.mp ((Nat.log2_lt (by omega)).mpr (by omega))
  have hstep : wideConfig.step n = 1 := by
    rw [Config.step_eq rfl (by omega)]
    omega
  refine ⟨by decide, show 7 ≤ n by omega, by rw [hlog]; exact le_max_left _ _, ?_, .inl ?_, ?_⟩
  · rw [hlog, max_eq_right hpos]
    omega
  · rw [hlog, max_eq_right hpos, show wideConfig.kAllowEqualBuckets.toNat = 1 from rfl]
    omega
  · have hpow : 2 ^ log2 (n / 16) ≤ n / 16 := two_pow_log2_le (by omega)
    rw [Config.numSamples, hstep, hlog, max_eq_right hpos]
    omega

/-- The sample of 4096 elements has 511, which gives 255 splitters. -/
theorem wideConfig_sample : wideConfig.logBuckets 4096 = 8 ∧ wideConfig.step 4096 = 2 := by
  decide +kernel

section
variable {sample rest : List ℕ}

/-- Different elements give different splitters, as many as there may be. -/
theorem wideConfig_chosen (h : wideConfig.Sample (fun a b => decide (a < b)) 4096 sample)
    (hnodup : sample.Nodup) :
    (wideConfig.chosenFrom (fun a b => decide (a < b)) 4096 sample).length = 255 := by
  have hc := StrictWeak.of_linearOrder ℕ
  have hlen : (wideConfig.looked 4096 sample).length = 255 := by
    rw [Config.looked, h.length_picks, wideConfig_sample.1]
    rfl
  -- the sample is strictly increasing, and so is what is looked at
  have hstrict : Sorted (fun a b : ℕ => decide (a ≤ b)) sample := by
    refine (h.sorted.and hnodup).imp fun hab => ?_
    have := hab.1
    have := hab.2
    simp only [decide_eq_false_iff_not] at *
    omega
  have hpicks : Sorted (fun a b : ℕ => decide (a ≤ b)) (wideConfig.looked 4096 sample) :=
    picks_sorted (le_max_left _ _) hstrict
  refine le_antisymm ((h.chosen hc).length_le.trans_eq hlen) ?_
  refine (distinct_iff hc (picks_sorted (le_max_left _ _) h.sorted) 255).mp
    ⟨_, fun x hx => hx, ?_, hlen.ge⟩
  exact hpicks.imp fun hab => by simpa using hab

theorem wideConfig_leaves (h : wideConfig.Sample (fun a b => decide (a < b)) 4096 sample)
    (hnodup : sample.Nodup) : wideConfig.leavesFrom (fun a b => decide (a < b)) 4096 sample = 8 ∧
      wideConfig.equalFrom (fun a b => decide (a < b)) 4096 sample = true := by
  constructor
  · rw [Config.leavesFrom, wideConfig_chosen h hnodup]
    decide
  · rw [Config.equalFrom, wideConfig_chosen h hnodup, wideConfig_sample.1]
    decide

end

/-- **The oracle's bytes are wrong** for 4096 different numbers, whatever sample is drawn. -/
theorem not_scattersRight_of_nodup {n : ℕ} (hn : n = 4096) {xs : List ℕ} {m : Mem Arr (Slot ℕ)}
    {s : Sorter ℕ} (hlen : xs.length = n) (hnodup : xs.Nodup)
    (hm : Has m ⟨.input, 0⟩ (xs.map .full)) (htmp : Raw m ⟨.tmp, 0⟩ n)
    (hs : s.data.classifier.Empty) : ¬ Sat (slots Arr ℕ false) (workspace ⟨.input, 0⟩ ⟨.tmp, 0⟩ 0 n)
      (buildClassifier (fun a b => decide (a < b)) wideConfig
        (sequential (fun a b => decide (a < b)) wideConfig 512)
        ⟨.input, 0⟩ n ⟨.tmp, 0⟩ 0 (fun s => s.data.classifier) s) m fun r m =>
          ∀ xs : List ℕ, xs.length = n →
        Has m ⟨.input, 0⟩ (xs.map .full) →
        ScattersRight (fun a b => decide (a < b)) wideConfig false r.2.1 r.2.2.2
          ⟨Arr.input, 0⟩ ⟨.tmp, 0⟩ 0 xs ⟨r.1.data, r.2.2.1⟩ m := by
  intro hright
  have hc := StrictWeak.of_linearOrder ℕ
  have hsort : Sorts (A := Arr) (fun a b : ℕ => decide (a < b)) wideConfig false 512
      (sequential (fun a b => decide (a < b)) wideConfig 512) :=
    sat_sequential_below hc (fun n (hn : n < 512) hbig => wideConfig_fits hbig hn)
      (fun n hn _ h => absurd h (by
        rw [show wideConfig.kSingleLevelThreshold = 4096 by decide]
        omega)) 512
  have hbuild := @sat_buildClassifier Arr ℕ _ _ false _ ⟨.input, 0⟩ ⟨.tmp, 0⟩ _ _ _ hc hsort xs 0
    (fun s => s.data.classifier) _ (by rw [hlen, hn]; decide +kernel)
      (by rw [hlen, hn]; decide +kernel) (by rw [hlen, hn]; decide)
    (by decide) hs (fun _ h => h) hm (hlen.symm ▸ htmp)
  rw [hlen] at hbuild
  obtain ⟨r, -, m, -, ⟨-, -, sample, rest, hperm, hm, hsample, hb, hr⟩, hscatter⟩ :=
    (hbuild.and hright).run fun _ => 0
  rw [hn] at hsample hb hr
  have hsample_nodup : sample.Nodup := (List.nodup_append.mp (hperm.nodup_iff.mpr hnodup)).1
  obtain ⟨hk, heq⟩ := wideConfig_leaves hsample hsample_nodup
  have hsorted := hsample.splitters_sorted hc
  have hright := hscatter _ (hperm.length_eq.trans hlen) hm
  obtain ⟨z, hz, -⟩ := hsample.splitters_eq hc
  rw [hk, wideConfig_chosen hsample hsample_nodup] at hz
  rw [hk] at hb
  rw [hr, heq] at hright
  -- no splitter is a duplicate, and the one behind the middle one goes to an upper bucket
  have hsplit : wideConfig.splittersFrom (fun a b => decide (a < b)) 4096 sample =
      wideConfig.chosenFrom (fun a b => decide (a < b)) 4096 sample := by simpa using hz
  have hlt : 128 < (wideConfig.splittersFrom (fun a b => decide (a < b)) 4096 sample).length := by
    rw [hb.length]
    decide
  have hmem := hsample.splitters_subset hc (List.getElem_mem hlt)
  have h256 := hright.bucketOf_lt hc hsorted hb le_rfl (List.mem_append_left rest hmem)
  have hmid := (bucketOf_lt_iff hc hsorted hb.length _).mp h256 _
    (List.getElem?_eq_getElem (by omega))
  have hinc := List.pairwise_iff_getElem.mp (hsplit ▸ (hsample.chosen hc).increasing) 127 128
    (by omega) hlt (by omega)
  rw [hinc] at hmid
  cases hmid

theorem not_scattersRight_range : ¬ Sat (slots Arr ℕ false) (workspace ⟨.input, 0⟩ ⟨.tmp, 0⟩ 0 4096)
    (buildClassifier (fun a b => decide (a < b)) wideConfig
      (sequential (fun a b => decide (a < b)) wideConfig 512)
      ⟨.input, 0⟩ 4096 ⟨.tmp, 0⟩ 0 (fun s => s.data.classifier)
      (Sorter.new (fun _ => 0) (fun _ => 0) 0))
    (Mem.ofList ⟨.input, 0⟩ (List.range 4096) fun _ => 0) fun r m =>
    ∀ xs : List ℕ, xs.length = 4096 → Has m ⟨.input, 0⟩ (xs.map .full) →
      ScattersRight (fun a b => decide (a < b)) wideConfig false r.2.1 r.2.2.2
        ⟨Arr.input, 0⟩ ⟨.tmp, 0⟩ 0 xs ⟨r.1.data, r.2.2.1⟩ m :=
  not_scattersRight_of_nodup rfl List.length_range List.nodup_range (has_ofList _ _ _)
    (raw_ofList _ _ (by decide) _) (Sorter.new_empty _ _ _)

end Ps4o
