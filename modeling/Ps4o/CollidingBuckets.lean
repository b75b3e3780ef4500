import Ps4o.EndlessRecursion

/-!
# Colliding buckets

The oracle stores the number of a bucket in a byte. With 512 buckets two of them share one, and
distributing constructs an element where there already is one.

## What is proved

* `distributeElements_not_ok` — distributing does not return if the first element whose bucket does
  not fit into a byte follows elements of a later bucket than the one that its byte stands for.
* `not_returns_of_crowded` — there is a range of numbers, as long as it has to be for 512 buckets,
  on which `sequential` never returns.
-/

namespace Ps4o

open Ps4o.Program Ps4o.Storage Ps4o.Order

variable {A α : Type} [DecidableEq A] {lax : Bool}

/-! ### Distributing -/

theorem start_take {ks : List ℕ} {K b : ℕ} (h : ∀ k ∈ ks.drop K, b ≤ k) :
    start (ks.take K) b = start ks b := by
  have hdrop : (ks.drop K).countP (fun k => k < b) = 0 :=
    List.countP_eq_zero.mpr fun k hk => by simpa using h k hk
  conv_rhs => rw [start, ← List.take_append_drop K ks, List.countP_append, hdrop]
  rfl

/-- A bucket that is not behind all elements begins before the end. -/
theorem start_lt_length {ks : List ℕ} {k b : ℕ} (hk : k ∈ ks) (hb : b ≤ k) :
    start ks b < ks.length := by
  refine lt_of_le_of_ne (start_le_length b) fun heq => ?_
  have := List.countP_eq_length.mp heq k hk
  simp only [decide_eq_true_eq] at this
  omega

/-- Nothing is constructed where there is an element. -/
theorem constructAt_not_ok {q : Ptr A} {x y : α} {m : Mem A (Slot α)} (hq : m.slot q = .full x)
    (c : ℕ → ℕ) (r : Unit × (ℕ → ℕ) × Mem A (Slot α)) :
    run (slots A α lax) (constructAt q y) c m ≠ .ok r := by
  intro hrun
  simp [constructAt, Prog.lift, run, slots, slotExec, hq] at hrun

/-- Moving out of a slot leaves the others. -/
theorem slot_of_moveFrom {q q' : Ptr A} {x : α} {c c' : ℕ → ℕ} {m m' : Mem A (Slot α)}
    (hrun : run (slots A α lax) (moveFrom q) c m = .ok (x, c', m')) (hne : q' ≠ q) :
    m'.slot q' = m.slot q' := by
  cases hq : m.slot q with
  | full y =>
    simp only [moveFrom, Prog.lift, run, slots, slotExec, hq] at hrun
    cases hrun
    exact Function.update_of_ne hne _ _
  | raw => simp [moveFrom, Prog.lift, run, slots, slotExec, hq] at hrun
  | moved => simp [moveFrom, Prog.lift, run, slots, slotExec, hq] at hrun

/-- **Distributing runs into an element** that does not fit into a byte: it goes behind the bucket
that its byte stands for, where there is another one. -/
theorem distributeElements_not_ok {n K b oracle : ℕ} {bs : ℕ → ℕ} {ks : List ℕ} {xs : List α}
    {p tmp : Ptr A} {m : Mem A (Slot α)} (hl : ks.length = xs.length) (hn : ks.length = n)
    (hbyte : ∀ k ∈ ks.take K, k < 256) (hwide : ∀ k ∈ ks.drop K, 256 ≤ k) (hb : b ∈ ks.take K)
    (hbehind : ∃ k ∈ ks.take K, b < k) (hkey : ks[K]? = some (256 + b))
    (hbs : ∀ b < 256, bs b = start ks b) (harr : p.arr ≠ tmp.arr) (hm : Has m p (xs.map .full))
    (ho : Oracle m oracle ks) (htmp : Raw m tmp n) (c : ℕ → ℕ)
    (r : (ℕ → ℕ) × (ℕ → ℕ) × Mem A (Slot α)) :
    run (slots A α lax) (distributeElements p n tmp oracle bs) c m ≠ .ok r := by
  intro hrun
  have hK : K < ks.length := (List.getElem?_eq_some_iff.mp hkey).1
  have hlenk : (ks.take K).length = K := List.length_take_of_le hK.le
  have hlenx : (xs.take K).length = K := List.length_take_of_le (by omega)
  obtain ⟨r', hr'⟩ := Prog.run_loop_prefix hrun (show K + 1 ≤ n by omega)
  obtain ⟨bs', c₁, m₁, hfirst, hlast⟩ := Prog.run_bind_eq_ok hr'
  -- the elements before are distributed as they should be
  have hsat : Sat (slots A α lax) _ (distributeElements (p + 0) K tmp (oracle + 0) bs) m _ :=
    sat_distributeElements lax 0 K oracle bs (hlenk.trans hlenx.symm) (by omega) hbyte
    (fun k hk => by
      rw [hbs k (hbyte k hk), cursor, seen_zero, Nat.add_zero]
      exact (start_take fun l hl => (hbyte k hk).le.trans (hwide l hl)).symm) harr
    (fun j x _ hj hx => hm j _ (by
      rw [List.getElem?_take_of_lt (by omega)] at hx
      rw [List.getElem?_map, hx]
      rfl))
    (fun j k _ hj hk => ho j k (by rwa [List.getElem?_take_of_lt (by omega)] at hk))
    (fun j _ hj => htmp _ (by
      have hlt : dest (ks.take K) j < (ks.take K).length := dest_lt (by omega)
      omega))
  simp only [Ptr.add_zero, Nat.add_zero, Nat.zero_add] at hsat
  obtain ⟨hbs', hbytes, -, hdest⟩ := hsat.of_run hfirst
  -- the next one goes to a place that is taken
  obtain ⟨k, hk, hbk⟩ := hbehind
  have hcur : bs' b = start (ks.take K) (b + 1) := by
    have hseen : seen (ks.take K) (ks.take K).length b = (ks.take K).count b := seen_length b
    rw [hlenk] at hseen
    rw [hbs' b hb, cursor, start_succ, hseen]
  obtain ⟨j, hj, hjd⟩ := dest_surj (start_lt_length hk (Nat.succ_le_of_lt hbk))
  have hfull := hdest j (xs.take K)[j] (Nat.zero_le j) (by omega)
    (List.getElem?_eq_getElem (by omega))
  rw [hjd, Nat.succ_eq_add_one, ← hcur] at hfull
  obtain ⟨o, c₂, m₂, hload, hlast⟩ := Prog.run_bind_eq_ok hlast
  obtain ⟨v, c₃, m₃, hmove, hlast⟩ := Prog.run_bind_eq_ok hlast
  obtain ⟨u, c₄, m₄, hconstruct, -⟩ := Prog.run_bind_eq_ok hlast
  obtain ⟨rfl, rfl, rfl⟩ : m₁.byte (oracle + K) = o ∧ (fun i => c₁ (i + 1)) = c₂ ∧ m₁ = m₂ := by
    simpa [loadByte, Prog.lift, run, slots, slotExec] using hload
  have hob : (m₁.byte (oracle + K)).toNat = b := by
    have := hbyte b hb
    rw [hbytes, ho K _ hkey, UInt8.toNat_ofNat']
    omega
  rw [hob] at hconstruct
  rw [← slot_of_moveFrom hmove fun h => harr.symm (by simpa using congrArg Ptr.arr h)] at hfull
  exact constructAt_not_ok hfull _ _ hconstruct

/-! ### A crowded range -/

/-- The numbers up to 128, as many of each as there are between two splitters, and the last one as
often as need be. -/
def crowded (step n : ℕ) : List ℕ := (List.range n).map fun j => min (j / step) 128

@[simp] theorem length_crowded (step n : ℕ) : (crowded step n).length = n := by simp [crowded]

theorem getElem?_crowded (step : ℕ) {n j : ℕ} (hj : j < n) :
    (crowded step n)[j]? = some (min (j / step) 128) := by
  simp [crowded, hj]

theorem take_crowded (step : ℕ) {k n : ℕ} (hk : k ≤ n) :
    (crowded step n).take k = crowded step k := by
  rw [crowded, ← List.map_take, List.take_range, Nat.min_eq_left hk, crowded]

theorem mem_crowded {step n x : ℕ} (hx : x ∈ crowded step n) : x ≤ 128 := by
  obtain ⟨j, -, rfl⟩ := List.mem_map.mp hx
  exact min_le_right _ _

theorem sorted_crowded (step n : ℕ) : Sorted (fun a b : ℕ => decide (a < b)) (crowded step n) := by
  refine List.pairwise_map.mpr (List.pairwise_lt_range.imp fun {i j} hij => ?_)
  have := Nat.div_le_div_right (c := step) hij.le
  simp only [decide_eq_false_iff_not, not_lt]
  exact min_le_min_right _ this

/-- Sorting does not change a sorted list of numbers. -/
theorem eq_of_sorted {xs ys : List ℕ} (hperm : xs.Perm ys)
    (hx : Sorted (fun a b : ℕ => decide (a < b)) xs)
    (hy : Sorted (fun a b : ℕ => decide (a < b)) ys) : xs = ys := by
  simp only [Sorted, decide_eq_false_iff_not, not_lt] at hx hy
  exact hperm.eq_of_pairwise (fun a b _ _ => le_antisymm) hx hy

/-- The elements looked at as splitters are the numbers up to 128, and then only the last one. -/
theorem picks_crowded {step : ℕ} (hstep : 1 ≤ step) :
    picks step (crowded step (step * 256 - 1)) 255 = (List.range 255).map fun i => min i 128 := by
  rw [picks, List.filterMap_eq_map_iff_forall_eq_some.mpr]
  intro i hi
  rw [List.mem_range] at hi
  have hlt : step - 1 + i * step < step * 256 - 1 := by
    have := Nat.mul_le_mul_right step (show i + 2 ≤ 256 by omega)
    rw [Nat.add_mul] at this
    omega
  rw [getElem?_crowded step hlt, Nat.add_mul_div_right _ _ (by omega), Nat.div_eq_of_lt (by omega),
    Nat.zero_add]

/-- All of them are chosen. -/
theorem chosen_crowded : chosen (fun a b => decide (a < b))
    ((List.range 255).map fun i => min i 128) = List.range 129 := by decide +kernel

/-- The splitters made of them. -/
def crowdedSplitters : List ℕ := List.range 129 ++ List.replicate 126 128

/-- Each number is in an equality bucket of its own. -/
theorem bucketOf_crowded : ∀ x ≤ 128,
    Classifier.bucketOf (fun a b => decide (a < b)) true crowdedSplitters x = 2 * x + 1 := by
  decide +kernel

/-- Numbers of buckets that do not fit into a byte. -/
structure Config.Collides (cfg : Config) (n : ℕ) : Prop where
  log_eq : cfg.logBuckets n = 8
  allow : cfg.kAllowEqualBuckets = true
  threshold_le : cfg.kEqualBucketsThreshold ≤ 126
  unroll_pos : 1 ≤ cfg.kUnrollClassifier
  unroll_le : cfg.kUnrollClassifier ≤ n
  sample_lt : cfg.numSamples n < n

namespace Config.Collides

variable {cfg : Config} {n : ℕ} (h : cfg.Collides n)
include h

theorem numSamples_eq : cfg.numSamples n = cfg.step n * 256 - 1 := by
  rw [Config.numSamples, h.log_eq, show 2 ^ 8 = 256 from rfl]

theorem sample : cfg.Sample (fun a b : ℕ => decide (a < b)) n
    (crowded (cfg.step n) (cfg.numSamples n)) :=
  ⟨sorted_crowded _ _, length_crowded _ _, by rw [h.log_eq]; decide⟩

theorem picks_eq : picks (cfg.step n) (crowded (cfg.step n) (cfg.numSamples n))
    (2 ^ cfg.logBuckets n - 1) = (List.range 255).map fun i => min i 128 := by
  rw [h.numSamples_eq, h.log_eq]
  exact picks_crowded (cfg.one_le_step n)

theorem chosen_eq : cfg.chosenFrom (fun a b : ℕ => decide (a < b)) n
    (crowded (cfg.step n) (cfg.numSamples n)) = List.range 129 := by
  rw [Config.chosenFrom, h.picks_eq]
  exact chosen_crowded

theorem leaves_eq : cfg.leavesFrom (fun a b : ℕ => decide (a < b)) n
    (crowded (cfg.step n) (cfg.numSamples n)) = 8 := by
  rw [Config.leavesFrom, h.chosen_eq]
  decide +kernel

theorem splitters_eq : cfg.splittersFrom (fun a b : ℕ => decide (a < b)) n
    (crowded (cfg.step n) (cfg.numSamples n)) = crowdedSplitters := by
  rw [Config.splittersFrom, h.leaves_eq, h.chosen_eq, h.picks_eq]
  decide +kernel

theorem equal_eq : cfg.equalFrom (fun a b : ℕ => decide (a < b)) n
    (crowded (cfg.step n) (cfg.numSamples n)) = true := by
  have := h.threshold_le
  rw [Config.equalFrom, h.chosen_eq, h.allow, h.log_eq, Bool.true_and, decide_eq_true_iff,
    List.length_range]
  omega

theorem lt_n : cfg.step n * 128 < n := by
  have hlt := h.sample_lt
  have := cfg.one_le_step n
  rw [h.numSamples_eq] at hlt
  omega

end Config.Collides

/-- The buckets of the numbers. -/
def crowdedKeys (step n : ℕ) : List ℕ := (crowded step n).map fun x => 2 * x + 1

theorem keysOf_crowded (step n : ℕ) :
    keysOf (fun a b => decide (a < b)) true crowdedSplitters (crowded step n) =
      crowdedKeys step n :=
  List.map_congr_left fun x hx => bucketOf_crowded x (mem_crowded hx)

@[simp] theorem length_crowdedKeys (step n : ℕ) : (crowdedKeys step n).length = n := by
  simp [crowdedKeys]

theorem getElem?_crowdedKeys (step : ℕ) {n j : ℕ} (hj : j < n) :
    (crowdedKeys step n)[j]? = some (2 * min (j / step) 128 + 1) := by
  rw [crowdedKeys, List.getElem?_map, getElem?_crowded step hj]
  rfl

/-- Up to the number 128 the buckets fit into a byte. -/
theorem take_crowdedKeys {step n : ℕ} (hstep : 1 ≤ step) (hn : step * 128 < n) {k : ℕ} :
    k ∈ (crowdedKeys step n).take (step * 128) ↔
      ∃ j < step * 128, k = 2 * (j / step) + 1 ∧ j / step < 128 := by
  rw [List.mem_iff_getElem?]
  constructor
  · rintro ⟨j, hj⟩
    obtain ⟨hj', -⟩ := List.getElem?_eq_some_iff.mp hj
    rw [List.length_take, length_crowdedKeys] at hj'
    rw [List.getElem?_take_of_lt (by omega), getElem?_crowdedKeys step (by omega)] at hj
    have hlt : j / step < 128 := (Nat.div_lt_iff_lt_mul hstep).mpr (by rw [Nat.mul_comm]; omega)
    rw [Nat.min_eq_left hlt.le] at hj
    exact ⟨j, by omega, (Option.some.inj hj).symm, hlt⟩
  · rintro ⟨j, hj, rfl, hlt⟩
    refine ⟨j, ?_⟩
    rw [List.getElem?_take_of_lt hj, getElem?_crowdedKeys step (by omega), Nat.min_eq_left hlt.le]

/-- From there on they do not. -/
theorem drop_crowdedKeys {step n : ℕ} (hstep : 1 ≤ step) :
    ∀ k ∈ (crowdedKeys step n).drop (step * 128), 256 ≤ k := by
  intro k hk
  obtain ⟨j, hj⟩ := List.mem_iff_getElem?.mp hk
  rw [List.getElem?_drop] at hj
  obtain ⟨hlt, -⟩ := List.getElem?_eq_some_iff.mp hj
  rw [length_crowdedKeys] at hlt
  rw [getElem?_crowdedKeys step hlt] at hj
  have hle : 128 ≤ (step * 128 + j) / step := (Nat.le_div_iff_mul_le hstep).mpr (by
    rw [Nat.mul_comm]
    omega)
  rw [Nat.min_eq_right hle] at hj
  have := Option.some.inj hj
  omega

/-! ### Partitioning it -/

/-- Swapping an element with itself does nothing. -/
theorem run_swapAt_self {q : Ptr A} {x : α} {m : Mem A (Slot α)} (hq : m.slot q = .full x)
    (c : ℕ → ℕ) : run (slots A α lax) (swapAt q q) c m = .ok ((), fun i => c (i + 1), m) := by
  have hset : m.set q (.full x) = m := by
    rw [Mem.set, ← hq, Function.update_eq_self]
  simp only [swapAt, Prog.lift, run, slots, slotExec, hq, hset]

/-- If the first element is drawn each time, the range stays as it is. -/
theorem run_selectSample_zero {p : Ptr A} {xs : List α} {n k : ℕ} {m : Mem A (Slot α)}
    (hm : Has m p (xs.map .full)) (hn : xs.length = n) (hk : k ≤ n) :
    run (slots A α lax) (selectSample p n k) (fun _ => 0) m = .ok ((), fun _ => 0, m) := by
  induction k with
  | zero => rfl
  | succ k ih =>
    have hslot : m.slot (p + k) = .full (xs[k]) := hm k _ (by simp [show k < xs.length by omega])
    have hround : run (slots A α lax) (draw (n - k - 1) >>= fun i => swapAt (p + k) (p + k + i))
        (fun _ => 0) m = .ok ((), fun _ => 0, m) := by
      rw [draw, Prog.lift_bind, run]
      simp only [slots, slotExec, Nat.zero_mod, Ptr.add_zero]
      exact run_swapAt_self hslot _
    have hfirst := ih (by omega)
    rw [selectSample] at hfirst ⊢
    rw [Prog.loop, run_bind, hfirst]
    simp only [Except.bind]
    rwa [if_neg (by omega)]

variable {cfg : Config} {n : ℕ}

/-- Partitioning a crowded range does not return. -/
theorem Config.Collides.partition_not_ok (h : cfg.Collides n)
    {sort : Ptr A → ℕ → Ptr A → ℕ → Bool → Sorter ℕ → Act A ℕ (Sorter ℕ)}
    (hsort : Sorts (fun a b => decide (a < b)) cfg lax n sort) {p tmp : Ptr A} {oracle : ℕ}
    {lastLevel inInputArray : Bool} {s : Sorter ℕ} {m : Mem A (Slot ℕ)} (harr : p.arr ≠ tmp.arr)
    (hs : s.data.classifier.Empty) (hm : Has m p ((crowded (cfg.step n) n).map .full))
    (htmp : Raw m tmp n) (r : (Bool × (ℕ → ℕ) × Sorter ℕ) × (ℕ → ℕ) × Mem A (Slot ℕ)) :
    run (slots A ℕ lax) (partition (fun a b => decide (a < b)) cfg sort p n tmp oracle lastLevel
      inInputArray s) (fun _ => 0) m ≠ .ok r := by
  intro hrun
  have hc := StrictWeak.of_linearOrder ℕ
  have hstep := cfg.one_le_step n
  obtain ⟨⟨s₁, c, nb, eq⟩, c₁, m₁, hbuild, hrest⟩ := Prog.run_bind_eq_ok hrun
  obtain ⟨u, c₂, m₂, hselect, hdrawn⟩ := Prog.run_bind_eq_ok hbuild
  rw [run_selectSample_zero hm (length_crowded _ _) h.sample_lt.le] at hselect
  cases hselect
  -- the sample is the front of the range
  obtain ⟨hs₁, htmp₁, sample, hperm, hm₁, hsample, hbuilt, heq⟩ :=
    (sat_buildFromDrawn hc hsort (length_crowded _ _) h.sample_lt h.sample_lt.le
      (by rw [h.log_eq]; decide) harr hs (fun _ h => h) hm htmp).of_run hdrawn
  rw [take_crowded _ h.sample_lt.le] at hperm
  obtain rfl := eq_of_sorted hperm hsample.sorted (sorted_crowded _ _)
  rw [← take_crowded (cfg.step n) h.sample_lt.le, List.take_append_drop] at hm₁
  rw [h.leaves_eq, h.equal_eq] at heq
  rw [h.leaves_eq, h.splitters_eq] at hbuilt
  obtain ⟨rfl, rfl⟩ := Prod.mk.inj heq
  -- classification
  obtain ⟨s₂, c₃, m₃, hclass, hrest⟩ := Prog.run_bind_eq_ok hrest
  have hsorted := hsample.splitters_sorted hc
  rw [h.splitters_eq] at hsorted
  have hsat := sat_sequentialClassification lax cfg true oracle hc hsorted hbuilt le_rfl
    h.unroll_pos (by rw [length_crowded]; exact h.unroll_le) (Set.subset_univ _) (Set.subset_univ _)
    hm₁ ⟨{ s₁.data with classifier := c }, 512⟩
  rw [length_crowded, keysOf_crowded] at hsat
  obtain ⟨hbs, -, -, hslot, ho⟩ := hsat.of_run hclass
  -- distribution
  obtain ⟨bs, c₄, m₄, hdist, -⟩ := Prog.run_bind_eq_ok hrest
  have hkey : (crowdedKeys (cfg.step n) n)[cfg.step n * 128]? = some (256 + 1) := by
    rw [getElem?_crowdedKeys _ h.lt_n, Nat.mul_div_cancel_left _ hstep, Nat.min_self]
  refine distributeElements_not_ok (by simp) (length_crowdedKeys _ _) (fun k hk => ?_)
    (drop_crowdedKeys hstep) ((take_crowdedKeys hstep h.lt_n).mpr ⟨0, by omega, by simp⟩)
    ⟨3, (take_crowdedKeys hstep h.lt_n).mpr ⟨cfg.step n, by omega, ?_⟩, by decide⟩ hkey
    (fun b hb => hbs b (show b ≤ 512 by omega)) harr
    (fun i v hv => (congrFun hslot _).trans (hm₁ i v hv)) ho
    (fun i hi => (congrFun hslot _).trans (htmp₁ i hi)) _ _ hdist
  · obtain ⟨j, -, rfl, hj⟩ := (take_crowdedKeys hstep h.lt_n).mp hk
    omega
  · rw [Nat.div_self hstep]
    decide

/-- **On a crowded range `sequential` never returns**, if it has 512 buckets. -/
theorem not_returns_of_crowded (h : cfg.Collides n) (hbig : 2 * cfg.kBaseCaseSize < n)
    (hsort : ∀ fuel, n ≤ fuel → Sorts (fun a b => decide (a < b)) cfg lax n
      (sequential (A := A) (fun a b : ℕ => decide (a < b)) cfg fuel)) (fuel : ℕ)
    {p tmp : Ptr A} {oracle : ℕ} {inInputArray : Bool} {s : Sorter ℕ} {m : Mem A (Slot ℕ)}
    (harr : p.arr ≠ tmp.arr) (hs : s.data.classifier.Empty)
    (hm : Has m p ((crowded (cfg.step n) n).map .full)) (htmp : Raw m tmp n)
    (r : Sorter ℕ × (ℕ → ℕ) × Mem A (Slot ℕ)) :
    run (slots A ℕ lax) (sequential (fun a b => decide (a < b)) cfg fuel p n tmp oracle inInputArray
      s) (fun _ => 0) m ≠ .ok r := by
  intro hrun
  cases fuel with
  | zero => cases hrun
  | succ fuel =>
    rw [sequential, if_neg (by omega)] at hrun
    obtain ⟨x, c, m', hpart, -⟩ := Prog.run_bind_eq_ok hrun
    -- if it may go deeper, the sample is sorted
    have hdeep := (Deeper.partition (sequential_deeper fuel n) _ _ _ _ _ _ _).run hpart
    exact h.partition_not_ok (hsort (fuel + n) (Nat.le_add_left n fuel)) harr hs hm htmp _ hdeep

end Ps4o
