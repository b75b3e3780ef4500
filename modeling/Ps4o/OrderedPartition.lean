import Ps4o.Sequential

/-!
# Ordered partitions

What the classifier that has been built from a sample does to any two values (`sampling.hpp`,
`classifier.hpp`): how its splitters are stored, and how its buckets are ordered.

## What is proved

* `Classifier.bucketOf_lt_imp` — a value in an earlier bucket is less than one in a later bucket,
  not only no greater.
* `Config.Sample.stores` and `Classifier.Built.orders` — what is stored from a sorted sample, and
  the order it makes.
* `buildClassifier_orders` — with the default configuration, the classifier that is built from any
  sample is one.
-/

namespace Ps4o

open Ps4o.Program Ps4o.Storage Ps4o.Order

variable {A α : Type} {comp : α → α → Bool}

namespace Classifier

/-! ### What is said of a classifier -/

variable (comp) in
/-- Elements of `xs` are stored for `2 ^ k` leaves, and only so many leaves as the `d` different
ones need: the first `d` are increasing, and all others, also the one behind the last, are equal to
the last of them. -/
structure Stores (c : Classifier α) (xs : List α) (k d : ℕ) : Prop where
  pos : 0 < d
  lt_leaves : d < 2 ^ k
  leaves_le : 2 ^ k ≤ 2 * d
  element : ∀ i < 2 ^ k, ∃ s ∈ xs, c.sortedSplitter i = some s
  increasing : ∀ i j s t, i < j → j < d → c.sortedSplitter i = some s →
    c.sortedSplitter j = some t → comp s t = true
  padded : ∀ i s t, d ≤ i → i < 2 ^ k → c.sortedSplitter (d - 1) = some s →
    c.sortedSplitter i = some t →
    comp s t = false ∧ comp t s = false

variable (comp) in
/-- Every value has one of `numBuckets` buckets, and the buckets are in order. Of equality buckets,
which are those with odd numbers except the last one, each has only equal values, and the last
bucket but one has none. -/
structure Orders (c : Classifier α) (numBuckets : ℕ) (useEqualBuckets : Bool) : Prop where
  total : ∀ x, ∃ b < numBuckets, c.classify comp useEqualBuckets x = some b
  ordered : ∀ x y i j, c.classify comp useEqualBuckets x = some i →
    c.classify comp useEqualBuckets y = some j →
    i < j → comp x y = true
  equal : useEqualBuckets = true → ∀ b < numBuckets - 2, b % 2 = 1 → ∀ x y,
    c.classify comp useEqualBuckets x = some b → c.classify comp useEqualBuckets y =
    some b → comp x y = false
  empty : useEqualBuckets = true → ∀ x, c.classify comp useEqualBuckets x ≠ some (numBuckets - 2)

/-! ### The order of the buckets -/

section
variable (hc : StrictWeak comp) {splitters : List α} (hsorted : Sorted comp splitters)
include hc hsorted

/-- There is a splitter between two values with different lower bounds. -/
theorem lowerBound_lt_imp {x y : α}
    (h : lowerBound comp splitters x < lowerBound comp splitters y) : comp x y = true := by
  have hlt : lowerBound comp splitters x < splitters.length := h.trans_le List.countP_le_length
  have hx : comp splitters[lowerBound comp splitters x] x = false := by
    simpa using (lt_lowerBound_iff hc hsorted x hlt).not.mp (lt_irrefl _)
  have hy : comp splitters[lowerBound comp splitters x] y = true :=
    (lt_lowerBound_iff hc hsorted y hlt).mp h
  exact hc.lt_of_le_of_lt hx hy

/-- **A value in an earlier bucket is less than one in a later bucket.** -/
theorem bucketOf_lt_imp (eq : Bool) {x y : α}
    (h : bucketOf comp eq splitters x < bucketOf comp eq splitters y) : comp x y = true := by
  cases eq with
  | false => exact lowerBound_lt_imp hc hsorted (by simpa [bucketOf] using h)
  | true =>
    have hx := Bool.toNat_le ((splitters[lowerBound comp splitters x]?).elim true
      fun s => !comp x s)
    have hy := Bool.toNat_le ((splitters[lowerBound comp splitters y]?).elim true
      fun s => !comp y s)
    simp only [bucketOf, if_true] at h
    rcases Nat.lt_or_ge (lowerBound comp splitters x) (lowerBound comp splitters y) with hlt | hge
    · exact lowerBound_lt_imp hc hsorted hlt
    · -- the splitter next to both is greater than the one, and not greater than the other
      have heq : lowerBound comp splitters x = lowerBound comp splitters y := by omega
      rw [heq] at h
      cases hs : splitters[lowerBound comp splitters y]? with
      | none => simp [hs] at h
      | some s =>
        have hxs : comp x s = true := by
          cases hxs : comp x s <;> simp [hs, hxs] at h ⊢
          cases hys : comp y s <;> simp [hys] at h
        have hys : comp y s = false := by
          cases hys : comp y s <;> simp [hs, hxs, hys] at h ⊢
        exact hc.lt_of_lt_of_le hxs hys

/-- The values of an equality bucket are equal. -/
theorem bucketOf_odd {b : ℕ} (hodd : b % 2 = 1) (hb : b < 2 * splitters.length) {x y : α}
    (hx : bucketOf comp true splitters x = b) (hy : bucketOf comp true splitters y = b) :
    comp x y = false := by
  obtain ⟨c, rfl⟩ : ∃ c, b = 2 * c + 1 := ⟨b / 2, by omega⟩
  have hxs := bucketOf_equal hc hsorted hx (by omega)
  have hys := bucketOf_equal hc hsorted hy (by omega)
  exact hc.le_trans hys.2 hxs.1

end

/-- A classifier of at most nine levels puts all values in order. -/
theorem Built.orders (hc : StrictWeak comp) {splitters : List α} (hsorted : Sorted comp splitters)
    {c : Classifier α} {k : ℕ} (h : c.Built k splitters) (hk : k ≤ 9) (eq : Bool) :
    c.Orders comp (2 ^ k * (1 + eq.toNat)) eq := by
  have hclass := h.classify hc hsorted hk eq
  have h2 : 2 ≤ 2 ^ k := Nat.le_self_pow (by have := h.log_pos; omega) 2
  refine ⟨fun x => ⟨_, ?_, hclass x⟩, fun x y i j hi hj hij => ?_,
    fun heq b hb hodd x y hx hy => ?_, fun heq x hx => ?_⟩
  · have hlt : bucketOf comp eq splitters x < _ := bucketOf_lt eq h.length x
    rwa [pow_add, show 2 ^ eq.toNat = 1 + eq.toNat by cases eq <;> rfl] at hlt
  · rw [hclass x, Option.some.injEq] at hi
    rw [hclass y, Option.some.injEq] at hj
    exact bucketOf_lt_imp hc hsorted eq (by omega)
  · subst heq
    rw [hclass x, Option.some.injEq] at hx
    rw [hclass y, Option.some.injEq] at hy
    refine bucketOf_odd hc hsorted hodd ?_ hx hy
    rw [h.length]
    simp only [Bool.toNat_true] at hb
    omega
  · subst heq
    rw [hclass x, Option.some.injEq] at hx
    refine bucketOf_ne splitters x (hx.trans ?_)
    rw [h.length, Bool.toNat_true]
    omega

end Classifier

/-! ### The splitters from a sample -/

section
variable (hc : StrictWeak comp) {cfg : Config} {n : ℕ} {sample : List α}
  (h : cfg.Sample comp n sample)
include hc h

/-- What is stored, with the splitter behind the last leaf: the different ones, and others like the
last of them. -/
theorem Config.Sample.stored : ∃ s y, (cfg.chosenFrom comp n sample).getLast? = some s ∧
    comp s y = false ∧ comp y s = false ∧ (y ∈ sample) ∧
    cfg.splittersFrom comp n sample ++ (cfg.splittersFrom comp n sample).getLast?.toList =
      cfg.chosenFrom comp n sample ++
        List.replicate (2 ^ cfg.leavesFrom comp n sample - (cfg.chosenFrom comp n sample).length)
          y := by
  have hlt := chosen_lt_leaves comp cfg n sample
  have hsorted := h.splitters_sorted hc
  obtain ⟨z, hz, hzs, s, hlast, hsz⟩ := h.splitters_eq hc
  have hs : s ∈ cfg.chosenFrom comp n sample := List.mem_of_getLast? hlast
  cases hm : 2 ^ cfg.leavesFrom comp n sample - 1 - (cfg.chosenFrom comp n sample).length with
  | zero =>
    rw [hm, List.replicate_zero, List.append_nil] at hz
    refine ⟨s, s, hlast, hc.irrefl s, hc.irrefl s, h.splitters_subset hc (hz ▸ hs), ?_⟩
    rw [hz, hlast, show 2 ^ cfg.leavesFrom comp n sample - (cfg.chosenFrom comp n sample).length =
      1 by omega]
    rfl
  | succ m =>
    rw [hm] at hz
    rw [hz] at hsorted
    refine ⟨s, z, hlast, hsz, (List.pairwise_append.mp hsorted).2.2 s hs z (by simp),
      List.mem_of_getElem? hzs, ?_⟩
    rw [hz, List.replicate_succ', ← List.append_assoc, List.getLast?_concat,
      show 2 ^ cfg.leavesFrom comp n sample - (cfg.chosenFrom comp n sample).length = m + 2 by
        omega,
      List.replicate_succ', List.replicate_succ']
    simp

/-- The splitters from a sorted sample are stored as they should be. -/
theorem Config.Sample.stores {c : Classifier α}
    (hb : c.Built (cfg.leavesFrom comp n sample) (cfg.splittersFrom comp n sample)) {xs : List α}
    (hsub : ∀ x ∈ sample, x ∈ xs) :
    c.Stores comp xs (cfg.leavesFrom comp n sample) (cfg.chosenFrom comp n sample).length := by
  have hpos := List.length_pos_of_ne_nil (h.chosen_ne_nil hc)
  have hlt := chosen_lt_leaves comp cfg n sample
  have hchosen := h.chosen hc
  obtain ⟨s, y, hlast, hsy, hys, hy, hstored⟩ := h.stored hc
  have hget : ∀ i, c.sortedSplitter i = (cfg.chosenFrom comp n sample ++
      List.replicate (2 ^ cfg.leavesFrom comp n sample - (cfg.chosenFrom comp n sample).length)
      y)[i]? := fun i => by
    rw [Classifier.sortedSplitter, Classifier.objectAt, hb.sorted, hstored]
    cases (cfg.chosenFrom comp n sample ++ _)[i]? <;> rfl
  refine ⟨hpos, hlt, ?_, fun i hi => ?_, fun i j s t hij hj hs ht => ?_,
    fun i s' t hi hik hs ht => ?_⟩
  · rw [Config.leavesFrom, pow_succ, Nat.mul_comm]
    exact Nat.mul_le_mul_left 2 (two_pow_log2_le hpos.ne')
  · obtain ⟨t, ht⟩ : ∃ t, (cfg.chosenFrom comp n sample ++
        List.replicate (2 ^ cfg.leavesFrom comp n sample - (cfg.chosenFrom comp n sample).length)
        y)[i]? = some t :=
      ⟨_, List.getElem?_eq_getElem (by rw [List.length_append, List.length_replicate]; omega)⟩
    refine ⟨t, hsub t ?_, (hget i).trans ht⟩
    rcases List.mem_append.mp (List.mem_of_getElem? ht) with hmem | hmem
    · exact mem_of_mem_picks (hchosen.subset t hmem)
    · rwa [List.eq_of_mem_replicate hmem]
  · rw [hget, List.getElem?_append_left (by omega)] at hs ht
    obtain ⟨hi', rfl⟩ := List.getElem?_eq_some_iff.mp hs
    obtain ⟨hj', rfl⟩ := List.getElem?_eq_some_iff.mp ht
    exact List.pairwise_iff_getElem.mp hchosen.increasing i j hi' hj' hij
  · rw [hget, List.getElem?_append_left (by omega), ← List.getLast?_eq_getElem?,
      hlast, Option.some.injEq] at hs
    rw [hget, List.getElem?_append_right hi] at ht
    obtain rfl := List.eq_of_mem_replicate (List.mem_of_getElem? ht)
    exact hs ▸ ⟨hsy, hys⟩

end

/-! ### Building the classifier -/

section
variable [DecidableEq A] {lax : Bool} {m : Mem A (Slot α)} {p tmp : Ptr A} {xs : List α}
  {oracle : ℕ} {classifier : Sorter α → Classifier α} {s : Sorter α}

/-- **Building a classifier makes an ordered partition**: with the default configuration, for every
range that is not a base case, every strict weak order, and whatever sample is drawn. -/
theorem buildClassifier_orders (hc : StrictWeak comp)
    (hbig : 2 * defaultConfig.kBaseCaseSize < xs.length) {fuel : ℕ} (hfuel : xs.length ≤ fuel)
    (harr : p.arr ≠ tmp.arr) (hs : s.data.classifier.Empty)
    (hcl : ∀ s : Sorter α, s.data.classifier.Empty → (classifier s).Empty)
    (hm : Has m p (xs.map .full)) (htmp : Raw m tmp xs.length) (choices : ℕ → ℕ) :
    ∃ s' c numBuckets useEqualBuckets choices' m',
      run (slots A α lax)
        (buildClassifier comp defaultConfig
        (sequential comp defaultConfig fuel) p xs.length tmp oracle
        classifier s) choices m = .ok ((s', c, numBuckets, useEqualBuckets), choices', m') ∧
      (∃ k d, numBuckets = 2 ^ k * (1 + useEqualBuckets.toNat) ∧ c.Stores comp xs k d) ∧
      c.Orders comp numBuckets useEqualBuckets := by
  have hfits := defaultConfig_sound.fits xs.length hbig
  have hsat : Sat (slots A α lax) (workspace p tmp oracle xs.length) _ m _ :=
    sat_buildClassifier hc (sat_sequential hc defaultConfig_sound fuel)
      (hfits.sample_lt.trans_le hfuel) hfits.sample_lt.le hfits.log_pos harr hs hcl hm htmp
  obtain ⟨⟨s', c, nb, eq⟩, choices', m', hrun, -, -, sample, rest, hperm, -, hsample, hbuilt, hr⟩ :=
    hsat.run choices
  obtain ⟨rfl, rfl⟩ := Prod.mk.inj hr
  refine ⟨s', c, _, _, choices', m', hrun, ⟨_, _, rfl, hsample.stores hc hbuilt fun x hx => ?_⟩, ?_⟩
  · exact hperm.mem_iff.mp (List.mem_append_left _ hx)
  · have hlog := hfits.log_le
    have hle := hsample.leaves_le hc
    exact hbuilt.orders hc (hsample.splitters_sorted hc) (by omega) _

end

/-- A hundred numbers, some of them equal. -/
theorem buildClassifier_orders_hundred : ∃ s' c numBuckets useEqualBuckets choices' m',
    run (slots Arr ℕ false) (buildClassifier (fun a b => decide (a < b)) defaultConfig
      (sequential (fun a b => decide (a < b)) defaultConfig 100) ⟨.input, 0⟩
      ((List.range 100).map fun i => i % 40).length
      ⟨.tmp, 0⟩ 0 (fun s => s.data.classifier) (Sorter.new (fun b => b) (fun b => 7 * b) 3))
        (fun i => 31 * i)
      (Mem.ofList ⟨.input, 0⟩ ((List.range 100).map fun i => i % 40) fun _ => 9) =
        .ok ((s', c, numBuckets, useEqualBuckets), choices', m') ∧
    (∃ k d, numBuckets = 2 ^ k * (1 + useEqualBuckets.toNat) ∧
      c.Stores (fun a b => decide (a < b)) ((List.range 100).map fun i => i % 40) k d) ∧
    c.Orders (fun a b => decide (a < b)) numBuckets useEqualBuckets :=
  buildClassifier_orders (StrictWeak.of_linearOrder ℕ) (by simp [defaultConfig])
    (by simp) (by decide)
    (Sorter.new_empty _ _ _) (fun _ h => h) (has_ofList _ _ _) (raw_ofList _ _ (by decide) _) _

end Ps4o
