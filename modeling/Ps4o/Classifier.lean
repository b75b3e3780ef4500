import Ps4o.SplitterTree
import Mathlib.Tactic.Ring

/-!
# The classifier

The bucket of an element is the number of splitters that are less than it; with equality buckets,
the elements that are equal to a splitter have a bucket of their own.

## What is proved

* `Built.classify` — descending the tree finds the bucket.
* `bucketOf_ordered`, `bucketOf_equal` — smaller elements are in earlier buckets, and all elements
  of an equality bucket are equal.
* `sat_classifyRange` — classifying a range yields every element's bucket, in order.
-/

namespace Ps4o

open Ps4o.Program Ps4o.Storage Ps4o.Order

variable {α : Type}

namespace Classifier

variable (comp : α → α → Bool)
variable {A β : Type}

/-! ### What is found -/

/-- The number of splitters less than a value. -/
def lowerBound (splitters : List α) (value : α) : ℕ := splitters.countP fun s => comp s value

/-- The bucket of a value. -/
def bucketOf (kEqualBuckets : Bool) (splitters : List α) (value : α) : ℕ :=
  let c := lowerBound comp splitters value
  if kEqualBuckets then 2 * c + ((splitters[c]?).elim true fun s => !comp value s).toNat else c

variable {comp}

theorem bucketOf_lt (eq : Bool) {splitters : List α} {k : ℕ} (hl : splitters.length = 2 ^ k - 1)
    (value : α) : bucketOf comp eq splitters value < 2 ^ (k + eq.toNat) := by
  have hle : lowerBound comp splitters value ≤ splitters.length := List.countP_le_length
  have hpos := Nat.two_pow_pos k
  cases eq with
  | false =>
    simp only [bucketOf, Bool.false_eq_true, if_false, Bool.toNat_false, Nat.add_zero]
    omega
  | true =>
    simp only [bucketOf, if_true, Bool.toNat_true, pow_succ]
    have := Bool.toNat_le (splitters[lowerBound comp splitters value]?.elim true
      fun s => !comp value s)
    omega

/-- A value that is greater than all splitters counts as equal to the one behind the last. -/
theorem bucketOf_ne (splitters : List α) (value : α) :
    bucketOf comp true splitters value ≠ 2 * splitters.length := by
  have hle : lowerBound comp splitters value ≤ splitters.length := List.countP_le_length
  simp only [bucketOf, if_true]
  rcases Nat.eq_or_lt_of_le hle with heq | hlt
  · rw [heq, List.getElem?_eq_none le_rfl, Option.elim_none, Bool.toNat_true]
    omega
  · have := Bool.toNat_le (splitters[lowerBound comp splitters value]?.elim true
      fun s => !comp value s)
    omega

theorem Built.sortedSplitter {c : Classifier α} {k : ℕ} {splitters : List α}
    (h : c.Built k splitters) {i : ℕ} (hi : i < splitters.length) :
    c.sortedSplitter i = some splitters[i] := by
  rw [Classifier.sortedSplitter, objectAt, h.sorted, List.getElem?_append_left hi,
    List.getElem?_eq_getElem hi]
  rfl

theorem lowerBound_eq {splitters : List α} {value : α} {c : ℕ} (hc : c ≤ splitters.length)
    (h₁ : ∀ i (hi : i < splitters.length), i < c → comp splitters[i] value = true)
    (h₂ : ∀ i (hi : i < splitters.length), c ≤ i → comp splitters[i] value = false) :
    lowerBound comp splitters value = c := by
  rw [lowerBound, ← List.take_append_drop c splitters, List.countP_append]
  have ht : (splitters.take c).countP (fun s => comp s value) = (splitters.take c).length := by
    rw [List.countP_eq_length]
    intro s hs
    obtain ⟨i, hi, rfl⟩ := List.mem_take_iff_getElem.mp hs
    exact h₁ i (by omega) (by omega)
  have hd : (splitters.drop c).countP (fun s => comp s value) = 0 := by
    rw [List.countP_eq_zero]
    intro s hs
    obtain ⟨i, hi, rfl⟩ := List.mem_drop_iff_getElem.mp hs
    simp [h₂ (c + i) (by omega) (by omega)]
  rw [ht, hd, List.length_take]
  omega

section
variable (hc : StrictWeak comp) {splitters : List α} (hsorted : Sorted comp splitters)
include hc hsorted

theorem sorted_getElem {i j : ℕ} (hij : i ≤ j) (hj : j < splitters.length) :
    comp splitters[j] (splitters.get ⟨i, by omega⟩) = false := by
  rcases Nat.eq_or_lt_of_le hij with rfl | hlt
  · exact hc.irrefl _
  · exact List.pairwise_iff_getElem.mp hsorted i j (by omega) hj hlt

omit hsorted in
/-- Fewer splitters are less than `x` than are less than `y`: then `y` is not less than `x`. -/
theorem not_lt_of_lowerBound_lt {x y : α}
    (h : lowerBound comp splitters x < lowerBound comp splitters y) : comp y x = false := by
  cases hyx : comp y x with
  | false => rfl
  | true =>
    refine absurd h (Nat.not_lt_of_le (List.countP_mono_left fun s _ hs => ?_))
    exact hc.lt_trans hs hyx

/-- Which splitters are less than a value. -/
theorem lt_lowerBound_iff (value : α) {i : ℕ} (hi : i < splitters.length) :
    i < lowerBound comp splitters value ↔ comp splitters[i] value = true := by
  have hmono : ∀ j (hj : j ≤ i), comp splitters[i] value = true →
      comp (splitters.get ⟨j, by omega⟩) value = true :=
    fun j hj h => hc.lt_of_le_of_lt (sorted_getElem hc hsorted hj hi) h
  constructor
  · intro hlt
    by_contra hfalse
    -- then no splitter from `i` on is less
    have hle : lowerBound comp splitters value ≤ (splitters.take i).length := by
      rw [lowerBound]
      conv_lhs => rw [← List.take_append_drop i splitters, List.countP_append]
      have hd : (splitters.drop i).countP (fun s => comp s value) = 0 := by
        rw [List.countP_eq_zero]
        intro s hs
        obtain ⟨j, hj, rfl⟩ := List.mem_drop_iff_getElem.mp hs
        intro hlt'
        refine hfalse (hc.lt_of_le_of_lt ?_ hlt')
        exact sorted_getElem hc hsorted (show i ≤ i + j by omega) (by omega)
      rw [hd, Nat.add_zero]
      exact List.countP_le_length
    rw [List.length_take] at hle
    omega
  · intro h
    have htake : ((splitters.take (i + 1)).countP fun s => comp s value) =
        (splitters.take (i + 1)).length := by
      rw [List.countP_eq_length]
      intro s hs
      obtain ⟨j, hj, rfl⟩ := List.mem_take_iff_getElem.mp hs
      exact hmono j (by omega) h
    have hle : ((splitters.take (i + 1)).countP fun s => comp s value) ≤
        lowerBound comp splitters value :=
      (List.take_sublist _ _).countP_le
    rw [htake, List.length_take] at hle
    omega

omit hsorted in
/-- **Buckets are in order**: no element of a bucket is less than one of an earlier bucket. -/
theorem bucketOf_ordered (eq : Bool) {x y : α}
    (h : bucketOf comp eq splitters x < bucketOf comp eq splitters y) : comp y x = false := by
  rcases lt_trichotomy (lowerBound comp splitters x)
    (lowerBound comp splitters y) with hlt | heq | hgt
  · exact not_lt_of_lowerBound_lt hc hlt
  · -- between equal lower bounds, the level below the tree decides
    cases eq with
    | false => simp [bucketOf, heq] at h
    | true =>
      simp only [bucketOf, if_true, heq] at h
      cases hs : splitters[lowerBound comp splitters y]? with
      | none => simp [hs] at h
      | some s =>
        simp only [hs, Option.elim_some] at h
        have hxs : comp x s = true ∧ comp y s = false := by
          revert h
          cases comp x s <;> cases comp y s <;> simp
        obtain ⟨hxs, hys⟩ := hxs
        cases hyx : comp y x with
        | false => rfl
        | true => simp [hc.lt_trans hyx hxs] at hys
  · have h₁ := Bool.toNat_le ((splitters[lowerBound comp splitters y]?).elim true
      fun s => !comp y s)
    cases eq <;> simp only [bucketOf, if_true, Bool.false_eq_true, if_false] at h <;> omega

/-- **The elements of an equality bucket are equal** to the splitter it is for. -/
theorem bucketOf_equal {x : α} {c : ℕ} (h : bucketOf comp true splitters x = 2 * c + 1)
    (hlt : c < splitters.length) : comp x splitters[c] = false ∧ comp splitters[c] x = false := by
  have hle := Bool.toNat_le ((splitters[lowerBound comp splitters x]?).elim true fun s => !comp x s)
  simp only [bucketOf, if_true] at h
  obtain rfl : lowerBound comp splitters x = c := by omega
  constructor
  · simp only [List.getElem?_eq_getElem hlt, Option.elim_some] at h
    cases hx : comp x splitters[lowerBound comp splitters x] <;> simp_all
  · have := (lt_lowerBound_iff hc hsorted x hlt).not.mp (lt_irrefl _)
    simpa using this

theorem descend_eq {k d pos lo : ℕ} {c : Classifier α} {value : α} (htree : c.TreeAt d pos lo)
    (hs : ∀ i (hi : i < splitters.length), c.sortedSplitter i = some splitters[i])
    (hl : splitters.length = 2 ^ k - 1) (hp : pos * 2 ^ d = 2 ^ k + lo) (hlo : lo + 2 ^ d ≤ 2 ^ k)
    (h₁ : ∀ i (hi : i < splitters.length), i < lo → comp splitters[i] value = true)
    (h₂ : ∀ i (hi : i < splitters.length), lo + 2 ^ d ≤ i + 1 → comp splitters[i] value = false)
    {l : List ℕ} (hlen : l.length = d) :
    l.foldlM (fun b _ => c.descend comp value b) pos =
      some (2 ^ k + lowerBound comp splitters value) := by
  induction d generalizing pos lo l with
  | zero =>
    obtain rfl := List.length_eq_zero_iff.mp hlen
    rw [lowerBound_eq (c := lo) (by omega) h₁ fun i hi hle => h₂ i hi (by omega)]
    simpa using hp
  | succ d ih =>
    have hd2 : 2 ^ (d + 1) = 2 * 2 ^ d := by rw [pow_succ, Nat.mul_comm]
    have hdpos : 0 < 2 ^ d := Nat.two_pow_pos d
    obtain ⟨_, l, rfl⟩ := List.exists_cons_of_length_eq_add_one hlen
    have hmid : lo + 2 ^ d - 1 < splitters.length := by omega
    have hstep : c.descend comp value pos =
        some (2 * pos + (comp splitters[lo + 2 ^ d - 1] value).toNat) := by
      simp [descend, htree.1, hs _ hmid]
    rw [List.foldlM_cons, hstep, Option.bind_eq_bind, Option.bind_some]
    cases hcmp : comp splitters[lo + 2 ^ d - 1] value with
    | true =>
      -- everything up to the middle is less: go right
      refine ih (by exact htree.2.2) ?_ (by omega) (fun i hi hlt => ?_)
        (fun i hi hle => h₂ i hi (by omega)) (by simpa using hlen)
      · rw [Bool.toNat_true, Nat.add_mul, Nat.one_mul, ← Nat.add_assoc, ← hp, hd2]
        ring
      · exact hc.lt_of_le_of_lt (sorted_getElem hc hsorted (by omega) hmid) hcmp
    | false =>
      -- nothing from the middle on is less: go left
      refine ih (by exact htree.2.1) ?_ (by omega) h₁ (fun i hi hle => ?_) (by simpa using hlen)
      · rw [Bool.toNat_false, Nat.add_zero, ← hp, hd2]
        ring
      · exact hc.le_trans hcmp (sorted_getElem hc hsorted (by omega) hi)

/-- Descending all levels of the tree finds how many splitters are less. -/
theorem Built.descend {c : Classifier α} {k : ℕ} (h : c.Built k splitters) (value : α) {l : List ℕ}
    (hl : l.length = k) :
    l.foldlM (fun b _ => c.descend comp value b) 1 =
      some (2 ^ k + lowerBound comp splitters value) := by
  have hlen := h.length
  exact descend_eq hc hsorted h.tree (fun i hi => h.sortedSplitter hi) h.length (by omega)
    (by omega) (fun i hi h0 => absurd h0 (by omega)) (fun i hi hle => absurd hle (by omega)) hl

omit hsorted in
/-- The level below the tree tells the elements equal to the next splitter. -/
theorem Built.descendEqual {c : Classifier α} {k : ℕ} (h : c.Built k splitters) (value : α) :
    c.descendEqual comp (2 ^ k) value (2 ^ k + lowerBound comp splitters value) =
      some (2 ^ (k + 1) + bucketOf comp true splitters value) := by
  have hk := h.log_pos
  have hk2 : 2 ≤ 2 ^ k := Nat.le_self_pow (by omega) 2
  have hlen := h.length
  have hle : lowerBound comp splitters value ≤ splitters.length := List.countP_le_length
  simp only [Classifier.descendEqual, Nat.add_sub_cancel_left, bucketOf, if_true]
  by_cases hlt : lowerBound comp splitters value < splitters.length
  · rw [h.sortedSplitter hlt, List.getElem?_eq_getElem hlt]
    simp only [Option.bind_eq_bind, Option.bind_some, Option.pure_def,
      Option.elim_some, Option.some.injEq, pow_succ]
    ring
  · -- past the last splitter: compare with its duplicate
    have heq : lowerBound comp splitters value = splitters.length := by omega
    obtain ⟨x, hx⟩ : ∃ x, splitters.getLast? = some x :=
      ⟨_, List.getLast?_eq_getLast_of_ne_nil (List.ne_nil_of_length_pos (by omega))⟩
    have hless : comp x value = true := by
      rw [lowerBound, List.countP_eq_length] at heq
      exact heq x (List.mem_of_getLast? hx)
    rw [heq, Classifier.sortedSplitter, objectAt, h.sorted, List.getElem?_append_right le_rfl, hx,
      List.getElem?_eq_none le_rfl]
    simp [hc.asymm hless, pow_succ]
    ring

/-- **Classifying an element finds its bucket.** -/
theorem Built.classify {c : Classifier α} {k : ℕ} (h : c.Built k splitters) (hk : k ≤ 9) (eq : Bool)
    (value : α) : c.classify comp eq value = some (bucketOf comp eq splitters value) := by
  have hpos := h.log_pos
  rw [Classifier.classify, h.log, if_neg (by omega), h.descend hc hsorted value List.length_range,
    Option.bind_eq_bind, Option.bind_some, h.num]
  cases eq with
  | false => simp [bucketOf]
  | true =>
    simp only [if_true, h.descendEqual hc value, Option.bind_some, Option.pure_def]
    rw [pow_succ, Nat.mul_comm, Nat.add_sub_cancel_left]

end

/-! ### Classifying a range -/

section
variable {A β : Type} [DecidableEq A] {lax : Bool} {R : Set (Loc A)} {m : Mem A (Slot α)}

/-- A loop that updates one lane per round, from a value that is only read. -/
theorem sat_lanes {n : ℕ} {b f : ℕ → ℕ} {p : Ptr A} {step : α → ℕ → Option ℕ} {x : ℕ → α}
    (hR : ∀ i < n, .elem (p + i) ∈ R) (hx : ∀ i < n, m.slot (p + i) = .full (x i))
    (hstep : ∀ i < n, step (x i) (b i) = some (f i)) :
    Sat (slots A α lax) R (Prog.loop (fun i b => do
        let v ← readAt (p + i)
        let bi ← Prog.ofOption (step v (b i))
        pure (Function.update b i bi)) n b) m fun (r : ℕ → ℕ) m' =>
      m' = m ∧ ∀ i, r i = if i < n then f i else b i := by
  refine sat_loop (fun j (r : ℕ → ℕ) m' => m' = m ∧ ∀ i, r i = if i < j then f i
    else b i) ⟨rfl, by simp⟩ fun i hi r m' hr => ?_
  obtain ⟨rfl, hr⟩ := hr
  rw [sat_bind]
  refine sat_readAt (hR i hi) (hx i hi) ?_
  rw [sat_bind, sat_ofOption]
  refine ⟨f i, by rw [hr i, if_neg (by omega), hstep i hi], rfl, fun j => ?_⟩
  rw [Function.update_apply, hr]
  split_ifs <;> first | rfl | omega | simp_all

/-- The node reached after `l` levels. -/
def descendTo (comp : α → α → Bool) (c : Classifier α) (value : α) (l : ℕ) : Option ℕ :=
  (List.range l).foldlM (fun b _ => c.descend comp value b) 1

theorem descendTo_succ (c : Classifier α) (value : α) (l : ℕ) :
    c.descendTo comp value (l + 1) = (c.descendTo comp value l).bind (c.descend comp value) := by
  simp [descendTo, List.range_succ, Option.bind_eq_bind]

theorem descendTo_isSome {c : Classifier α} {value : α} {l k : ℕ} (hl : l ≤ k) {b : ℕ}
    (h : c.descendTo comp value k = some b) : ∃ b', c.descendTo comp value l = some b' := by
  induction k generalizing b with
  | zero => exact ⟨b, by rwa [Nat.le_zero.mp hl]⟩
  | succ k ih =>
    rcases Nat.eq_or_lt_of_le hl with rfl | hlt
    · exact ⟨b, h⟩
    · rw [descendTo_succ] at h
      obtain ⟨b', hb', -⟩ := Option.bind_eq_some_iff.mp h
      exact ih (by omega) hb'

variable (hc : StrictWeak comp) {splitters : List α} (hsorted : Sorted comp splitters)
  {c : Classifier α} {k : ℕ} (h : c.Built k splitters)
include hc hsorted h

theorem Built.descendTo (value : α) :
    c.descendTo comp value k = some (2 ^ k + lowerBound comp splitters value) :=
  h.descend hc hsorted value List.length_range

theorem sat_unrolledLeaves {eq : Bool} {kUnroll : ℕ} {p : Ptr A} {x : ℕ → α}
    (hR : ∀ i < kUnroll, .elem (p + i) ∈ R) (hx : ∀ i < kUnroll, m.slot (p + i) = .full (x i)) :
    Sat (slots A α lax) R (unrolledLeaves comp eq k kUnroll c p) m fun (b : ℕ → ℕ) m' =>
      m' = m ∧ ∀ i < kUnroll, b i = 2 ^ (k + eq.toNat) + bucketOf comp eq splitters (x i) := by
  rw [unrolledLeaves, sat_bind]
  refine (sat_loop (fun l (b : ℕ → ℕ) m' => m' = m ∧
    (l ≤ k → ∀ i < kUnroll, c.descendTo comp (x i) l = some (b i)))
    ⟨rfl, fun _ _ _ => rfl⟩ fun l hl b m' hb => ?_).imp fun b m' hb => ?_
  · obtain ⟨rfl, hb⟩ := hb
    choose! f hf using fun i => descendTo_isSome (l := l + 1) hl (h.descendTo hc hsorted (x i))
    refine (sat_lanes (f := f) hR hx fun i hi => ?_).imp fun r m' hr => ⟨hr.1, fun _ i hi => ?_⟩
    · rw [← hf i, descendTo_succ, hb (by omega) i hi, Option.bind_some]
    · rw [hr.2, if_pos hi, hf i]
  obtain ⟨rfl, hb⟩ := hb
  have hb' : ∀ i < kUnroll, b i = 2 ^ k + lowerBound comp splitters (x i) := fun i hi => by
    have := hb le_rfl i hi
    rw [h.descendTo hc hsorted] at this
    exact (Option.some.inj this).symm
  cases eq with
  | false => exact ⟨rfl, fun i hi => by simpa [bucketOf] using hb' i hi⟩
  | true =>
    refine (sat_lanes (f := fun i => 2 ^ (k + 1) + bucketOf comp true splitters (x i)) hR hx
      fun i hi => ?_).imp fun r m'' hr => ⟨hr.1, fun i hi => by rw [hr.2, if_pos hi]; rfl⟩
    rw [hb' i hi, show 2 ^ (k + true.toNat) / 2 = 2 ^ k by simp [pow_succ]]
    exact h.descendEqual hc (x i)

theorem sat_restLeaf {eq : Bool} {p : Ptr A} {x : α} (hR : .elem p ∈ R) (hx : m.slot p = .full x) :
    Sat (slots A α lax) R (restLeaf comp eq k c p) m fun b m' =>
      m' = m ∧ b = 2 ^ (k + eq.toNat) + bucketOf comp eq splitters x := by
  rw [restLeaf, sat_bind]
  refine (sat_loop (fun l b m' => m' = m ∧ (l ≤ k → c.descendTo comp x l = some b))
    ⟨rfl, fun _ => rfl⟩ fun l hl b m' hb => ?_).imp fun b m' hb => ?_
  · obtain ⟨rfl, hb⟩ := hb
    obtain ⟨b', hb'⟩ := descendTo_isSome (l := l + 1) hl (h.descendTo hc hsorted x)
    rw [sat_bind]
    refine sat_readAt hR hx (sat_ofOption.mpr ⟨b', ?_, rfl, fun _ => hb'⟩)
    rw [← hb', descendTo_succ, hb (by omega), Option.bind_some]
  obtain ⟨rfl, hb⟩ := hb
  obtain rfl : 2 ^ k + lowerBound comp splitters x = b := by
    have := hb le_rfl
    rw [h.descendTo hc hsorted] at this
    exact Option.some.inj this
  cases eq with
  | false => exact ⟨rfl, rfl⟩
  | true =>
    refine sat_bind.mpr (sat_readAt hR hx (sat_ofOption.mpr ⟨_, ?_, rfl, rfl⟩))
    rw [show 2 ^ (k + true.toNat) / 2 = 2 ^ k by simp [pow_succ]]
    exact h.descendEqual hc x

/-- **The unrolled loop yields every element's bucket, in order**: whatever the callback keeps up
from each element to the next, it keeps up to the end, if it leaves the elements that are still to
come. -/
theorem sat_unrolled {eq : Bool} {kUnroll : ℕ} {p : Ptr A} {xs : List α}
    (yield : ℕ → Ptr A → β → Act A α β) {s : β} (hU : 1 ≤ kUnroll)
    (hR : seg p xs.length ⊆ R) (I : ℕ → β → Mem A (Slot α) → Prop)
    (hI : ∀ j s m, I j s m → ∀ (i : ℕ) (x : α), j ≤ i → xs[i]? = some x → m.slot (p + i) = .full x)
    (h₀ : I 0 s m) (hy : ∀ j (hj : j < xs.length) s m, I j s m →
      Sat (slots A α lax) R (yield (bucketOf comp eq splitters xs[j]) (p + j) s) m (I (j + 1))) :
    Sat (slots A α lax) R
      (do
        let s ← Prog.loop (fun round s => do
          let b ← unrolledLeaves comp eq k kUnroll c (p + round * kUnroll)
          Prog.loop (fun i s => yield (b i - 2 ^ (k + eq.toNat)) (p + (round * kUnroll + i)) s)
            kUnroll s) (xs.length / kUnroll) s
        Prog.loop (fun i s => do
          let b ← restLeaf comp eq k c (p + (xs.length / kUnroll * kUnroll + i))
          yield (b - 2 ^ (k + eq.toNat)) (p + (xs.length / kUnroll * kUnroll + i)) s)
            (xs.length % kUnroll) s) m (I xs.length) := by
  have hmul : xs.length / kUnroll * kUnroll + xs.length % kUnroll = xs.length :=
    Nat.div_add_mod' _ _
  rw [sat_bind]
  refine (sat_loop (fun j s m => I (j * kUnroll) s m) (by simpa using h₀) fun j hj s m hs => ?_).imp
    fun s m hs => ?_
  · have hle : (j + 1) * kUnroll ≤ xs.length :=
      (Nat.mul_le_mul_right _ hj).trans (Nat.div_mul_le_self _ _)
    rw [Nat.add_mul, Nat.one_mul] at hle ⊢
    let x (i : ℕ) : α := xs[j * kUnroll + i]?.getD (xs.get ⟨0, by omega⟩)
    have hx : ∀ i (hi : i < kUnroll), x i = xs.get ⟨j * kUnroll + i, by omega⟩ := fun i hi => by
      simp [x, List.getElem?_eq_getElem (show j * kUnroll + i < xs.length by omega)]
    rw [sat_bind]
    refine (sat_unrolledLeaves hc hsorted h (x := x) (fun i hi => ?_) fun i hi => ?_).imp ?_
    · rw [Ptr.add_assoc]
      exact hR (elem_add_mem_seg.mpr (by omega))
    · rw [Ptr.add_assoc, hx i hi]
      exact hI _ _ _ hs _ _ (Nat.le_add_right _ _)
        (by simp [show j * kUnroll + i < xs.length by omega])
    rintro b m' ⟨rfl, hb⟩
    refine sat_loop (fun i s m => I (j * kUnroll + i) s m) (by simpa using hs) fun i hi s m hs => ?_
    rw [hb i hi, Nat.add_sub_cancel_left, hx i hi]
    exact hy _ _ _ _ hs
  · refine (sat_loop (fun i s m => I (xs.length / kUnroll * kUnroll + i) s m) (by simpa using hs)
      fun i hi s m hs => ?_).imp fun s m hs => by rwa [hmul] at hs
    have hlt : xs.length / kUnroll * kUnroll + i < xs.length := by omega
    rw [sat_bind]
    refine (sat_restLeaf hc hsorted h (x := xs[xs.length / kUnroll * kUnroll + i])
      (hR (elem_add_mem_seg.mpr hlt)) (hI _ _ _ hs _ _ le_rfl (by simp [hlt]))).imp ?_
    rintro b m' ⟨rfl, rfl⟩
    rw [Nat.add_sub_cancel_left]
    exact hy _ hlt _ _ hs

/-- The callbacks here are given the buckets only. -/
theorem sat_classifyUnrolled {eq : Bool} {kUnroll : ℕ} {p : Ptr A} {xs : List α}
    {yield : ℕ → β → Act A α β} {s : β} (hU : 1 ≤ kUnroll) (hn : kUnroll ≤ xs.length)
    (hR : seg p xs.length ⊆ R) (I : ℕ → β → Mem A (Slot α) → Prop)
    (hI : ∀ j s m, I j s m → Has m p (xs.map .full)) (h₀ : I 0 s m)
    (hy : ∀ j (hj : j < xs.length) s m, I j s m →
      Sat (slots A α lax) R (yield (bucketOf comp eq splitters xs[j]) s) m (I (j + 1))) :
    Sat (slots A α lax) R (classifyUnrolled comp eq k kUnroll c p xs.length yield s) m
      (I xs.length) := by
  rw [classifyUnrolled, if_neg (by omega)]
  refine sat_unrolled hc hsorted h (fun b _ => yield b) hU hR I ?_ h₀ hy
  intro j s m hs i x _ hx
  exact hI j s m hs i _ (by rw [List.getElem?_map, hx, Option.map_some])

/-- Classifying a range yields every element's bucket, in order. -/
theorem sat_classifyRange {eq : Bool} {kUnroll : ℕ} {p : Ptr A} {xs : List α}
    {yield : ℕ → β → Act A α β} {s : β} (hk : k ≤ 8) (hU : 1 ≤ kUnroll) (hn : kUnroll ≤ xs.length)
    (hR : seg p xs.length ⊆ R) (I : ℕ → β → Mem A (Slot α) → Prop)
    (hI : ∀ j s m, I j s m → Has m p (xs.map .full)) (h₀ : I 0 s m)
    (hy : ∀ j (hj : j < xs.length) s m, I j s m →
      Sat (slots A α lax) R (yield (bucketOf comp eq splitters xs[j]) s) m (I (j + 1))) :
    Sat (slots A α lax) R (classifyRange comp eq kUnroll c p xs.length yield s) m
      (I xs.length) := by
  rw [classifyRange, if_pos ⟨h.log ▸ h.log_pos, h.log ▸ hk⟩, h.log]
  exact sat_classifyUnrolled hc hsorted h hU hn hR I hI h₀ hy

end

/-! ### From the splitters to the buckets -/

/-- What building the classifier from the splitters makes of a value: how many splitters are less,
and whether the next one is equal. -/
def FindsBucket (comp : α → α → Bool) (c : Classifier α) (k : ℕ) (splitters : List α) (value : α) :
    Prop :=
  let less := lowerBound comp splitters value
  ∃ c', c.build k = some c' ∧ c'.classify comp false value = some less ∧
    c'.classify comp true value =
      some (2 * less + if less = 2 ^ k - 1 ∨ ∃ s ∈ splitters[less]?, comp value s = false then 1
        else 0)

/-- The search is an exact lower bound, where there is room for as many levels. -/
theorem Filled.findsBucket (hc : StrictWeak comp) {splitters : List α}
    (hsorted : Sorted comp splitters) {k : ℕ} (hk : 1 ≤ k) (hk9 : k ≤ 9)
    (hl : splitters.length = 2 ^ k - 1) {c : Classifier α} (h : c.Filled splitters) (value : α) :
    FindsBucket comp c k splitters value := by
  obtain ⟨c', hbuild, hbuilt⟩ := h.built hk hl
  refine ⟨c', hbuild, hbuilt.classify hc hsorted hk9 false value, ?_⟩
  rw [hbuilt.classify hc hsorted hk9 true value, bucketOf, if_pos rfl]
  congr 2
  rcases Nat.lt_or_ge (lowerBound comp splitters value) splitters.length with hlt | hge
  · rw [List.getElem?_eq_getElem hlt, Option.elim_some]
    cases hcomp : comp value splitters[lowerBound comp splitters value] with
    | false => simp [hcomp]
    | true => simp [hcomp, (hlt.trans_eq hl).ne]
  · have heq : lowerBound comp splitters value = 2 ^ k - 1 :=
      (le_antisymm List.countP_le_length hge).trans hl
    rw [List.getElem?_eq_none hge, Option.elim_none, if_pos (.inl heq)]
    rfl

end Classifier

/-- The classifier that has been built from one splitter. -/
theorem exists_built (s : α) : ∃ c : Classifier α, c.Built 1 [s] := by
  have hfilled : (⟨fun _ => .raw, fun i => ([s][i]?).elim .raw .full, 0, 0⟩ : Classifier α).Filled
      [s] :=
    ⟨fun _ => rfl, fun _ => rfl⟩
  obtain ⟨c, -, hc⟩ := hfilled.built le_rfl rfl
  exact ⟨c, hc⟩

end Ps4o
