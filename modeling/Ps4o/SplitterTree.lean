import Ps4o.Config
import Ps4o.Order.WeakOrder
import Ps4o.Program.Segment
import Mathlib.Tactic.Ring

/-!
# The splitters and their tree

The branch-free classifier (`classifier.hpp`): a sorted array of splitters, filled from outside and
with its last entry duplicated, and the same splitters as an implicit binary tree, which `build`
fills and `classify` descends.

The two arrays are object storage of their own: constructing needs a raw slot, reading and
destroying an object. Their declared length `kMaxBuckets / 2` is not built in here; over arrays of
that length the same code runs as `Classifier.within`.

## What is proved

* `buildTree_eq` — each inner node of the tree is built once, from the splitter in the middle.
* `Filled.built` — what is built from splitters that have been filled in.
* `Built.reset` — destroying what has been built leaves nothing behind.
-/

namespace Ps4o

open Ps4o.Program Ps4o.Storage Ps4o.Order

variable {α : Type}

/-- The splitters. -/
structure Classifier (α : Type) where
  /-- The tree, filled from `1` to `numBuckets`. -/
  storage : ℕ → Slot α
  /-- The sorted splitters, filled from `0` to `numBuckets`, last one duplicated. -/
  sortedStorage : ℕ → Slot α
  /-- Logarithm of the number of leaves; `0` when there are no splitters. -/
  logBuckets : ℕ
  /-- The number of leaves. -/
  numBuckets : ℕ

namespace Classifier

/-- The object in a slot of an array. -/
def objectAt (a : ℕ → Slot α) (i : ℕ) : Option α :=
  match a i with
  | .full x => some x
  | _ => none

/-- `new (a + i) value_type(x)`. -/
def newAt (a : ℕ → Slot α) (i : ℕ) (x : α) : Option (ℕ → Slot α) :=
  match a i with
  | .raw => some (Function.update a i (.full x))
  | _ => none

/-- `(a + i)->~value_type()`. -/
def deleteAt (a : ℕ → Slot α) (i : ℕ) : Option (ℕ → Slot α) :=
  match a i with
  | .raw => none
  | _ => some (Function.update a i .raw)

/-- A splitter of the tree. -/
def splitter (c : Classifier α) (i : ℕ) : Option α := objectAt c.storage i

/-- A sorted splitter. -/
def sortedSplitter (c : Classifier α) (i : ℕ) : Option α := objectAt c.sortedStorage i

/-- `new (sorted_splitters + i) value_type(x)`. -/
def newSorted (c : Classifier α) (i : ℕ) (x : α) : Option (Classifier α) := do
  let s ← newAt c.sortedStorage i x
  pure { c with sortedStorage := s }

/-- Recursively builds the tree, at most `depth` levels of it. -/
def buildTree : (depth left right pos : ℕ) → Classifier α → Option (Classifier α)
  | 0, _, _, _, _ => none
  | depth + 1, left, right, pos, c => do
    let mid := left + (right - left) / 2
    let x ← c.sortedSplitter mid
    let t ← newAt c.storage pos x
    let c := { c with storage := t }
    if 2 * pos < c.numBuckets then
      let c ← buildTree depth left mid (2 * pos) c
      buildTree depth mid right (2 * pos + 1) c
    else
      pure c

/-- Builds the tree from the sorted splitters. -/
def build (c : Classifier α) (logBuckets : ℕ) : Option (Classifier α) := do
  let numSplitters := 2 ^ logBuckets - 1
  let c := { c with logBuckets := logBuckets, numBuckets := 2 ^ logBuckets }
  let last ← c.sortedSplitter (numSplitters - 1)
  let c ← c.newSorted numSplitters last
  buildTree logBuckets 0 numSplitters 1 c

/-- Destructs splitters. -/
def cleanup (c : Classifier α) : Option (Classifier α) := do
  let c ← (List.range (c.numBuckets - 1)).foldlM (fun c i => do
    let t ← deleteAt c.storage (1 + i)
    let s ← deleteAt c.sortedStorage i
    pure { c with storage := t, sortedStorage := s }) c
  let s ← deleteAt c.sortedStorage (c.numBuckets - 1)
  pure { c with sortedStorage := s, logBuckets := 0 }

/-- Calls destructors on splitter elements. -/
def reset (c : Classifier α) : Option (Classifier α) :=
  if c.logBuckets = 0 then some c else c.cleanup

variable (comp : α → α → Bool)

/-- One level down the tree. -/
def descend (c : Classifier α) (value : α) (b : ℕ) : Option ℕ := do
  let s ← c.splitter b
  pure (2 * b + (comp s value).toNat)

/-- The level below the tree, which tells equal elements from smaller ones. -/
def descendEqual (c : Classifier α) (numBuckets : ℕ) (value : α) (b : ℕ) : Option ℕ := do
  let s ← c.sortedSplitter (b - numBuckets)
  pure (2 * b + (!comp value s).toNat)

/-- Classifies a single element. -/
def classify (kEqualBuckets : Bool) (c : Classifier α) (value : α) : Option ℕ :=
  if c.logBuckets < 1 ∨ c.logBuckets > 9 then
    none
  else do
    let b ← (List.range c.logBuckets).foldlM (fun b _ => c.descend comp value b) 1
    let b ← if kEqualBuckets then c.descendEqual comp c.numBuckets value b else pure b
    pure (b - if kEqualBuckets then 2 * c.numBuckets else c.numBuckets)

variable {A β : Type}

/-- The leaves of the `kUnroll` elements from `p` on, level by level. -/
def unrolledLeaves (kEqualBuckets : Bool) (kLogBuckets kUnroll : ℕ) (c : Classifier α) (p : Ptr A) :
    Act A α (ℕ → ℕ) := do
  let kNumBuckets := 2 ^ (kLogBuckets + kEqualBuckets.toNat)
  let b ← Prog.loop (fun _ b => Prog.loop (fun i b => do
    let v ← readAt (p + i)
    let bi ← Prog.ofOption (c.descend comp v (b i))
    pure (Function.update b i bi)) kUnroll b) kLogBuckets (fun _ => 1)
  if kEqualBuckets then
    Prog.loop (fun i b => do
      let v ← readAt (p + i)
      let bi ← Prog.ofOption (c.descendEqual comp (kNumBuckets / 2) v (b i))
      pure (Function.update b i bi)) kUnroll b
  else
    pure b

/-- The leaf of the element at `p`. -/
def restLeaf (kEqualBuckets : Bool) (kLogBuckets : ℕ) (c : Classifier α) (p : Ptr A) :
    Act A α ℕ := do
  let kNumBuckets := 2 ^ (kLogBuckets + kEqualBuckets.toNat)
  let b ← Prog.loop (fun _ b => do
    let v ← readAt p
    Prog.ofOption (c.descend comp v b)) kLogBuckets 1
  if kEqualBuckets then
    let v ← readAt p
    Prog.ofOption (c.descendEqual comp (kNumBuckets / 2) v b)
  else
    pure b

/-- Classifies the elements from `p` on, `kUnroll` at a time, then the rest one by one. -/
def classifyUnrolled (kEqualBuckets : Bool) (kLogBuckets kUnroll : ℕ) (c : Classifier α) (p : Ptr A)
    (n : ℕ) (yield : ℕ → β → Act A α β) (s : β) : Act A α β :=
  let kNumBuckets := 2 ^ (kLogBuckets + kEqualBuckets.toNat)
  if n = 0 ∨ n < kUnroll then
    undefined
  else do
    let s ← Prog.loop (fun round s => do
      let b ← unrolledLeaves comp kEqualBuckets kLogBuckets kUnroll c (p + round * kUnroll)
      Prog.loop (fun i s => yield (b i - kNumBuckets) s) kUnroll s) (n / kUnroll) s
    Prog.loop (fun i s => do
      let b ← restLeaf comp kEqualBuckets kLogBuckets c (p + (n / kUnroll * kUnroll + i))
      yield (b - kNumBuckets) s) (n % kUnroll) s

/-- Classifies all elements using a callback. -/
def classifyRange (kEqualBuckets : Bool) (kUnroll : ℕ) (c : Classifier α) (p : Ptr A) (n : ℕ)
    (yield : ℕ → β → Act A α β) (s : β) : Act A α β :=
  if 1 ≤ c.logBuckets ∧ c.logBuckets ≤ 8 then
    classifyUnrolled comp kEqualBuckets c.logBuckets kUnroll c p n yield s
  else
    undefined

/-! ### The tree -/

/-- The subtree of `depth` levels below `pos` holds, in order, the sorted splitters from
`lo` on. -/
def TreeAt (c : Classifier α) : (depth pos lo : ℕ) → Prop
  | 0, _, _ => True
  | d + 1, pos, lo =>
    c.splitter pos = c.sortedSplitter (lo + 2 ^ d - 1) ∧
      TreeAt c d (2 * pos) lo ∧ TreeAt c d (2 * pos + 1) (lo + 2 ^ d)

/-- Node `i` is in the subtree of `depth` levels below `pos`. -/
def Below (depth pos i : ℕ) : Prop := ∃ l < depth, i / 2 ^ l = pos

theorem below_left {d pos i : ℕ} (h : Below d (2 * pos) i) : Below (d + 1) pos i := by
  obtain ⟨l, hl, h⟩ := h
  refine ⟨l + 1, by omega, ?_⟩
  rw [pow_succ, ← Nat.div_div_eq_div_mul, h]
  omega

theorem below_right {d pos i : ℕ} (h : Below d (2 * pos + 1) i) : Below (d + 1) pos i := by
  obtain ⟨l, hl, h⟩ := h
  refine ⟨l + 1, by omega, ?_⟩
  rw [pow_succ, ← Nat.div_div_eq_div_mul, h]
  omega

/-- An ancestor is smaller. -/
theorem le_of_below {d pos i : ℕ} (h : Below d pos i) : pos ≤ i := by
  obtain ⟨l, -, rfl⟩ := h
  exact Nat.div_le_self _ _

theorem not_below_both {d pos i : ℕ} (hpos : 0 < pos) (hl : Below d (2 * pos) i) :
    ¬ Below d (2 * pos + 1) i := by
  rintro ⟨r, -, hr⟩
  obtain ⟨l, -, hl⟩ := hl
  rcases lt_trichotomy l r with h | rfl | h
  · obtain ⟨e, rfl⟩ := Nat.exists_eq_add_of_lt h
    rw [show l + e + 1 = l + (e + 1) by omega, pow_add, ← Nat.div_div_eq_div_mul, hl, pow_succ,
      Nat.mul_comm (2 ^ e), ← Nat.div_div_eq_div_mul, Nat.mul_div_cancel_left _ (by omega)] at hr
    have := Nat.div_le_self pos (2 ^ e)
    omega
  · omega
  · obtain ⟨e, rfl⟩ := Nat.exists_eq_add_of_lt h
    rw [show r + e + 1 = r + (e + 1) by omega, pow_add, ← Nat.div_div_eq_div_mul, hr, pow_succ,
      Nat.mul_comm (2 ^ e), ← Nat.div_div_eq_div_mul, show (2 * pos + 1) / 2 = pos by omega] at hl
    have := Nat.div_le_self pos (2 ^ e)
    omega

theorem TreeAt.congr {c c' : Classifier α} {d pos lo : ℕ} (h : c.TreeAt d pos lo)
    (hs : c'.sortedStorage = c.sortedStorage)
    (ht : ∀ i, Below d pos i → c'.storage i = c.storage i) : c'.TreeAt d pos lo := by
  induction d generalizing pos lo with
  | zero => trivial
  | succ d ih =>
    refine ⟨?_, ih h.2.1 fun i hi => ht i (below_left hi),
      ih h.2.2 fun i hi => ht i (below_right hi)⟩
    have hp : c'.storage pos = c.storage pos := ht pos ⟨0, by omega, by simp⟩
    simpa only [splitter, sortedSplitter, objectAt, hp, hs] using h.1

/-- A node with two levels below it is not a leaf. -/
theorem two_mul_lt {k d pos lo : ℕ} (hd : 0 < d) (hp : pos * 2 ^ (d + 1) = 2 ^ k + lo)
    (hlo : lo + 2 ^ (d + 1) ≤ 2 ^ k) : 2 * pos < 2 ^ k := by
  have hd2 : 2 ≤ 2 ^ d := Nat.le_self_pow hd.ne' 2
  have hlt : 2 * pos * 2 ^ d < 2 ^ k * 2 ^ d := calc
    2 * pos * 2 ^ d = 2 ^ k + lo := by rw [← hp, pow_succ]; ring
    _ < 2 ^ k * 2 := by have := Nat.two_pow_pos (d + 1); omega
    _ ≤ 2 ^ k * 2 ^ d := Nat.mul_le_mul_left _ hd2
  exact Nat.lt_of_mul_lt_mul_right hlt

/-- `buildTree` fills the subtree below `pos` with the sorted splitters from `lo` on, and
nothing else. The left boundary it is given is `lo` or, in a right half, one less. -/
theorem buildTree_eq {k d left right pos lo : ℕ} {c : Classifier α} (hd : 0 < d) (hpos : 0 < pos)
    (hn : c.numBuckets = 2 ^ k) (hl : left = lo ∨ left + 1 = lo) (hr : right + 1 = lo + 2 ^ d)
    (hp : pos * 2 ^ d = 2 ^ k + lo) (hlo : lo + 2 ^ d ≤ 2 ^ k)
    (hs : ∀ i < 2 ^ k - 1, ∃ x, c.sortedStorage i = .full x)
    (hraw : ∀ i, Below d pos i → c.storage i = .raw) :
    ∃ t, buildTree d left right pos c = some { c with storage := t } ∧
      ({ c with storage := t } : Classifier α).TreeAt d pos lo ∧
      (∀ i, ¬ Below d pos i → t i = c.storage i) := by
  induction d generalizing left right pos lo c with
  | zero => omega
  | succ d ih =>
    have hd2 : 2 ^ (d + 1) = 2 * 2 ^ d := by rw [pow_succ, Nat.mul_comm]
    have hdpos : 0 < 2 ^ d := Nat.two_pow_pos d
    have hmid : left + (right - left) / 2 = lo + 2 ^ d - 1 := by omega
    obtain ⟨x, hx⟩ := hs (lo + 2 ^ d - 1) (by omega)
    have hpraw : c.storage pos = .raw := hraw pos ⟨0, by omega, by simp⟩
    have hsx : c.sortedSplitter (lo + 2 ^ d - 1) = some x := by simp [sortedSplitter, objectAt, hx]
    have hnew : newAt c.storage pos x = some (Function.update c.storage pos (.full x)) := by
      simp [newAt, hpraw]
    set c₁ : Classifier α := { c with storage := Function.update c.storage pos (.full x) } with hc₁
    have hstep : buildTree (d + 1) left right pos c =
        if 2 * pos < c₁.numBuckets then
          (buildTree d left (lo + 2 ^ d - 1) (2 * pos) c₁).bind
            (buildTree d (lo + 2 ^ d - 1) right (2 * pos + 1))
        else some c₁ := by
      simp only [buildTree, hmid, hsx, Option.bind_eq_bind, Option.bind_some, hnew, Option.pure_def]
      rfl
    have hroot : ∀ t : ℕ → Slot α, t pos = .full x →
        ({ c with storage := t } : Classifier α).splitter pos =
        c.sortedSplitter (lo + 2 ^ d - 1) := by
      intro t ht
      rw [hsx]
      simp [splitter, objectAt, ht]
    have hother : ∀ i, i ≠ pos → c₁.storage i = c.storage i := fun i hi => by
      simp [hc₁, Function.update_of_ne hi]
    rw [hstep]
    by_cases hd0 : d = 0
    · subst hd0
      rw [if_neg (by simp only [hc₁, hn]; omega)]
      refine ⟨_, rfl, ⟨hroot _ (by simp), trivial, trivial⟩, fun i hi => hother i fun h => hi ?_⟩
      exact ⟨0, by omega, by simp [h]⟩
    · have hlt : 2 * pos < 2 ^ k := two_mul_lt (by omega) hp hlo
      rw [if_pos (by simpa only [hc₁, hn] using hlt)]
      obtain ⟨t₁, ht₁, htree₁, hframe₁⟩ := @ih left (lo + 2 ^ d - 1) (2 * pos) lo c₁
        (by omega) (by omega) hn hl (by omega) (by rw [← hp, hd2]; ring) (by omega) hs
            fun i hi => by
          rw [hother i (by have := le_of_below hi; omega)]
          exact hraw i (below_left hi)
      obtain ⟨t₂, ht₂, htree₂, hframe₂⟩ := @ih (lo + 2 ^ d - 1) right (2 * pos + 1) (lo + 2 ^ d)
        { c₁ with storage := t₁ } (by omega) (by omega) hn (by omega) (by omega)
        (by rw [Nat.add_mul, ← Nat.add_assoc, ← hp, hd2]; ring) (by omega) hs fun i hi => by
          have hnl : ¬ Below d (2 * pos) i := fun h => not_below_both hpos h hi
          rw [show ({ c₁ with storage := t₁ } : Classifier α).storage i =
            t₁ i from rfl, hframe₁ i hnl, hother i (by have := le_of_below hi; omega)]
          exact hraw i (below_right hi)
      refine ⟨t₂, ?_, ⟨?_, ?_, htree₂⟩, fun i hi => ?_⟩
      · rw [ht₁]
        exact ht₂
      · refine hroot t₂ ?_
        rw [hframe₂ pos fun h => by have := le_of_below h; omega]
        rw [show ({ c₁ with storage := t₁ } : Classifier α).storage pos = t₁ pos from rfl,
          hframe₁ pos fun h => by have := le_of_below h; omega]
        simp [hc₁]
      · exact htree₁.congr rfl fun i hi => hframe₂ i (not_below_both hpos hi)
      · rw [hframe₂ i fun h => hi (below_right h)]
        rw [show ({ c₁ with storage := t₁ } : Classifier α).storage i = t₁ i from rfl,
          hframe₁ i fun h => hi (below_left h)]
        exact hother i fun h => hi ⟨0, by omega, by simp [h]⟩

theorem TreeAt.live {c : Classifier α} {d pos lo : ℕ} (h : c.TreeAt d pos lo)
    (hs : ∀ i < lo + 2 ^ d - 1, ∃ x, c.sortedStorage i = .full x) {i : ℕ} (hi : Below d pos i) :
    c.storage i ≠ .raw := by
  induction d generalizing pos lo with
  | zero => obtain ⟨l, hl, -⟩ := hi; omega
  | succ d ih =>
    have hd2 : 2 ^ (d + 1) = 2 * 2 ^ d := by rw [pow_succ, Nat.mul_comm]
    have hdpos : 0 < 2 ^ d := Nat.two_pow_pos d
    obtain ⟨l, hl, hi⟩ := hi
    cases l with
    | zero =>
      obtain rfl : i = pos := by simpa using hi
      intro hr
      obtain ⟨x, hx⟩ := hs (lo + 2 ^ d - 1) (by omega)
      have := h.1
      simp [splitter, sortedSplitter, objectAt, hr, hx] at this
    | succ l =>
      rw [pow_succ, ← Nat.div_div_eq_div_mul] at hi
      rcases Nat.mod_two_eq_zero_or_one (i / 2 ^ l) with h2 | h2
      · exact ih h.2.1 (fun j hj => hs j (by omega)) ⟨l, by omega, by omega⟩
      · exact ih h.2.2 (fun j hj => hs j (by omega)) ⟨l, by omega, by omega⟩

theorem below_root {k i : ℕ} : Below k 1 i ↔ 1 ≤ i ∧ i < 2 ^ k := by
  constructor
  · rintro ⟨l, hl, h⟩
    have hle : 2 ^ (l + 1) ≤ 2 ^ k := Nat.pow_le_pow_right (by omega) (by omega)
    have h1 : i / 2 ^ l < 2 := by omega
    rw [Nat.div_lt_iff_lt_mul (Nat.two_pow_pos l)] at h1
    rw [pow_succ] at hle
    refine ⟨Nat.pos_of_ne_zero fun h0 => by simp [h0] at h, by omega⟩
  · rintro ⟨h₁, h₂⟩
    have hlog := Nat.log2_self_le (n := i) (by omega)
    have hlog' := Nat.lt_log2_self (n := i)
    refine ⟨Nat.log2 i, (Nat.log2_lt (by omega)).mpr h₂, Nat.div_eq_of_lt_le (by omega) ?_⟩
    rw [pow_succ] at hlog'
    omega

/-! ### What is built -/

/-- The classifier without splitters. -/
structure Empty (c : Classifier α) : Prop where
  log : c.logBuckets = 0
  tree : ∀ i, c.storage i = .raw
  sorted : ∀ i, c.sortedStorage i = .raw

/-- The sorted splitters have been stored, the tree not yet built. -/
structure Filled (c : Classifier α) (splitters : List α) : Prop where
  tree : ∀ i, c.storage i = .raw
  sorted : ∀ i, c.sortedStorage i = (splitters[i]?).elim .raw .full

/-- The classifier has been built from the `2 ^ k - 1` splitters. -/
structure Built (c : Classifier α) (k : ℕ) (splitters : List α) : Prop where
  log_pos : 1 ≤ k
  log : c.logBuckets = k
  num : c.numBuckets = 2 ^ k
  length : splitters.length = 2 ^ k - 1
  tree : c.TreeAt k 1 0
  sorted : ∀ i, c.sortedStorage i = ((splitters ++ splitters.getLast?.toList)[i]?).elim .raw .full
  tree_raw : ∀ i, c.storage i = .raw ↔ i = 0 ∨ 2 ^ k ≤ i

theorem Filled.built {c : Classifier α} {k : ℕ} {splitters : List α} (h : c.Filled splitters)
    (hk : 1 ≤ k) (hl : splitters.length = 2 ^ k - 1) :
    ∃ c', c.build k = some c' ∧ c'.Built k splitters := by
  have hk2 : 2 ≤ 2 ^ k := Nat.le_self_pow (by omega) 2
  obtain ⟨x, hx⟩ : ∃ x, splitters[2 ^ k - 1 - 1]? = some x :=
    ⟨_, List.getElem?_eq_getElem (by omega)⟩
  have hlast : splitters.getLast? = some x := by rw [List.getLast?_eq_getElem?, hl, hx]
  set c₁ : Classifier α := { c with logBuckets := k, numBuckets := 2 ^ k } with hc₁
  have h₁ : c₁.sortedSplitter (2 ^ k - 1 - 1) = some x := by
    simp [hc₁, sortedSplitter, objectAt, h.sorted, hx]
  have hraw : c₁.sortedStorage (2 ^ k - 1) = .raw := by
    simp [hc₁, h.sorted, List.getElem?_eq_none hl.le]
  set c₂ : Classifier α :=
    { c₁ with sortedStorage := Function.update c₁.sortedStorage (2 ^ k - 1) (.full x) } with hc₂
  have h₂ : c₁.newSorted (2 ^ k - 1) x = some c₂ := by simp [newSorted, newAt, hraw, hc₂]
  have hs : ∀ i, c₂.sortedStorage i =
      ((splitters ++ splitters.getLast?.toList)[i]?).elim .raw .full := by
    intro i
    by_cases hi : i = 2 ^ k - 1
    · subst hi
      simp [hc₂, hl, hlast]
    · rw [show c₂.sortedStorage i = c.sortedStorage i by simp [hc₂, hc₁, Function.update_of_ne hi],
        h.sorted]
      by_cases hlt : i < splitters.length
      · rw [List.getElem?_append_left hlt]
      · rw [List.getElem?_append_right (by omega), List.getElem?_eq_none (by omega),
          List.getElem?_eq_none]
        simp [hlast]
        omega
  have hfull : ∀ i < 2 ^ k - 1, ∃ y, c₂.sortedStorage i = .full y := by
    intro i hi
    refine ⟨splitters.get ⟨i, by omega⟩, ?_⟩
    rw [hs, List.getElem?_append_left (by omega), List.getElem?_eq_getElem (by omega)]
    rfl
  obtain ⟨t, ht, htree, hframe⟩ := @buildTree_eq α k k 0 (2 ^ k - 1) 1 0 c₂ (by omega)
    (by omega) rfl (.inl rfl) (by omega) (by omega) (by omega) hfull
    fun i _ => h.tree i
  refine ⟨_, ?_, ⟨hk, rfl, rfl, hl, htree, hs, fun i => ⟨fun hi => ?_, fun hi => ?_⟩⟩⟩
  · simp only [build, Option.bind_eq_bind, ← hc₁, h₁, Option.bind_some, h₂, ht]
  · by_contra hnot
    exact htree.live (by simpa using hfull) (below_root.mpr (by omega)) hi
  · rw [show ({ c₂ with storage := t } : Classifier α).storage i = t i from rfl,
      hframe i fun hb => by have := below_root.mp hb; omega]
    exact h.tree i

theorem Filled.newSorted {c : Classifier α} {splitters : List α} (h : c.Filled splitters) (x : α) :
    ∃ c', c.newSorted splitters.length x = some c' ∧ c'.Filled (splitters ++ [x]) := by
  have hraw : c.sortedStorage splitters.length = .raw := by simp [h.sorted]
  refine ⟨{ c with sortedStorage := Function.update c.sortedStorage splitters.length (.full x) },
    by simp [Classifier.newSorted, newAt, hraw], h.tree, fun i => ?_⟩
  rcases lt_trichotomy i splitters.length with hlt | rfl | hgt
  · rw [List.getElem?_append_left hlt]
    simpa [Function.update_of_ne (Nat.ne_of_lt hlt)] using h.sorted i
  · simp
  · rw [List.getElem?_eq_none (by simp; omega)]
    simpa [Function.update_of_ne (Nat.ne_of_gt hgt), List.getElem?_eq_none hgt.le] using h.sorted i

theorem Filled.sortedSplitter {c : Classifier α} {splitters : List α} (h : c.Filled splitters)
    {i : ℕ} {x : α} (hx : splitters[i]? = some x) : c.sortedSplitter i = some x := by
  simp [Classifier.sortedSplitter, objectAt, h.sorted, hx]

theorem Empty.filled {c : Classifier α} (h : c.Empty) : c.Filled [] :=
  ⟨h.tree, fun i => by simp [h.sorted]⟩

theorem deleteAt_eq {a : ℕ → Slot α} {i : ℕ} (h : a i ≠ .raw) :
    deleteAt a i = some (Function.update a i .raw) := by
  simp only [deleteAt]

/-- **Destructing the splitters leaves none.** -/
theorem Built.reset {c : Classifier α} {k : ℕ} {splitters : List α} (h : c.Built k splitters) :
    ∃ c', c.reset = some c' ∧ c'.Empty := by
  have hk2 : 2 ≤ 2 ^ k := Nat.le_self_pow (by have := h.log_pos; omega) 2
  have hlive : ∀ i < 2 ^ k, c.sortedStorage i ≠ .raw := by
    intro i hi
    have hlen : (splitters ++ splitters.getLast?.toList).length = 2 ^ k := by
      obtain ⟨x, hx⟩ : ∃ x, splitters.getLast? = some x :=
        ⟨_, List.getLast?_eq_getLast_of_ne_nil
          (List.ne_nil_of_length_pos (by have := h.length; omega))⟩
      rw [hx, Option.toList_some, List.length_append, List.length_singleton, h.length]
      omega
    rw [h.sorted, List.getElem?_eq_getElem (by omega)]
    simp
  have hloop : ∀ j ≤ 2 ^ k - 1, ∃ t s, (List.range j).foldlM (fun (c : Classifier α) i => do
        let t ← deleteAt c.storage (1 + i)
        let s ← deleteAt c.sortedStorage i
        pure { c with storage := t, sortedStorage := s }) c =
          some { c with storage := t, sortedStorage := s } ∧
      (∀ i, t i = if i < j + 1 then .raw else c.storage i) ∧ ∀ i, s i = if i < j then .raw
          else c.sortedStorage i := by
    intro j
    induction j with
    | zero =>
      refine fun _ => ⟨c.storage, c.sortedStorage, rfl, fun i => ?_, fun i => by simp⟩
      split
      · exact (h.tree_raw i).mpr (by omega)
      · rfl
    | succ j ih =>
      intro hj
      obtain ⟨t, s, hf, ht, hs⟩ := ih (by omega)
      have htj : t (1 + j) ≠ .raw := by
        rw [ht, if_neg (by omega), Ne, h.tree_raw]
        omega
      have hsj : s j ≠ .raw := by
        rw [hs, if_neg (by omega)]
        exact hlive j (by omega)
      refine ⟨Function.update t (1 + j) .raw, Function.update s j .raw,
        ?_, fun i => ?_, fun i => ?_⟩
      · rw [List.range_succ, List.foldlM_append, hf]
        simp [deleteAt_eq htj, deleteAt_eq hsj]
      · rw [Function.update_apply, ht]
        split_ifs <;> first | rfl | omega
      · rw [Function.update_apply, hs]
        split_ifs <;> first | rfl | omega
  obtain ⟨t, s, hf, ht, hs⟩ := hloop _ le_rfl
  have hlast : s (2 ^ k - 1) ≠ .raw := by
    rw [hs, if_neg (by omega)]
    exact hlive _ (by omega)
  refine ⟨{ c with
    storage := t
    sortedStorage := Function.update s (2 ^ k - 1) .raw
    logBuckets := 0 }, ?_, rfl, fun i => ?_, fun i => ?_⟩
  · rw [Classifier.reset, if_neg (by rw [h.log]; have := h.log_pos; omega), cleanup, h.num, hf]
    simp [deleteAt_eq hlast, h.num]
  · change t i = .raw
    rw [ht]
    split
    · rfl
    · exact (h.tree_raw i).mpr (by omega)
  · change Function.update s (2 ^ k - 1) Slot.raw i = .raw
    rw [Function.update_apply, hs]
    split_ifs
    · rfl
    · rfl
    · have hlen := h.length
      rw [h.sorted, List.getElem?_eq_none]
      · rfl
      · rw [List.length_append, h.length]
        have : splitters.getLast?.toList.length ≤ 1 := by cases splitters.getLast? <;> simp
        omega

end Classifier

end Ps4o
