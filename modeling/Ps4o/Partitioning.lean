import Ps4o.BaseCase
import Ps4o.Sampling

/-!
# Partitioning

Distributing the elements of a range into buckets, from one array into the other, and
sorting the small buckets right away (`partitioning.hpp`).
-/

namespace Ps4o

open Ps4o.Program Ps4o.Storage Ps4o.Order

variable {A α : Type}

/-- Moves the `n` elements from `p` on to the buckets that the oracle names, and answers where
the next element of each bucket would go. -/
def distributeElements (p : Ptr A) (n : ℕ) (tmp : Ptr A) (oracle : ℕ) (bs : ℕ → ℕ) :
    Act A α (ℕ → ℕ) :=
  Prog.loop (fun j bs => do
    let o ← loadByte (oracle + j)
    let v ← moveFrom (p + j)
    constructAt (tmp + bs o.toNat) v
    destroyAt (p + j)
    pure (Function.update bs o.toNat (bs o.toNat + 1))) n bs

/-- Moves `size` elements from `src` on to raw storage from `target` on. -/
def transfer (src target : Ptr A) (size : ℕ) : Act A α Unit :=
  Prog.loop (fun i _ => do
    let v ← moveFrom (src + i)
    constructAt (target + i) v
    destroyAt (src + i)) size ()

/-- `std::move(src, src + n, target)`, and destroying what has been moved. -/
def moveAssign (src target : Ptr A) (n : ℕ) : Act A α Unit := do
  Prog.loop (fun i _ => do
    let v ← moveFrom (src + i)
    assignTo (target + i) v) n ()
  Prog.loop (fun i _ => destroyAt (src + i)) n ()

variable (comp : α → α → Bool)

/-- Sorts a bucket if it is small or there is no further level, and puts it into the input
array. `p` and `tmp` are where the partitioned range begins, and where it has been distributed
to. -/
def sortAndMove (cfg : Config) (p tmp : Ptr A) (lastLevel inInputArray : Bool) (bss : ℕ → ℕ)
    (bucket : ℕ) : Act A α Unit :=
  let size := bss (bucket + 1) - bss bucket
  if lastLevel ∨ size ≤ 2 * cfg.kBaseCaseSize then do
    baseCaseSort comp (tmp + bss bucket) size
    -- Elements are not in the input array anymore
    if inInputArray then transfer (tmp + bss bucket) (p + bss bucket) size else pure ()
  else
    pure ()

/-- Puts a bucket into the input array. -/
def move (p tmp : Ptr A) (inInputArray : Bool) (bss : ℕ → ℕ) (bucket : ℕ) : Act A α Unit :=
  if inInputArray then transfer (tmp + bss bucket) (p + bss bucket)
    (bss (bucket + 1) - bss bucket) else pure ()

/-- What one thread does with all buckets after distributing. -/
def finishBuckets (cfg : Config) (p tmp : Ptr A) (lastLevel inInputArray useEqualBuckets : Bool)
    (bss : ℕ → ℕ) (numBuckets : ℕ) : Act A α Unit :=
  if useEqualBuckets then do
    Prog.loop (fun i _ => do
      sortAndMove comp cfg p tmp lastLevel inInputArray bss (2 * i)
      move p tmp inInputArray bss (2 * i + 1)) ((numBuckets - 2 + 1) / 2) ()
    sortAndMove comp cfg p tmp lastLevel inInputArray bss (numBuckets - 2)
    sortAndMove comp cfg p tmp lastLevel inInputArray bss (numBuckets - 1)
  else
    Prog.loop (fun i _ => sortAndMove comp cfg p tmp lastLevel inInputArray bss i) numBuckets ()

/-- `partition<false>`: one thread partitions the `n` elements from `p` on. Answers whether there
are equality buckets, the bucket boundaries, and the sorter, which knows the number of
buckets. -/
def partition (cfg : Config) (sort : Ptr A → ℕ → Ptr A → ℕ → Bool → Sorter α → Act A α (Sorter α))
    (p : Ptr A) (n : ℕ) (tmp : Ptr A) (oracle : ℕ) (lastLevel inInputArray : Bool) (s : Sorter α) :
    Act A α (Bool × (ℕ → ℕ) × Sorter α) := do
  -- Sampling
  let (s, c, numBuckets, useEqualBuckets) ←
    buildClassifier comp cfg sort p n tmp oracle (fun s => s.data.classifier) s
  let s : Sorter α := ⟨{ s.data with classifier := c }, numBuckets⟩
  -- Local Classification
  let s ← sequentialClassification comp cfg useEqualBuckets p n oracle c s
  let bucketStartSave := s.data.bucketStart
  -- Block Permutation
  let bs ← distributeElements p n tmp oracle s.data.bucketStart
  finishBuckets comp cfg p tmp lastLevel inInputArray useEqualBuckets bucketStartSave numBuckets
  let data ← Prog.ofOption { s.data with bucketStart := bs }.reset
  pure (useEqualBuckets, bucketStartSave, ⟨data, numBuckets⟩)

/-! ### Distributing -/

section
variable [DecidableEq A] {lax : Bool} {m : Mem A (Slot α)} {p tmp : Ptr A}

/-- What distributing the `n` elements from position `lo` on may touch: the elements, their
bytes in the oracle, and the places they go to. -/
def distributeRegion (p tmp : Ptr A) (oracle : ℕ) (ks : List ℕ) (lo n : ℕ) : Set (Loc A) :=
  {l | ∃ j, lo ≤ j ∧ j < lo + n ∧
    (l = .elem (p + j) ∨ l = .elem (tmp + dest ks j) ∨ l = .byte (oracle + j))}

/-- Where the next element of each bucket goes when the first `j` have been distributed. -/
def cursor (ks : List ℕ) (j b : ℕ) : ℕ := start ks b + seen ks j b

variable (lax) in
/-- **Distributing puts every element where it belongs.** The elements from position `lo` on,
with the cursors where they are after the elements before. -/
theorem sat_distributeElements (lo n oracle : ℕ) (bs : ℕ → ℕ) {ks : List ℕ} {xs : List α}
    (hl : ks.length = xs.length) (hn : lo + n ≤ ks.length) (hbyte : ∀ k ∈ ks, k < 256)
    (hbs : ∀ b ∈ ks, bs b = cursor ks lo b) (harr : p.arr ≠ tmp.arr)
    (hm : ∀ j x, lo ≤ j → j < lo + n → xs[j]? = some x → m.slot (p + j) = .full x)
    (ho : ∀ j b, lo ≤ j → j < lo + n → ks[j]? = some b → m.byte (oracle + j) = UInt8.ofNat b)
    (htmp : ∀ j, lo ≤ j → j < lo + n → m.slot (tmp + dest ks j) = .raw) :
    Sat (slots A α lax) (distributeRegion p tmp oracle ks lo n)
      (distributeElements (p + lo) n tmp (oracle + lo) bs) m fun bs' m' =>
        (∀ b ∈ ks, bs' b = cursor ks (lo + n) b) ∧ m'.byte = m.byte ∧
          (∀ j, lo ≤ j → j < lo + n → m'.slot (p + j) = .raw) ∧
          ∀ j x, lo ≤ j → j < lo + n → xs[j]? = some x → m'.slot (tmp + dest ks j) = .full x := by
  have hne : ∀ i j : ℕ, p + i ≠ tmp + j := fun i j h => harr (by simpa using congrArg Ptr.arr h)
  refine (sat_loop (fun i (bs' : ℕ → ℕ) (m' : Mem A (Slot α)) =>
      (∀ b ∈ ks, bs' b = cursor ks (lo + i) b) ∧
      m'.byte = m.byte ∧
      (∀ j x, lo ≤ j → j < lo + n → xs[j]? = some x →
        m'.slot (p + j) = if j < lo + i then .raw else .full x) ∧
      ∀ j x, lo ≤ j → j < lo + n → xs[j]? = some x →
        m'.slot (tmp + dest ks j) = if j < lo + i then .full x else .raw) ?_
        fun i hi bs' m' hI => ?_).imp
    fun bs' m' hI => ?_
  · refine ⟨by simpa using hbs, rfl, fun j x h₁ h₂ hx => ?_, fun j x h₁ h₂ hx => ?_⟩
    · rw [if_neg (by omega), hm j x h₁ h₂ hx]
    · rw [if_neg (by omega), htmp j h₁ h₂]
  · obtain ⟨hbs', hbyte', helem, hdest⟩ := hI
    obtain ⟨b, hb⟩ : ∃ b, ks[lo + i]? = some b := ⟨_, List.getElem?_eq_getElem (by omega)⟩
    obtain ⟨x, hx⟩ : ∃ x, xs[lo + i]? = some x := ⟨_, List.getElem?_eq_getElem (by omega)⟩
    have hmem : b ∈ ks := List.mem_of_getElem? hb
    have hcur : bs' b = dest ks (lo + i) := by rw [hbs' b hmem, dest_eq hb, cursor]
    have hob : (UInt8.ofNat b).toNat = b := by
      rw [UInt8.toNat_ofNat']
      exact Nat.mod_eq_of_lt (hbyte b hmem)
    have hraw := hdest _ x (Nat.le_add_right lo i) (by omega) hx
    rw [if_neg (by omega)] at hraw
    rw [Ptr.add_assoc, Nat.add_assoc, sat_bind]
    refine sat_loadByte ⟨lo + i, by omega, by omega, .inr (.inr rfl)⟩ ?_
    rw [hbyte', ho _ b (by omega) (by omega) hb, hob, hcur, sat_bind]
    refine sat_moveFrom ⟨lo + i, by omega, by omega, .inl rfl⟩
      ((helem _ x (by omega) (by omega) hx).trans (if_neg (by omega))) ?_
    rw [sat_bind]
    refine sat_constructAt ⟨lo + i, by omega, by omega, .inr (.inl rfl)⟩ ?_ ?_
    · rw [Mem.set_slot, Function.update_of_ne (hne _ _).symm, hraw]
    rw [sat_bind]
    refine sat_destroyAt ⟨lo + i, by omega, by omega, .inl rfl⟩ ?_
      ⟨fun c hc => ?_, hbyte', fun j y h₁ h₂ hy => ?_, fun j y h₁ h₂ hy => ?_⟩
    · rw [Mem.set_slot, Function.update_of_ne (hne _ _), Mem.set_slot, Function.update_self]
      simp
    · rw [Function.update_apply, ← Nat.add_assoc, cursor, seen_succ hb]
      split
      · next h => rw [h, dest_eq hb, Nat.add_assoc]
      · exact hbs' c hc
    · simp only [Mem.set_slot, Function.update_apply, Ptr.add_inj, hne, if_false]
      by_cases hj : j = lo + i
      · rw [if_pos hj, if_pos (by omega)]
      · rw [if_neg hj, if_neg hj, helem j y h₁ h₂ hy]
        exact if_congr (by omega) rfl rfl
    · simp only [Mem.set_slot, Function.update_apply, Ptr.add_inj, (hne _ _).symm, if_false]
      by_cases hj : j = lo + i
      · subst hj
        rw [if_pos rfl, if_pos (by omega), Option.some.inj (hx.symm.trans hy)]
      · rw [if_neg fun h => hj (dest_inj (by omega) (by omega) h), hdest j y h₁ h₂ hy]
        exact if_congr (by omega) rfl rfl
  · obtain ⟨hbs', hbyte', helem, hdest⟩ := hI
    refine ⟨hbs', hbyte', fun j h₁ h₂ => ?_, fun j x h₁ h₂ hx => ?_⟩
    · rw [helem j _ h₁ h₂ (List.getElem?_eq_getElem (by omega)), if_pos h₂]
    · rw [hdest j x h₁ h₂ hx, if_pos h₂]

omit [DecidableEq A] in
/-- Once everything is distributed, every bucket stands where it begins. -/
theorem has_bucket {ks : List ℕ} {xs : List α} (hl : ks.length = xs.length)
    (h : ∀ j x, xs[j]? = some x → m.slot (tmp + dest ks j) = .full x) (b : ℕ) :
    Has m (tmp + start ks b) ((bucket ks xs b).map .full) := by
  intro i v hv
  obtain ⟨x, hx, rfl⟩ := Option.map_eq_some_iff.mp (by rwa [List.getElem?_map] at hv)
  obtain ⟨j, hj, -, hd⟩ := exists_of_mem_bucket hl hx
  rw [Ptr.add_assoc, ← hd, h j x hj]

/-! ### Buckets -/

theorem sat_transfer {src target : Ptr A} {vs : List α} (harr : src.arr ≠ target.arr)
    (hm : Has m src (vs.map .full)) (hraw : Raw m target vs.length) :
    Sat (slots A α lax) (seg src vs.length ∪ seg target vs.length) (transfer src target vs.length) m
      fun _ m' =>
      Has m' target (vs.map .full) ∧ Raw m' src vs.length := by
  have hne : ∀ i j : ℕ, src + i ≠ target + j :=
    fun i j h => harr (by simpa using congrArg Ptr.arr h)
  refine (sat_loop (fun i _ m => ∀ j x, vs[j]? = some x →
      m.slot (src + j) = (if j < i then .raw else .full x) ∧ m.slot (target + j) =
      if j < i then .full x else .raw)
    (fun j x hx => ?_) fun i hi _ m hI => ?_).imp fun _ m' hI => ⟨fun j v hv => ?_, fun j hj => ?_⟩
  · exact ⟨hm j _ (by simp [hx]), hraw j (List.getElem?_eq_some_iff.mp hx).1⟩
  · obtain ⟨x, hx⟩ : ∃ x, vs[i]? = some x := ⟨_, List.getElem?_eq_getElem hi⟩
    obtain ⟨hsrc, htarget⟩ := hI i x hx
    rw [if_neg (by omega)] at hsrc htarget
    rw [sat_bind]
    refine sat_moveFrom (.inl (elem_add_mem_seg.mpr hi)) hsrc ?_
    rw [sat_bind]
    refine sat_constructAt (.inr (elem_add_mem_seg.mpr hi)) ?_ ?_
    · rw [Mem.set_slot, Function.update_of_ne (hne _ _).symm, htarget]
    refine sat_destroyAt (.inl (elem_add_mem_seg.mpr hi)) ?_ fun j y hy => ?_
    · rw [Mem.set_slot, Function.update_of_ne (hne _ _), Mem.set_slot, Function.update_self]
      simp
    · simp only [Mem.set_slot, Function.update_apply, Ptr.add_inj, hne, (hne _ _).symm, if_false]
      by_cases hj : j = i
      · subst hj
        rw [if_pos rfl, if_pos rfl, if_pos (by omega), if_pos (by omega),
          Option.some.inj (hx.symm.trans hy)]
        exact ⟨rfl, rfl⟩
      · rw [if_neg hj, if_neg hj, if_neg hj, (hI j y hy).1, (hI j y hy).2]
        exact ⟨if_congr (by omega) rfl rfl, if_congr (by omega) rfl rfl⟩
  · obtain ⟨x, hx, rfl⟩ := Option.map_eq_some_iff.mp (by rwa [List.getElem?_map] at hv)
    rw [(hI j x hx).2, if_pos (List.getElem?_eq_some_iff.mp hx).1]
  · rw [(hI j _ (List.getElem?_eq_getElem hj)).1, if_pos hj]

/-- The bucket of the elements `vs`, which begins at `off`, has been distributed. -/
def Distributed (p tmp : Ptr A) (off : ℕ) (vs : List α) (m : Mem A (Slot α)) : Prop :=
  Has m (tmp + off) (vs.map .full) ∧ Raw m (p + off) vs.length

/-- The bucket of the elements `vs`, which begins at `off`, is finished: it is sorted, and lies in
the physical input array. -/
def Finished (p tmp : Ptr A) (inInputArray : Bool) (off : ℕ) (vs : List α) (m : Mem A (Slot α)) :
    Prop :=
  (∃ ys : List α, ys.Perm vs ∧ Sorted comp ys ∧
    Has m ((if inInputArray then p else tmp) + off) (ys.map .full)) ∧
  Raw m ((if inInputArray then tmp else p) + off) vs.length

/-- The slots of a bucket in both arrays. -/
def bucketRegion (p tmp : Ptr A) (off size : ℕ) : Set (Loc A) :=
  seg (p + off) size ∪ seg (tmp + off) size

theorem Distributed.frame {off : ℕ} {vs : List α} {m' : Mem A (Slot α)} {R : Set (Loc A)}
    (h : Distributed p tmp off vs m) (ha : (slots A α lax).AgreeOn Rᶜ m m')
    (hd : ∀ i < vs.length, .elem (p + off + i) ∉ R ∧ .elem (tmp + off + i) ∉ R) :
    Distributed p tmp off vs m' :=
  ⟨h.1.frame ha fun i hi => (hd i (by simpa using hi)).2, h.2.frame ha fun i hi => (hd i hi).1⟩

variable {comp}

theorem Finished.frame {off : ℕ} {vs : List α} {m' : Mem A (Slot α)} {R : Set (Loc A)}
    {inInputArray : Bool} (h : Finished comp p tmp inInputArray off vs m)
    (ha : (slots A α lax).AgreeOn Rᶜ m m')
    (hd : ∀ i < vs.length, .elem (p + off + i) ∉ R ∧ .elem (tmp + off + i) ∉ R) :
    Finished comp p tmp inInputArray off vs m' := by
  obtain ⟨⟨ys, hperm, hsorted, hm⟩, hraw⟩ := h
  have hlen := hperm.length_eq
  refine ⟨⟨ys, hperm, hsorted, hm.frame ha fun i hi => ?_⟩, hraw.frame ha fun i hi => ?_⟩
  · rw [List.length_map, hlen] at hi
    cases inInputArray
    · exact (hd i hi).2
    · exact (hd i hi).1
  · cases inInputArray
    · exact (hd i hi).1
    · exact (hd i hi).2

/-- Moving a sorted bucket to the input array finishes it. -/
theorem sat_toInput {off : ℕ} {vs ys : List α} {inInputArray : Bool} (harr : p.arr ≠ tmp.arr)
    (hperm : ys.Perm vs) (hsorted : Sorted comp ys) (hm : Has m (tmp + off) (ys.map .full))
    (hraw : Raw m (p + off) vs.length) :
    Sat (slots A α lax) (bucketRegion p tmp off vs.length)
      (if inInputArray then transfer (tmp + off) (p + off) vs.length else pure ()) m
      fun _ m' => Finished comp p tmp inInputArray off vs m' := by
  have hlen := hperm.length_eq
  cases inInputArray with
  | false => exact ⟨⟨ys, hperm, hsorted, hm⟩, hraw⟩
  | true =>
    have hne : (tmp + off).arr ≠ (p + off).arr := harr.symm
    rw [if_pos rfl, ← hlen, bucketRegion, Set.union_comm]
    refine (sat_transfer hne hm (by rwa [hlen])).imp fun _ m' hm' =>
      ⟨⟨ys, hperm, hsorted, hm'.1⟩, ?_⟩
    rw [← hlen]
    exact hm'.2

variable {cfg : Config} {bss : ℕ → ℕ} {b off : ℕ} {vs : List α}

variable (lax cfg) in
/-- **A bucket that is small, or on the last level, is finished; any other is left.** -/
theorem sat_sortAndMove (hc : StrictWeak comp) (lastLevel inInputArray : Bool)
    (harr : p.arr ≠ tmp.arr) (hoff : bss b = off) (hsize : bss (b + 1) = off + vs.length)
    (h : Distributed p tmp off vs m) : Sat (slots A α lax) (bucketRegion p tmp off vs.length)
      (sortAndMove comp cfg p tmp lastLevel inInputArray bss b) m fun _ m' =>
        if lastLevel ∨ vs.length ≤ 2 * cfg.kBaseCaseSize then Finished comp p tmp inInputArray
          off vs m' else m' = m := by
  rw [sortAndMove, hsize, hoff, Nat.add_sub_cancel_left]
  split
  · rw [sat_bind]
    refine ((sat_baseCaseSort comp h.1).frame).mono (fun l hl => .inr hl) ?_
    rintro _ m' ⟨hm', hf⟩
    refine sat_toInput harr (insertionSorted_perm comp vs) (insertionSorted_sorted hc vs) hm'
      (h.2.frame hf fun i _ => by simp [elem_mem_seg, harr])
  · rfl

variable (lax) in
/-- **A bucket of equal elements is finished by moving it.** -/
theorem sat_move (inInputArray : Bool) (harr : p.arr ≠ tmp.arr) (hoff : bss b = off)
    (hsize : bss (b + 1) = off + vs.length) (h : Distributed p tmp off vs m)
    (hsorted : Sorted comp vs) :
    Sat (slots A α lax) (bucketRegion p tmp off vs.length) (move p tmp inInputArray bss b) m
      fun _ m' =>
      Finished comp p tmp inInputArray off vs m' := by
  rw [move, hsize, hoff, Nat.add_sub_cancel_left]
  exact sat_toInput harr .rfl hsorted h.1 h.2

end

/-! ### All buckets -/

/-- How a range is divided into buckets: where it is and where it is distributed to, its elements
and their buckets. The buckets are in order, and those that hold equal elements do. -/
structure Layout (comp : α → α → Bool) (A : Type) where
  /-- Where the range begins. -/
  p : Ptr A
  /-- Where it is distributed to. -/
  tmp : Ptr A
  /-- The elements. -/
  elems : List α
  /-- The bucket of each element. -/
  keys : List ℕ
  /-- The number of buckets. -/
  numBuckets : ℕ
  /-- Whether there are equality buckets. -/
  useEqualBuckets : Bool
  /-- The range is in one array, and distributed to the other one. -/
  arr_ne : p.arr ≠ tmp.arr
  /-- Every element has a bucket. -/
  length_eq : keys.length = elems.length
  /-- The buckets are numbered. -/
  key_lt : ∀ k ∈ keys, k < numBuckets
  /-- Equality buckets stand between the others. -/
  even : useEqualBuckets = true → numBuckets % 2 = 0 ∧ 4 ≤ numBuckets
  /-- The last of the others but one is never used. -/
  unused : useEqualBuckets = true → numBuckets - 2 ∉ keys
  /-- No element of a bucket is less than one of an earlier bucket. -/
  ordered : ∀ i j x y, i < j → x ∈ bucket keys elems i → y ∈ bucket keys elems j → comp y x = false
  /-- The elements of an equality bucket are equal. -/
  equal : useEqualBuckets = true → ∀ b, b % 2 = 1 → b < numBuckets - 2 →
    Sorted comp (bucket keys elems b)

namespace Layout

variable {comp} (L : Layout comp A) (cfg : Config) (lastLevel inInputArray : Bool)

/-- Where a bucket begins. -/
abbrev start (b : ℕ) : ℕ := Order.start L.keys b

/-- How many elements a bucket has. -/
abbrev size (b : ℕ) : ℕ := L.keys.count b

/-- The elements of a bucket. -/
abbrev bucket (b : ℕ) : List α := Order.bucket L.keys L.elems b

/-- How many elements there are. -/
abbrev n : ℕ := L.elems.length

theorem length_bucket (b : ℕ) : (L.bucket b).length = L.size b := Order.length_bucket L.length_eq b

theorem start_add_size (b : ℕ) : L.start (b + 1) = L.start b + L.size b := start_succ b

theorem end_le (b : ℕ) : L.start b + L.size b ≤ L.n := by
  rw [← start_succ, n, ← L.length_eq]
  exact start_le_length _

/-- Two buckets do not overlap. -/
theorem disjoint {b c i : ℕ} (hcb : c ≠ b) (hi : i < L.size c) :
    L.start c + i < L.start b ∨ L.start b + L.size b ≤ L.start c + i := by
  have h₁ := L.start_add_size b
  have h₂ := L.start_add_size c
  rcases Nat.lt_or_gt_of_ne hcb with hlt | hlt
  · have : L.start (c + 1) ≤ L.start b := start_mono _ (Nat.succ_le_of_lt hlt)
    omega
  · have : L.start (b + 1) ≤ L.start c := start_mono _ (Nat.succ_le_of_lt hlt)
    omega

/-- Whether partitioning finishes a bucket: it is an equality bucket, or there is no further level,
or it is small. -/
def Finishes (b : ℕ) : Prop :=
  (L.useEqualBuckets = true ∧ b % 2 = 1 ∧ b < L.numBuckets - 2) ∨ lastLevel = true ∨
  L.size b ≤ 2 * cfg.kBaseCaseSize

instance (b : ℕ) : Decidable (L.Finishes cfg lastLevel b) := inferInstanceAs (Decidable (_ ∨ _))

/-- The buckets up to `i` have been looked at: those that partitioning finishes are finished, the
others, and all later ones, are distributed. -/
def Buckets (i : ℕ) (m : Mem A (Slot α)) : Prop :=
  ∀ b < L.numBuckets,
    if b < i ∧ L.Finishes cfg lastLevel b then Finished comp L.p L.tmp inInputArray (L.start b)
      (L.bucket b) m
    else Distributed L.p L.tmp (L.start b) (L.bucket b) m

/-- The slots of a bucket in both arrays. -/
abbrev region (b : ℕ) : Set (Loc A) := bucketRegion L.p L.tmp (L.start b) (L.size b)

/-- The slots of all buckets in both arrays. -/
abbrev space : Set (Loc A) := seg L.p L.n ∪ seg L.tmp L.n

theorem region_subset (b : ℕ) : L.region b ⊆ L.space :=
  Set.union_subset_union (seg_subset (L.end_le b)) (seg_subset (L.end_le b))

theorem notMem_region {b c i : ℕ} (hcb : c ≠ b) (hi : i < (L.bucket c).length) :
    .elem (L.p + L.start c + i) ∉ L.region b ∧ .elem (L.tmp + L.start c + i) ∉ L.region b := by
  rw [L.length_bucket] at hi
  have hout := L.disjoint hcb hi
  simp only [region, bucketRegion, Set.mem_union, elem_mem_seg, Ptr.add_arr,
    Ptr.add_off, L.arr_ne, L.arr_ne.symm, false_and, or_false, false_or, true_and]
  omega

variable {L cfg lastLevel inInputArray} [DecidableEq A] {lax : Bool} {m : Mem A (Slot α)} {b : ℕ}
  {bss : ℕ → ℕ}

/-- What is done with one bucket, the next one, leaves all others alone. -/
theorem Buckets.step (h : L.Buckets cfg lastLevel inInputArray b m)
    (hb : b < L.numBuckets) {op : Act A α Unit}
    (hop : Distributed L.p L.tmp (L.start b) (L.bucket b) m →
      Sat (slots A α lax) (L.region b) op m fun _ m' =>
        if L.Finishes cfg lastLevel b then
          Finished comp L.p L.tmp inInputArray (L.start b) (L.bucket b) m'
        else
          m' = m) :
    Sat (slots A α lax) L.space op m fun _ m' =>
      L.Buckets cfg lastLevel inInputArray (b + 1) m' := by
  have hdist : Distributed L.p L.tmp (L.start b) (L.bucket b) m := by simpa using h b hb
  refine (hop hdist).frame.mono (L.region_subset b) ?_
  rintro _ m' ⟨hm', hf⟩ c hcn
  by_cases hcb : c = b
  · subst hcb
    simp only [Nat.lt_succ_self, true_and]
    split
    · next hfin => rwa [if_pos hfin] at hm'
    · next hfin =>
      rw [if_neg hfin] at hm'
      rwa [hm']
  · have hc := h c hcn
    have hiff : (c < b + 1 ∧ L.Finishes cfg lastLevel c) ↔ (c < b ∧ L.Finishes cfg lastLevel c) :=
      and_congr_left fun _ => by omega
    rw [if_congr hiff rfl rfl]
    split_ifs at hc ⊢
    · exact hc.frame hf fun i hi => L.notMem_region hcb hi
    · exact hc.frame hf fun i hi => L.notMem_region hcb hi

theorem Buckets.sortAndMove (hc : StrictWeak comp) (hbss : ∀ b ≤ L.numBuckets, bss b = L.start b)
    (hb : b < L.numBuckets) (hodd : L.useEqualBuckets = true → b % 2 = 1 → L.numBuckets - 2 ≤ b)
    (h : L.Buckets cfg lastLevel inInputArray b m) :
    Sat (slots A α lax) L.space (Ps4o.sortAndMove comp cfg L.p L.tmp lastLevel inInputArray bss b) m
      fun _ m' =>
      L.Buckets cfg lastLevel inInputArray (b + 1) m' := by
  refine h.step hb fun hdist => ?_
  have hsat := sat_sortAndMove lax cfg hc lastLevel inInputArray L.arr_ne (hbss b hb.le)
    ((hbss (b + 1) hb).trans (by rw [L.start_add_size, L.length_bucket])) hdist
  rw [L.length_bucket] at hsat
  refine hsat.imp fun _ m' hm' => ?_
  rwa [if_congr (Iff.intro (fun hf => ?_) .inr) rfl rfl]
  rcases hf with ⟨h₁, h₂, h₃⟩ | hf
  · have := hodd h₁ h₂
    omega
  · exact hf

theorem Buckets.move (hbss : ∀ b ≤ L.numBuckets, bss b = L.start b) (heq : L.useEqualBuckets = true)
    (hodd : b % 2 = 1) (hb : b < L.numBuckets - 2) (h : L.Buckets cfg lastLevel inInputArray b m) :
    Sat (slots A α lax) L.space (Ps4o.move L.p L.tmp inInputArray bss b) m fun _ m' =>
      L.Buckets cfg lastLevel inInputArray (b + 1) m' := by
  refine h.step (by omega) fun hdist => ?_
  have hsat := sat_move lax inInputArray L.arr_ne (hbss b (by omega))
    ((hbss (b + 1) (by omega)).trans (by rw [L.start_add_size, L.length_bucket])) hdist
      (L.equal heq b hodd hb)
  rw [L.length_bucket] at hsat
  refine hsat.imp fun _ m' hm' => ?_
  rwa [if_pos (.inl ⟨heq, hodd, hb⟩)]

/-- **After looking at all buckets, every one is finished or left for the next level.** -/
theorem Buckets.finish (hc : StrictWeak comp) (hbss : ∀ b ≤ L.numBuckets, bss b = L.start b)
    (h : L.Buckets cfg lastLevel inInputArray 0 m) :
    Sat (slots A α lax) L.space
      (finishBuckets comp cfg L.p L.tmp lastLevel inInputArray L.useEqualBuckets bss L.numBuckets) m
        fun _ m' =>
        L.Buckets cfg lastLevel inInputArray L.numBuckets m' := by
  rw [finishBuckets]
  split
  · next heq =>
    obtain ⟨heven, hfour⟩ := L.even heq
    rw [sat_bind]
    refine (sat_loop (fun i _ m => L.Buckets cfg lastLevel inInputArray (2 * i) m) h
      fun i hi _ m hm => ?_).imp fun _ m hm => ?_
    · rw [sat_bind]
      refine (hm.sortAndMove hc hbss (by omega) (by omega)).imp fun _ m hm => ?_
      exact hm.move hbss heq (by omega) (by omega)
    · rw [show 2 * ((L.numBuckets - 2 + 1) / 2) = L.numBuckets - 2 by omega] at hm
      rw [sat_bind]
      refine (hm.sortAndMove hc hbss (by omega) (by omega)).imp fun _ m hm => ?_
      rw [show L.numBuckets - 2 + 1 = L.numBuckets - 1 by omega] at hm
      refine (hm.sortAndMove hc hbss (by omega) (by omega)).imp fun _ m hm => ?_
      rwa [show L.numBuckets - 1 + 1 = L.numBuckets by omega] at hm
  · next heq =>
    exact sat_loop (fun i _ m => L.Buckets cfg lastLevel inInputArray i m) h
      fun i hi _ m hm => hm.sortAndMove hc hbss hi fun h' => absurd h' heq

end Layout

/-! ### Partitioning -/

section
variable {comp}

/-- The buckets of the elements are numbered. -/
theorem keysOf_lt {splitters : List α} {k : ℕ} (hl : splitters.length = 2 ^ k - 1) (eq : Bool)
    (xs : List α) : ∀ b ∈ keysOf comp eq splitters xs, b < 2 ^ k * (1 + eq.toNat) := by
  intro b hb
  obtain ⟨x, -, rfl⟩ := List.mem_map.mp hb
  have : Classifier.bucketOf comp eq splitters x < 2 ^ (k + eq.toNat) :=
    Classifier.bucketOf_lt eq hl x
  cases eq <;> simpa [pow_succ] using this

/-- Equality buckets double the number of buckets, which is a power of 2. -/
theorem even_numBuckets {k : ℕ} (hk : 1 ≤ k) (eq : Bool) :
    eq = true → 2 ^ k * (1 + eq.toNat) % 2 = 0 ∧ 4 ≤ 2 ^ k * (1 + eq.toNat) := by
  intro heq
  have : 2 ≤ 2 ^ k := Nat.le_self_pow (by omega) 2
  rw [heq, Bool.toNat_true]
  omega

/-- The last bucket but one stays empty with equality buckets. -/
theorem notMem_keysOf (splitters : List α) {k : ℕ} (hl : splitters.length = 2 ^ k - 1) (eq : Bool)
    (xs : List α) : eq = true → 2 ^ k * (1 + eq.toNat) - 2 ∉ keysOf comp eq splitters xs := by
  intro heq hmem
  subst heq
  obtain ⟨x, -, hx⟩ := List.mem_map.mp hmem
  refine Classifier.bucketOf_ne splitters x (hx.trans ?_)
  rw [Bool.toNat_true]
  omega

/-- No element is less than one of an earlier bucket. -/
theorem keysOf_ordered (hc : StrictWeak comp) (eq : Bool) (splitters xs : List α) (i j : ℕ)
    (x y : α) (hij : i < j) (hx : x ∈ bucket (keysOf comp eq splitters xs) xs i)
    (hy : y ∈ bucket (keysOf comp eq splitters xs) xs j) : comp y x = false := by
  rw [keysOf, bucket_map, List.mem_filter, beq_iff_eq] at hx hy
  have hlt : Classifier.bucketOf comp eq splitters x < Classifier.bucketOf comp eq splitters y := by
    rwa [hx.2, hy.2]
  exact Classifier.bucketOf_ordered hc eq hlt

/-- The elements of an equality bucket are all equal to one splitter. -/
theorem keysOf_equal (hc : StrictWeak comp) {splitters : List α} (hsorted : Sorted comp splitters)
    {k : ℕ} (hl : splitters.length = 2 ^ k - 1) (eq : Bool) (xs : List α) :
    eq = true → ∀ b, b % 2 = 1 → b < 2 ^ k * (1 + eq.toNat) - 2 →
      Sorted comp (bucket (keysOf comp eq splitters xs) xs b) := by
  intro heq b hodd hb
  subst heq
  rw [keysOf, bucket_map]
  have hlt : b / 2 < splitters.length := by
    rw [Bool.toNat_true] at hb
    omega
  have hequal : ∀ x ∈ xs.filter fun x => Classifier.bucketOf comp true splitters x == b,
      comp x splitters[b / 2] = false ∧ comp splitters[b / 2] x = false := fun x hx => by
    rw [List.mem_filter, beq_iff_eq] at hx
    exact Classifier.bucketOf_equal hc hsorted (hx.2.trans (by omega)) hlt
  refine List.Pairwise.imp_of_mem (R := fun _ _ => True) (fun {x y} hx hy _ => ?_)
    (List.pairwise_of_forall fun _ _ => trivial)
  exact hc.le_trans (hequal x hx).2 (hequal y hy).1

/-- The buckets a classifier makes. -/
def Layout.ofSplitters (hc : StrictWeak comp) {splitters : List α} (hsorted : Sorted comp splitters)
    {k : ℕ} (hk : 1 ≤ k) (hl : splitters.length = 2 ^ k - 1) {p tmp : Ptr A}
    (harr : p.arr ≠ tmp.arr) (eq : Bool) (xs : List α) : Layout comp A where
  p := p
  tmp := tmp
  elems := xs
  keys := keysOf comp eq splitters xs
  numBuckets := 2 ^ k * (1 + eq.toNat)
  useEqualBuckets := eq
  arr_ne := harr
  length_eq := length_keysOf comp eq splitters xs
  key_lt := keysOf_lt hl eq xs
  even := even_numBuckets hk eq
  unused := notMem_keysOf splitters hl eq xs
  ordered := keysOf_ordered hc eq splitters xs
  equal := keysOf_equal hc hsorted hl eq xs

/-- The buckets that a sorted sample makes of the range it has been drawn from. -/
def Config.layout (cfg : Config) (hc : StrictWeak comp) {n : ℕ} {sample : List α}
    (h : cfg.Sample comp n sample) {p tmp : Ptr A} (harr : p.arr ≠ tmp.arr) (rest : List α) :
    Layout comp A :=
  Layout.ofSplitters hc (h.splitters_sorted hc) (Nat.le_add_left 1 _) (h.length_splitters hc) harr
    (cfg.equalFrom comp n sample) (sample ++ rest)

/-- What partitioning `n` elements relies on. -/
structure Config.Fits (cfg : Config) (n : ℕ) : Prop where
  /-- The classification loop does something. -/
  unroll_pos : 1 ≤ cfg.kUnrollClassifier
  /-- It can be unrolled at least once. -/
  unroll_le : cfg.kUnrollClassifier ≤ n
  /-- There are two buckets at least. -/
  log_pos : 1 ≤ cfg.logBuckets n
  /-- The classifier has as many levels. -/
  log_le : cfg.logBuckets n ≤ 8
  /-- A bucket's number is a byte; with nine bits, only because equality buckets are never switched
  on by so many splitters. -/
  byte : cfg.logBuckets n + cfg.kAllowEqualBuckets.toNat ≤ 8 ∨ 128 ≤ cfg.kEqualBucketsThreshold
  /-- The sample is smaller than the range. -/
  sample_lt : cfg.numSamples n < n

/-- There are 256 buckets at most. -/
theorem Config.Fits.leaves_add_le {cfg : Config} {n : ℕ} (h : cfg.Fits n) (hc : StrictWeak comp)
    {sample : List α} (hsample : cfg.Sample comp n sample) :
    cfg.leavesFrom comp n sample + (cfg.equalFrom comp n sample).toNat ≤ 8 := by
  have hleaves := hsample.leaves_le hc
  cases heq : cfg.equalFrom comp n sample with
  | false => exact hleaves.trans h.log_le
  | true =>
    rw [Config.equalFrom, Bool.and_eq_true, decide_eq_true_iff] at heq
    obtain ⟨hallow, hthreshold⟩ := heq
    rcases h.byte with hfit | hmany
    · rw [hallow] at hfit
      exact (Nat.add_le_add_right hleaves _).trans hfit
    · -- half of the splitters are duplicates
      have hpow : 2 ^ cfg.logBuckets n ≤ 2 ^ 8 := Nat.pow_le_pow_right (by decide) h.log_le
      have hpos := List.length_pos_of_ne_nil (hsample.chosen_ne_nil hc)
      have hlog : Nat.log2 (cfg.chosenFrom comp n sample).length < 7 :=
        (Nat.log2_lt hpos.ne').mpr (by omega)
      exact Nat.succ_le_succ hlog

variable [DecidableEq A] {lax : Bool} {m : Mem A (Slot α)} {p tmp : Ptr A} {cfg : Config}

/-- **Partitioning**: a sample determines the buckets, and every bucket is finished or
distributed. -/
theorem sat_partition {sort : Ptr A → ℕ → Ptr A → ℕ → Bool → Sorter α → Act A α (Sorter α)}
    (hc : StrictWeak comp) {xs : List α} {n oracle : ℕ} {lastLevel inInputArray : Bool}
    {s : Sorter α} (hn : xs.length = n) (hfits : cfg.Fits n)
    (hsort : Sorts comp cfg lax (cfg.numSamples n + 1) sort) (harr : p.arr ≠ tmp.arr)
    (hs : s.data.classifier.Empty) (hm : Has m p (xs.map .full)) (htmp : Raw m tmp n) :
    Sat (slots A α lax) (workspace p tmp oracle n)
      (partition comp cfg sort p n tmp oracle lastLevel inInputArray s) m fun r m' =>
        r.2.2.data.classifier.Empty ∧ ∃ (sample rest : List α) (h : cfg.Sample comp n sample),
          (sample ++ rest).Perm xs ∧ r.1 = (cfg.layout hc h harr rest).useEqualBuckets ∧
          r.2.2.numBuckets = (cfg.layout hc h harr rest).numBuckets ∧
          (∀ b ≤ r.2.2.numBuckets, r.2.1 b = (cfg.layout hc h harr rest).start b) ∧
          (cfg.layout hc h harr rest).Buckets cfg lastLevel inInputArray r.2.2.numBuckets m' := by
  subst hn
  rw [partition, sat_bind]
  refine (sat_buildClassifier hc hsort (Nat.lt_succ_self _) hfits.sample_lt.le hfits.log_pos harr
    hs (fun _ h => h) hm htmp).imp ?_
  generalize hn : xs.length = n at *
  rintro ⟨s₁, c, nb, eq⟩ m₁ ⟨hs₁, htmp₁, sample, rest, hperm, hm₁, hsample, hbuilt, heq⟩
  obtain ⟨rfl, rfl⟩ := Prod.mk.inj heq
  have hlen : (sample ++ rest).length = n := hperm.length_eq.trans hn
  set L := cfg.layout hc hsample harr rest with hL
  have hkeys : L.keys.length = n := L.length_eq.trans hlen
  have hle256 : L.numBuckets ≤ 256 := by
    calc 2 ^ cfg.leavesFrom comp n sample * (1 + (cfg.equalFrom comp n sample).toNat)
        = 2 ^ (cfg.leavesFrom comp n sample + (cfg.equalFrom comp n sample).toNat) := by
          cases cfg.equalFrom comp n sample <;> simp [pow_succ]
      _ ≤ 2 ^ 8 := Nat.pow_le_pow_right (by omega) (hfits.leaves_add_le hc hsample)
  -- classification
  have hclass := sat_sequentialClassification lax cfg (cfg.equalFrom comp n sample) oracle hc
    (hsample.splitters_sorted hc) hbuilt
    ((hsample.leaves_le hc).trans hfits.log_le) hfits.unroll_pos
    (by rw [hlen]; exact hfits.unroll_le)
    (show seg p (sample ++ rest).length ⊆
      workspace p tmp oracle n by rw [hlen]; exact fun l hl => .inl (.inl hl))
    (by rw [hlen]; exact fun l hl => .inr hl) hm₁ ⟨{ s₁.data with classifier := c }, L.numBuckets⟩
  rw [hlen] at hclass
  rw [sat_bind]
  refine hclass.imp ?_
  rintro s₂ m₂ ⟨hbs, hcl, hnb, hslot, ho⟩
  have hm₂ : Has m₂ p ((sample ++ rest).map .full) :=
    fun i v hv => (congrFun hslot _).trans (hm₁ i v hv)
  have htmp₂ : Raw m₂ tmp n := fun i hi => (congrFun hslot _).trans (htmp₁ i hi)
  -- distribution
  have hdist := sat_distributeElements lax 0 n oracle s₂.data.bucketStart L.length_eq (by omega)
    (fun k hk => (L.key_lt k hk).trans_le hle256)
    (fun b hb => (hbs b (L.key_lt b hb).le).trans (by simp [cursor]; rfl)) harr
    (fun j x _ _ hx => hm₂ j _ (by
      rw [List.getElem?_map, show (sample ++ rest)[j]? = some x from hx]
      rfl))
    (fun j b _ _ hb => ho j b hb)
    (fun j _ hj => htmp₂ _ (by rw [← hkeys]; exact dest_lt (by omega)))
  simp only [Ptr.add_zero, Nat.add_zero, Nat.zero_add] at hdist
  rw [sat_bind]
  refine hdist.mono ?_ ?_
  · rintro l ⟨j, -, hj, rfl | rfl | rfl⟩
    · exact .inl (.inl (elem_add_mem_seg.mpr (by omega)))
    · exact .inl (.inr (elem_add_mem_seg.mpr (by rw [← hkeys]; exact dest_lt (by omega))))
    · exact .inr (by simp; omega)
  rintro bs m₃ ⟨-, -, hraw, hdest⟩
  have hbuckets : L.Buckets cfg lastLevel inInputArray 0 m₃ := by
    intro b hb
    rw [if_neg (by omega)]
    refine ⟨has_bucket L.length_eq (fun j x hx => hdest j x (Nat.zero_le j) ?_ hx) b,
      fun i hi => ?_⟩
    · rw [← hlen]
      exact (List.getElem?_eq_some_iff.mp hx).1
    · have := L.end_le b
      rw [L.length_bucket] at hi
      rw [Ptr.add_assoc]
      exact hraw _ (Nat.zero_le _) (by have : L.n = n := hlen; omega)
  -- the buckets
  rw [sat_bind]
  refine (hbuckets.finish hc hbs).mono ?_ fun _ m₄ hm₄ => ?_
  · rw [show L.space = seg p n ∪ seg tmp n by rw [Layout.space, show L.n = n from hlen]; rfl]
    exact fun l hl => .inl hl
  obtain ⟨c', hreset, hempty⟩ := hbuilt.reset
  rw [sat_bind, sat_ofOption]
  refine ⟨{ s₂.data with bucketStart := bs, classifier := c' }, ?_, hempty, sample,
    rest, hsample, hperm, rfl, rfl, hbs, hm₄⟩
  simp [LocalData.reset, hcl, hreset]

end

end Ps4o
