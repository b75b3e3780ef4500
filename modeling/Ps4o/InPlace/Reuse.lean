import Ps4o.Lifetimes
import Ps4o.Program.Session
import Ps4o.InPlace.Sequential

/-!
# Using a sorter again

A sorter can be used again (`make_sorter` in `ips4o.hpp`): for other parts of the array, and after
its elements have been assigned to.

## What is proved

* `Use.sat_act` — each time, the sorter does to the array what a sort is to do to a list.
* `OnlyRange.of_fresh` — nothing is live then but the elements.
* `reuse_refines` — **whatever a caller does with an array and a sorter**, one after the other, the
  array holds what the same operations make of a list; the lifetimes are respected throughout.
-/

namespace Ps4o.InPlace

open Ps4o.Program Ps4o.Storage Ps4o.Order

variable {α : Type}

/-! ### Uses -/

/-- What a caller does with an array and a sorter. -/
inductive Use (α : Type) where
  /-- The elements from `first` up to `last` are sorted. -/
  | sort (first last : ℕ)
  /-- An element is assigned to. -/
  | assign (i : ℕ) (x : α)

/-- The array has `n` elements. -/
def Use.Within (n : ℕ) : Use α → Prop
  | .sort first last => first ≤ last ∧ last ≤ n
  | .assign i _ => i < n

/-- What the caller does, with the array from `p` on. -/
def Use.act (comp : α → α → Bool) (cfg : Config) (init : Bool) (B fuel : ℕ) (check : Bool)
    (p : Ptr Area) (s : Sorter α) : Use α → Act Area α (Sorter α)
  | .sort first last =>
    SequentialSorter.sort comp cfg init B fuel check (p + first) (last - first) s
  | .assign i x => do
    assignTo (p + i) x
    pure s

/-- What that is to make of the elements. -/
inductive Use.Makes (comp : α → α → Bool) : Use α → List α → List α → Prop where
  /-- The elements in the middle are sorted. -/
  | sort {pre mid mid' post : List α} : mid'.Perm mid → Sorted comp mid' →
    Makes comp (.sort pre.length (pre.length + mid.length)) (pre ++ mid ++ post)
      (pre ++ mid' ++ post)
  /-- An element is replaced. -/
  | assign {i : ℕ} {x : α} {xs : List α} : Makes comp (.assign i x) xs (xs.set i x)

/-! ### One use -/

/-- The array holds `n` elements, and the sorter can be used. -/
structure Holding (cfg : Config) (init : Bool) (B n : ℕ) (p : Ptr Area) (s : Sorter α)
    (m : Mem Area (Slot α)) (xs : List α) : Prop where
  fresh : s.Fresh cfg init B m
  has : Has m p (xs.map .full)
  length : xs.length = n

section
variable {comp : α → α → Bool} {cfg : Config} {init : Bool} {B n fuel first last : ℕ} {p : Ptr Area}
  {xs : List α} {m : Mem Area (Slot α)} {s : Sorter α}

/-- A part of a list. -/
theorem exists_parts (hle : first ≤ last) (hn : last ≤ xs.length) : ∃ pre mid post : List α,
    xs = pre ++ mid ++ post ∧ first = pre.length ∧ last = pre.length + mid.length := by
  refine ⟨xs.take first, (xs.drop first).take (last - first), xs.drop last, ?_, ?_, ?_⟩
  · have hdrop : xs.drop last = (xs.drop first).drop (last - first) := by
      rw [List.drop_drop, Nat.add_sub_of_le hle]
    rw [hdrop, List.append_assoc, List.take_append_drop, List.take_append_drop]
  · rw [List.length_take]
    omega
  · rw [List.length_take, List.length_take, List.length_drop]
    omega

/-- **Each use** makes of the array what it is to make of a list. -/
theorem Use.sat_act (hc : StrictWeak comp) (hcfg : Sound cfg) (hB : 1 ≤ B) (hp : p.arr = .input)
    (hfuel : n < fuel) (check : Bool) {u : Use α} (hu : u.Within n)
    (h : Holding cfg init B n p s m xs) :
    Sat (slots Area α init) (partitionSpace cfg.kMaxBuckets B n p)
      (u.act comp cfg init B fuel check p s) m fun s' m' =>
        ∃ ys, u.Makes comp xs ys ∧ Holding cfg init B n p s' m' ys := by
  obtain ⟨hs, hm, rfl⟩ := h
  cases u with
  | sort first last =>
    obtain ⟨hle, hlast⟩ := hu
    obtain ⟨pre, mid, post, rfl, rfl, rfl⟩ := exists_parts hle hlast
    rw [List.map_append, has_append, List.map_append, has_append, List.length_append,
      List.length_map, List.length_map] at hm
    obtain ⟨⟨hpre, hmid⟩, hpost⟩ := hm
    have hdeep : mid.length < fuel := by
      simp only [List.length_append] at hfuel
      omega
    have hsat := sat_sorter hc hcfg hB hdeep check (p := p + pre.length) hp hs hmid
    rw [Use.act, Nat.add_sub_cancel_left]
    refine (sat_frame hsat).mono (partitionSpace_subset (by simp)) ?_
    rintro s' m' ⟨⟨hs', ys, hperm, hsorted, hys⟩, hf⟩
    refine ⟨_, .sort hperm hsorted, hs', ?_, by simp [hperm.length_eq]⟩
    rw [List.map_append, has_append, List.map_append, has_append, List.length_append,
      List.length_map, List.length_map, hperm.length_eq]
    refine ⟨⟨hf.has hpre fun i hi => ?_, hys⟩, hf.has hpost fun i hi => ?_⟩
    · exact notMem_partitionSpace hp (.inl hi)
    · rw [Ptr.add_assoc]
      exact notMem_partitionSpace hp (.inr (Nat.le_add_right _ _))
  | assign i x =>
    have hi : i < xs.length := hu
    have hfull : m.slot (p + i) = .full xs[i] := hm i _ (by simp [hi])
    rw [Use.act, sat_bind]
    refine sat_assignTo (seg_subset_partitionSpace cfg B (elem_add_mem_seg.mpr hu))
      (by simp [hfull]) ⟨_, .assign, ?_, ?_, List.length_set⟩
    · refine hs.frame hp (n := xs.length) fun q hq => ?_
      rw [Mem.set_slot, Function.update_of_ne]
      rintro rfl
      exact hq (elem_add_mem_seg.mpr hu)
    · rw [List.map_set]
      exact hm.set i _

end

/-! ### Lifetimes -/

/-- The live slots are those of the `n` elements from `p` on. -/
def OnlyRange (p : Ptr Area) (n : ℕ) (m : Mem Area (Slot α)) : Prop :=
  ∀ q, Storage.Live m q ↔ q.arr = p.arr ∧ p.off ≤ q.off ∧ q.off < p.off + n

section
variable {cfg : Config} {B n : ℕ} {p : Ptr Area} {xs : List α} {m m' : Mem Area (Slot α)}
  {s : Sorter α}

/-- What a sorter works on besides the range is raw. -/
theorem Sorter.Fresh.not_live (h : s.Fresh cfg false B m) (hB : 1 ≤ B) {q : Ptr Area}
    (hq : .elem q ∈ partitionSpace cfg.kMaxBuckets B n p) (hr : .elem q ∉ seg p n) :
    m.slot q = .raw := by
  have hraw : ∀ {o : Ptr Area}, .elem q ∈ seg o B → Raw m o B → m.slot q = .raw := by
    rintro o ⟨i, hi, he⟩ ho
    rw [Loc.elem.inj he]
    exact ho i hi
  rcases hq with ((hq | hq | hq) | hq) | hq
  · exact absurd hq hr
  · exact hraw hq (h.idle false rfl)
  · exact hraw hq (h.idle true rfl)
  · exact hraw hq (h.overflow rfl)
  · -- in the buffer of some bucket
    obtain ⟨i, hi, he⟩ := hq
    have hdiv := Nat.div_add_mod' i B
    refine hraw (o := Buffers.data B (i / B)) ⟨i % B, Nat.mod_lt i hB, ?_⟩ ?_
    · have hdata : Buffers.data B (i / B) = (⟨.buffers, 0⟩ : Ptr Area) + i / B * B :=
        congrArg (Ptr.mk Area.buffers) (Nat.zero_add _).symm
      rw [he, hdata, Ptr.add_assoc, hdiv]
    · have hholds := h.buffers (i / B) ((Nat.div_lt_iff_lt_mul hB).mpr hi)
      simpa using hholds.ready rfl

/-- **Nothing but the elements is live** when the sorter has been used. -/
theorem OnlyRange.of_fresh (h : OnlyRange p n m) (hs : s.Fresh cfg false B m') (hB : 1 ≤ B)
    (hlen : xs.length = n) (hm : Has m' p (xs.map .full))
    (hf : (slots Area α false).AgreeOn (partitionSpace cfg.kMaxBuckets B n p)ᶜ m m') :
    OnlyRange p n m' := by
  subst hlen
  intro q
  by_cases hr : .elem q ∈ seg p xs.length
  · refine iff_of_true ?_ (elem_mem_seg.mp hr)
    obtain ⟨i, hi, he⟩ := hr
    rw [Storage.Live, Loc.elem.inj he, hm i (.full xs[i]) (by simp [hi])]
    simp
  · refine iff_of_false (not_not.mpr ?_) fun hq => hr (elem_mem_seg.mpr hq)
    by_cases hq : .elem q ∈ partitionSpace cfg.kMaxBuckets B xs.length p
    · exact hs.not_live hB hq hr
    · have heq : m.slot q = m'.slot q := hf (.elem q) hq
      rw [← heq]
      by_contra hlive
      exact hr (elem_mem_seg.mpr ((h q).mp hlive))

end

/-! ### Sessions -/

section
variable {comp : α → α → Bool} {cfg : Config} {init : Bool} {B fuel : ℕ} {p : Ptr Area}
  {xs : List α} {m : Mem Area (Slot α)} {s : Sorter α}

/-- A session that only sorts permutes the elements. -/
theorem session_perm {us : List (Use α)} {ys : List α} (h : Session (Use.Makes comp) us xs ys)
    (hsorts : ∀ u ∈ us, ∃ first last, u = .sort first last) : ys.Perm xs := by
  refine h.preserves (P := fun xs ys => List.Perm ys xs) List.Perm.refl
    fun u hu xs ys zs hys hz => ?_
  obtain ⟨first, last, rfl⟩ := hsorts u hu
  cases hz with
  | sort hperm _ => exact ((hperm.append_left _).append_right _).trans hys

/-- **A sorter can be used again**: whatever a caller does with an array and one sorter, sorting any
parts of the array and assigning to its elements in any order, every call returns; in the end the
array holds what the same operations make of a list, and nothing else has been changed but the
buffers. At every command on the way the lifetimes are respected, and in the end nothing but the
elements is live. -/
theorem reuse_refines (hc : StrictWeak comp) (hcfg : cfg.Admitted)
    (hwide : cfg.kBaseCaseSize * 2 ^ cfg.kLogBuckets < 2 ^ 63)
    (hover : cfg.kOversampleFactor = 20) (hallow : cfg.kAllowEqualBuckets = true)
    (hthreshold : cfg.kEqualBucketsThreshold ≤ 2 ^ ((cfg.kLogBuckets + 1) / 2) - 2) (hB : 1 ≤ B)
    (hfuel : xs.length < fuel) (check : Bool) (hp : p.arr = .input) (hs : s.Fresh cfg init B m)
    (hm : Has m p (xs.map .full)) (us : List (Use α)) (hus : ∀ u ∈ us, u.Within xs.length)
    (choices : ℕ → ℕ) :
    (∃ s' c' m' ys, run (slots Area α init)
        (us.foldlM (Use.act comp cfg init B fuel check p) s) choices m = .ok (s', c', m') ∧
      Session (Use.Makes comp) us xs ys ∧ Has m' p (ys.map .full) ∧ ys.length = xs.length ∧
      ((∀ u ∈ us, ∃ first last, u = .sort first last) → ys.Perm xs) ∧
      (slots Area α init).AgreeOn (partitionSpace cfg.kMaxBuckets B xs.length p)ᶜ m m') ∧
    (init = false → OnlyRange p xs.length m →
      Disciplined (us.foldlM (Use.act comp cfg init B fuel check p) s) m fun _ m' =>
        OnlyRange p xs.length m') := by
  have hsound := sound_of_threshold hcfg hwide hover hallow hthreshold
  have hsession : Sat (slots Area α init) (partitionSpace cfg.kMaxBuckets B xs.length p)
      (us.foldlM (Use.act comp cfg init B fuel check p) s) m fun s' m' =>
        ∃ ys, Session (Use.Makes comp) us xs ys ∧ Holding cfg init B xs.length p s' m' ys :=
    sat_session _ (fun u hu s m ys h => Use.sat_act hc hsound hB hp hfuel check (hus u hu) h)
      ⟨hs, hm, rfl⟩
  constructor
  · obtain ⟨s', c', m', hrun, ⟨ys, hys, h⟩, hf⟩ := hsession.frame.run choices
    exact ⟨s', c', m', ys, hrun, hys, h.has, h.length, session_perm hys, hf⟩
  · rintro rfl hlive
    refine disciplined_of_sat (hsession.frame.imp ?_)
    rintro s' m' ⟨⟨ys, -, h⟩, hf⟩
    exact hlive.of_fresh h.fresh hB h.length h.has hf

end

/-- A part of forty numbers is sorted, one of them is replaced, and then all are sorted. -/
theorem reuse_refines_forty :
    (∃ s' c' m' ys, run (slots Area ℕ false)
        ([Use.sort 3 38, .assign 7 100, .sort 0 40].foldlM
          (Use.act (fun a b => decide (a < b)) inPlaceConfig false 4 41 true ⟨.input, 0⟩)
          (Sorter.new 4 (fun _ => .set 0 0) 0 (fun _ => 0) false)) (fun i => i)
        (Mem.ofList ⟨.input, 0⟩ (List.range 40) fun _ => 0) = .ok (s', c', m') ∧
      Session (Use.Makes fun a b => decide (a < b)) [Use.sort 3 38, .assign 7 100, .sort 0 40]
        (List.range 40) ys ∧ Has m' ⟨.input, 0⟩ (ys.map .full) ∧ ys.length = 40) := by
  have hraw : ∀ q : Ptr Area, q.arr ≠ .input → Ready false (Mem.ofList ⟨Area.input, 0⟩
      (List.range 40) fun _ => 0) q 4 := fun q hq _ => raw_ofList _ _ hq _
  have hcfg : inPlaceConfig.Admitted := ⟨by decide, by decide, by decide, by decide⟩
  obtain ⟨s', c', m', ys, hrun, hys, hm', hlen, -⟩ := (reuse_refines (StrictWeak.of_linearOrder ℕ)
    hcfg (by decide) rfl rfl (by decide) (by decide)
    (show (List.range 40).length < 41 by decide) true rfl
    (Sorter.new_fresh inPlaceConfig (fun _ => .set 0 0) 0 (fun _ => 0) false hraw)
    (has_ofList ⟨Area.input, 0⟩ _ fun _ => 0) [Use.sort 3 38, .assign 7 100, .sort 0 40]
    (by simp [Use.Within]) fun i => i).1
  exact ⟨s', c', m', ys, hrun, hys, hm', hlen.trans List.length_range⟩

end Ps4o.InPlace
