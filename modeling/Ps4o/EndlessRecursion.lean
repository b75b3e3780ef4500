import Ps4o.Program.Depth
import Ps4o.Sequential

/-!
# Endless recursion

Ranges on which `sequential` never returns, however deep it may go.

## What is proved

* `sequential_deeper` — a run that returns stays one when it may go deeper.
* `not_returns_of_le_numSamples` — a sample with as many elements as the range is sorted by the same
  recursion, and one with more elements cannot be drawn.
* `not_returns_of_equal` — of equal elements, for whose number a single splitter does not switch
  equality buckets on, one bucket holds all.
-/

namespace Ps4o

open Ps4o.Program Ps4o.Storage Ps4o.Order

variable {A α : Type} {comp : α → α → Bool} {cfg : Config}

/-! ### Going deeper -/

section
variable {sort sort' : Ptr A → ℕ → Ptr A → ℕ → Bool → Sorter α → Act A α (Sorter α)}

/-- One sort does what another one does, and may go deeper. -/
def Deeper (sort sort' : Ptr A → ℕ → Ptr A → ℕ → Bool → Sorter α → Act A α (Sorter α)) : Prop :=
  ∀ p n tmp oracle flag s, (sort p n tmp oracle flag s).Extends (sort' p n tmp oracle flag s)

theorem Deeper.partition (h : Deeper sort sort') (p : Ptr A) (n : ℕ) (tmp : Ptr A) (oracle : ℕ)
    (lastLevel inInputArray : Bool) (s : Sorter α) :
    (Ps4o.partition comp cfg sort p n tmp oracle lastLevel inInputArray s).Extends
      (Ps4o.partition comp cfg sort' p n tmp oracle lastLevel inInputArray s) := by
  -- only the sample is sorted
  refine .bind ?_ fun _ => .refl _
  exact .bind (.refl _) fun _ => .bind (h _ _ _ _ _ _) fun _ => .refl _

theorem Deeper.sortBucket (h : Deeper sort sort') (p tmp : Ptr A) (oracle : ℕ) (inInputArray : Bool)
    (bss : ℕ → ℕ) (b : ℕ) (s : Sorter α) :
    (Ps4o.sortBucket cfg sort p tmp oracle inInputArray bss b s).Extends
      (Ps4o.sortBucket cfg sort' p tmp oracle inInputArray bss b s) := by
  unfold Ps4o.sortBucket
  dsimp only
  split
  · exact h _ _ _ _ _ _
  · exact .refl _

theorem Deeper.sequentialRec (h : Deeper sort sort') (p : Ptr A) (n : ℕ) (tmp : Ptr A) (oracle : ℕ)
    (inInputArray : Bool) (s : Sorter α) :
    (Ps4o.sequentialRec comp cfg sort p n tmp oracle inInputArray s).Extends
      (Ps4o.sequentialRec comp cfg sort' p n tmp oracle inInputArray s) := by
  refine .bind (h.partition _ _ _ _ _ _ _) fun ⟨equalBuckets, bss, s⟩ => ?_
  dsimp only
  split
  · exact .refl _
  · unfold sortBuckets
    split
    · exact .bind (.loop (fun _ _ => h.sortBucket _ _ _ _ _ _ _) _ _)
        fun _ => h.sortBucket _ _ _ _ _ _ _
    · exact .loop (fun _ _ => h.sortBucket _ _ _ _ _ _ _) _ _

/-- `sequential` may go deeper. -/
theorem sequential_deeper (fuel k : ℕ) :
    Deeper (sequential (A := A) comp cfg fuel) (sequential comp cfg (fuel + k)) := by
  induction fuel with
  | zero => exact fun p n tmp oracle flag s => trivial
  | succ fuel ih =>
    intro p n tmp oracle flag s
    rw [Nat.add_right_comm, sequential, sequential]
    split
    · exact .refl _
    · exact ih.sequentialRec _ _ _ _ _ _

end

section
variable [DecidableEq A] {lax : Bool}

/-! ### Large samples -/

omit [DecidableEq A] in
/-- No sample is drawn that has more elements than the range. -/
theorem selectSample_not_ok {S : Semantics (Cmd A α) Cmd.Ans (Mem A (Slot α)) (Loc A)} {p : Ptr A}
    {n numSamples : ℕ} (hn : n < numSamples) (c : ℕ → ℕ) (m : Mem A (Slot α))
    (r : Unit × (ℕ → ℕ) × Mem A (Slot α)) : run S (selectSample p n numSamples) c m ≠ .ok r := by
  intro hrun
  obtain ⟨r', hr'⟩ := Prog.run_loop_prefix hrun (Nat.succ_le_of_lt hn)
  obtain ⟨b, c', m', -, hlast⟩ := Prog.run_bind_eq_ok hr'
  dsimp only at hlast
  rw [if_pos (Nat.sub_self n)] at hlast
  cases hlast

/-- **A sample that is not shorter than the range is never sorted.** -/
theorem not_returns_of_le_numSamples {n : ℕ} (hbig : 2 * cfg.kBaseCaseSize < n)
    (hle : n ≤ cfg.numSamples n) (fuel : ℕ) {p tmp : Ptr A} {oracle : ℕ} {inInputArray : Bool}
    {s : Sorter α} {c : ℕ → ℕ} {m : Mem A (Slot α)} (r : Sorter α × (ℕ → ℕ) × Mem A (Slot α)) :
    run (slots A α lax) (sequential comp cfg fuel p n tmp oracle inInputArray s) c m ≠ .ok r := by
  induction fuel generalizing inInputArray s c m r with
  | zero =>
    intro hrun
    cases hrun
  | succ fuel ih =>
    intro hrun
    rw [sequential, if_neg (by omega)] at hrun
    obtain ⟨x, c₁, m₁, hpart, -⟩ := Prog.run_bind_eq_ok hrun
    obtain ⟨y, c₂, m₂, hbuild, -⟩ := Prog.run_bind_eq_ok hpart
    obtain ⟨u, c₃, m₃, hsample, hrest⟩ := Prog.run_bind_eq_ok hbuild
    obtain ⟨s', c₄, m₄, hsort, -⟩ := Prog.run_bind_eq_ok hrest
    rcases hle.eq_or_lt with heq | hlt
    · -- the sample is the whole range
      rw [← heq] at hsort
      exact ih _ hsort
    · exact selectSample_not_ok hlt _ _ _ hsample

/-! ### Equal elements -/

/-- A range of equal elements has only one splitter. -/
theorem Config.Sample.chosen_of_equal {n : ℕ} {sample : List α} (h : cfg.Sample comp n sample)
    (hequal : ∀ x ∈ sample, ∀ y ∈ sample, comp x y = false) :
    ∃ s ∈ sample, cfg.chosenFrom comp n sample = [s] := by
  obtain ⟨x, tail, hx, hpicks, htail⟩ := h.exists_picks
  refine ⟨x, List.mem_of_getElem? hx, ?_⟩
  rw [Config.chosenFrom, hpicks]
  refine chosen_eq_singleton fun y hy => hequal x (List.mem_of_getElem? hx) y ?_
  obtain ⟨i, -, hi⟩ := htail y hy
  exact List.mem_of_getElem? hi

/-- **On equal elements the recursion never ends**, if a single splitter does not switch equality
buckets on: one bucket holds all of them. -/
theorem not_returns_of_equal (hc : StrictWeak comp) {n : ℕ} (hfits : cfg.Fits n)
    (hbig : 2 * cfg.kBaseCaseSize < n) (hlevel : cfg.kSingleLevelThreshold < n)
    (hoff : ¬ cfg.EqualOn n)
    (hsort : ∀ fuel, n ≤ fuel →
      Sorts comp cfg lax (cfg.numSamples n + 1) (sequential (A := A) comp cfg fuel)) (fuel : ℕ)
    {p tmp : Ptr A} {xs : List α} {oracle : ℕ} {inInputArray : Bool} {s : Sorter α}
    {m : Mem A (Slot α)} {c : ℕ → ℕ} (hn : xs.length = n)
    (hequal : ∀ x ∈ xs, ∀ y ∈ xs, comp x y = false) (harr : p.arr ≠ tmp.arr)
    (hs : s.data.classifier.Empty) (hm : Has m p (xs.map .full)) (htmp : Raw m tmp n)
    (r : Sorter α × (ℕ → ℕ) × Mem A (Slot α)) :
    run (slots A α lax) (sequential comp cfg fuel p n tmp oracle inInputArray s) c m ≠ .ok r := by
  induction fuel generalizing p tmp xs oracle inInputArray s m c r with
  | zero => exact fun h => nomatch h
  | succ fuel ih =>
    intro hrun
    rw [sequential, if_neg (by omega)] at hrun
    obtain ⟨⟨eq, bss, s₁⟩, c₁, m₁, hpart, hrest⟩ := Prog.run_bind_eq_ok hrun
    -- if it may go deeper, partitioning is right
    have hdeep := (Deeper.partition (@sequential_deeper A α comp cfg fuel n) p n tmp oracle
      (decide (n ≤ cfg.kSingleLevelThreshold)) inInputArray s).run hpart
    obtain ⟨hs₁, sample, rest, hsample, hperm, heq, hnb, hbss, hbuckets⟩ :=
      (sat_partition hc hn hfits (hsort (fuel + n) (Nat.le_add_left n fuel)) harr hs hm htmp).of_run
        hdeep
    have hlen : (sample ++ rest).length = n := hperm.length_eq.trans hn
    have hequal' : ∀ x ∈ sample ++ rest, ∀ y ∈ sample ++ rest, comp x y = false := fun x hx y hy =>
      hequal x (hperm.mem_iff.mp hx) y (hperm.mem_iff.mp hy)
    obtain ⟨z, hz, hds⟩ := hsample.chosen_of_equal fun x hx y hy =>
      hequal' x (List.mem_append_left _ hx) y (List.mem_append_left _ hy)
    have heqFrom : cfg.equalFrom comp n sample = false := by
      rw [← Bool.not_eq_true, Config.equalFrom_singleton hds]
      exact hoff
    obtain ⟨b, hb, hne, hsize⟩ := (stuck_iff hc hsample harr rest hlen).mpr
      ⟨z, hds, heqFrom, hequal' z (List.mem_append_left _ hz)⟩
    simp only at hs₁ heq hnb hbss hbuckets
    set L := cfg.layout hc hsample harr rest with hL
    obtain rfl : eq = false := heq.trans heqFrom
    dsimp only at hrest
    rw [if_neg (by rw [decide_eq_true_iff]; omega), sortBuckets, if_neg Bool.false_ne_true, hnb]
      at hrest
    rw [hnb] at hbss hbuckets
    -- the buckets before are empty
    have hsizes : ∀ i < L.numBuckets, bss (i + 1) - bss i = L.size i := fun i hi => by
      rw [hbss i hi.le, hbss (i + 1) hi, L.start_add_size, Nat.add_sub_cancel_left]
    have hempty : ∀ i, i ≠ b → L.size i = 0 := fun i hi => List.count_eq_zero.mpr fun hmem =>
      hi ((L.size_eq_iff b).mp (hsize.trans hlen.symm) i hmem).symm
    have hskip : ∀ i ≤ b, Prog.loop
        (fun i s => sortBucket cfg (sequential comp cfg fuel) p tmp oracle inInputArray bss i s)
        i s₁ = .ret s₁ := by
      intro i
      induction i with
      | zero => exact fun _ => rfl
      | succ i ihi =>
        intro hi
        rw [Prog.loop, ihi (by omega), Prog.ret_bind, sortBucket,
          hsizes i (by omega), hempty i (by omega)]
        exact if_neg (by omega)
    obtain ⟨r', hr'⟩ := Prog.run_loop_prefix hrest (Nat.succ_le_of_lt hb)
    rw [Nat.succ_eq_add_one, Prog.loop, hskip b le_rfl, Prog.ret_bind,
      sortBucket, hsizes b hb, hsize, if_pos hbig, hbss b hb.le] at hr'
    -- this is the same again
    have hdist : Distributed L.p L.tmp (L.start b) (L.bucket b) m₁ := by
      have hb' := hbuckets b hb
      rwa [if_neg] at hb'
      rintro ⟨-, hfin | hfin | hfin⟩
      · exact hne hfin
      · rw [decide_eq_true_iff] at hfin
        omega
      · rw [hsize] at hfin
        omega
    have hlenb : (L.bucket b).length = n := (L.length_bucket b).trans hsize
    have hmemb : ∀ x ∈ L.bucket b, x ∈ sample ++ rest := fun x hx => mem_of_mem_bucket hx
    exact ih hlenb (fun x hx y hy => hequal' x (hmemb x hx) y (hmemb y hy))
      (show (tmp + L.start b).arr ≠ (p + L.start b).arr from harr.symm) hs₁ hdist.1
      (by rw [← hlenb]; exact hdist.2) r' hr'

end

end Ps4o
