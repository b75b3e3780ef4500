import Ps4o.InPlace.BlockAccesses

/-!
# Block permutation, element by element

The commands and the accesses of all threads, in any order.

## What is proved

* `Matches.step` — **every step of a thread is matched by steps that move whole blocks.**
* `permuteBlocks_elementwise` — whatever the order of the commands, the lifetimes are respected, no
  two threads touch the same slot, and in the end every block is in its bucket or in the one
  overflow block.
-/

namespace Ps4o.InPlace

open Ps4o.Program Ps4o.Storage Ps4o.Order

variable {α : Type}

/-! ### The runs -/

section
variable {σ β : Type} {S : Semantics (Cmd Area α) Cmd.Ans σ (Loc Area)} {init : Bool}
  {B t n nb : ℕ} {bss full : ℕ → ℕ} {classify : Option β → ℕ} {s₀ s : Permuting t β}
  {content : β → List α} {p : Ptr Area} {f f' : Working t α σ} {L : Fin t → List (Place t)}
  {i : Fin t} {comp : α → α → Bool} {eq : Bool} {c : Classifier α} {m : σ}

/-- What belongs to the threads: the slots that lie in the array as a whole, and their blocks. -/
def territory (t B n : ℕ) (p : Ptr Area) : Set (Loc Area) :=
  {x | ∃ l : Place t, l.Real B n ∧ x ∈ seg (l.ptr B p) B}

/-- The memory, the pointers and the flags of the threads are those of threads that move whole
blocks. -/
structure Represents (st : BlockStore S init B) (content : β → List α) (n : ℕ) (p : Ptr Area)
    (f : Working t α σ) (s : Permuting t β) : Prop where
  pointers : f.pointers = s.pointers
  places : ∀ l : Place t, l.Real B n → st.Ok content f.mem (l.ptr B p) (s.content l)
  overflow : ∀ i, (s.threads i).overflow.isSome ↔ (f.workers i).overflow = true

variable {st : BlockStore S init B} [Fintype β]
  (h : Boundaries false nb n bss) (hB : 1 ≤ B) (hcl : Classified B n nb bss full classify s₀)
  (hp : p.arr = .input)
  (hhead : ∀ x, ∃ a l, content x = a :: l ∧ c.classify comp eq a = some (classify (some x)))
include hcl

/-- In the beginning. -/
theorem matches_start (hf : Represents st content n p (.start nb t s₀.pointers m) s₀) :
    Matches st content classify n p (.start nb t s₀.pointers m) s₀ fun _ => [] where
  pointers := rfl
  count i := by
    rw [hcl.threads i]
    rfl
  readBucket i := by
    rw [hcl.threads i]
    rfl
  owns _ _ hl := absurd hl List.not_mem_nil
  doing i := by
    refine moving_ret ?_
    rw [hcl.threads i, nextBucket_pc]
    rfl
  busy _ _ := ⟨_, rfl⟩
  free l hl _ := hf.places l hl
  overflow i := by
    rw [hcl.threads i]
    simp [Thread.start, Working.start, nextBucket]
    split <;> simp

include h hB

/-- What the threads use belongs to them. -/
theorem Matches.subset_territory (hM : Matches st content classify n p f s L)
    (hr : Reachable B n nb classify s₀ s) : spaceOf B p (L i) ⊆ territory t B n p := by
  rintro x ⟨l, hl, hx⟩
  exact ⟨l, (hM.owns i l hl).real h hB hcl hr, hx⟩

include hp hhead

/-- **Every step of a thread is defined, and is matched by steps that move whole blocks.** -/
theorem Matches.step (hM : Matches st content classify n p f s L)
    (hr : Reachable B n nb classify s₀ s) (i : Fin t) (choice : ℕ) : ∃ f' s' L',
    f.step comp init B eq c p S n nb i choice = some f' ∧ Reachable B n nb classify s s' ∧
      Matches st content classify n p f' s' L' ∧
      S.AgreeOn (territory t B n p)ᶜ f.mem f'.mem := by
  cases hprog : (f.workers i).prog with
  | ret a =>
    obtain ⟨s', hss', hpc, hM'⟩ := hM.settle h hB hcl hr hprog
    have hi : Function.update L i [] i = [] := Function.update_self ..
    obtain ⟨s'', L', hs', hM''⟩ :=
      hM'.access h hB hcl hp hhead (hr.trans hss') hi hprog hpc
    refine ⟨f.access comp init B eq c p n nb i a, s'', L', ?_, hss'.trans hs', hM'', ?_⟩
    · simp only [Working.step, hprog]
    · have hmem : (f.access comp init B eq c p n nb i a).mem = f.mem := by
        cases a <;> simp only [Working.access, Working.set, Working.continue]
        split <;> rfl
      rw [hmem]
      exact .refl S _ f.mem
  | cmd o k =>
    obtain ⟨-, hexec⟩ := hM.command h hB hcl hp hr hprog
    obtain ⟨a, m', he, hag, hM'⟩ := hexec choice
    refine ⟨f.answered i (k a) m', s, L, ?_, .start, hM', hag.subset ?_⟩
    · simp only [Working.step, hprog, he, Option.map_some]
    · exact Set.compl_subset_compl.mpr (hM.subset_territory h hB hcl hr)
  | halt e =>
    have hdoing := hM.doing i
    rw [hprog] at hdoing
    exact hdoing.elim

/-- **Every run is matched by a run in which whole blocks are moved.** -/
theorem Working.Reaches.matches
    (hf : Working.Reaches comp init B eq c p S n nb (.start nb t s₀.pointers m) f)
    (hst : Represents st content n p (.start nb t s₀.pointers m) s₀) :
    ∃ s L, Reachable B n nb classify s₀ s ∧ Matches st content classify n p f s L ∧
      S.AgreeOn (territory t B n p)ᶜ m f.mem := by
  induction hf with
  | start => exact ⟨s₀, _, .start, matches_start hcl hst, .refl S _ m⟩
  | step i choice _ hs ih =>
    obtain ⟨s, L, hr, hM, hag⟩ := ih
    obtain ⟨f', s', L', hs', hss', hM', hag'⟩ := hM.step h hB hcl hp hhead hr i choice
    obtain rfl := Option.some.inj (hs'.symm.trans hs)
    exact ⟨s', L', hr.trans hss', hM', hag.trans hag'⟩

omit h hB hp hhead hcl [Fintype β] in
/-- When all threads have finished, no block is on its way. -/
theorem Matches.finished (hM : Matches st content classify n p f s L)
    (hret : ∀ i, (f.workers i).prog = .ret .finished) :
    (∀ i, (s.threads i).pc = .finished) ∧ Represents st content n p f s := by
  have hdone : ∀ i, (s.threads i).pc = .finished ∧ L i = [] := by
    intro i
    have hdoing := hM.doing i
    rw [hret i] at hdoing
    obtain ⟨vs, hplan, hL, -⟩ := hdoing
    cases hplan with
    | access _ hpc => exact ⟨hpc, hL.symm⟩
  refine ⟨fun i => (hdone i).1, hM.pointers, fun l hl => hM.free l hl fun i hmem => ?_, fun i => ?_⟩
  · rw [(hdone i).2] at hmem
    cases hmem
  · exact hM.flag (hret i) (by simp)

/-- **The threads move blocks element by element as if they moved them as a whole**, whatever the
order of the commands and of the accesses to the pointers: everything they do is defined, no two
commands of different threads touch the same slot, and only the slots of blocks are touched. When
all have finished, every block is in its bucket, or in the one overflow block. -/
theorem permuteBlocks_elementwise (ht : 1 ≤ t)
    (hst : Represents st content n p (.start nb t s₀.pointers m) s₀)
    (hf : Working.Reaches comp init B eq c p S n nb (.start nb t s₀.pointers m) f) :
    (∀ i choice, (f.step comp init B eq c p S n nb i choice).isSome) ∧
      (∀ i j, i ≠ j → ∀ o k o' k', (f.workers i).prog = .cmd o k → (f.workers j).prog = .cmd o' k' →
        ∀ x ∈ S.foot o, x ∉ S.foot o') ∧
      S.AgreeOn (territory t B n p)ᶜ m f.mem ∧
      (∃ s, Reachable B n nb classify s₀ s ∧ f.pointers = s.pointers) ∧
      ((∀ i, (f.workers i).prog = .ret .finished) → ∃ s, Reachable B n nb classify s₀ s ∧
        (∀ i, (s.threads i).pc = .finished) ∧ Represents st content n p f s ∧
        AllPlaced B bss classify s) := by
  obtain ⟨s, L, hr, hM, hag⟩ := hf.matches h hB hcl hp hhead hst
  refine ⟨fun i choice => ?_, fun i j hij o k o' k' hi hj x hx hx' => ?_, hag, ⟨s, hr, hM.pointers⟩,
    fun hret => ?_⟩
  · obtain ⟨f', -, -, hs, -⟩ := hM.step h hB hcl hp hhead hr i choice
    rw [hs]
    rfl
  · have hfi := (hM.command h hB hcl hp hr hi).1
    have hfj := (hM.command h hB hcl hp hr hj).1
    exact hM.disjoint h hB hcl hp hr hij.symm (hfi hx) (hfj hx')
  · obtain ⟨hpc, hrep⟩ := hM.finished hret
    exact ⟨s, hr, hpc, hrep, (hr.inv h hB hcl).allPlaced h ht hpc⟩

end

/-! ### Three blocks -/

section
variable {σ : Type} {S : Semantics (Cmd Area α) Cmd.Ans σ (Loc Area)} {comp : α → α → Bool}
  {init : Bool} {B n nb t : ℕ} {eq : Bool} {c : Classifier α} {p : Ptr Area}
  {s₀ s f : Working t α σ}

/-- The threads take steps in turn. -/
def Working.after (comp : α → α → Bool) (init : Bool) (B : ℕ) (eq : Bool) (c : Classifier α)
    (p : Ptr Area) (S : Semantics (Cmd Area α) Cmd.Ans σ (Loc Area)) (n nb : ℕ) :
    List (Fin t) → Working t α σ → Option (Working t α σ)
  | [], s => some s
  | i :: turns, s =>
    (s.step comp init B eq c p S n nb i 0).bind (after comp init B eq c p S n nb turns)

theorem Working.Reaches.after (h : Working.Reaches comp init B eq c p S n nb s₀ s)
    {turns : List (Fin t)} (hf : s.after comp init B eq c p S n nb turns = some f) :
    Working.Reaches comp init B eq c p S n nb s₀ f := by
  induction turns generalizing s with
  | nil =>
    obtain rfl := Option.some.inj hf
    exact h
  | cons i turns ih =>
    obtain ⟨s', hs, hf⟩ := Option.bind_eq_some_iff.mp hf
    exact ih (h.step i 0 hs) hf

end

/-- Whether the thread has finished. -/
def Working.isFinished {t : ℕ} {σ : Type} (s : Working t α σ) (i : Fin t) : Bool :=
  match (s.workers i).prog with
  | .ret .finished => true
  | _ => false

theorem Working.prog_of_isFinished {t : ℕ} {σ : Type} {s : Working t α σ} {i : Fin t}
    (h : s.isFinished i = true) : (s.workers i).prog = .ret .finished := by
  unfold Working.isFinished at h
  split at h
  · next hprog => exact hprog
  · cases h

/-- The elements of three blocks, of which the first and the last one belong to the second
bucket. -/
def threeContents (x : Fin 3) : List ℕ := [[5, 6], [1, 2], [7, 8]][x]

/-- A classifier with the splitter `3`. -/
def splitAtThree : Classifier ℕ := ⟨fun _ => .full 3, fun _ => .full 3, 1, 2⟩

/-- The first element of a block tells its bucket. -/
theorem threeContents_head (x : Fin 3) : ∃ a l, threeContents x = a :: l ∧
    splitAtThree.classify (fun a b => decide (a < b)) false a = some (bucketOf (some x)) := by
  match x with
  | 0 => exact ⟨5, [6], rfl, by decide⟩
  | 1 => exact ⟨1, [2], rfl, by decide⟩
  | 2 => exact ⟨7, [8], rfl, by decide⟩

/-- The blocks stand one after the other. -/
def sixElements : Mem Area (Slot ℕ) where
  slot q := if q.arr = .input then ([5, 6, 1, 2, 7, 8][q.off]?).elim .moved .full else .raw
  byte _ := 0

theorem sixElements_represents : Represents (objectStore false 2 (by decide)) threeContents 7
    ⟨.input, 0⟩ (.start 2 2 threeBlocks.pointers sixElements) threeBlocks where
  pointers := rfl
  places l hl := by
    cases l with
    | slot q =>
      -- the slots that lie in the array as a whole
      obtain ⟨⟨k, rfl⟩, hlo, hhi⟩ := hl
      have hmax : maxOff 2 7 = 6 := by decide
      have hfull : ∀ x : Fin 3, IsFull 2 sixElements ⟨.input, 2 * x⟩ (threeContents x) := by
        intro x
        refine ⟨by revert x; decide, fun i v hv => ?_⟩
        have hlen : ∀ x, ((threeContents x).map Slot.full).length = 2 := by decide
        have hi : i < 2 := (List.getElem?_eq_some_iff.mp hv).1.trans_eq (hlen x)
        have hslot : ∀ (x : Fin 3) (i : Fin 2), ((threeContents x).map Slot.full)[(i : ℕ)]? =
            some (sixElements.slot ((⟨.input, 2 * x⟩ : Ptr Area) + (i : ℕ))) := by decide
        exact Option.some.inj ((hslot x ⟨i, hi⟩).symm.trans hv)
      have hk : k = 0 ∨ k = 1 ∨ k = 2 := by omega
      rcases hk with rfl | rfl | rfl
      · exact hfull 0
      · exact hfull 1
      · exact hfull 2
    | swap i c => exact fun _ _ _ => rfl
    | overflow i => exact fun _ _ _ => rfl
  overflow i := by
    simp [threeBlocks, Thread.start, Working.start]

/-- Two threads that take turns: the first two blocks are exchanged, and then the one of the second
bucket goes to the overflow block. -/
theorem permuteBlocks_elementwise_threeBlocks : ∃ f s,
    Working.Reaches (fun a b => decide (a < b)) false 2 false splitAtThree ⟨.input, 0⟩
      (slots Area ℕ false) 7 2 (.start 2 2 threeBlocks.pointers sixElements) f ∧
    (∀ i, (f.workers i).prog = .ret .finished) ∧ (f.workers 0).overflow = true ∧
    f.mem.slot ⟨.input, 0⟩ = .full 1 ∧ f.mem.slot (overflowOf 2 0) = .full 5 ∧
    Represents (objectStore false 2 (by decide)) threeContents 7 ⟨.input, 0⟩ f s ∧
    AllPlaced 2 twoBuckets bucketOf s ∧
    (slots Area ℕ false).AgreeOn (territory 2 2 7 ⟨.input, 0⟩)ᶜ sixElements f.mem := by
  obtain ⟨f, hf, hfin⟩ : ∃ f, (Working.start 2 2 threeBlocks.pointers sixElements).after
      (fun a b => decide (a < b)) false 2 false splitAtThree ⟨.input, 0⟩ (slots Area ℕ false) 7 2
      (List.replicate 40 [0, 1]).flatten = some f ∧
      (f.isFinished 0 && f.isFinished 1 && (f.workers 0).overflow &&
        decide (f.mem.slot ⟨.input, 0⟩ = .full 1) &&
        decide (f.mem.slot (overflowOf 2 0) = .full 5)) = true := by
    rw [← Option.any_eq_true]
    decide +kernel
  simp only [Bool.and_eq_true, decide_eq_true_eq] at hfin
  obtain ⟨⟨⟨⟨hfin₀, hfin₁⟩, hover⟩, hslot⟩, hblock⟩ := hfin
  have hfin : ∀ i, (f.workers i).prog = .ret .finished :=
    Fin.forall_fin_two.mpr ⟨Working.prog_of_isFinished hfin₀, Working.prog_of_isFinished hfin₁⟩
  have hreach := Working.Reaches.start.after hf
  obtain ⟨-, -, hag, -, hend⟩ := permuteBlocks_elementwise twoBuckets_boundaries (by decide)
    threeBlocks_classified rfl threeContents_head (by decide) sixElements_represents hreach
  obtain ⟨s, -, -, hrep, hplaced⟩ := hend hfin
  exact ⟨f, s, hreach, hfin, hover, hslot, hblock, hrep, hplaced, hag⟩

end Ps4o.InPlace
