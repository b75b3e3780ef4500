import Ps4o.Sequential

/-!
# Lifetimes

Which slots hold a live object, and how the commands of the code respect it: constructing in place
needs a raw slot; assigning, swapping, reading, moving and destroying an object, which may have
been moved from. The code is looked at after any number of its commands, not only at its end.

The splitters live in storage of their own, inside the sorter; there the model's code has no
result where it does not respect the lifetimes.

## What is proved

* `respects_of_exec` — a command that is defined respects the lifetimes.
* `disciplined_of_sat` — a program that is right respects the lifetimes at every command.
* `sort_disciplined` — so does the sequential sort, and at its end exactly the input is live.
-/

namespace Ps4o

open Ps4o.Program Ps4o.Storage Ps4o.Order

namespace Storage

variable {A α β : Type}

/-- A slot holds an object, which may have been moved from. -/
def Live (m : Mem A (Slot α)) (p : Ptr A) : Prop := m.slot p ≠ .raw

/-- What the lifetimes ask of a command, by which slots are live. -/
def Cmd.Respects (live : Ptr A → Prop) : Cmd A α → Prop
  | .construct p _ => ¬ live p
  | .read p | .move p | .assign p _ | .destroy p => live p
  | .swap p q => live p ∧ live q
  | .load _ | .store _ _ | .draw _ => True

variable [DecidableEq A] {m m' : Mem A (Slot α)} {o : Cmd A α} {c : ℕ} {a : o.Ans}

/-- A command that is defined respects the lifetimes. -/
theorem respects_of_exec (h : slotExec false o c m = some (a, m')) : o.Respects (Live m) := by
  cases o <;> simp only [slotExec]
    at h <;> (try split at h) <;> cases h <;> simp_all [Cmd.Respects, Live]

/-- Whatever a program has come to from `m`, it has not halted, its next command respects the
lifetimes, and with its result `Q` holds. -/
def Disciplined (p : Act A α β) (m : Mem A (Slot α)) (Q : β → Mem A (Slot α) → Prop) : Prop :=
  ∀ p' m', Reaches (slots A α false) p m p' m' →
    (∀ w, p' ≠ .halt w) ∧ (∀ o k, p' = .cmd o k → o.Respects (Live m')) ∧ ∀ b, p' = .ret b → Q b m'

/-- **A program that is right respects the lifetimes** at every command. -/
theorem disciplined_of_sat {R : Set (Loc A)} {p : Act A α β} {Q : β → Mem A (Slot α) → Prop}
    (h : Sat (slots A α false) R p m Q) : Disciplined p m Q := by
  intro p' m' hr
  have hsat := (h.reaches hr).1
  refine ⟨?_, ?_, ?_⟩
  · rintro w rfl
    exact hsat
  · rintro o k rfl
    obtain ⟨a, m₂, he, -⟩ := hsat.2 0
    exact respects_of_exec he
  · rintro b rfl
    exact hsat

end Storage

/-! ### The sequential sort -/

/-- The live slots are those of the first `n` elements of the input array. -/
def OnlyInput {α : Type} (n : ℕ) (m : Mem Arr (Slot α)) : Prop :=
  ∀ q, Live m q ↔ q.arr = .input ∧ q.off < n

section
variable {α : Type} {comp : α → α → Bool} {m m' : Mem Arr (Slot α)} {n : ℕ}

theorem OnlyInput.raw (h : OnlyInput n m) : Raw m ⟨.tmp, 0⟩ n := fun i _ => by
  by_contra hlive
  have := ((h _).mp hlive).1
  simp at this

/-- The input array holds the elements again, the temporary one none, and all else is as it was. -/
theorem OnlyInput.of_sorted {ys : List α} (h : OnlyInput n m) (hlen : ys.length = n)
    (hm : Has m' ⟨.input, 0⟩ (ys.map .full)) (hraw : Raw m' ⟨.tmp, 0⟩ n)
    (hf : (slots Arr α false).AgreeOn (workspace ⟨.input, 0⟩ ⟨.tmp, 0⟩ 0 n)ᶜ m m') :
    OnlyInput n m' := by
  intro q
  by_cases hq : q.off < n
  · obtain ⟨arr, off⟩ := q
    simp only at hq
    have hoff : ∀ a : Arr, (⟨a, 0⟩ : Ptr Arr) + off = ⟨a, off⟩ :=
      fun a => congrArg (Ptr.mk a) (Nat.zero_add off)
    cases arr with
    | input =>
      have hfull := hm off (.full (ys.get ⟨off, by omega⟩)) (by simp [hlen, hq])
      rw [hoff] at hfull
      simp [Live, hfull, hq]
    | tmp =>
      have hr := hraw off hq
      rw [hoff] at hr
      simp [Live, hr]
  · have hout : (.elem q : Loc Arr) ∈ (workspace ⟨.input, 0⟩ ⟨.tmp, 0⟩ 0 n)ᶜ := by
      simp only [Set.mem_compl_iff, elem_mem_workspace, elem_mem_seg]
      omega
    have heq : m.slot q = m'.slot q := hf _ hout
    rw [Live, ← heq]
    exact h q

/-- **The sequential sort respects the lifetimes**: with the default configuration, for every input,
every strict weak order, and whatever numbers are drawn. At every command it has come to, what is
constructed is constructed in a raw slot, and what is assigned, swapped, read, moved from or
destroyed is an object; the same holds for the storage of the splitters, since it does not halt.
At its end exactly the input is live. -/
theorem sort_disciplined (hc : StrictWeak comp) {xs : List α} {fuel : ℕ} (hfuel : xs.length < fuel)
    {s : Sorter α} (hs : s.data.classifier.Empty) (hm : Has m ⟨.input, 0⟩ (xs.map .full))
    (hlive : OnlyInput xs.length m) :
    (∀ check, Disciplined (SequentialSorter.sort comp defaultConfig fuel check xs.length s) m
      fun s' m' =>
      OnlyInput xs.length m' ∧ s'.data.classifier.Empty) ∧
    Disciplined (Ps4o.sort comp defaultConfig fuel xs.length s) m fun _ m' =>
      OnlyInput xs.length m' := by
  constructor
  · refine fun check => disciplined_of_sat
      ((sat_sorter hc defaultConfig_sound rfl hfuel check hs hm hlive.raw).frame.imp ?_)
    rintro s' m' ⟨⟨hs', ⟨ys, hperm, -, hm'⟩, hraw⟩, hf⟩
    exact ⟨hlive.of_sorted hperm.length_eq hm' hraw hf, hs'⟩
  · refine disciplined_of_sat ((sat_sort hc defaultConfig_sound rfl hfuel
      hs hm hlive.raw).frame.imp ?_)
    rintro _ m' ⟨⟨⟨ys, hperm, -, hm'⟩, hraw⟩, hf⟩
    exact hlive.of_sorted hperm.length_eq hm' hraw hf

theorem onlyInput_ofList (xs : List α) (byte : ℕ → UInt8) :
    OnlyInput xs.length (Mem.ofList ⟨.input, 0⟩ xs byte) := by
  rintro ⟨arr, off⟩
  cases arr with
  | tmp => simp [Live, Mem.ofList]
  | input =>
    by_cases h : off < xs.length
    · simp [Live, Mem.ofList, h]
    · simp [Live, Mem.ofList, h]

end

/-- Forty numbers, which are partitioned, and a sorter whose counters hold anything. -/
theorem sort_disciplined_nat :
    (∀ check, Disciplined (SequentialSorter.sort
        (fun a b : ℕ => decide (a < b)) defaultConfig 41 check 40
        (Sorter.new (fun b => b) (fun b => 7 * b) 3))
        (Mem.ofList ⟨Arr.input, 0⟩ (List.range 40) fun _ => 9)
      fun s' m' => OnlyInput 40 m' ∧ s'.data.classifier.Empty) ∧
    Disciplined (Ps4o.sort (fun a b : ℕ => decide (a < b)) defaultConfig 41 40
        (Sorter.new (fun b => b) (fun b => 7 * b) 3))
      (Mem.ofList ⟨Arr.input, 0⟩ (List.range 40) fun _ => 9) fun _ m' => OnlyInput 40 m' :=
  sort_disciplined (StrictWeak.of_linearOrder ℕ) (show (List.range 40).length < 41 by decide)
    (Sorter.new_empty _ _ _) (has_ofList _ _ _) (onlyInput_ofList _ _)

end Ps4o
