import Ps4o.Program.Basic
import Mathlib.Logic.Function.Basic
import Mathlib.Data.Set.Lattice

/-!
# Threads over one memory

A pool is what is left of the program of each thread, and the memory they share. The threads
take turns command by command, in any order: a schedule says which thread is next, and which
number its command consults.

## What is proved

* `Safe S G E p m Q` says that `p`, started in `m` while others change the memory as `E` allows,
  never halts, changes it only as `G` allows, and ends with `Q`. When what each thread does is
  among what the others allow, a pool of such programs stays one (`Sound.step`, `Sound.run`).
* Programs that are right on their own (`Sat`) in regions that are disjoint are right together,
  whatever the schedule (`Sat.safe`, `Isolated.run`).
* A pool of safe programs can always be run to its end (`Sound.exists_run`).
-/

namespace Ps4o.Program

variable {Op : Type} {Ans : Op → Type} {σ Loc β ι : Type}

/-- `p`, started in `m` among others that change the memory as `E` says, never halts, changes it
as `G` says, and ends with `Q`. -/
def Safe (S : Semantics Op Ans σ Loc) (G : Op → σ → σ → Prop) (E : σ → σ → Prop) :
    Prog Op Ans β → σ → (β → σ → Prop) → Prop
  | .ret b, m, Q => ∀ m', E m m' → Q b m'
  | .cmd o k, m, Q =>
    ∀ m₁, E m m₁ → ∀ c, ∃ a m', S.exec o c m₁ = some (a, m') ∧ G o m₁ m' ∧ Safe S G E (k a) m' Q
  | .halt _, _, _ => False

section
variable {S : Semantics Op Ans σ Loc} {G : Op → σ → σ → Prop} {E : σ → σ → Prop} {p : Prog Op Ans β}
  {m m' : σ} {Q Q' : β → σ → Prop}

/-- What the others do leaves a program safe. -/
theorem Safe.env (h : Safe S G E p m Q) (ht : ∀ {m₁ m₂ m₃}, E m₁ m₂ → E m₂ m₃ → E m₁ m₃)
    (he : E m m') : Safe S G E p m' Q := by
  cases p with
  | ret b => exact fun m₁ h₁ => h m₁ (ht he h₁)
  | cmd o k => exact fun m₁ h₁ => h m₁ (ht he h₁)
  | halt w => exact h

theorem Safe.imp (h : Safe S G E p m Q) (hQ : ∀ b m', Q b m' → Q' b m') : Safe S G E p m Q' := by
  induction p generalizing m with
  | ret b => exact fun m₁ h₁ => hQ b m₁ (h m₁ h₁)
  | cmd o k ih =>
    intro m₁ h₁ c
    obtain ⟨a, m', he, hg, hs⟩ := h m₁ h₁ c
    exact ⟨a, m', he, hg, ih a hs⟩
  | halt w => exact h

/-- Allowing more, and relying on less. -/
theorem Safe.mono {G' : Op → σ → σ → Prop} {E' : σ → σ → Prop} (h : Safe S G E p m Q)
    (hG : ∀ o m m', G o m m' → G' o m m') (hE : ∀ m m', E' m m' → E m m')
    (hQ : ∀ b m', Q b m' → Q' b m') : Safe S G' E' p m Q' := by
  induction p generalizing m with
  | ret b => exact fun m₁ h₁ => hQ b m₁ (h m₁ (hE m m₁ h₁))
  | cmd o k ih =>
    intro m₁ h₁ c
    obtain ⟨a, m', he, hg, hs⟩ := h m₁ (hE m m₁ h₁) c
    exact ⟨a, m', he, hG o m₁ m' hg, ih a hs⟩
  | halt w => exact h

/-- Sequencing. -/
theorem Safe.bind {γ : Type} {f : β → Prog Op Ans γ} {Q : γ → σ → Prop} (hrefl : ∀ m, E m m)
    (h : Safe S G E p m fun b m' => Safe S G E (f b) m' Q) : Safe S G E (p >>= f) m Q := by
  induction p generalizing m with
  | ret b => exact h m (hrefl m)
  | cmd o k ih =>
    intro m₁ h₁ c
    obtain ⟨a, m', he, hg, hs⟩ := h m₁ h₁ c
    exact ⟨a, m', he, hg, ih a hs⟩
  | halt w => exact h

/-- What both the program and the others do, it does together with them. -/
theorem Safe.frame {T : σ → σ → Prop} (h : Safe S G E p m Q)
    (htrans : ∀ {m₁ m₂ m₃}, T m₁ m₂ → T m₂ m₃ → T m₁ m₃) (hG : ∀ o m m', G o m m' → T m m')
    (hE : ∀ m m', E m m' → T m m') : Safe S G E p m fun b m' => Q b m' ∧ T m m' := by
  induction p generalizing m with
  | ret b => exact fun m₁ h₁ => ⟨h m₁ h₁, hE m m₁ h₁⟩
  | cmd o k ih =>
    intro m₁ h₁ c
    obtain ⟨a, m', he, hg, hs⟩ := h m₁ h₁ c
    refine ⟨a, m', he, hg, (ih a hs).imp fun b m₂ hm₂ => ⟨hm₂.1, htrans ?_ hm₂.2⟩⟩
    exact htrans (hE m m₁ h₁) (hG o m₁ m' hg)
  | halt w => exact h

/-- The rule for a counted loop: an invariant of the rounds that the others keep. -/
theorem safe_loop {body : ℕ → β → Prog Op Ans β} (I : ℕ → β → σ → Prop) {n : ℕ} {b : β}
    (hrefl : ∀ m, E m m) (hI : ∀ i b m m', I i b m → E m m' → I i b m') (h₀ : I 0 b m)
    (hs : ∀ i < n, ∀ b m, I i b m → Safe S G E (body i b) m (I (i + 1))) :
    Safe S G E (Prog.loop body n b) m (I n) := by
  induction n with
  | zero => exact fun m' h' => hI 0 b m m' h₀ h'
  | succ n ih =>
    refine .bind hrefl ((ih fun i hi => hs i (Nat.lt_succ_of_lt hi)).imp fun b m' => ?_)
    exact hs n (Nat.lt_succ_self n) b m'

/-- The rule for a loop over a list. -/
theorem safe_foldlM {ι : Type} {body : β → ι → Prog Op Ans β}
    (I : List ι → β → σ → Prop) {l : List ι} {b : β} (hrefl : ∀ m, E m m)
    (hI : ∀ pre b m m', I pre b m → E m m' → I pre b m') (h₀ : I [] b m)
    (hs : ∀ pre x suf, l = pre ++ x :: suf → ∀ b m, I pre b m →
    Safe S G E (body b x) m (I (pre ++ [x]))) : Safe S G E (l.foldlM body b) m (I l) := by
  induction l generalizing I b m with
  | nil => exact fun m' h' => hI [] b m m' h₀ h'
  | cons x l ih =>
    rw [List.foldlM_cons]
    refine .bind hrefl ((hs [] x l rfl b m h₀).imp fun b' m' h' => ?_)
    refine ih (fun pre => I (x :: pre)) (fun pre => hI (x :: pre)) h' fun pre y suf hl b m hm => ?_
    exact hs (x :: pre) y suf (by rw [hl, List.cons_append]) b m hm

/-- **A program that is right on its own is safe where nobody else goes.** -/
theorem Sat.safe {R : Set Loc} (h : Sat S R p m Q) :
    Safe S (fun o m m' => S.foot o ⊆ R ∧ S.AgreeOn Rᶜ m m') (S.AgreeOn R) p m
      fun b m' => ∃ m₂, Q b m₂ ∧ S.AgreeOn R m₂ m' := by
  induction p generalizing m Q with
  | ret b => exact fun m' hm' => ⟨m, h, hm'⟩
  | cmd o k ih =>
    intro m₁ h₁ c
    obtain ⟨a, m', he, hs⟩ := (h.local h₁).2 c
    refine ⟨a, m', he, ⟨h.1, fun l hl => S.exec_frame he fun hf => hl (h.1 hf)⟩, (ih a hs).imp ?_⟩
    rintro b m₂ ⟨m₃, ⟨m₄, hQ, h₄⟩, h₃⟩
    exact ⟨m₄, hQ, h₄.trans h₃⟩
  | halt w => exact h

end

/-- What is left of the program of each thread, and the memory. -/
structure Pool (Op : Type) (Ans : Op → Type) (ι β σ : Type) where
  /-- What is left to do. -/
  prog : ι → Prog Op Ans β
  /-- The memory. -/
  mem : σ

namespace Pool

variable [DecidableEq ι] (S : Semantics Op Ans σ Loc)

/-- Thread `i` does its next command, if there is one and it is defined; answers the command too. -/
def step (i : ι) (c : ℕ) (P : Pool Op Ans ι β σ) : Option (Op × Pool Op Ans ι β σ) :=
  match P.prog i with
  | .cmd o k => (S.exec o c P.mem).map fun r => (o, ⟨Function.update P.prog i (k r.1), r.2⟩)
  | _ => none

/-- The threads take turns as scheduled; answers who did what. -/
def run : List (ι × ℕ) → Pool Op Ans ι β σ → Option (List (ι × Op) × Pool Op Ans ι β σ)
  | [], P => some ([], P)
  | (i, c) :: sched, P => do
    let (o, P) ← P.step S i c
    let (log, P) ← run sched P
    pure ((i, o) :: log, P)

/-- Thread `i` has its result. -/
def Returned (P : Pool Op Ans ι β σ) (i : ι) : Prop := ∃ b, P.prog i = .ret b

/-- Thread `i` cannot go on although it has no result: what it does next is undefined. -/
def Stuck (P : Pool Op Ans ι β σ) (i : ι) : Prop :=
  match P.prog i with
  | .ret _ => False
  | .cmd o _ => ∃ c, S.exec o c P.mem = none
  | .halt _ => True

variable {S} {P P' : Pool Op Ans ι β σ}

theorem run_cons {i : ι} {c : ℕ} {sched : List (ι × ℕ)} {r : List (ι × Op) × Pool Op Ans ι β σ} :
    run S ((i, c) :: sched) P = some r ↔
      ∃ o P₁ log, P.step S i c = some (o, P₁) ∧ run S sched P₁ = some (log, r.2) ∧
      r.1 = (i, o) :: log := by
  simp only [run, Option.bind_eq_bind, Option.bind_eq_some_iff, Option.pure_def,
    Option.some.injEq, Prod.exists]
  constructor
  · rintro ⟨o, P₁, h, log, P₂, h₂, rfl⟩
    exact ⟨o, P₁, log, h, h₂, rfl⟩
  · rintro ⟨o, P₁, log, h, h₂, hr⟩
    exact ⟨o, P₁, h, log, r.2, h₂, by rw [← hr]⟩

theorem run_append {sched sched' : List (ι × ℕ)} {log log' : List (ι × Op)} {P₁ : Pool Op Ans ι β σ}
    (h : run S sched P = some (log, P₁)) (h' : run S sched' P₁ = some (log', P')) :
    run S (sched ++ sched') P = some (log ++ log', P') := by
  induction sched generalizing P log with
  | nil =>
    obtain ⟨rfl, rfl⟩ := Prod.mk.inj (Option.some.inj h)
    exact h'
  | cons e sched ih =>
    obtain ⟨i, c⟩ := e
    obtain ⟨o, P₂, log₂, hstep, hrun, rfl⟩ := run_cons.mp h
    exact run_cons.mpr ⟨o, P₂, log₂ ++ log', hstep, ih hrun, rfl⟩

/-- What a step does. -/
theorem step_cases {i : ι} {c : ℕ} {o : Op} (h : P.step S i c = some (o, P')) :
    ∃ k a m', P.prog i = .cmd o k ∧ S.exec o c P.mem = some (a, m') ∧
      P' = ⟨Function.update P.prog i (k a), m'⟩ := by
  unfold step at h
  split at h
  · next o' k hp =>
    obtain ⟨⟨a, m'⟩, he, hr⟩ := Option.map_eq_some_iff.mp h
    obtain ⟨rfl, rfl⟩ := Prod.mk.inj hr
    exact ⟨k, a, m', hp, he, rfl⟩
  · cases h

/-- Thread `j` is where it was when others have taken a step. -/
theorem step_of_ne {i j : ι} {c : ℕ} {o : Op} (h : P.step S i c = some (o, P')) (hji : j ≠ i) :
    P'.prog j = P.prog j := by
  obtain ⟨k, a, m', -, -, rfl⟩ := step_cases h
  exact Function.update_of_ne hji _ _

/-- A result stays. -/
theorem Returned.step {i j : ι} {c : ℕ} {o : Op} (hj : P.Returned j)
    (h : P.step S i c = some (o, P')) : P'.Returned j := by
  obtain ⟨b, hb⟩ := hj
  rcases eq_or_ne j i with rfl | hne
  · obtain ⟨k, a, m', hp, -, -⟩ := step_cases h
    rw [hb] at hp
    cases hp
  · exact ⟨b, (step_of_ne h hne).trans hb⟩

theorem Returned.run {j : ι} {sched : List (ι × ℕ)} {log : List (ι × Op)} (hj : P.Returned j)
    (h : Pool.run S sched P = some (log, P')) : P'.Returned j := by
  induction sched generalizing P log with
  | nil =>
    obtain ⟨-, rfl⟩ := Prod.mk.inj (Option.some.inj h)
    exact hj
  | cons e sched ih =>
    obtain ⟨i, c⟩ := e
    obtain ⟨o, P₁, log₁, hstep, hrun, -⟩ := run_cons.mp h
    exact ih (hj.step hstep) hrun

/-- A run gives only commands that the programs may give. -/
theorem all_of_run {C : Op → Prop} (h : ∀ i, (P.prog i).All C) {sched : List (ι × ℕ)}
    {log : List (ι × Op)} (hr : Pool.run S sched P = some (log, P')) : ∀ e ∈ log, C e.2 := by
  induction sched generalizing P log with
  | nil =>
    obtain ⟨rfl, -⟩ := Prod.mk.inj (Option.some.inj hr)
    simp
  | cons e sched ih =>
    obtain ⟨i, c⟩ := e
    obtain ⟨o, P₁, log₁, hstep, hrun, rfl⟩ := run_cons.mp hr
    obtain ⟨k, a, m', hp, -, rfl⟩ := step_cases hstep
    have hi := h i
    rw [hp] at hi
    intro e he
    rcases List.mem_cons.mp he with rfl | he
    · exact hi.1
    · refine ih (fun j => ?_) hrun e he
      rcases eq_or_ne j i with rfl | hne
      · simpa using hi.2 a
      · simpa only [Function.update_of_ne hne] using h j

/-! ### Safe programs together -/

variable (S) in
/-- The program of every thread is safe. -/
def Sound (G : ι → Op → σ → σ → Prop) (E : ι → σ → σ → Prop) (Q : ι → β → σ → Prop)
    (P : Pool Op Ans ι β σ) : Prop := ∀ i, Safe S (G i) (E i) (P.prog i) P.mem (Q i)

/-- What each thread relies on: memories that are the same, changes one after the other, and what
the other threads do. -/
structure Compatible (G : ι → Op → σ → σ → Prop) (E : ι → σ → σ → Prop) : Prop where
  refl : ∀ i m, E i m m
  trans : ∀ i {m₁ m₂ m₃}, E i m₁ m₂ → E i m₂ m₃ → E i m₁ m₃
  others : ∀ i j, j ≠ i → ∀ {o m m'}, G j o m m' → E i m m'

variable {G : ι → Op → σ → σ → Prop} {E : ι → σ → σ → Prop} {Q : ι → β → σ → Prop}

/-- **A step leaves all programs safe**, and is one that its thread may take. -/
theorem Sound.step (hc : Compatible G E) (h : Sound S G E Q P) {i : ι} {c : ℕ} {o : Op}
    (hs : P.step S i c = some (o, P')) : Sound S G E Q P' ∧ G i o P.mem P'.mem := by
  obtain ⟨k, a, m', hp, he, rfl⟩ := step_cases hs
  have hi := h i
  rw [hp] at hi
  obtain ⟨a', m'', he', hg, hsafe⟩ := hi P.mem (hc.refl i P.mem) c
  obtain ⟨rfl, rfl⟩ := Prod.mk.inj (Option.some.inj (he.symm.trans he'))
  refine ⟨fun j => ?_, hg⟩
  rcases eq_or_ne j i with rfl | hne
  · simpa using hsafe
  · simp only [Function.update_of_ne hne]
    exact (h j).env (hc.trans j) (hc.others j i hne.symm hg)

/-- **A run leaves all programs safe**, whatever the schedule. A relation that contains what every
thread may do at a step contains what the run does. -/
theorem Sound.run (hc : Compatible G E) (h : Sound S G E Q P) {sched : List (ι × ℕ)}
    {log : List (ι × Op)} (hr : Pool.run S sched P = some (log, P')) :
    Sound S G E Q P' ∧ (∀ e ∈ log, ∃ m m', G e.1 e.2 m m') ∧
      ∀ T : σ → σ → Prop, (∀ m, T m m) → (∀ {m₁ m₂ m₃}, T m₁ m₂ → T m₂ m₃ → T m₁ m₃) →
        (∀ i o m m', G i o m m' → T m m') → T P.mem P'.mem := by
  induction sched generalizing P log with
  | nil =>
    obtain ⟨rfl, rfl⟩ := Prod.mk.inj (Option.some.inj hr)
    exact ⟨h, by simp, fun T hrefl _ _ => hrefl _⟩
  | cons e sched ih =>
    obtain ⟨i, c⟩ := e
    obtain ⟨o, P₁, log₁, hstep, hrun, rfl⟩ := run_cons.mp hr
    obtain ⟨h₁, hg⟩ := h.step hc hstep
    obtain ⟨h₂, hlog, hT⟩ := ih h₁ hrun
    refine ⟨h₂, ?_, fun T hrefl htrans hG => htrans (hG _ _ _ _ hg) (hT T hrefl htrans hG)⟩
    intro e he
    rcases List.mem_cons.mp he with rfl | he
    · exact ⟨_, _, hg⟩
    · exact hlog e he

omit [DecidableEq ι] in
/-- No thread is stuck. -/
theorem Sound.not_stuck (hc : Compatible G E) (h : Sound S G E Q P) (i : ι) : ¬ P.Stuck S i := by
  intro hst
  have hi := h i
  unfold Stuck at hst
  split at hst
  · exact hst
  · next o k hp =>
    obtain ⟨c, hnone⟩ := hst
    rw [hp] at hi
    obtain ⟨a, m', he, -⟩ := hi P.mem (hc.refl i P.mem) c
    rw [hnone] at he
    cases he
  · next w hp =>
    rw [hp] at hi
    exact hi

omit [DecidableEq ι] in
/-- A thread that has its result ends as specified. -/
theorem Sound.result (hc : Compatible G E) (h : Sound S G E Q P) {i : ι} {b : β}
    (hb : P.prog i = .ret b) : Q i b P.mem := by
  have hi := h i
  rw [hb] at hi
  exact hi P.mem (hc.refl i P.mem)

/-- A thread can go on to its result. -/
theorem Sound.exists_returned (hc : Compatible G E) (h : Sound S G E Q P) (i : ι) :
    ∃ sched log P', Pool.run S sched P = some (log, P') ∧ P'.Returned i := by
  induction hp : P.prog i generalizing P with
  | ret b => exact ⟨[], [], P, rfl, b, hp⟩
  | cmd o k ih =>
    have hi := h i
    rw [hp] at hi
    obtain ⟨a, m', he, -⟩ := hi P.mem (hc.refl i P.mem) 0
    have hstep : P.step S i 0 = some (o, ⟨Function.update P.prog i (k a), m'⟩) := by
      simp [Pool.step, hp, he]
    obtain ⟨sched, log, P', hrun, hret⟩ := ih a (h.step hc hstep).1 (Function.update_self _ _ _)
    exact ⟨(i, 0) :: sched, (i, o) :: log, P', run_cons.mpr ⟨o, _, log, hstep, hrun, rfl⟩, hret⟩
  | halt w =>
    have hi := h i
    rw [hp] at hi
    exact hi.elim

/-- **All threads can go on to their results.** -/
theorem Sound.exists_run (hc : Compatible G E) (h : Sound S G E Q P) (l : List ι) :
    ∃ sched log P', Pool.run S sched P = some (log, P') ∧ ∀ i ∈ l, P'.Returned i := by
  induction l generalizing P with
  | nil => exact ⟨[], [], P, rfl, by simp⟩
  | cons i l ih =>
    obtain ⟨sched, log, P₁, hrun, hret⟩ := h.exists_returned hc i
    obtain ⟨sched', log', P', hrun', hret'⟩ := ih (h.run hc hrun).1
    refine ⟨sched ++ sched', log ++ log', P', run_append hrun hrun', fun j hj => ?_⟩
    rcases List.mem_cons.mp hj with rfl | hj
    · exact hret.run hrun'
    · exact hret' j hj

/-- One thread goes on alone, up to the end of the first part of its program. -/
theorem exists_run_bind {γ : Type} {R : Set Loc} {p : Prog Op Ans γ} {f : γ → Prog Op Ans β}
    {P : Pool Op Ans ι β σ} {i : ι} {Q : γ → σ → Prop} (hp : P.prog i = p >>= f)
    (h : Sat S R p P.mem Q) :
    ∃ sched log b m', Pool.run S sched P = some (log, ⟨Function.update P.prog i (f b), m'⟩) ∧
    Q b m' := by
  induction p generalizing P with
  | ret b =>
    exact ⟨[], [], b, P.mem, by rw [← show P.prog i = f b from hp, Function.update_eq_self]; rfl, h⟩
  | cmd o k ih =>
    obtain ⟨a, m', he, hs⟩ := h.2 0
    have hstep : P.step S i 0 = some (o, ⟨Function.update P.prog i (k a >>= f), m'⟩) := by
      simp [Pool.step, hp, he]
    obtain ⟨sched, log, b, m'', hrun, hq⟩ := ih a (P := ⟨Function.update P.prog i (k a >>= f), m'⟩)
      (Function.update_self _ _ _) hs
    refine ⟨(i, 0) :: sched, (i, o) :: log, b, m'', run_cons.mpr ⟨o, _, log, hstep, ?_, rfl⟩, hq⟩
    rwa [Function.update_idem] at hrun
  | halt w => exact h.elim

/-! ### Regions of their own -/

variable (S) in
/-- The program of every thread is right on its own, in a region that is its own. -/
structure Isolated (R : ι → Set Loc) (Q : ι → β → σ → Prop) (P : Pool Op Ans ι β σ) : Prop where
  disjoint : ∀ i j, i ≠ j → ∀ l ∈ R i, l ∉ R j
  sat : ∀ i, Sat S (R i) (P.prog i) P.mem (Q i)

variable {R : ι → Set Loc}

omit [DecidableEq ι] in
theorem Isolated.compatible (h : Isolated S R Q P) :
    Compatible (fun i o m m' => S.foot o ⊆ R i ∧ S.AgreeOn (R i)ᶜ m m')
      fun i => S.AgreeOn (R i) where
  refl _ m := .refl S _ m
  trans _ := Semantics.AgreeOn.trans
  others i j hji := fun hg => hg.2.subset fun l hl => h.disjoint i j hji.symm l hl

omit [DecidableEq ι] in
theorem Isolated.sound (h : Isolated S R Q P) :
    Sound S (fun i o m m' => S.foot o ⊆ R i ∧ S.AgreeOn (R i)ᶜ m m') (fun i => S.AgreeOn (R i))
      (fun i b m' => ∃ m₂, Q i b m₂ ∧ S.AgreeOn (R i) m₂ m') P :=
  fun i => (h.sat i).safe

/-- **Threads that are right on their own are right together**: whatever the schedule, none is
ever stuck, each touches only its own region, those that have their results are as specified, and
what is in no region is as it was. -/
theorem Isolated.run (h : Isolated S R Q P) {sched : List (ι × ℕ)} {log : List (ι × Op)}
    (hr : Pool.run S sched P = some (log, P')) :
    (∀ i, ¬ P'.Stuck S i) ∧ (∀ e ∈ log, S.foot e.2 ⊆ R e.1) ∧
      (∀ i b, P'.prog i = .ret b → ∃ m₂, Q i b m₂ ∧ S.AgreeOn (R i) m₂ P'.mem) ∧
      S.AgreeOn (⋃ i, R i)ᶜ P.mem P'.mem := by
  obtain ⟨hsound, hlog, hT⟩ := h.sound.run h.compatible hr
  refine ⟨hsound.not_stuck h.compatible, fun e he => ?_,
    fun i b hb => hsound.result h.compatible hb, ?_⟩
  · obtain ⟨m, m', hf, -⟩ := hlog e he
    exact hf
  · refine hT _ (.refl S _) Semantics.AgreeOn.trans fun i o m m' hg =>
      hg.2.subset fun l hl hi => hl ?_
    exact Set.mem_iUnion.mpr ⟨i, hi⟩

/-- And all of them can go on to their results. -/
theorem Isolated.exists_run (h : Isolated S R Q P) (l : List ι) :
    ∃ sched log P', Pool.run S sched P = some (log, P') ∧ ∀ i ∈ l, P'.Returned i :=
  h.sound.exists_run h.compatible l

end Pool

end Ps4o.Program
