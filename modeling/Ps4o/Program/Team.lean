import Mathlib.Data.Fintype.Basic
import Mathlib.Logic.Relation
import Ps4o.Program.Pool

/-!
# Threads that meet at barriers

A team is a pool of threads that work in stages: each of them has a program for the stage, and when
all of them have their results, which are known to all, there is a next stage. The threads take
turns command by command within a stage.

## What is proved

* `Cooperate S R progs m Q` says that the programs, started in `m`, are safe together, touch only
  `R`, rely on nobody else doing so, and end with `Q`; it is kept by a command of one of them
  (`Cooperate.step`), and by what others do elsewhere (`Cooperate.env`).
* `Team.Sat S R t m Q` says the same of all stages; it is kept by every step (`Team.Sat.step`,
  `Team.Sat.run`), and by what others do elsewhere (`Team.Sat.env`). What lies outside `R` stays as
  it is (`Team.Sat.frame`).
-/

namespace Ps4o.Program

variable {Op : Type} {Ans : Op → Type} {σ Loc ι β γ δ : Type}

/-- Programs that are safe together: each of them relies on what the others do, and on nobody else
touching `R`. -/
def Cooperate (S : Semantics Op Ans σ Loc) (R : Set Loc) (progs : ι → Prog Op Ans β) (m : σ)
    (Q : ι → β → σ → Prop) : Prop :=
  ∃ (G : ι → Op → σ → σ → Prop) (E : ι → σ → σ → Prop), Pool.Compatible G E ∧
    (∀ i o m m', G i o m m' → S.foot o ⊆ R ∧ S.AgreeOn Rᶜ m m') ∧
      (∀ i m m', S.AgreeOn R m m' → E i m m') ∧
      ∀ i, Safe S (G i) (E i) (progs i) m (Q i)

section
variable {S : Semantics Op Ans σ Loc} {R R' : Set Loc} {progs : ι → Prog Op Ans β} {m m' : σ}
  {Q Q' : ι → β → σ → Prop}

theorem Cooperate.imp (h : Cooperate S R progs m Q) (hQ : ∀ i b m', Q i b m' → Q' i b m') :
    Cooperate S R progs m Q' := by
  obtain ⟨G, E, hc, hG, hE, hs⟩ := h
  exact ⟨G, E, hc, hG, hE, fun i => (hs i).imp fun b m' => hQ i b m'⟩

theorem Cooperate.mono (h : Cooperate S R progs m Q) (hR : R ⊆ R') : Cooperate S R' progs m Q := by
  obtain ⟨G, E, hc, hG, hE, hs⟩ := h
  refine ⟨G, E, hc, fun i o m m' hg => ?_, fun i m m' hm => hE i m m' (hm.subset hR), hs⟩
  exact ⟨(hG i o m m' hg).1.trans hR, (hG i o m m' hg).2.subset (Set.compl_subset_compl.mpr hR)⟩

/-- **The frame rule**: what they do not touch is as it was. -/
theorem Cooperate.frame {R₁ : Set Loc} (h : Cooperate S R progs m Q)
    (hR : R ⊆ R₁) : Cooperate S R₁ progs m fun i b m' => Q i b m' ∧ S.AgreeOn (R₁ \ R) m m' := by
  obtain ⟨G, E, hc, hG, hE, hs⟩ := h
  have hout : ∀ i o m m', G i o m m' → S.AgreeOn (R₁ \ R) m m' := fun i o m m' hg =>
    (hG i o m m' hg).2.subset fun l hl => hl.2
  refine ⟨G, fun i m m' => E i m m' ∧ S.AgreeOn (R₁ \ R) m m', ⟨fun i m => ?_, fun i => ?_, ?_⟩,
    fun i o m m' hg => ?_, fun i m m' hm => ?_, fun i => ?_⟩
  · exact ⟨hc.refl i m, .refl S _ m⟩
  · exact fun h₁ h₂ => ⟨hc.trans i h₁.1 h₂.1, h₁.2.trans h₂.2⟩
  · exact fun i j hij o m m' hg => ⟨hc.others i j hij hg, hout j o m m' hg⟩
  · exact ⟨(hG i o m m' hg).1.trans hR,
      (hG i o m m' hg).2.subset (Set.compl_subset_compl.mpr hR)⟩
  · exact ⟨hE i m m' (hm.subset hR), hm.subset Set.sdiff_subset⟩
  · refine ((hs i).mono (fun _ _ _ hg => hg) (fun _ _ hm => hm.1) fun b m' hb => hb).frame
      Semantics.AgreeOn.trans (hout i) fun m m' hm => hm.2

/-- What others do elsewhere does not matter. -/
theorem Cooperate.env (h : Cooperate S R progs m Q) (hm : S.AgreeOn R m m') :
    Cooperate S R progs m' Q := by
  obtain ⟨G, E, hc, hG, hE, hs⟩ := h
  exact ⟨G, E, hc, hG, hE, fun i => (hs i).env (hc.trans i) (hE i m m' hm)⟩

/-- Nobody is stuck. -/
theorem Cooperate.not_stuck (h : Cooperate S R progs m Q) (i : ι) :
    ¬ (⟨progs, m⟩ : Pool Op Ans ι β σ).Stuck S i := by
  obtain ⟨G, E, hc, -, -, hs⟩ := h
  exact Pool.Sound.not_stuck (P := ⟨progs, m⟩) hc hs i

/-- Whoever has a result ends as specified. -/
theorem Cooperate.result (h : Cooperate S R progs m Q) {i : ι} {b : β} (hb : progs i = .ret b) :
    Q i b m := by
  obtain ⟨G, E, hc, -, -, hs⟩ := h
  exact Pool.Sound.result (P := ⟨progs, m⟩) hc hs hb

/-- Programs that are right on their own, in regions of their own, are right together. -/
theorem Cooperate.of_sat {Rs : ι → Set Loc} (hR : ∀ i, Rs i ⊆ R)
    (hdisj : ∀ i j, i ≠ j → ∀ l ∈ Rs i, l ∉ Rs j) (h : ∀ i, Sat S (Rs i) (progs i) m (Q i)) :
    Cooperate S R progs m fun i b m' => ∃ m₂, Q i b m₂ ∧ S.AgreeOn (Rs i) m₂ m' := by
  have hiso : Pool.Isolated S Rs Q (⟨progs, m⟩ : Pool Op Ans ι β σ) := ⟨hdisj, h⟩
  refine ⟨_, _, hiso.compatible, fun i o m m' hg => ?_,
    fun i m m' hm => hm.subset (hR i), hiso.sound⟩
  exact ⟨hg.1.trans (hR i), hg.2.subset (Set.compl_subset_compl.mpr (hR i))⟩

/-- Programs that touch nothing leave everything. -/
theorem Cooperate.of_sat_empty (h : ∀ i, Sat S ∅ (progs i) m (Q i)) :
    Cooperate S R progs m fun i b m' => (∃ m₂, Q i b m₂) ∧ S.AgreeOn R m m' := by
  refine ⟨fun _ o m m' => S.foot o ⊆ ∅ ∧ S.AgreeOn ∅ᶜ m m', fun _ => S.AgreeOn R,
    ⟨fun _ m => .refl S R m, fun _ => Semantics.AgreeOn.trans, fun _ _ _ _ _ _ hg => ?_⟩,
    fun _ o m m' hg => ?_, fun _ _ _ hm => hm, fun i => ?_⟩
  · exact hg.2.subset fun l _ => Set.notMem_empty l
  · exact ⟨hg.1.trans (Set.empty_subset R), hg.2.subset fun l _ => Set.notMem_empty l⟩
  · refine (((h i).safe.mono (fun _ _ _ hg => hg) (fun _ _ hm => hm.subset (Set.empty_subset R))
      fun b m' hb => hb).frame
      Semantics.AgreeOn.trans (fun o m m' hg => hg.2.subset fun l _ => Set.notMem_empty l)
      fun m m' hm => hm).imp ?_
    rintro b m' ⟨⟨m₂, hQ, -⟩, hm⟩
    exact ⟨⟨m₂, hQ⟩, hm⟩

/-- A command that changes nothing outside of a region. -/
def Semantics.Changes (S : Semantics Op Ans σ Loc) (W : Set Loc) (o : Op) : Prop :=
  ∀ c m a m', S.exec o c m = some (a, m') → S.AgreeOn Wᶜ m m'

/-- A command changes nothing that it does not touch. -/
theorem Semantics.changes_of_foot {W : Set Loc} {o : Op} (h : S.foot o ⊆ W) : S.Changes W o :=
  fun _ _ _ _ he _ hl => S.exec_frame he fun hf => hl (h hf)

/-- A program that is right on its own and changes only `W` is safe where nobody else changes what
it touches. -/
theorem Sat.safe_of_changes {p : Prog Op Ans β} {Q : β → σ → Prop} {W : Set Loc} (h : Sat S R p m Q)
    (hp : p.All (S.Changes W)) :
    Safe S (fun o m m' => S.foot o ⊆ R ∧ S.AgreeOn Wᶜ m m') (S.AgreeOn R) p m
      fun b m' => ∃ m₂, Q b m₂ ∧ S.AgreeOn R m₂ m' := by
  induction p generalizing m Q with
  | ret b => exact fun m' hm' => ⟨m, h, hm'⟩
  | cmd o k ih =>
    intro m₁ h₁ c
    obtain ⟨a, m', he, hs⟩ := (h.local h₁).2 c
    refine ⟨a, m', he, ⟨h.1, hp.1 c m₁ a m' he⟩, (ih a hs (hp.2 a)).imp ?_⟩
    rintro b m₂ ⟨m₃, ⟨m₄, hQ, h₄⟩, h₃⟩
    exact ⟨m₄, hQ, h₄.trans h₃⟩
  | halt w => exact h

/-- Programs that are right on their own are right together, when none of them changes what another
one touches. -/
theorem Cooperate.of_changes {Rs Ws : ι → Set Loc} (hR : ∀ i, Rs i ⊆ R) (hW : ∀ i, Ws i ⊆ Rs i)
    (hdisj : ∀ i j, i ≠ j → ∀ l ∈ Ws i, l ∉ Rs j) (h : ∀ i, Sat S (Rs i) (progs i) m (Q i))
    (hp : ∀ i, (progs i).All (S.Changes (Ws i))) :
    Cooperate S R progs m fun i b m' => ∃ m₂, Q i b m₂ ∧ S.AgreeOn (Rs i) m₂ m' := by
  refine ⟨fun i o m m' => S.foot o ⊆ Rs i ∧ S.AgreeOn (Ws i)ᶜ m m', fun i => S.AgreeOn (Rs i),
    ⟨fun i m => .refl S (Rs i) m, fun i => Semantics.AgreeOn.trans, fun i j hij o m m' hg => ?_⟩,
    fun i o m m' hg => ?_, fun i m m' hm => hm.subset (hR i), fun i => (h i).safe_of_changes (hp i)⟩
  · exact hg.2.subset fun l hl hw => hdisj _ _ hij l hw hl
  · exact ⟨hg.1.trans (hR i), hg.2.subset (Set.compl_subset_compl.mpr ((hW i).trans (hR i)))⟩

/-- A command that changes nothing. -/
def Semantics.Reads (S : Semantics Op Ans σ Loc) (o : Op) : Prop :=
  ∀ c m a m', S.exec o c m = some (a, m') → m' = m

/-- Programs that are right on their own and change nothing are right together. -/
theorem Cooperate.of_reads (h : ∀ i, Sat S R (progs i) m (Q i)) (hp : ∀ i, (progs i).All S.Reads) :
    Cooperate S R progs m fun i b m' => ∃ m₂, Q i b m₂ ∧ S.AgreeOn R m₂ m' := by
  have hchanges : ∀ i, (progs i).All (S.Changes ∅) := fun i => (hp i).imp fun o ho c m a m' he => by
    rw [ho c m a m' he]
    exact .refl S _ _
  exact Cooperate.of_changes (fun _ => subset_rfl) (fun _ => Set.empty_subset R)
    (fun _ _ _ l hl => hl.elim) h hchanges

variable [DecidableEq ι]

/-- **A command of one of them leaves them safe together**, and touches only their region. -/
theorem Cooperate.step (h : Cooperate S R progs m Q) {i : ι} {c : ℕ} {o : Op}
    {P : Pool Op Ans ι β σ} (hs : Pool.step S i c ⟨progs, m⟩ = some (o, P)) :
    Cooperate S R P.prog P.mem Q ∧ S.AgreeOn Rᶜ m P.mem := by
  obtain ⟨G, E, hc, hG, hE, hsafe⟩ := h
  obtain ⟨hsound, hg⟩ := Pool.Sound.step hc (P := ⟨progs, m⟩) hsafe hs
  exact ⟨⟨G, E, hc, hG, hE, hsound⟩, (hG i o m P.mem hg).2⟩

/-- One of them has a program that is right on its own, the others have nothing to do. -/
theorem Cooperate.single {i : ι} {p : Prog Op Ans β} {b : ι → β} {Q : β → σ → Prop}
    (h : Sat S R p m Q) :
    Cooperate S R (fun j => if j = i then p else .ret (b j)) m fun j b' m' =>
      if j = i then ∃ m₂, Q b' m₂ ∧ S.AgreeOn R m₂ m' else b' = b j := by
  have hsat : ∀ j, Sat S (if j = i then R else ∅) (if j = i then p else .ret (b j)) m fun b' m' =>
      if j = i then Q b' m' else b' = b j := by
    intro j
    by_cases hj : j = i
    · simp only [if_pos hj]
      exact h
    · simp only [if_neg hj]
      exact sat_ret.mpr rfl
  refine (Cooperate.of_sat (fun j => ?_) (fun j k hjk l hl hk => ?_) hsat).imp fun j b' m' => ?_
  · split_ifs
    · exact subset_rfl
    · exact Set.empty_subset R
  · by_cases hj : j = i
    · rw [if_neg fun hki => hjk (hj.trans hki.symm)] at hk
      exact hk
    · rw [if_neg hj] at hl
      exact hl
  · rintro ⟨m₂, hQ, hm⟩
    by_cases hj : j = i
    · rw [if_pos hj] at hQ hm ⊢
      exact ⟨m₂, hQ, hm⟩
    · rwa [if_neg hj] at hQ ⊢

end

/-- Stages with a barrier after each: what the threads do in it, and what comes next when all have
their results. -/
inductive Team (Op : Type) (Ans : Op → Type) (ι γ : Type) : Type 1 where
  /-- The result. -/
  | done (c : γ)
  /-- A stage. -/
  | stage {β : Type} (progs : ι → Prog Op Ans β) (next : (ι → β) → Team Op Ans ι γ)

namespace Team

variable [DecidableEq ι] (S : Semantics Op Ans σ Loc)

/-- A team goes on. -/
inductive Step : Team Op Ans ι γ × σ → Team Op Ans ι γ × σ → Prop where
  /-- A thread does its next command. -/
  | cmd {β : Type} {progs : ι → Prog Op Ans β} {next : (ι → β) → Team Op Ans ι γ}
      {m : σ} {i : ι} {c : ℕ} {o : Op}
      {P : Pool Op Ans ι β σ} (h : Pool.step S i c ⟨progs, m⟩ = some (o, P)) :
      Step (.stage progs next, m) (.stage P.prog next, P.mem)
  /-- All threads have reached the barrier. -/
  | barrier {β : Type} {progs : ι → Prog Op Ans β} {next : (ι → β) → Team Op Ans ι γ}
      {m : σ} {b : ι → β} (h : ∀ i, progs i = .ret (b i)) : Step (.stage progs next, m) (next b, m)

omit [DecidableEq ι] in
/-- What thread `i` does next is undefined. -/
def Stuck (m : σ) (i : ι) : Team Op Ans ι γ → Prop
  | .done _ => False
  | .stage progs _ => (⟨progs, m⟩ : Pool Op Ans ι _ σ).Stuck S i

omit [DecidableEq ι] in
/-- A team, and what comes after its last stage. -/
def bind : Team Op Ans ι γ → (γ → Team Op Ans ι δ) → Team Op Ans ι δ
  | .done c, f => f c
  | .stage progs next, f => .stage progs fun b => (next b).bind f

/-- A complete run of a team. -/
def Runs (t : Team Op Ans ι γ) (m : σ) (c : γ) (m' : σ) : Prop :=
  Relation.ReflTransGen (Step S) (t, m) (.done c, m')

variable {S} in
/-- The threads of a stage take turns. -/
theorem steps_of_run {β : Type} {progs : ι → Prog Op Ans β} {next : (ι → β) → Team Op Ans ι γ}
    {m : σ} {sched : List (ι × ℕ)} {log : List (ι × Op)} {P : Pool Op Ans ι β σ}
    (h : Pool.run S sched ⟨progs, m⟩ = some (log, P)) :
    Relation.ReflTransGen (Step S) (.stage progs next, m) (.stage P.prog next, P.mem) := by
  induction sched generalizing progs m log with
  | nil =>
    obtain ⟨-, rfl⟩ := Prod.mk.inj (Option.some.inj h)
    exact .refl
  | cons e sched ih =>
    obtain ⟨i, c⟩ := e
    obtain ⟨o, P₁, log₁, hstep, hrun, -⟩ := Pool.run_cons.mp h
    exact .head (.cmd hstep) (ih hrun)

omit [DecidableEq ι] in
/-- A team, started in `m`, touches only `R`, relies on nobody else doing so, never halts, and ends
with `Q`. -/
def Sat (R : Set Loc) : Team Op Ans ι γ → σ → (γ → σ → Prop) → Prop
  | .done c, m, Q => ∀ m', S.AgreeOn R m m' → Q c m'
  | .stage progs next, m, Q =>
    ∃ Q', Cooperate S R progs m Q' ∧ ∀ b m', (∀ i, Q' i (b i) m') → (next b).Sat R m' Q

variable {S} {R : Set Loc} {t t' : Team Op Ans ι γ} {m m' : σ} {Q Q' : γ → σ → Prop}

omit [DecidableEq ι] in
theorem Sat.imp (h : t.Sat S R m Q) (hQ : ∀ c m', Q c m' → Q' c m') : t.Sat S R m Q' := by
  induction t generalizing m with
  | done c => exact fun m' hm' => hQ c m' (h m' hm')
  | stage progs next ih =>
    obtain ⟨Q₁, hc, hn⟩ := h
    exact ⟨Q₁, hc, fun b m' hb => ih b (hn b m' hb)⟩

omit [DecidableEq ι] in
/-- **What others do elsewhere does not matter.** -/
theorem Sat.env (h : t.Sat S R m Q) (hm : S.AgreeOn R m m') : t.Sat S R m' Q := by
  cases t with
  | done c => exact fun m₂ hm₂ => h m₂ (hm.trans hm₂)
  | stage progs next =>
    obtain ⟨Q₁, hc, hn⟩ := h
    exact ⟨Q₁, hc.env hm, hn⟩

omit [DecidableEq ι] in
/-- Sequencing. -/
theorem Sat.bind {f : γ → Team Op Ans ι δ} {Q : δ → σ → Prop}
    (h : t.Sat S R m fun c m' => (f c).Sat S R m' Q) : (t.bind f).Sat S R m Q := by
  induction t generalizing m with
  | done c => exact h m (.refl S R m)
  | stage progs next ih =>
    obtain ⟨Q₁, hc, hn⟩ := h
    exact ⟨Q₁, hc, fun b m' hb => ih b (hn b m' hb)⟩

omit [DecidableEq ι] in
theorem Sat.mono {R' : Set Loc} (h : t.Sat S R m Q) (hR : R ⊆ R') : t.Sat S R' m Q := by
  induction t generalizing m with
  | done c => exact fun m' hm' => h m' (hm'.subset hR)
  | stage progs next ih =>
    obtain ⟨Q₁, hc, hn⟩ := h
    exact ⟨Q₁, hc.mono hR, fun b m' hb => ih b (hn b m' hb)⟩

omit [DecidableEq ι] in
/-- **The frame rule**: what a team does not touch is as it was. -/
theorem Sat.frame [Nonempty ι] {R₁ : Set Loc} (h : t.Sat S R m Q) (hR : R ⊆ R₁) :
    t.Sat S R₁ m fun c m' => Q c m' ∧ S.AgreeOn (R₁ \ R) m m' := by
  induction t generalizing m with
  | done c => exact fun m' hm' => ⟨h m' (hm'.subset hR), hm'.subset Set.sdiff_subset⟩
  | stage progs next ih =>
    obtain ⟨Q₁, hc, hn⟩ := h
    refine ⟨_, hc.frame hR, fun b m' hb => (ih b (hn b m' fun i => (hb i).1)).imp ?_⟩
    obtain ⟨i⟩ := ‹Nonempty ι›
    exact fun c m₂ hm₂ => ⟨hm₂.1, (hb i).2.trans hm₂.2⟩

omit [DecidableEq ι] in
/-- Nobody is stuck. -/
theorem Sat.not_stuck (h : t.Sat S R m Q) (i : ι) : ¬ t.Stuck S m i := by
  cases t with
  | done c => exact not_false
  | stage progs next =>
    obtain ⟨Q₁, hc, -⟩ := h
    exact hc.not_stuck i

/-- **A step keeps what is said of a team**, and touches only its region. -/
theorem Sat.step (h : t.Sat S R m Q) (hs : Step S (t, m) (t', m')) :
    t'.Sat S R m' Q ∧ S.AgreeOn Rᶜ m m' := by
  cases hs with
  | cmd hstep =>
    obtain ⟨Q₁, hc, hn⟩ := h
    obtain ⟨hc', hf⟩ := hc.step hstep
    exact ⟨⟨Q₁, hc', hn⟩, hf⟩
  | barrier hb =>
    obtain ⟨Q₁, hc, hn⟩ := h
    exact ⟨hn _ m fun i => hc.result (hb i), .refl S _ m⟩

/-- **A complete run ends as specified**, and touches only the region. -/
theorem Sat.run (h : t.Sat S R m Q) {c : γ} (hr : t.Runs S m c m') :
    Q c m' ∧ S.AgreeOn Rᶜ m m' := by
  have hkeep : ∀ s, Relation.ReflTransGen (Step S) (t, m) s → s.1.Sat S R s.2 Q ∧
      S.AgreeOn Rᶜ m s.2 := by
    intro s hs
    induction hs with
    | refl => exact ⟨h, .refl S _ m⟩
    | tail _ hstep ih =>
      obtain ⟨hsat, hf⟩ := ih.1.step hstep
      exact ⟨hsat, ih.2.trans hf⟩
  obtain ⟨hsat, hf⟩ := hkeep _ hr
  exact ⟨hsat m' (.refl S R m'), hf⟩

/-- **A team can go on to its result.** -/
theorem Sat.exists_run [Fintype ι] (h : t.Sat S R m Q) : ∃ c m', t.Runs S m c m' := by
  induction t generalizing m with
  | done c => exact ⟨c, m, .refl⟩
  | stage progs next ih =>
    obtain ⟨Q₁, ⟨G, E, hc, -, -, hsafe⟩, hn⟩ := h
    obtain ⟨sched, log, P, hrun, hreturned⟩ :=
      Pool.Sound.exists_run (P := ⟨progs, m⟩) hc hsafe Finset.univ.toList
    choose b hb using fun i => hreturned i (Finset.mem_toList.mpr (Finset.mem_univ i))
    have hsound := (Pool.Sound.run (P := ⟨progs, m⟩) hc hsafe hrun).1
    obtain ⟨c, m', hruns⟩ := ih b (hn b P.mem fun i => hsound.result hc (hb i))
    exact ⟨c, m', (steps_of_run hrun).trans (.head (.barrier hb) hruns)⟩

end Team

end Ps4o.Program
