import Ps4o.Program.Team

/-!
# Teams that may halt

A program may come to what it declares unreachable. A thread that has halted never comes to the next
barrier, so its team never has a result. What has been proved of the results of a team, and of what
it touches, may leave this case out.

## What is proved

* `Doomed S R progs m` says that one of the programs has halted, and that the others touch only `R`.
  It stays so (`Doomed.step`, `Doomed.env`), and there is never a result (`Doomed.not_returned`).
* `Team.Upholds S R t m Q` says that a team touches only `R`, relies on nobody else doing so, and
  ends with `Q` if at all. It is kept by every step (`Team.Upholds.step`), and by what others do
  elsewhere (`Team.Upholds.env`).
-/

namespace Ps4o.Program

variable {Op : Type} {Ans : Op → Type} {σ Loc ι β γ : Type}

/-- A program has halted. -/
def Prog.Halted (p : Prog Op Ans β) : Prop := ∃ w, p = .halt w

namespace Prog

@[simp] theorem halted_halt (w : Halt) : (.halt w : Prog Op Ans β).Halted := ⟨w, rfl⟩

@[simp] theorem not_halted_ret (b : β) : ¬ (.ret b : Prog Op Ans β).Halted := nofun

@[simp] theorem not_halted_cmd (o : Op) (k : Ans o → Prog Op Ans β) :
    ¬ (.cmd o k : Prog Op Ans β).Halted := nofun

/-- A program has halted only if its first part has, or is over. -/
theorem halted_bind {p : Prog Op Ans β} {f : β → Prog Op Ans γ} :
    (p >>= f).Halted ↔ p.Halted ∨ ∃ b, p = .ret b ∧ (f b).Halted := by
  cases p with
  | ret b => simp
  | cmd o k => simp
  | halt w => simp

/-- A program goes on with what has not halted. -/
theorem not_halted_bind {p : Prog Op Ans β} {f : β → Prog Op Ans γ} (hp : ¬ p.Halted)
    (hf : ∀ b, ¬ (f b).Halted) : ¬ (p >>= f).Halted := by
  rw [halted_bind, not_or, not_exists]
  exact ⟨hp, fun b h => hf b h.2⟩

theorem not_halted_loop {body : ℕ → β → Prog Op Ans β} (h : ∀ i b, ¬ (body i b).Halted) (n : ℕ)
    (b : β) : ¬ (loop body n b).Halted := by
  induction n with
  | zero => exact not_halted_ret b
  | succ n ih => exact not_halted_bind ih (h n)

end Prog

/-- One of the programs has halted; those that have not are right on their own, in regions of their
own. -/
structure Doomed (S : Semantics Op Ans σ Loc) (R : Set Loc) (progs : ι → Prog Op Ans β) (m : σ)
    (Rs : ι → Set Loc) : Prop where
  halted : ∃ i, (progs i).Halted
  subset : ∀ i, Rs i ⊆ R
  disjoint : ∀ i j, i ≠ j → ∀ l ∈ Rs i, l ∉ Rs j
  sat : ∀ i, (progs i).Halted ∨ ∃ Q, Sat S (Rs i) (progs i) m Q

section
variable {S : Semantics Op Ans σ Loc} {R : Set Loc} {progs : ι → Prog Op Ans β} {m m' : σ}
  {Rs : ι → Set Loc}

/-- There is never a result of all of them. -/
theorem Doomed.not_returned (h : Doomed S R progs m Rs) {b : ι → β} :
    ¬ ∀ i, progs i = .ret (b i) := by
  intro hb
  obtain ⟨i, w, hw⟩ := h.halted
  rw [hb i] at hw
  cases hw

/-- What others do elsewhere does not matter. -/
theorem Doomed.env (h : Doomed S R progs m Rs) (hm : S.AgreeOn R m m') :
    Doomed S R progs m' Rs := by
  refine ⟨h.halted, h.subset, h.disjoint, fun i => (h.sat i).imp_right ?_⟩
  rintro ⟨Q, hsat⟩
  exact ⟨_, hsat.local (hm.subset (h.subset i))⟩

variable [DecidableEq ι]

/-- **A command of one of them changes nothing about it**, and touches only their region. -/
theorem Doomed.step (h : Doomed S R progs m Rs) {i : ι} {c : ℕ} {o : Op} {P : Pool Op Ans ι β σ}
    (hs : Pool.step S i c ⟨progs, m⟩ = some (o, P)) :
    Doomed S R P.prog P.mem Rs ∧ S.AgreeOn Rᶜ m P.mem := by
  obtain ⟨k, a, m', hp, he, rfl⟩ := Pool.step_cases hs
  have hsat := (h.sat i).resolve_left fun ⟨w, hw⟩ => nomatch hp.symm.trans hw
  obtain ⟨Q, hsat⟩ := hsat
  have hpi : progs i = .cmd o k := hp
  rw [hpi] at hsat
  have hframe : S.AgreeOn (Rs i)ᶜ m m' := fun l hl => S.exec_frame he fun hf => hl (hsat.1 hf)
  refine ⟨⟨?_, h.subset, h.disjoint, fun j => ?_⟩,
    hframe.subset (Set.compl_subset_compl.mpr (h.subset i))⟩
  · obtain ⟨j, hj⟩ := h.halted
    refine ⟨j, ?_⟩
    rw [Pool.step_of_ne hs (by rintro rfl; obtain ⟨w, hw⟩ := hj; exact nomatch hpi.symm.trans hw)]
    exact hj
  · rcases eq_or_ne j i with rfl | hne
    · obtain ⟨a', m'', he', hs'⟩ := hsat.2 c
      obtain ⟨rfl, rfl⟩ := Prod.mk.inj (Option.some.inj (he.symm.trans he'))
      refine .inr ⟨Q, ?_⟩
      dsimp only
      rw [Function.update_self]
      exact hs'
    · rw [Pool.step_of_ne hs hne]
      refine (h.sat j).imp_right ?_
      rintro ⟨Q', hsat'⟩
      exact ⟨_, hsat'.local (hframe.subset fun l hl hl' => h.disjoint j i hne l hl hl')⟩

end

namespace Team

variable [DecidableEq ι] (S : Semantics Op Ans σ Loc)

omit [DecidableEq ι] in
/-- A team, started in `m`, touches only `R`, relies on nobody else doing so, and ends with `Q` if
it has a result. -/
def Upholds (R : Set Loc) : Team Op Ans ι γ → σ → (γ → σ → Prop) → Prop
  | .done c, m, Q => ∀ m', S.AgreeOn R m m' → Q c m'
  | .stage progs next, m, Q =>
    (∃ Q', Cooperate S R progs m Q' ∧ ∀ b m', (∀ i, Q' i (b i) m') → (next b).Upholds R m' Q) ∨
      ∃ Rs, Doomed S R progs m Rs

variable {S} {R : Set Loc} {t t' : Team Op Ans ι γ} {m m' : σ} {Q Q' : γ → σ → Prop}

omit [DecidableEq ι] in
theorem Sat.upholds (h : t.Sat S R m Q) : t.Upholds S R m Q := by
  induction t generalizing m with
  | done c => exact h
  | stage progs next ih =>
    obtain ⟨Q₁, hc, hn⟩ := h
    exact .inl ⟨Q₁, hc, fun b m' hb => ih b (hn b m' hb)⟩

omit [DecidableEq ι] in
theorem Upholds.imp (h : t.Upholds S R m Q) (hQ : ∀ c m', Q c m' → Q' c m') :
    t.Upholds S R m Q' := by
  induction t generalizing m with
  | done c => exact fun m' hm' => hQ c m' (h m' hm')
  | stage progs next ih =>
    refine h.imp_left ?_
    rintro ⟨Q₁, hc, hn⟩
    exact ⟨Q₁, hc, fun b m' hb => ih b (hn b m' hb)⟩

omit [DecidableEq ι] in
/-- **What others do elsewhere does not matter.** -/
theorem Upholds.env (h : t.Upholds S R m Q) (hm : S.AgreeOn R m m') : t.Upholds S R m' Q := by
  cases t with
  | done c => exact fun m₂ hm₂ => h m₂ (hm.trans hm₂)
  | stage progs next =>
    rcases h with ⟨Q₁, hc, hn⟩ | ⟨Rs, hd⟩
    · exact .inl ⟨Q₁, hc.env hm, hn⟩
    · exact .inr ⟨Rs, hd.env hm⟩

/-- **A step keeps what is said of a team**, and touches only its region. -/
theorem Upholds.step (h : t.Upholds S R m Q) (hs : Step S (t, m) (t', m')) :
    t'.Upholds S R m' Q ∧ S.AgreeOn Rᶜ m m' := by
  cases hs with
  | cmd hstep =>
    rcases h with ⟨Q₁, hc, hn⟩ | ⟨Rs, hd⟩
    · obtain ⟨hc', hf⟩ := hc.step hstep
      exact ⟨.inl ⟨Q₁, hc', hn⟩, hf⟩
    · obtain ⟨hd', hf⟩ := hd.step hstep
      exact ⟨.inr ⟨Rs, hd'⟩, hf⟩
  | barrier hb =>
    rcases h with ⟨Q₁, hc, hn⟩ | ⟨Rs, hd⟩
    · exact ⟨hn _ m fun i => hc.result (hb i), .refl S _ m⟩
    · exact absurd hb hd.not_returned

end Team

end Ps4o.Program
