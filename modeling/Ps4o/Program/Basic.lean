import Mathlib.Data.Set.Basic
import Mathlib.Tactic.Common

/-!
# Programs over a memory

A program is a tree of commands: it has a result, or it gives a command to the
memory and goes on with the answer, or it halts because what it does is undefined
or because a bound on its recursion was reached. The commands, their answers and
the memory are parameters; all this module knows of a command is what it does
(`Semantics.exec`, which may consult one arbitrary number, so that a command can
make an arbitrary choice) and which locations it touches (`Semantics.foot`).

## What is proved

* `Sat S R p m Q` says that `p`, started in `m`, touches only the locations in `R`,
  never halts, and ends with `Q` whatever choices are made; it composes
  (`sat_bind`), weakens (`Sat.mono`), and has one rule for each kind of loop
  (`sat_loop`, `sat_foldlM`).
* `Sat.frame`: what lies outside `R` is as it was.
* `Sat.local`: what happens depends only on what lies inside `R`.
* `Sat.reaches`: what is left of the program after any of its commands is right too.
* `Sat.run`: the executable `run` then succeeds, with `Q`, for every stream of choices.
* `ConfinedTo.exchange`: programs that touch different regions can be exchanged.
-/

namespace Ps4o.Program

/-- Why a program stops without a result. -/
inductive Halt where
  /-- What it does is undefined. -/
  | undefined
  /-- Its recursion is deeper than it was allowed to be. -/
  | fuel
  deriving DecidableEq

/-- A program with commands `Op`, answered in `Ans`, and results in `β`. -/
inductive Prog (Op : Type) (Ans : Op → Type) (β : Type) : Type where
  /-- The result. -/
  | ret (b : β)
  /-- A command, and what to do with its answer. -/
  | cmd (o : Op) (k : Ans o → Prog Op Ans β)
  /-- No result. -/
  | halt (w : Halt)

namespace Prog

variable {Op : Type} {Ans : Op → Type} {β γ δ : Type}

/-- `p`, then `f` of its result. -/
def bind : Prog Op Ans β → (β → Prog Op Ans γ) → Prog Op Ans γ
  | .ret b, f => f b
  | .cmd o k, f => .cmd o fun a => (k a).bind f
  | .halt w, _ => .halt w

instance : Monad (Prog Op Ans) where
  pure := .ret
  bind := bind

/-- A single command. -/
def lift (o : Op) : Prog Op Ans (Ans o) := .cmd o .ret

/-- A value that need not exist: without it, what the program does is undefined. -/
def ofOption : Option β → Prog Op Ans β
  | some b => .ret b
  | none => .halt .undefined

@[simp] theorem ret_bind (b : β) (f : β → Prog Op Ans γ) :
    (Prog.ret b : Prog Op Ans β) >>= f = f b := rfl

@[simp] theorem pure_eq_ret (b : β) : (pure b : Prog Op Ans β) = .ret b := rfl

@[simp] theorem halt_bind (w : Halt) (f : β → Prog Op Ans γ) :
    (Prog.halt w : Prog Op Ans β) >>= f = .halt w := rfl

@[simp] theorem cmd_bind (o : Op) (k : Ans o → Prog Op Ans β) (f : β → Prog Op Ans γ) :
    Prog.cmd o k >>= f = .cmd o fun a => k a >>= f := rfl

@[simp] theorem lift_bind (o : Op) (f : Ans o → Prog Op Ans γ) : (lift o >>= f) = .cmd o f := rfl

theorem bind_ret (p : Prog Op Ans β) : p >>= Prog.ret = p := by
  induction p with
  | ret b => rfl
  | cmd o k ih => simp only [cmd_bind, ih]
  | halt w => rfl

theorem bind_assoc (p : Prog Op Ans β) (f : β → Prog Op Ans γ) (g : γ → Prog Op Ans δ) :
    (p >>= f) >>= g = p >>= fun b => f b >>= g := by
  induction p with
  | ret b => rfl
  | cmd o k ih => simp only [cmd_bind, ih]
  | halt w => rfl

instance : LawfulMonad (Prog Op Ans) :=
  LawfulMonad.mk' _ (fun p => bind_ret p) (fun _ _ => rfl) fun p f g => bind_assoc p f g

/-- `for (i = 0; i != n; ++i)`, threading a value through the rounds. -/
def loop (body : ℕ → β → Prog Op Ans β) : ℕ → β → Prog Op Ans β
  | 0, b => .ret b
  | n + 1, b => loop body n b >>= body n

/-- The first round of a loop. -/
theorem loop_succ (body : ℕ → β → Prog Op Ans β) (n : ℕ) (b : β) :
    loop body (n + 1) b = body 0 b >>= loop (fun i => body (i + 1)) n := by
  induction n with
  | zero => exact (bind_ret _).symm
  | succ n ih =>
    rw [loop, ih, bind_assoc]
    rfl

/-- All commands a program may ever give are in `C`. -/
def All (C : Op → Prop) : Prog Op Ans β → Prop
  | .ret _ => True
  | .cmd o k => C o ∧ ∀ a, (k a).All C
  | .halt _ => True

theorem All.imp {C C' : Op → Prop} {p : Prog Op Ans β} (h : p.All C) (hC : ∀ o, C o → C' o) :
    p.All C' := by
  induction p with
  | ret b => trivial
  | cmd o k ih => exact ⟨hC o h.1, fun a => ih a (h.2 a)⟩
  | halt w => trivial

theorem All.bind {C : Op → Prop} {p : Prog Op Ans β} {f : β → Prog Op Ans γ} (h : p.All C)
    (hf : ∀ b, (f b).All C) : (p >>= f).All C := by
  induction p with
  | ret b => exact hf b
  | cmd o k ih => exact ⟨h.1, fun a => ih a (h.2 a)⟩
  | halt w => trivial

theorem All.loop_lt {C : Op → Prop} {body : ℕ → β → Prog Op Ans β} {n : ℕ}
    (h : ∀ i < n, ∀ b, (body i b).All C) (b : β) : (Prog.loop body n b).All C := by
  induction n with
  | zero => trivial
  | succ n ih =>
    exact (ih fun i hi => h i (Nat.lt_succ_of_lt hi)).bind fun b' => h n (Nat.lt_succ_self n) b'

theorem All.loop {C : Op → Prop} {body : ℕ → β → Prog Op Ans β} (h : ∀ i b, (body i b).All C)
    (n : ℕ) (b : β) : (Prog.loop body n b).All C :=
  All.loop_lt (fun i _ => h i) b

end Prog

/-- What the commands do to a memory `σ` with locations `Loc`. `Agree m m' l` says
that `m` and `m'` hold the same at `l`. -/
structure Semantics (Op : Type) (Ans : Op → Type) (σ Loc : Type) where
  /-- The answer and the memory after a command, consulting an arbitrary number; none
  when the command is undefined there. -/
  exec (o : Op) (c : ℕ) (m : σ) : Option (Ans o × σ)
  /-- The locations a command touches. -/
  foot (o : Op) : Set Loc
  /-- Two memories hold the same at a location. -/
  Agree (m m' : σ) (l : Loc) : Prop
  /-- `Agree` is an equivalence. -/
  agree_refl (m : σ) (l : Loc) : Agree m m l
  agree_symm {m m' : σ} {l : Loc} : Agree m m' l → Agree m' m l
  agree_trans {m₁ m₂ m₃ : σ} {l : Loc} : Agree m₁ m₂ l → Agree m₂ m₃ l → Agree m₁ m₃ l
  /-- A command leaves what it does not touch. -/
  exec_frame {o : Op} {c : ℕ} {m : σ} {r : Ans o × σ} {l : Loc} :
    exec o c m = some r → l ∉ foot o → Agree m r.2 l
  /-- A command depends only on what it touches. -/
  exec_local {o : Op} {c : ℕ} {m m₂ : σ} {r : Ans o × σ} :
    exec o c m = some r → (∀ l ∈ foot o, Agree m m₂ l) →
      ∃ m₂', exec o c m₂ = some (r.1, m₂') ∧ ∀ l ∈ foot o, Agree r.2 m₂' l

variable {Op : Type} {Ans : Op → Type} {σ Loc β γ : Type}

namespace Semantics

variable (S : Semantics Op Ans σ Loc)

/-- Two memories hold the same on a region. -/
def AgreeOn (R : Set Loc) (m m' : σ) : Prop := ∀ l ∈ R, S.Agree m m' l

theorem AgreeOn.refl (R : Set Loc) (m : σ) : S.AgreeOn R m m := fun l _ => S.agree_refl m l

variable {S}

theorem AgreeOn.trans {R : Set Loc} {m₁ m₂ m₃ : σ} (h : S.AgreeOn R m₁ m₂)
    (h' : S.AgreeOn R m₂ m₃) : S.AgreeOn R m₁ m₃ := fun l hl => S.agree_trans (h l hl) (h' l hl)

theorem AgreeOn.subset {R R' : Set Loc} {m m' : σ} (h : S.AgreeOn R m m') (hs : R' ⊆ R) :
    S.AgreeOn R' m m' := fun l hl => h l (hs hl)

end Semantics

/-- Running a program, the `i`-th command consulting `c i`. -/
def run (S : Semantics Op Ans σ Loc) : Prog Op Ans β → (ℕ → ℕ) → σ → Except Halt (β × (ℕ → ℕ) × σ)
  | .ret b, c, m => .ok (b, c, m)
  | .cmd o k, c, m =>
    match S.exec o (c 0) m with
    | some (a, m') => run S (k a) (fun i => c (i + 1)) m'
    | none => .error .undefined
  | .halt w, _, _ => .error w

theorem run_bind (S : Semantics Op Ans σ Loc) (p : Prog Op Ans β) (f : β → Prog Op Ans γ)
    (c : ℕ → ℕ) (m : σ) :
    run S (p >>= f) c m = (run S p c m).bind fun r => run S (f r.1) r.2.1 r.2.2 := by
  induction p generalizing c m with
  | ret b => rfl
  | cmd o k ih =>
    simp only [Prog.cmd_bind, run]
    cases S.exec o (c 0) m with
    | none => rfl
    | some r => exact ih r.1 _ r.2
  | halt w => rfl

/-- `p`, started in `m`, touches only `R`, never halts, and ends with `Q`. -/
def Sat (S : Semantics Op Ans σ Loc) (R : Set Loc) : Prog Op Ans β → σ → (β → σ → Prop) → Prop
  | .ret b, m, Q => Q b m
  | .cmd o k, m, Q => S.foot o ⊆ R ∧ ∀ c, ∃ a m', S.exec o c m = some (a, m') ∧ Sat S R (k a) m' Q
  | .halt _, _, _ => False

section
variable {S : Semantics Op Ans σ Loc} {R R' : Set Loc} {m : σ}

@[simp] theorem sat_ret {b : β} {Q : β → σ → Prop} : Sat S R (.ret b) m Q ↔ Q b m := Iff.rfl

@[simp] theorem sat_halt {w : Halt} {Q : β → σ → Prop} :
    ¬ Sat S R (.halt w : Prog Op Ans β) m Q := id

theorem sat_cmd {o : Op} {k : Ans o → Prog Op Ans β} {Q : β → σ → Prop} :
    Sat S R (.cmd o k) m Q ↔
      S.foot o ⊆ R ∧ ∀ c, ∃ a m', S.exec o c m = some (a, m') ∧ Sat S R (k a) m' Q := Iff.rfl

/-- Sequencing. -/
theorem sat_bind {p : Prog Op Ans β} {f : β → Prog Op Ans γ} {Q : γ → σ → Prop} :
    Sat S R (p >>= f) m Q ↔ Sat S R p m fun b m' => Sat S R (f b) m' Q := by
  induction p generalizing m with
  | ret b => rfl
  | cmd o k ih => simp only [Prog.cmd_bind, sat_cmd, ih]
  | halt w => rfl

/-- A value that need not exist. -/
theorem sat_ofOption {x : Option β} {Q : β → σ → Prop} :
    Sat S R (Prog.ofOption x : Prog Op Ans β) m Q ↔ ∃ b, x = some b ∧ Q b m := by
  cases x <;> simp [Prog.ofOption]

/-- Weakening the region and the postcondition. -/
theorem Sat.mono {p : Prog Op Ans β} {Q Q' : β → σ → Prop} (h : Sat S R p m Q) (hR : R ⊆ R')
    (hQ : ∀ b m', Q b m' → Q' b m') : Sat S R' p m Q' := by
  induction p generalizing m with
  | ret b => exact hQ _ _ h
  | cmd o k ih =>
    refine ⟨h.1.trans hR, fun c => ?_⟩
    obtain ⟨a, m', he, hs⟩ := h.2 c
    exact ⟨a, m', he, ih a hs⟩
  | halt w => exact h

theorem Sat.imp {p : Prog Op Ans β} {Q Q' : β → σ → Prop} (h : Sat S R p m Q)
    (hQ : ∀ b m', Q b m' → Q' b m') : Sat S R p m Q' := h.mono subset_rfl hQ

/-- **The frame rule**: what lies outside the region is as it was. -/
theorem Sat.frame {p : Prog Op Ans β} {Q : β → σ → Prop} (h : Sat S R p m Q) :
    Sat S R p m fun b m' => Q b m' ∧ S.AgreeOn Rᶜ m m' := by
  induction p generalizing m with
  | ret b => exact ⟨h, .refl S _ _⟩
  | cmd o k ih =>
    refine ⟨h.1, fun c => ?_⟩
    obtain ⟨a, m', he, hs⟩ := h.2 c
    refine ⟨a, m', he, (ih a hs).imp fun b m'' hb => ⟨hb.1, fun l hl => ?_⟩⟩
    exact S.agree_trans (S.exec_frame he fun hf => hl (h.1 hf)) (hb.2 l hl)
  | halt w => exact h

/-- **Locality**: from a memory that agrees on the region, the program does the same
there. -/
theorem Sat.local {p : Prog Op Ans β} {Q : β → σ → Prop} {m₂ : σ} (h : Sat S R p m Q)
    (hm : S.AgreeOn R m m₂) : Sat S R p m₂ fun b m₂' => ∃ m', Q b m' ∧ S.AgreeOn R m' m₂' := by
  induction p generalizing m m₂ with
  | ret b => exact ⟨m, h, hm⟩
  | cmd o k ih =>
    refine ⟨h.1, fun c => ?_⟩
    obtain ⟨a, m', he, hs⟩ := h.2 c
    obtain ⟨m₂', he₂, ha⟩ := S.exec_local he fun l hl => hm l (h.1 hl)
    refine ⟨a, m₂', he₂, ih a hs fun l hl => ?_⟩
    by_cases hf : l ∈ S.foot o
    · exact ha l hf
    · exact S.agree_trans (S.agree_symm (S.exec_frame he hf))
        (S.agree_trans (hm l hl) (S.exec_frame he₂ hf))
  | halt w => exact h

/-- The program runs to its result, for every stream of choices. -/
theorem Sat.run {p : Prog Op Ans β} {Q : β → σ → Prop} (h : Sat S R p m Q) (c : ℕ → ℕ) :
    ∃ b c' m', Program.run S p c m = .ok (b, c', m') ∧ Q b m' := by
  induction p generalizing m c with
  | ret b => exact ⟨b, c, m, rfl, h⟩
  | cmd o k ih =>
    obtain ⟨a, m', he, hs⟩ := h.2 (c 0)
    obtain ⟨b, c', m'', hr, hq⟩ := ih a hs fun i => c (i + 1)
    exact ⟨b, c', m'', by simp only [Program.run, he, hr], hq⟩
  | halt w => exact h.elim

/-- What holds at the end holds of every run. -/
theorem Sat.of_run {p : Prog Op Ans β} {Q : β → σ → Prop} {c c' : ℕ → ℕ} {b : β} {m' : σ}
    (h : Sat S R p m Q) (hr : Program.run S p c m = .ok (b, c', m')) : Q b m' := by
  obtain ⟨b₂, c₂, m₂, hr₂, hQ⟩ := h.run c
  rw [hr] at hr₂
  cases hr₂
  exact hQ

/-- What is left of a program, and the memory, after some of its commands. -/
inductive Reaches (S : Semantics Op Ans σ Loc) : Prog Op Ans β → σ → Prog Op Ans β → σ → Prop where
  /-- Nothing has been done. -/
  | refl (p : Prog Op Ans β) (m : σ) : Reaches S p m p m
  /-- The first command has been done, and then others. -/
  | cmd {o : Op} {k : Ans o → Prog Op Ans β} {c : ℕ} {m m₁ m' : σ}
    {a : Ans o} {p' : Prog Op Ans β} :
    S.exec o c m = some (a, m₁) → Reaches S (k a) m₁ p' m' → Reaches S (.cmd o k) m p' m'

/-- A program that is right stays right, and leaves what lies outside the region. -/
theorem Sat.reaches {p p' : Prog Op Ans β} {m' : σ} {Q : β → σ → Prop} (h : Sat S R p m Q)
    (hr : Reaches S p m p' m') : Sat S R p' m' Q ∧ S.AgreeOn Rᶜ m m' := by
  induction hr with
  | refl p m => exact ⟨h, .refl S _ _⟩
  | cmd he _ ih =>
    obtain ⟨hR, hs⟩ := h
    obtain ⟨a', m₂, he', hs'⟩ := hs _
    obtain ⟨rfl, rfl⟩ := Prod.mk.inj (Option.some.inj (he.symm.trans he'))
    obtain ⟨hsat, hag⟩ := ih hs'
    exact ⟨hsat, Semantics.AgreeOn.trans (fun l hl => S.exec_frame he fun hf => hl (hR hf)) hag⟩

/-- Two postconditions at once. -/
theorem Sat.and {p : Prog Op Ans β} {Q Q' : β → σ → Prop} (h : Sat S R p m Q)
    (h' : Sat S R' p m Q') : Sat S R p m fun b m' => Q b m' ∧ Q' b m' := by
  induction p generalizing m with
  | ret b => exact ⟨h, h'⟩
  | cmd o k ih =>
    refine ⟨h.1, fun c => ?_⟩
    obtain ⟨a, m', he, hs⟩ := h.2 c
    obtain ⟨a', m'', he', hs'⟩ := h'.2 c
    obtain ⟨rfl, rfl⟩ : a = a' ∧ m' = m'' := by simpa [he] using he'
    exact ⟨a, m', he, ih a hs hs'⟩
  | halt w => exact h

/-- The rule for a counted loop: an invariant of the rounds. -/
theorem sat_loop {body : ℕ → β → Prog Op Ans β} (I : ℕ → β → σ → Prop) {n : ℕ} {b : β}
    (h₀ : I 0 b m) (hs : ∀ i < n, ∀ b m, I i b m → Sat S R (body i b) m (I (i + 1))) :
    Sat S R (Prog.loop body n b) m (I n) := by
  induction n with
  | zero => exact h₀
  | succ n ih =>
    rw [Prog.loop, sat_bind]
    exact (ih fun i hi => hs i (Nat.lt_succ_of_lt hi)).imp fun b m' =>
      hs n (Nat.lt_succ_self n) b m'

/-- The rule for a loop over a list: an invariant of what has been visited. -/
theorem sat_foldlM {ι : Type} {body : β → ι → Prog Op Ans β}
    (I : List ι → β → σ → Prop) {l : List ι} {b : β} (h₀ : I [] b m)
    (hs : ∀ pre x suf, l = pre ++ x :: suf → ∀ b m, I pre b m →
      Sat S R (body b x) m (I (pre ++ [x]))) : Sat S R (l.foldlM body b) m (I l) := by
  induction l generalizing I b m with
  | nil => exact h₀
  | cons x l ih =>
    rw [List.foldlM_cons, sat_bind]
    refine (hs [] x l rfl b m h₀).imp fun b' m' h' => ?_
    refine ih (fun pre => I (x :: pre)) h' fun pre y suf hl b m hI => ?_
    exact hs (x :: pre) y suf (by rw [hl, List.cons_append]) b m hI

/-! ### Programs on different regions -/

/-- `p`, started in `m`, has a result, changes nothing outside `R`, and finds out nothing about what
is there: where the memory is different outside `R`, it has the same result, and does the same. -/
def ConfinedTo (S : Semantics Op Ans σ Loc) (R : Set Loc) (p : Prog Op Ans β) (m : σ) : Prop :=
  ∀ c, ∃ b c' m', Program.run S p c m = .ok (b, c', m') ∧ S.AgreeOn Rᶜ m m' ∧
    ∀ m₂, S.AgreeOn R m m₂ →
      ∃ m₂', Program.run S p c m₂ = .ok (b, c', m₂') ∧ S.AgreeOn R m' m₂' ∧ S.AgreeOn Rᶜ m₂ m₂'

/-- `p₁` and `p₂`, each with choices of its own, have the same results and end in the same memory,
whichever is run first. -/
def Exchange (S : Semantics Op Ans σ Loc) (p₁ : Prog Op Ans β) (p₂ : Prog Op Ans γ) (m : σ) :
    Prop :=
  ∀ c₁ c₂, ∃ b₁ c₁' m₁ b₂ c₂' m₂ m',
    Program.run S p₁ c₁ m = .ok (b₁, c₁', m₁) ∧ Program.run S p₂ c₂ m₁ = .ok (b₂, c₂', m') ∧
      Program.run S p₂ c₂ m = .ok (b₂, c₂', m₂) ∧ Program.run S p₁ c₁ m₂ = .ok (b₁, c₁', m')

/-- From memories that agree on the region, a program has the same result, and the memories still
agree there. -/
theorem Sat.run_local {p : Prog Op Ans β} {Q : β → σ → Prop} {m₂ : σ} (h : Sat S R p m Q)
    (hm : S.AgreeOn R m m₂) (c : ℕ → ℕ) : ∃ b c' m' m₂', Program.run S p c m = .ok (b, c', m') ∧
    Program.run S p c m₂ = .ok (b, c', m₂') ∧ S.AgreeOn R m' m₂' := by
  induction p generalizing m m₂ c with
  | ret b => exact ⟨b, c, m, m₂, rfl, rfl, hm⟩
  | cmd o k ih =>
    obtain ⟨a, m', he, hs⟩ := h.2 (c 0)
    obtain ⟨m₂', he₂, ha⟩ := S.exec_local he fun l hl => hm l (h.1 hl)
    have hm' : S.AgreeOn R m' m₂' := fun l hl => by
      by_cases hf : l ∈ S.foot o
      · exact ha l hf
      · exact S.agree_trans (S.agree_symm (S.exec_frame he hf))
          (S.agree_trans (hm l hl) (S.exec_frame he₂ hf))
    obtain ⟨b, c', m₃, m₃', hr, hr₂, hag⟩ := ih a hs hm' fun i => c (i + 1)
    exact ⟨b, c', m₃, m₃', by simp only [Program.run, he, hr], by simp only [Program.run, he₂, hr₂],
      hag⟩
  | halt w => exact h.elim

/-- A program that touches only a region is confined to it. -/
theorem Sat.confinedTo {p : Prog Op Ans β} {Q : β → σ → Prop} (h : Sat S R p m Q) :
    ConfinedTo S R p m := by
  intro c
  obtain ⟨b, c', m', hr, -, hframe⟩ := h.frame.run c
  refine ⟨b, c', m', hr, hframe, fun m₂ hm => ?_⟩
  obtain ⟨b₁, c₁, m₁, m₂', hr₁, hr₂, hag⟩ := h.run_local hm c
  obtain ⟨rfl, rfl, rfl⟩ : b₁ = b ∧ c₁ = c' ∧ m₁ = m' := by simpa [hr] using hr₁.symm
  obtain ⟨_, _, _, hr₃, -, hframe₂⟩ := (h.local hm).frame.run c
  obtain ⟨-, -, rfl⟩ : _ = b₁ ∧ _ = c₁ ∧ _ = m₂' := by simpa [hr₂] using hr₃.symm
  exact ⟨_, hr₂, hag, hframe₂⟩

/-- **Programs that are confined to different regions can be exchanged.** -/
theorem ConfinedTo.exchange {p₁ : Prog Op Ans β} {p₂ : Prog Op Ans γ} (h₁ : ConfinedTo S R p₁ m)
    (h₂ : ConfinedTo S R' p₂ m) (hdisj : ∀ l ∈ R, l ∉ R')
    (hext : ∀ m m' : σ, (∀ l, S.Agree m m' l) → m = m') : Exchange S p₁ p₂ m := by
  intro c₁ c₂
  obtain ⟨b₁, c₁', m₁, hr₁, hf₁, hl₁⟩ := h₁ c₁
  obtain ⟨b₂, c₂', m₂, hr₂, hf₂, hl₂⟩ := h₂ c₂
  obtain ⟨m₁₂, hr₁₂, ha₁₂, hf₁₂⟩ := hl₂ m₁ fun l hl => hf₁ l fun hl' => hdisj l hl' hl
  obtain ⟨m₂₁, hr₂₁, ha₂₁, hf₂₁⟩ := hl₁ m₂ fun l hl => hf₂ l (hdisj l hl)
  have heq : m₁₂ = m₂₁ := by
    refine hext _ _ fun l => ?_
    by_cases hl : l ∈ R
    · -- the second program has left what the first one has made
      exact S.agree_trans (S.agree_symm (hf₁₂ l (hdisj l hl))) (ha₂₁ l hl)
    by_cases hl' : l ∈ R'
    · exact S.agree_trans (S.agree_symm (ha₁₂ l hl')) (hf₂₁ l hl)
    · exact S.agree_trans (S.agree_symm (S.agree_trans (hf₁ l hl) (hf₁₂ l hl')))
        (S.agree_trans (hf₂ l hl') (hf₂₁ l hl))
  subst heq
  exact ⟨b₁, c₁', m₁, b₂, c₂', m₂, _, hr₁, hr₁₂, hr₂, hr₂₁⟩

end

end Ps4o.Program
