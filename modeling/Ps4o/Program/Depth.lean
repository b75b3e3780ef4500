import Ps4o.Program.Basic

/-!
# Depth of recursion

A program whose recursion may only be so deep is compared with one that may go deeper.

## What is proved

* `Extends p q` says that `q` does what `p` does, and goes on where `p` stops because it is too
  deep; it is a congruence (`Extends.bind`, `Extends.loop`).
* `Extends.run` — a run to the result stays one when it may be deeper.
-/

namespace Ps4o.Program.Prog

variable {Op : Type} {Ans : Op → Type} {σ Loc β γ : Type}

/-- `q` does what `p` does, as far as `p` goes. -/
def Extends : Prog Op Ans β → Prog Op Ans β → Prop
  | .ret b, q => q = .ret b
  | .cmd o k, q => ∃ k', q = .cmd o k' ∧ ∀ a, Extends (k a) (k' a)
  | .halt .undefined, q => q = .halt .undefined
  | .halt .fuel, _ => True

theorem Extends.refl (p : Prog Op Ans β) : p.Extends p := by
  induction p with
  | ret b => rfl
  | cmd o k ih => exact ⟨k, rfl, ih⟩
  | halt w =>
    cases w with
    | undefined => rfl
    | fuel => trivial

theorem Extends.bind {p q : Prog Op Ans β} {f g : β → Prog Op Ans γ} (h : p.Extends q)
    (hfg : ∀ b, (f b).Extends (g b)) : (p >>= f).Extends (q >>= g) := by
  induction p generalizing q with
  | ret b =>
    obtain rfl : q = .ret b := h
    exact hfg b
  | cmd o k ih =>
    obtain ⟨k', rfl, hk⟩ := h
    exact ⟨_, rfl, fun a => ih a (hk a)⟩
  | halt w =>
    cases w with
    | undefined =>
      obtain rfl : q = .halt .undefined := h
      rfl
    | fuel => trivial

theorem Extends.loop {body body' : ℕ → β → Prog Op Ans β}
    (h : ∀ i b, (body i b).Extends (body' i b)) (n : ℕ) (b : β) :
    (Prog.loop body n b).Extends (Prog.loop body' n b) := by
  induction n with
  | zero => rfl
  | succ n ih => exact ih.bind (h n)

/-- **A run to the result stays one when it may be deeper.** -/
theorem Extends.run {S : Semantics Op Ans σ Loc} {p q : Prog Op Ans β} (h : p.Extends q) {c : ℕ → ℕ}
    {m : σ} {r : β × (ℕ → ℕ) × σ} (hr : Program.run S p c m = .ok r) :
    Program.run S q c m = .ok r := by
  induction p generalizing q c m with
  | ret b =>
    obtain rfl : q = .ret b := h
    exact hr
  | cmd o k ih =>
    obtain ⟨k', rfl, hk⟩ := h
    simp only [Program.run] at hr ⊢
    cases he : S.exec o (c 0) m with
    | none =>
      rw [he] at hr
      cases hr
    | some a =>
      rw [he] at hr
      exact ih a.1 (hk a.1) hr
  | halt w => cases hr

/-- What a run of two programs, one after the other, consists of. -/
theorem run_bind_eq_ok {S : Semantics Op Ans σ Loc} {p : Prog Op Ans β} {f : β → Prog Op Ans γ}
    {c : ℕ → ℕ} {m : σ} {r : γ × (ℕ → ℕ) × σ} (hr : Program.run S (p >>= f) c m = .ok r) :
    ∃ b c' m', Program.run S p c m = .ok (b, c', m') ∧ Program.run S (f b) c' m' = .ok r := by
  rw [run_bind] at hr
  cases hp : Program.run S p c m with
  | error w =>
    rw [hp] at hr
    cases hr
  | ok x =>
    rw [hp] at hr
    exact ⟨x.1, x.2.1, x.2.2, rfl, hr⟩

/-- A run of a loop begins with runs of the first rounds. -/
theorem run_loop_prefix {S : Semantics Op Ans σ Loc} {body : ℕ → β → Prog Op Ans β} {n i : ℕ}
    {b : β} {c : ℕ → ℕ} {m : σ} {r : β × (ℕ → ℕ) × σ}
    (hr : Program.run S (Prog.loop body n b) c m = .ok r) (hi : i ≤ n) :
    ∃ r', Program.run S (Prog.loop body i b) c m = .ok r' := by
  induction n generalizing r with
  | zero =>
    obtain rfl : i = 0 := by omega
    exact ⟨r, hr⟩
  | succ n ih =>
    rcases Nat.eq_or_lt_of_le hi with rfl | hlt
    · exact ⟨r, hr⟩
    · obtain ⟨b', c', m', hr', -⟩ := run_bind_eq_ok hr
      exact ih hr' (by omega)

end Ps4o.Program.Prog
