import Ps4o.Program.Basic

/-!
# Sessions

A program that carries out one operation after the other, on something that stands for a value. What
an operation makes of the value is a relation; so what a session makes of it is one, too.

## What is proved

* `sat_session` — **when every operation does what it is to do, so does every session**, and what
  stands for the value does so at its end.
* `Session.preserves` — what all operations preserve of the value, sessions preserve.
-/

namespace Ps4o.Program

variable {U X : Type} {Step : U → X → X → Prop}

/-- What a sequence of operations makes of a value, when `Step` says what one of them does. -/
inductive Session (Step : U → X → X → Prop) : List U → X → X → Prop where
  /-- No operation. -/
  | nil (x : X) : Session Step [] x x
  /-- Some operations, and one more. -/
  | snoc {us : List U} {u : U} {x y z : X} : Session Step us x y → Step u y z →
    Session Step (us ++ [u]) x z

/-- Between values that all operations relate. -/
theorem Session.preserves {us : List U} {x y : X} (h : Session Step us x y) {P : X → X → Prop}
    (hrefl : ∀ x, P x x) (hstep : ∀ u ∈ us, ∀ x y z, P x y → Step u y z → P x z) : P x y := by
  induction h with
  | nil x => exact hrefl x
  | @snoc us u x y z _ hu ih =>
    refine hstep u (by simp) x y z (ih fun u hu => hstep u ?_) hu
    exact List.mem_append_left _ hu

variable {Op : Type} {Ans : Op → Type} {σ Loc β : Type} {S : Semantics Op Ans σ Loc} {R : Set Loc}
  {m : σ} {act : β → U → Prog Op Ans β}

/-- **Every session** does what its operations do, one after the other; `Abs` says how `b` and the
memory stand for a value. -/
theorem sat_session (Abs : β → σ → X → Prop) {us : List U} {b : β} {x : X}
    (hact : ∀ u ∈ us, ∀ b m x, Abs b m x →
      Sat S R (act b u) m fun b' m' => ∃ y, Step u x y ∧ Abs b' m' y)
    (h : Abs b m x) : Sat S R (us.foldlM act b) m fun b' m' =>
      ∃ y, Session Step us x y ∧ Abs b' m' y := by
  refine sat_foldlM (fun us b m => ∃ y, Session Step us x y ∧ Abs b m y) ⟨x, .nil x, h⟩ ?_
  rintro pre u suf rfl b m ⟨y, hy, habs⟩
  refine (hact u (by simp) b m y habs).imp ?_
  rintro b' m' ⟨z, hu, habs'⟩
  exact ⟨z, hy.snoc hu, habs'⟩

end Ps4o.Program
