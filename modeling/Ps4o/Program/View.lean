import Mathlib.Data.Set.Image
import Ps4o.Program.Segment
import Ps4o.Program.Team

/-!
# Programs in a part of a larger memory

A view shows a part of a larger memory as a memory of its own: `S'` is the semantics of the larger
memory, `S` that of what is seen of it. A program for the smaller memory becomes one for the larger
memory, command by command; what is known about it carries over.

## What is proved

* `View.sat` — a program does in the larger memory what it does in what is seen of it.
* `View.cooperate`, `View.team` — so do programs that are safe together, and teams.
* `relocation` — the view of a memory in which every slot is somewhere else.
-/

namespace Ps4o.Program

variable {Op Op' : Type} {Ans : Op → Type} {Ans' : Op' → Type} {σ σ' Loc Loc' ι β γ : Type}

/-- How a part of the memory of `S'` is seen as a memory of `S`. -/
structure View (S : Semantics Op Ans σ Loc) (S' : Semantics Op' Ans' σ' Loc') where
  /-- What a command becomes. -/
  op : Op → Op'
  /-- What its answer means. -/
  answer : (o : Op) → Ans' (op o) → Ans o
  /-- What is seen. -/
  seen : σ' → σ
  /-- Where it is. -/
  place : Loc → Loc'
  foot_op (o : Op) : S'.foot (op o) ⊆ place '' S.foot o
  agree_seen {m m' : σ'} {l : Loc} : S.Agree (seen m) (seen m') l ↔ S'.Agree m m' (place l)
  exec_op {o : Op} {c : ℕ} {m : σ'} {a : Ans o} {m₁ : σ} : S.exec o c (seen m) = some (a, m₁) →
    ∃ a' m', S'.exec (op o) c m = some (a', m') ∧ answer o a' = a ∧ seen m' = m₁

namespace View

variable {S : Semantics Op Ans σ Loc} {S' : Semantics Op' Ans' σ' Loc'} (V : View S S')

/-- A program for the part that is seen, as one for the larger memory. -/
def prog : Prog Op Ans β → Prog Op' Ans' β
  | .ret b => .ret b
  | .cmd o k => .cmd (V.op o) fun a => prog (k (V.answer o a))
  | .halt w => .halt w

@[simp] theorem prog_ret (b : β) : V.prog (.ret b : Prog Op Ans β) = .ret b := rfl

/-- A team for the part that is seen, as one for the larger memory. -/
def team : Team Op Ans ι γ → Team Op' Ans' ι γ
  | .done c => .done c
  | .stage progs next => .stage (fun i => V.prog (progs i)) fun b => team (next b)

variable {R : Set Loc} {m m' : σ'}

/-- Where the larger memory is the same, what is seen is the same. -/
theorem agreeOn (h : S'.AgreeOn (V.place '' R) m m') : S.AgreeOn R (V.seen m) (V.seen m') :=
  fun l hl => V.agree_seen.mpr (h (V.place l) ⟨l, hl, rfl⟩)

/-- **A program does in the larger memory what it does in what is seen of it.** -/
theorem sat {p : Prog Op Ans β} {Q : β → σ → Prop} (h : Sat S R p (V.seen m) Q) :
    Sat S' (V.place '' R) (V.prog p) m fun b m' => Q b (V.seen m') := by
  induction p generalizing m with
  | ret b => exact h
  | cmd o k ih =>
    refine ⟨(V.foot_op o).trans (Set.image_mono h.1), fun c => ?_⟩
    obtain ⟨a, m₁, he, hs⟩ := h.2 c
    obtain ⟨a', m', he', rfl, rfl⟩ := V.exec_op he
    exact ⟨a', m', he', ih _ hs⟩
  | halt w => exact h

/-- A safe program is safe in the larger memory. -/
theorem safe {G : Op → σ → σ → Prop} {E : σ → σ → Prop} {p : Prog Op Ans β} {Q : β → σ → Prop}
    (h : Safe S G E p (V.seen m) Q) :
    Safe S' (fun o' m m' => S'.AgreeOn (S'.foot o')ᶜ m m' ∧
        ∃ o, V.op o = o' ∧ G o (V.seen m) (V.seen m')) (fun m m' => E (V.seen m) (V.seen m'))
      (V.prog p) m fun b m' => Q b (V.seen m') := by
  induction p generalizing m with
  | ret b => exact fun m' hm' => h _ hm'
  | cmd o k ih =>
    intro m₁ h₁ c
    obtain ⟨a, m₂, he, hg, hs⟩ := h _ h₁ c
    obtain ⟨a', m', he', rfl, rfl⟩ := V.exec_op he
    exact ⟨a', m', he', ⟨fun l hl => S'.exec_frame he' hl, o, rfl, hg⟩, ih _ hs⟩
  | halt w => exact h

/-- **Programs that are safe together are safe together in the larger memory.** -/
theorem cooperate {progs : ι → Prog Op Ans β} {Q : ι → β → σ → Prop}
    (h : Cooperate S R progs (V.seen m) Q) :
    Cooperate S' (V.place '' R) (fun i => V.prog (progs i)) m fun i b m' => Q i b (V.seen m') := by
  obtain ⟨G, E, hc, hG, hE, hs⟩ := h
  refine ⟨fun i o' m m' => S'.AgreeOn (S'.foot o')ᶜ m m' ∧
      ∃ o, V.op o = o' ∧ G i o (V.seen m) (V.seen m'), fun i m m' => E i (V.seen m) (V.seen m'),
    ⟨fun i m => hc.refl i _, fun i => hc.trans i, ?_⟩, ?_, fun i m m' hm => ?_,
    fun i => V.safe (hs i)⟩
  · rintro i j hij o' m m' ⟨-, o, rfl, hg⟩
    exact hc.others i j hij hg
  · rintro i o' m m' ⟨hm, o, rfl, hg⟩
    have hfoot := (V.foot_op o).trans (Set.image_mono (hG i o _ _ hg).1)
    exact ⟨hfoot, hm.subset (Set.compl_subset_compl.mpr hfoot)⟩
  · exact hE i _ _ (V.agreeOn hm)

/-- **A team does in the larger memory what it does in what is seen of it.** -/
theorem team_sat {t : Team Op Ans ι γ} {Q : γ → σ → Prop} (h : t.Sat S R (V.seen m) Q) :
    (V.team t).Sat S' (V.place '' R) m fun c m' => Q c (V.seen m') := by
  induction t generalizing m with
  | done c => exact fun m' hm' => h _ (V.agreeOn hm')
  | stage progs next ih =>
    obtain ⟨Q₁, hc, hn⟩ := h
    exact ⟨_, V.cooperate hc, fun b m' hb => ih b (hn b _ hb)⟩

end View

end Ps4o.Program

namespace Ps4o.Storage

open Ps4o.Program

variable {A A' α V : Type}

/-! ### Slots that are somewhere else -/

/-- A command on slots that are somewhere else. -/
def Cmd.relocate (f : Ptr A → Ptr A') : Cmd A α → Cmd A' α
  | .read p => .read (f p)
  | .move p => .move (f p)
  | .construct p a => .construct (f p) a
  | .assign p a => .assign (f p) a
  | .destroy p => .destroy (f p)
  | .swap p q => .swap (f p) (f q)
  | .load i => .load i
  | .store i b => .store i b
  | .draw hi => .draw hi

/-- It answers the same. -/
def Cmd.answer (f : Ptr A → Ptr A') : (o : Cmd A α) → (o.relocate f).Ans → o.Ans
  | .read _, a | .move _, a => a
  | .load _, b => b
  | .draw _, k => k
  | .construct _ _, _ | .assign _ _, _ | .destroy _, _ | .swap _ _, _ | .store _ _, _ => ()

/-- A location that is somewhere else. -/
def Loc.relocate (f : Ptr A → Ptr A') : Loc A → Loc A'
  | .elem p => .elem (f p)
  | .byte i => .byte i

/-- The memory in which what is at `f p` is at `p`. -/
def Mem.along (f : Ptr A → Ptr A') (m : Mem A' V) : Mem A V := ⟨fun p => m.slot (f p), m.byte⟩

@[simp] theorem Mem.along_slot (f : Ptr A → Ptr A') (m : Mem A' V) (p : Ptr A) :
    (m.along f).slot p = m.slot (f p) := rfl

@[simp] theorem Mem.along_byte (f : Ptr A → Ptr A') (m : Mem A' V) :
    (m.along f).byte = m.byte := rfl

variable [DecidableEq A] [DecidableEq A'] {f : Ptr A → Ptr A'}

theorem Mem.along_set (hf : Function.Injective f) (m : Mem A' V) (p : Ptr A) (v : V) :
    (m.set (f p) v).along f = (m.along f).set p v := by
  simp only [Mem.along, Mem.set, Mem.mk.injEq, and_true]
  funext q
  simp only [Function.update_apply, hf.eq_iff]

/-- **Every slot is somewhere else**, and no two slots in the same place. -/
def relocation (f : Ptr A → Ptr A') (hf : Function.Injective f) :
    View (copies A α) (copies A' α) where
  op := Cmd.relocate f
  answer := Cmd.answer f
  seen := Mem.along f
  place := Loc.relocate f
  foot_op o := by
    cases o <;> simp [copies, Cmd.foot, Cmd.relocate, Loc.relocate, Set.image_insert_eq]
  agree_seen {m m' l} := by cases l <;> rfl
  exec_op {o c m a m₁} h := by
    cases o with
    | read p | move p | destroy p | load i | draw hi =>
      obtain ⟨rfl, rfl⟩ := Prod.mk.inj (Option.some.inj h)
      exact ⟨_, m, rfl, rfl, rfl⟩
    | construct p x | assign p x =>
      obtain ⟨rfl, rfl⟩ := Prod.mk.inj (Option.some.inj h)
      exact ⟨(), m.set (f p) x, rfl, rfl, m.along_set hf p x⟩
    | swap p q =>
      obtain ⟨rfl, rfl⟩ := Prod.mk.inj (Option.some.inj h)
      refine ⟨(), (m.set (f p) (m.slot (f q))).set (f q) (m.slot (f p)), rfl, rfl, ?_⟩
      rw [Mem.along_set hf, Mem.along_set hf]
      rfl
    | store i b =>
      obtain ⟨rfl, rfl⟩ := Prod.mk.inj (Option.some.inj h)
      exact ⟨(), m.setByte i b, rfl, rfl, rfl⟩

omit [DecidableEq A] [DecidableEq A'] in
/-- What is in a segment that lies together somewhere else. -/
theorem has_along {m : Mem A' V} {p : Ptr A} {vs : List V}
    (hf : ∀ i < vs.length, f (p + i) = f p + i) : Has (m.along f) p vs ↔ Has m (f p) vs := by
  constructor <;>
  · intro h i v hv
    have hi := hf i (List.getElem?_eq_some_iff.mp hv).1
    have := h i v hv
    simpa only [Mem.along_slot, hi] using this

omit [DecidableEq A] [DecidableEq A'] in
/-- A segment that lies together somewhere else. -/
theorem relocate_seg {p : Ptr A} {n : ℕ} (hf : ∀ i < n, f (p + i) = f p + i) :
    Loc.relocate f '' seg p n = seg (f p) n := by
  ext l
  constructor
  · rintro ⟨l, ⟨i, hi, rfl⟩, rfl⟩
    exact ⟨i, hi, congrArg Loc.elem (hf i hi)⟩
  · rintro ⟨i, hi, rfl⟩
    exact ⟨_, ⟨i, hi, rfl⟩, congrArg Loc.elem (hf i hi)⟩

end Ps4o.Storage
