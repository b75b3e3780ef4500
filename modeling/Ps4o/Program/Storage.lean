import Ps4o.Program.Basic
import Mathlib.Data.List.Basic
import Mathlib.Data.Set.Insert
import Mathlib.Logic.Function.Basic

/-!
# Object storage

Arrays of slots in which objects live and die, and the commands that touch them:
constructing in place, moving out, assigning, destroying, reading, swapping; beside
them one array of bytes, and a command that draws a number.

Three semantics of the same commands:

* `slots false`, the strict one: a slot is raw, or holds an object, or an object that
  has been moved from. Construction needs a raw slot, assignment and destruction an
  object (`Slot.raw` is excluded), reading and moving an object not yet moved from.
* `slots true` differs in that assigning to a raw slot is allowed.
* `copies`, for objects that are only bits: moving is copying, destroying does nothing,
  and every slot always holds some value.

`sat_copies` carries a specification from the slots to the copies: a program that
respects the lifetimes does the same on bits.
-/

namespace Ps4o.Storage

open Ps4o.Program

/-- A position in one of the arrays `A`. -/
structure Ptr (A : Type) where
  /-- The array. -/
  arr : A
  /-- The index. -/
  off : ℕ
  deriving DecidableEq

instance {A : Type} : HAdd (Ptr A) ℕ (Ptr A) := ⟨fun p i => ⟨p.arr, p.off + i⟩⟩

section
variable {A : Type}

@[simp] theorem Ptr.add_arr (p : Ptr A) (i : ℕ) : (p + i).arr = p.arr := rfl

@[simp] theorem Ptr.add_off (p : Ptr A) (i : ℕ) : (p + i).off = p.off + i := rfl

@[simp] theorem Ptr.add_zero (p : Ptr A) : p + 0 = p := rfl

theorem Ptr.add_assoc (p : Ptr A) (i j : ℕ) : p + i + j = p + (i + j) := by
  simp only [HAdd.hAdd, Ptr.mk.injEq, true_and]
  exact Nat.add_assoc _ _ _

@[simp] theorem Ptr.add_inj (p : Ptr A) {i j : ℕ} : p + i = p + j ↔ i = j := by
  constructor
  · intro h
    have := congrArg Ptr.off h
    simpa using this
  · rintro rfl; rfl

end

/-- What a slot holds. -/
inductive Slot (α : Type) where
  /-- No object. -/
  | raw
  /-- An object that has been moved from. -/
  | moved
  /-- An object. -/
  | full (a : α)
  deriving DecidableEq

/-- The commands on arrays `A` of objects `α`. -/
inductive Cmd (A α : Type) where
  /-- `*p`, as a constant. -/
  | read (p : Ptr A)
  /-- `std::move(*p)`. -/
  | move (p : Ptr A)
  /-- `new (p) value_type(a)`. -/
  | construct (p : Ptr A) (a : α)
  /-- `*p = a`. -/
  | assign (p : Ptr A) (a : α)
  /-- `p->~value_type()`. -/
  | destroy (p : Ptr A)
  /-- `swap(*p, *q)`. -/
  | swap (p q : Ptr A)
  /-- Read a byte. -/
  | load (i : ℕ)
  /-- Write a byte. -/
  | store (i : ℕ) (b : UInt8)
  /-- Draw a number between `0` and `hi`. -/
  | draw (hi : ℕ)

/-- What a command answers. -/
abbrev Cmd.Ans {A α : Type} : Cmd A α → Type
  | .read _ | .move _ => α
  | .load _ => UInt8
  | .draw _ => ℕ
  | _ => Unit

/-- The memory: a `V` in every slot, and the bytes. -/
structure Mem (A V : Type) where
  /-- The slots. -/
  slot : Ptr A → V
  /-- The bytes. -/
  byte : ℕ → UInt8

/-- The locations. -/
inductive Loc (A : Type) where
  /-- A slot. -/
  | elem (p : Ptr A)
  /-- A byte. -/
  | byte (i : ℕ)

variable {A α V : Type}

/-- The locations a command touches. -/
def Cmd.foot : Cmd A α → Set (Loc A)
  | .read p | .move p | .construct p _ | .assign p _ | .destroy p => {.elem p}
  | .swap p q => {.elem p, .elem q}
  | .load i | .store i _ => {.byte i}
  | .draw _ => ∅

/-- Whether a command changes what is in a slot. -/
def Cmd.writes [DecidableEq A] : Cmd A α → Ptr A → Bool
  | .move p, q | .construct p _, q | .assign p _, q | .destroy p, q => q = p
  | .swap p p', q => q = p || q = p'
  | _, _ => false

theorem Cmd.mem_foot_of_writes [DecidableEq A] {o : Cmd A α} {q : Ptr A} (h : o.writes q = true) :
    .elem q ∈ o.foot := by
  cases o <;> simp_all [Cmd.writes, Cmd.foot]

namespace Mem

/-- Two memories hold the same at a location. -/
def Agree (m m' : Mem A V) : Loc A → Prop
  | .elem p => m.slot p = m'.slot p
  | .byte i => m.byte i = m'.byte i

@[simp] theorem agree_elem {m m' : Mem A V} {p : Ptr A} :
    m.Agree m' (.elem p) ↔ m.slot p = m'.slot p := Iff.rfl

@[simp] theorem agree_byte {m m' : Mem A V} {i : ℕ} :
    m.Agree m' (.byte i) ↔ m.byte i = m'.byte i := Iff.rfl

/-- Write a byte. -/
def setByte (m : Mem A V) (i : ℕ) (b : UInt8) : Mem A V :=
  { m with byte := Function.update m.byte i b }

@[simp] theorem setByte_slot (m : Mem A V) (i : ℕ) (b : UInt8) :
    (m.setByte i b).slot = m.slot := rfl

@[simp] theorem setByte_byte (m : Mem A V) (i : ℕ) (b : UInt8) :
    (m.setByte i b).byte = Function.update m.byte i b := rfl

variable [DecidableEq A]

/-- Write a slot. -/
def set (m : Mem A V) (p : Ptr A) (v : V) : Mem A V := { m with slot := Function.update m.slot p v }

@[simp] theorem set_slot (m : Mem A V) (p : Ptr A) (v : V) :
    (m.set p v).slot = Function.update m.slot p v := rfl

@[simp] theorem set_byte (m : Mem A V) (p : Ptr A) (v : V) : (m.set p v).byte = m.byte := rfl

end Mem

section
variable [DecidableEq A]

/-- What a command does to slots; `lax` allows assigning to a raw slot. -/
def slotExec (lax : Bool) : (o : Cmd A α) → ℕ → Mem A (Slot α) → Option (o.Ans × Mem A (Slot α))
  | .read p, _, m =>
    match m.slot p with
    | .full a => some (a, m)
    | _ => none
  | .move p, _, m =>
    match m.slot p with
    | .full a => some (a, m.set p .moved)
    | _ => none
  | .construct p a, _, m =>
    match m.slot p with
    | .raw => some ((), m.set p (.full a))
    | _ => none
  | .assign p a, _, m =>
    match m.slot p, lax with
    | .raw, false => none
    | _, _ => some ((), m.set p (.full a))
  | .destroy p, _, m =>
    match m.slot p with
    | .raw => none
    | _ => some ((), m.set p .raw)
  | .swap p q, _, m =>
    match m.slot p, m.slot q with
    | .full a, .full b => some ((), (m.set p (.full b)).set q (.full a))
    | _, _ => none
  | .load i, _, m => some (m.byte i, m)
  | .store i b, _, m => some ((), m.setByte i b)
  | .draw hi, c, m => some (c % (hi + 1), m)

/-- What a command does to bits. -/
def copyExec : (o : Cmd A α) → ℕ → Mem A α → Option (o.Ans × Mem A α)
  | .read p, _, m | .move p, _, m => some (m.slot p, m)
  | .construct p a, _, m | .assign p a, _, m => some ((), m.set p a)
  | .destroy _, _, m => some ((), m)
  | .swap p q, _, m => some ((), (m.set p (m.slot q)).set q (m.slot p))
  | .load i, _, m => some (m.byte i, m)
  | .store i b, _, m => some ((), m.setByte i b)
  | .draw hi, c, m => some (c % (hi + 1), m)

theorem slotExec_frame {lax : Bool} {o : Cmd A α} {c : ℕ} {m : Mem A (Slot α)}
    {r : o.Ans × Mem A (Slot α)} {l : Loc A} (h : slotExec lax o c m = some r) (hl : l ∉ o.foot) :
    m.Agree r.2 l := by
  cases o <;> simp only [slotExec] at h <;> (try split at h) <;> cases h <;> cases l <;>
    simp_all [Cmd.foot, Function.update_of_ne]

theorem copyExec_frame {o : Cmd A α} {c : ℕ} {m : Mem A α} {r : o.Ans × Mem A α} {l : Loc A}
    (h : copyExec o c m = some r) (hl : l ∉ o.foot) : m.Agree r.2 l := by
  cases o <;> simp only [copyExec] at h <;> cases h <;> cases l <;>
    simp_all [Cmd.foot, Function.update_of_ne]

theorem slotExec_local {lax : Bool} {o : Cmd A α} {c : ℕ} {m m₂ : Mem A (Slot α)}
    {r : o.Ans × Mem A (Slot α)} (h : slotExec lax o c m = some r)
    (hm : ∀ l ∈ o.foot, m.Agree m₂ l) :
    ∃ m₂', slotExec lax o c m₂ = some (r.1, m₂') ∧ ∀ l ∈ o.foot, r.2.Agree m₂' l := by
  cases o with
  | swap p q =>
    simp only [Cmd.foot, Set.mem_insert_iff, Set.mem_singleton_iff, forall_eq_or_imp, forall_eq,
      Mem.agree_elem] at hm
    simp only [slotExec] at h ⊢
    rw [← hm.1, ← hm.2]
    split at h <;> cases h
    refine ⟨_, rfl, ?_⟩
    simp [Cmd.foot, Function.update_apply]
  | _ =>
    simp only [Cmd.foot, Set.mem_singleton_iff, forall_eq, Mem.agree_elem, Mem.agree_byte] at hm
    simp only [slotExec] at h ⊢
    try rw [← hm]
    try split at h
    all_goals cases h
    all_goals refine ⟨_, rfl, ?_⟩
    all_goals simp [Cmd.foot, hm]

theorem copyExec_local {o : Cmd A α} {c : ℕ} {m m₂ : Mem A α} {r : o.Ans × Mem A α}
    (h : copyExec o c m = some r) (hm : ∀ l ∈ o.foot, m.Agree m₂ l) :
    ∃ m₂', copyExec o c m₂ = some (r.1, m₂') ∧ ∀ l ∈ o.foot, r.2.Agree m₂' l := by
  cases o with
  | swap p q =>
    simp only [Cmd.foot, Set.mem_insert_iff, Set.mem_singleton_iff, forall_eq_or_imp, forall_eq,
      Mem.agree_elem] at hm
    simp only [copyExec] at h ⊢
    rw [← hm.1, ← hm.2]
    cases h
    refine ⟨_, rfl, ?_⟩
    simp [Cmd.foot, Function.update_apply]
  | _ =>
    simp only [Cmd.foot, Set.mem_singleton_iff, forall_eq, Mem.agree_elem, Mem.agree_byte] at hm
    simp only [copyExec] at h ⊢
    try rw [← hm]
    cases h
    refine ⟨_, rfl, ?_⟩
    simp [Cmd.foot, hm]

/-- Objects in slots; `lax` allows assigning to a raw slot. -/
def slots (A α : Type) [DecidableEq A] (lax : Bool) :
    Semantics (Cmd A α) Cmd.Ans (Mem A (Slot α)) (Loc A) where
  exec := slotExec lax
  foot := Cmd.foot
  Agree := Mem.Agree
  agree_refl m l := by cases l <;> rfl
  agree_symm {m m' l} h := by cases l <;> exact h.symm
  agree_trans {m₁ m₂ m₃ l} h h' := by cases l <;> exact h.trans h'
  exec_frame := slotExec_frame
  exec_local := slotExec_local

/-- Objects that are only bits. -/
def copies (A α : Type) [DecidableEq A] : Semantics (Cmd A α) Cmd.Ans (Mem A α) (Loc A) where
  exec := copyExec
  foot := Cmd.foot
  Agree := Mem.Agree
  agree_refl m l := by cases l <;> rfl
  agree_symm {m m' l} h := by cases l <;> exact h.symm
  agree_trans {m₁ m₂ m₃ l} h h' := by cases l <;> exact h.trans h'
  exec_frame := copyExec_frame
  exec_local := copyExec_local

theorem slotExec_of_not_writes {lax : Bool} {o : Cmd A α} {c : ℕ} {m : Mem A (Slot α)}
    {r : o.Ans × Mem A (Slot α)} {q : Ptr A} (h : slotExec lax o c m = some r)
    (hq : o.writes q = false) : r.2.slot q = m.slot q := by
  cases o <;> simp only [slotExec] at h <;> (try split at h) <;> cases h <;>
    simp_all [Cmd.writes]

/-! ### Bits stand for objects -/

/-- The bits hold the value of every object not moved from. -/
def Rep (m : Mem A (Slot α)) (m' : Mem A α) : Prop :=
  (∀ p a, m.slot p = .full a → m'.slot p = a) ∧ m.byte = m'.byte

theorem Rep.set {m : Mem A (Slot α)} {m₂ : Mem A α} (h : Rep m m₂) (p : Ptr A) (a : α) :
    Rep (m.set p (.full a)) (m₂.set p a) := by
  refine ⟨fun q b hb => ?_, h.2⟩
  simp only [Mem.set_slot, Function.update_apply] at hb ⊢
  split_ifs at hb ⊢
  · cases hb; rfl
  · exact h.1 q b hb

theorem Rep.empty {m : Mem A (Slot α)} {m₂ : Mem A α} (h : Rep m m₂) (p : Ptr A) {v : Slot α}
    (hv : ∀ a, v ≠ .full a) : Rep (m.set p v) m₂ := by
  refine ⟨fun q b hb => ?_, h.2⟩
  simp only [Mem.set_slot, Function.update_apply] at hb
  split_ifs at hb
  · exact absurd hb (hv b)
  · exact h.1 q b hb

/-- A command on slots does the same on bits. -/
theorem rep_exec {lax : Bool} {o : Cmd A α} {c : ℕ} {m : Mem A (Slot α)} {m₂ : Mem A α}
    {r : o.Ans × Mem A (Slot α)} (h : slotExec lax o c m = some r) (hr : Rep m m₂) :
    ∃ m₂', copyExec o c m₂ = some (r.1, m₂') ∧ Rep r.2 m₂' := by
  cases o with
  | read p =>
    simp only [slotExec] at h
    split at h <;> cases h
    next a ha => exact ⟨m₂, by rw [copyExec, hr.1 p a ha], hr⟩
  | move p =>
    simp only [slotExec] at h
    split at h <;> cases h
    next a ha => exact ⟨m₂, by rw [copyExec, hr.1 p a ha], hr.empty p (by simp)⟩
  | construct p a =>
    simp only [slotExec] at h
    split at h <;> cases h
    exact ⟨_, rfl, hr.set p a⟩
  | assign p a =>
    simp only [slotExec] at h
    split at h <;> cases h
    exact ⟨_, rfl, hr.set p a⟩
  | destroy p =>
    simp only [slotExec] at h
    split at h <;> cases h
    exact ⟨m₂, rfl, hr.empty p (by simp)⟩
  | swap p q =>
    simp only [slotExec] at h
    split at h <;> cases h
    next a b ha hb => exact ⟨_, by rw [copyExec, hr.1 p a ha, hr.1 q b hb], (hr.set p b).set q a⟩
  | load i =>
    cases h
    exact ⟨m₂, by rw [copyExec, hr.2], hr⟩
  | store i b =>
    cases h
    exact ⟨_, rfl, hr.1, by simp [hr.2]⟩
  | draw hi =>
    cases h
    exact ⟨m₂, rfl, hr⟩

/-- **A program that respects the lifetimes does the same on bits.** -/
theorem sat_copies {β : Type} {lax : Bool} {R : Set (Loc A)} {p : Prog (Cmd A α) Cmd.Ans β}
    {m : Mem A (Slot α)} {m₂ : Mem A α} {Q : β → Mem A (Slot α) → Prop}
    (h : Sat (slots A α lax) R p m Q) (hr : Rep m m₂) :
    Sat (copies A α) R p m₂ fun b m₂' => ∃ m', Q b m' ∧ Rep m' m₂' := by
  induction p generalizing m m₂ with
  | ret b => exact ⟨m, h, hr⟩
  | cmd o k ih =>
    refine ⟨h.1, fun c => ?_⟩
    obtain ⟨a, m', he, hs⟩ := h.2 c
    obtain ⟨m₂', he₂, hr'⟩ := rep_exec he hr
    exact ⟨a, m₂', he₂, ih a hs hr'⟩
  | halt w => exact h

/-- **What several programs have made of objects**, each of them in a region of its own, is one
memory that the bits stand for. -/
theorem exists_rep {ι : Type} {Rs : ι → Set (Loc A)} {m₁ : ι → Mem A (Slot α)}
    {m₂ : ι → Mem A α} {m' : Mem A α} (hdisj : ∀ i j, i ≠ j → ∀ l ∈ Rs i, l ∉ Rs j)
    (hrep : ∀ i, Rep (m₁ i) (m₂ i)) (hm : ∀ i, (copies A α).AgreeOn (Rs i) (m₂ i) m') :
    ∃ m : Mem A (Slot α), Rep m m' ∧ ∀ i q, .elem q ∈ Rs i → m.slot q = (m₁ i).slot q := by
  classical
  let slot (q : Ptr A) : Slot α := if h : ∃ i, .elem q ∈ Rs i then (m₁ h.choose).slot q else .raw
  have hslot : ∀ i q, .elem q ∈ Rs i → slot q = (m₁ i).slot q := by
    intro i q hq
    have hex : ∃ i, .elem q ∈ Rs i := ⟨i, hq⟩
    have heq : hex.choose = i := by
      by_contra hne
      exact hdisj _ _ hne _ hex.choose_spec hq
    simp only [slot, dif_pos hex, heq]
  refine ⟨⟨slot, m'.byte⟩, ⟨fun q a hq => ?_, rfl⟩, hslot⟩
  by_cases hex : ∃ i, .elem q ∈ Rs i
  · obtain ⟨i, hi⟩ := hex
    have hfull : (m₁ i).slot q = .full a := (hslot i q hi).symm.trans hq
    exact (hm i _ hi).symm.trans ((hrep i).1 q a hfull)
  · simp [slot, dif_neg hex] at hq

end

end Ps4o.Storage
