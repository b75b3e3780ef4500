import Ps4o.Program.Storage

/-!
# Segments of storage

The commands of `Ps4o.Program.Storage` as programs, the rule of `Sat` for each of
them, and segments: `Has m p vs` says that the slots from `p` on hold `vs`, and
`seg p n` is the region of `n` slots from `p` on.
-/

namespace Ps4o.Storage

open Ps4o.Program

/-- A program on the storage. -/
abbrev Act (A α β : Type) := Prog (Cmd A α) Cmd.Ans β

variable {A α V β : Type}

section

/-- `*p`, as a constant. -/
def readAt (p : Ptr A) : Act A α α := Prog.lift (Cmd.read p)

/-- `std::move(*p)`. -/
def moveFrom (p : Ptr A) : Act A α α := Prog.lift (Cmd.move p)

/-- `new (p) value_type(a)`. -/
def constructAt (p : Ptr A) (a : α) : Act A α Unit := Prog.lift (Cmd.construct p a)

/-- `*p = a`. -/
def assignTo (p : Ptr A) (a : α) : Act A α Unit := Prog.lift (Cmd.assign p a)

/-- `p->~value_type()`. -/
def destroyAt (p : Ptr A) : Act A α Unit := Prog.lift (Cmd.destroy p)

/-- `swap(*p, *q)`. -/
def swapAt (p q : Ptr A) : Act A α Unit := Prog.lift (Cmd.swap p q)

/-- Read a byte. -/
def loadByte (i : ℕ) : Act A α UInt8 := Prog.lift (Cmd.load i)

/-- Write a byte. -/
def storeByte (i : ℕ) (b : UInt8) : Act A α Unit := Prog.lift (Cmd.store i b)

/-- Draw a number between `0` and `hi`. -/
def draw (hi : ℕ) : Act A α ℕ := Prog.lift (Cmd.draw hi)

/-- What is undefined. -/
def undefined : Act A α β := .halt .undefined

end

section
variable [DecidableEq A] {lax : Bool} {R : Set (Loc A)} {m : Mem A (Slot α)} {p q : Ptr A}

theorem sat_readAt {a : α} {Q : α → Mem A (Slot α) → Prop} (hR : .elem p ∈ R)
    (hp : m.slot p = .full a) (hQ : Q a m) : Sat (slots A α lax) R (readAt p) m Q :=
  ⟨by simpa [slots, Cmd.foot] using hR, fun _ => ⟨a, m, by simp [slots, slotExec, hp], hQ⟩⟩

theorem sat_moveFrom {a : α} {Q : α → Mem A (Slot α) → Prop} (hR : .elem p ∈ R)
    (hp : m.slot p = .full a) (hQ : Q a (m.set p .moved)) :
    Sat (slots A α lax) R (moveFrom p) m Q :=
  ⟨by simpa [slots, Cmd.foot] using hR,
    fun _ => ⟨a, m.set p .moved, by simp [slots, slotExec, hp], hQ⟩⟩

theorem sat_constructAt {a : α} {Q : Unit → Mem A (Slot α) → Prop} (hR : .elem p ∈ R)
    (hp : m.slot p = .raw) (hQ : Q () (m.set p (.full a))) :
    Sat (slots A α lax) R (constructAt p a) m Q :=
  ⟨by simpa [slots, Cmd.foot] using hR,
    fun _ => ⟨(), m.set p (.full a), by simp [slots, slotExec, hp], hQ⟩⟩

theorem sat_assignTo {a : α} {Q : Unit → Mem A (Slot α) → Prop} (hR : .elem p ∈ R)
    (hp : m.slot p = .raw → lax = true) (hQ : Q () (m.set p (.full a))) :
    Sat (slots A α lax) R (assignTo p a) m Q := by
  refine ⟨by simpa [slots, Cmd.foot] using hR, fun _ => ⟨(), m.set p (.full a), ?_, hQ⟩⟩
  simp only [slots, slotExec]
  split
  · next h => exact absurd (hp h) (by simp)
  · rfl

theorem sat_destroyAt {Q : Unit → Mem A (Slot α) → Prop} (hR : .elem p ∈ R) (hp : m.slot p ≠ .raw)
    (hQ : Q () (m.set p .raw)) : Sat (slots A α lax) R (destroyAt p) m Q := by
  refine ⟨by simpa [slots, Cmd.foot] using hR, fun _ => ⟨(), m.set p .raw, ?_, hQ⟩⟩
  cases hs : m.slot p <;> simp_all [slots, slotExec]

theorem sat_swapAt {a b : α} {Q : Unit → Mem A (Slot α) → Prop} (hR : .elem p ∈ R)
    (hR' : .elem q ∈ R) (hp : m.slot p = .full a) (hq : m.slot q = .full b)
    (hQ : Q () ((m.set p (.full b)).set q (.full a))) : Sat (slots A α lax) R (swapAt p q) m Q :=
  ⟨by simp [slots, Cmd.foot, Set.insert_subset_iff, hR, hR'],
    fun _ => ⟨(), _, by simp [slots, slotExec, hp, hq], hQ⟩⟩

theorem sat_loadByte {i : ℕ} {Q : UInt8 → Mem A (Slot α) → Prop} (hR : .byte i ∈ R)
    (hQ : Q (m.byte i) m) : Sat (slots A α lax) R (loadByte i) m Q :=
  ⟨by simpa [slots, Cmd.foot] using hR, fun _ => ⟨m.byte i, m, rfl, hQ⟩⟩

theorem sat_storeByte {i : ℕ} {b : UInt8} {Q : Unit → Mem A (Slot α) → Prop} (hR : .byte i ∈ R)
    (hQ : Q () (m.setByte i b)) : Sat (slots A α lax) R (storeByte i b) m Q :=
  ⟨by simpa [slots, Cmd.foot] using hR, fun _ => ⟨(), m.setByte i b, rfl, hQ⟩⟩

theorem sat_draw {hi : ℕ} {Q : ℕ → Mem A (Slot α) → Prop} (hQ : ∀ i ≤ hi, Q i m) :
    Sat (slots A α lax) R (draw hi) m Q :=
  ⟨by simp [slots, Cmd.foot], fun c => ⟨c % (hi + 1), m, rfl,
    hQ _ (Nat.le_of_lt_succ (Nat.mod_lt _ hi.succ_pos))⟩⟩

end

/-! ### Commands on bits -/

section
variable [DecidableEq A] {R : Set (Loc A)} {m : Mem A α} {p : Ptr A}

theorem sat_moveFrom_bits {Q : α → Mem A α → Prop} (hR : .elem p ∈ R) (hQ : Q (m.slot p) m) :
    Sat (copies A α) R (moveFrom p) m Q :=
  ⟨by simpa [copies, Cmd.foot] using hR, fun _ => ⟨m.slot p, m, rfl, hQ⟩⟩

theorem sat_assignTo_bits {a : α} {Q : Unit → Mem A α → Prop} (hR : .elem p ∈ R)
    (hQ : Q () (m.set p a)) : Sat (copies A α) R (assignTo p a) m Q :=
  ⟨by simpa [copies, Cmd.foot] using hR, fun _ => ⟨(), m.set p a, rfl, hQ⟩⟩

theorem sat_constructAt_bits {a : α} {Q : Unit → Mem A α → Prop} (hR : .elem p ∈ R)
    (hQ : Q () (m.set p a)) : Sat (copies A α) R (constructAt p a) m Q :=
  ⟨by simpa [copies, Cmd.foot] using hR, fun _ => ⟨(), m.set p a, rfl, hQ⟩⟩

theorem sat_destroyAt_bits {Q : Unit → Mem A α → Prop} (hR : .elem p ∈ R) (hQ : Q () m) :
    Sat (copies A α) R (destroyAt p) m Q :=
  ⟨by simpa [copies, Cmd.foot] using hR, fun _ => ⟨(), m, rfl, hQ⟩⟩

end

/-! ### Segments -/

/-- The `n` slots from `p` on. -/
def seg (p : Ptr A) (n : ℕ) : Set (Loc A) := {l | ∃ i < n, l = .elem (p + i)}

/-- The `n` bytes from `i` on. -/
def byteSeg (i n : ℕ) : Set (Loc A) := {l | ∃ j < n, l = .byte (i + j)}

theorem elem_mem_seg {p q : Ptr A} {n : ℕ} :
    .elem q ∈ seg p n ↔ q.arr = p.arr ∧ p.off ≤ q.off ∧ q.off < p.off + n := by
  constructor
  · rintro ⟨i, hi, h⟩
    cases h
    simp [hi]
  · rintro ⟨ha, hle, hlt⟩
    refine ⟨q.off - p.off, by omega, congrArg Loc.elem ?_⟩
    cases q; cases p
    simp only at ha hle
    subst ha
    simp only [HAdd.hAdd, Ptr.mk.injEq, true_and]
    exact (Nat.add_sub_of_le hle).symm

@[simp] theorem elem_add_mem_seg {p : Ptr A} {i n : ℕ} : .elem (p + i) ∈ seg p n ↔ i < n := by
  simp [elem_mem_seg]

@[simp] theorem elem_mem_seg_self {p : Ptr A} {n : ℕ} : .elem p ∈ seg p n ↔ 0 < n := by
  simp [elem_mem_seg]

@[simp] theorem byte_notMem_seg {p : Ptr A} {i n : ℕ} : .byte i ∉ seg p n := by
  rintro ⟨_, _, h⟩; cases h

@[simp] theorem elem_notMem_byteSeg {p : Ptr A} {i n : ℕ} :
    .elem p ∉ (byteSeg i n : Set (Loc A)) := by
  rintro ⟨_, _, h⟩; cases h

@[simp] theorem byte_mem_byteSeg {i j n : ℕ} :
    .byte j ∈ (byteSeg i n : Set (Loc A)) ↔ i ≤ j ∧ j < i + n := by
  constructor
  · rintro ⟨k, hk, h⟩
    cases h
    omega
  · rintro ⟨h₁, h₂⟩
    exact ⟨j - i, by omega, congrArg Loc.byte (by omega)⟩

theorem seg_subset {p : Ptr A} {i k n : ℕ} (h : i + k ≤ n) : seg (p + i) k ⊆ seg p n := by
  rintro l ⟨j, hj, rfl⟩
  rw [Ptr.add_assoc]
  exact ⟨i + j, by omega, rfl⟩

/-- A part of a segment. -/
theorem seg_subset_add {p : Ptr A} {x y k n : ℕ} (h₁ : y ≤ x) (h₂ : x - y + k ≤ n) :
    seg (p + x) k ⊆ seg (p + y) n := by
  have := seg_subset (p := p + y) h₂
  rwa [Ptr.add_assoc, Nat.add_sub_of_le h₁] at this

theorem byteSeg_subset {i j k n : ℕ} (h : j + k ≤ n) :
    (byteSeg (i + j) k : Set (Loc A)) ⊆ byteSeg i n := by
  rintro l ⟨u, hu, rfl⟩
  rw [Nat.add_assoc]
  exact ⟨j + u, by omega, rfl⟩

/-- The slots from `p` on hold `vs`. -/
def Has (m : Mem A V) (p : Ptr A) (vs : List V) : Prop :=
  ∀ (i : ℕ) (v : V), vs[i]? = some v → m.slot (p + i) = v

section
variable {m m' : Mem A V} {p q : Ptr A} {vs ws : List V}

@[simp] theorem has_nil : Has m p [] := fun i v h => by simp at h

theorem has_append : Has m p (vs ++ ws) ↔ Has m p vs ∧ Has m (p + vs.length) ws := by
  constructor
  · refine fun h => ⟨fun i v hv => h i v ?_, fun i v hv => ?_⟩
    · rw [List.getElem?_append_left (List.getElem?_eq_some_iff.mp hv).1, hv]
    · rw [Ptr.add_assoc]
      exact h _ v (by rw [List.getElem?_append_right (by omega), Nat.add_sub_cancel_left, hv])
  · rintro ⟨h₁, h₂⟩ i v hv
    by_cases hi : i < vs.length
    · exact h₁ i v (by rwa [List.getElem?_append_left hi] at hv)
    · rw [List.getElem?_append_right (Nat.le_of_not_lt hi)] at hv
      have := h₂ _ v hv
      rwa [Ptr.add_assoc, Nat.add_sub_of_le (Nat.le_of_not_lt hi)] at this

theorem has_cons {v : V} : Has m p (v :: vs) ↔ m.slot p = v ∧ Has m (p + 1) vs := by
  rw [← List.singleton_append, has_append]
  refine and_congr_left fun _ => ⟨fun h => h 0 v rfl, fun h i w hw => ?_⟩
  cases i with
  | zero =>
    cases hw
    exact h
  | succ i => simp at hw

/-- Equal memories on the segment. -/
theorem Has.of_eq (h : Has m p vs) (he : ∀ i < vs.length, m.slot (p + i) = m'.slot (p + i)) :
    Has m' p vs := by
  intro i v hv
  rw [← he i (List.getElem?_eq_some_iff.mp hv).1]
  exact h i v hv

@[simp] theorem has_setByte {i : ℕ} {b : UInt8} : Has (m.setByte i b) p vs ↔ Has m p vs := Iff.rfl

variable [DecidableEq A]

/-- Writing a slot of the segment. -/
theorem Has.set (h : Has m p vs) (i : ℕ) (v : V) : Has (m.set (p + i) v) p (vs.set i v) := by
  intro j w hw
  by_cases hij : j = i
  · subst hij
    obtain ⟨hlt, hw⟩ := List.getElem?_eq_some_iff.mp hw
    simpa using hw
  · rw [Mem.set_slot, Function.update_of_ne (by simpa using hij)]
    rw [List.getElem?_set_ne (Ne.symm hij)] at hw
    exact h j w hw

/-- Writing a slot outside the segment. -/
theorem Has.set_of_ne (h : Has m p vs) {v : V} (hq : ∀ i < vs.length, q ≠ p + i) :
    Has (m.set q v) p vs :=
  h.of_eq fun i hi => by rw [Mem.set_slot, Function.update_of_ne (hq i hi).symm]

end

/-- The `n` slots from `p` on are raw. -/
def Raw (m : Mem A (Slot α)) (p : Ptr A) (n : ℕ) : Prop := ∀ i < n, m.slot (p + i) = .raw

theorem raw_add {m : Mem A (Slot α)} {p : Ptr A} {n k : ℕ} :
    Raw m p (n + k) ↔ Raw m p n ∧ Raw m (p + n) k := by
  refine ⟨fun h => ⟨fun i hi => h i (by omega), fun i hi => ?_⟩, fun h i hi => ?_⟩
  · rw [Ptr.add_assoc]
    exact h _ (by omega)
  · rcases lt_or_ge i n with hlt | hge
    · exact h.1 i hlt
    · have := h.2 (i - n) (by omega)
      rwa [Ptr.add_assoc, Nat.add_sub_of_le hge] at this

/-- Raw slots outside the region of a program stay raw. -/
theorem Raw.frame [DecidableEq A] {lax : Bool} {R : Set (Loc A)} {m m' : Mem A (Slot α)} {p : Ptr A}
    {n : ℕ} (h : Raw m p n) (ha : (slots A α lax).AgreeOn Rᶜ m m')
    (hd : ∀ i < n, .elem (p + i) ∉ R) : Raw m' p n :=
  fun i hi => (ha (.elem (p + i)) (hd i hi)).symm.trans (h i hi)

/-- A segment outside the region of a program is as it was. -/
theorem Has.frame [DecidableEq A] {lax : Bool} {R : Set (Loc A)} {m m' : Mem A (Slot α)} {p : Ptr A}
    {vs : List (Slot α)} (h : Has m p vs) (ha : (slots A α lax).AgreeOn Rᶜ m m')
    (hd : ∀ i < vs.length, .elem (p + i) ∉ R) : Has m' p vs :=
  h.of_eq fun i hi => ha (.elem (p + i)) (hd i hi)

/-- Slots that hold objects hold a list. -/
theorem exists_has {m : Mem A (Slot α)} {p : Ptr A} {n : ℕ}
    (h : ∀ i < n, ∃ v, m.slot (p + i) = .full v) :
    ∃ vs : List α, vs.length = n ∧ Has m p (vs.map .full) := by
  induction n with
  | zero => exact ⟨[], rfl, has_nil⟩
  | succ n ih =>
    obtain ⟨vs, hlen, hvs⟩ := ih fun i hi => h i (by omega)
    obtain ⟨v, hv⟩ := h n (by omega)
    refine ⟨vs ++ [v], by simp [hlen], ?_⟩
    rw [List.map_append, has_append, List.length_map, hlen]
    exact ⟨hvs, has_cons.mpr ⟨hv, has_nil⟩⟩

/-! ### A list in memory -/

section
variable [DecidableEq A] (p : Ptr A) (xs : List α) (byte : ℕ → UInt8)

/-- A memory that holds a list from `p` on, and no other object. -/
def Mem.ofList : Mem A (Slot α) where
  slot q := if q.arr = p.arr ∧ p.off ≤ q.off then (xs[q.off - p.off]?).elim .raw .full else .raw
  byte := byte

theorem has_ofList : Has (Mem.ofList p xs byte) p (xs.map .full) := by
  intro i v hv
  obtain ⟨x, hx, rfl⟩ := Option.map_eq_some_iff.mp (by rwa [List.getElem?_map] at hv)
  simp [Mem.ofList, hx]

variable {p} in
theorem raw_ofList {q : Ptr A} (h : q.arr ≠ p.arr) (n : ℕ) : Raw (Mem.ofList p xs byte) q n :=
  fun i _ => by simp [Mem.ofList, h]

end

/-! ### Bits that stand for objects -/

section

/-- The objects that the bits of the `n` slots from `p` on stand for, and no others. -/
def Mem.within [DecidableEq A] (m : Mem A α) (p : Ptr A) (n : ℕ) : Mem A (Slot α) where
  slot q := if q.arr = p.arr ∧ p.off ≤ q.off ∧ q.off < p.off + n then .full (m.slot q) else .raw
  byte := m.byte

/-- Objects that bits stand for are there as bits. -/
theorem Rep.has {m : Mem A (Slot α)} {m' : Mem A α} {p : Ptr A} {xs : List α} (h : Rep m m')
    (hm : Has m p (xs.map .full)) : Has m' p xs :=
  fun i x hx => h.1 _ x (hm i _ (by rw [List.getElem?_map, hx, Option.map_some]))

variable [DecidableEq A] {m : Mem A α} {p q : Ptr A} {xs : List α} {n : ℕ}

theorem rep_within : Rep (m.within p n) m := by
  refine ⟨fun q a hq => ?_, rfl⟩
  simp only [Mem.within] at hq
  split_ifs at hq
  exact Slot.full.inj hq

/-- What is in a part of the range. -/
theorem has_within_add {k : ℕ} (h : Has m (p + k) xs) (hn : k + xs.length ≤ n) :
    Has (m.within p n) (p + k) (xs.map .full) := by
  intro i v hv
  obtain ⟨x, hx, rfl⟩ := Option.map_eq_some_iff.mp (by rwa [List.getElem?_map] at hv)
  have hi := (List.getElem?_eq_some_iff.mp hx).1
  have hmem : (p + k + i).arr = p.arr ∧ p.off ≤ (p + k + i).off ∧ (p + k + i).off < p.off + n := by
    simp only [Ptr.add_off, Ptr.add_arr, true_and]
    omega
  exact (if_pos hmem).trans (congrArg Slot.full (h i x hx))

theorem has_within (h : Has m p xs) (hn : xs.length ≤ n) : Has (m.within p n) p (xs.map .full) := by
  intro i v hv
  obtain ⟨x, hx, rfl⟩ := Option.map_eq_some_iff.mp (by rwa [List.getElem?_map] at hv)
  have hi := (List.getElem?_eq_some_iff.mp hx).1
  have hmem : (p + i).arr = p.arr ∧ p.off ≤ (p + i).off ∧ (p + i).off < p.off + n :=
    ⟨rfl, Nat.le_add_right _ _, Nat.add_lt_add_left (hi.trans_le hn) _⟩
  exact (if_pos hmem).trans (congrArg Slot.full (h i x hx))

theorem raw_within (h : q.arr ≠ p.arr) (k : ℕ) : Raw (m.within p n) q k :=
  fun _ _ => if_neg fun hq => h hq.1

end

end Ps4o.Storage
