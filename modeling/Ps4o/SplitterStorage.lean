import Ps4o.Sampling

/-!
# The storage of the splitters

The two arrays of the classifier have a declared length, `kMaxBuckets / 2`. Here the code that
builds the classifier and classifies with it is run over arrays of that length: what is at or past
their end can neither be constructed in nor read (`Classifier.emptyWithin`), so the code is
undefined as soon as it indexes there.

## What is proved

* `Confined`: over shorter arrays a piece of the code does what it does over unbounded ones,
  exactly when it leaves no splitter past their end. It composes (`Confined.bind`,
  `Confined.loop`), and building the classifier is such a piece (`confined_buildFromSample`).
* `inStorage_iff` — the splitters built from a sample fit when equality buckets may be used, and
  otherwise exactly when fewer than half of the largest number of buckets are distinct.
* `findsBucket_within` — where the splitters fit, the search is an exact lower bound.
* `withinStorage_iff` — so this is when building and classifying stay within the arrays.
-/

namespace Ps4o

open Ps4o.Program Ps4o.Storage Ps4o.Order

variable {A α : Type}

/-! ### Pieces of code over shorter arrays -/

/-- How a value that the code passes on looks over shorter arrays, and whether it fits there. -/
structure Cut (β : Type) where
  /-- Whether it fits. -/
  Fits : β → Prop
  /-- How it looks. -/
  view : β → β

/-- Beside other values. -/
def Cut.prod {β γ : Type} (C : Cut β) (D : Cut γ) : Cut (β × γ) where
  Fits b := C.Fits b.1 ∧ D.Fits b.2
  view b := (C.view b.1, D.view b.2)

/-- A value that does not depend on the arrays. -/
def Cut.any (β : Type) : Cut β := ⟨fun _ => True, id⟩

section
variable [DecidableEq A] {β γ δ : Type} {C : Cut β} {D : Cut γ} {E : Cut δ}

variable (lax : Bool) (C D) in
/-- Over shorter arrays, `f` does what it does otherwise, exactly when its result fits. -/
def Confined (f : β → Act A α γ) : Prop :=
  ∀ (R : Set (Loc A)) (m : Mem A (Slot α)) (b : β) (Q : γ → Mem A (Slot α) → Prop),
    (C.Fits b ∧ Sat (slots A α lax) R (f (C.view b)) m Q) ↔
      Sat (slots A α lax) R (f b) m fun c m' => D.Fits c ∧ Q (D.view c) m'

variable {lax : Bool}

theorem Confined.bind {f : β → Act A α γ} {g : γ → Act A α δ} (hf : Confined C D lax f)
    (hg : Confined D E lax g) : Confined C E lax fun b => f b >>= g := by
  intro R m b Q
  rw [sat_bind, sat_bind, hf]
  constructor
  · exact fun h => h.imp fun c m' hc => (hg R m' c Q).mp hc
  · exact fun h => h.imp fun c m' hc => (hg R m' c Q).mpr hc

theorem Confined.loop {f : ℕ → β → Act A α β} (hf : ∀ i, Confined C C lax (f i)) (n : ℕ) :
    Confined C C lax (Prog.loop f n) := by
  induction n with
  | zero => exact fun R m b Q => Iff.rfl
  | succ n ih => exact ih.bind (hf n)

/-- What fits may be passed on. -/
theorem Confined.pure {f : β → γ} (hfit : ∀ b, C.Fits b ↔ D.Fits (f b))
    (hview : ∀ b, C.Fits b → f (C.view b) = D.view (f b)) :
    Confined C D lax fun b => (.ret (f b) : Act A α γ) := by
  intro R m b Q
  simp only [sat_ret, ← hfit]
  exact and_congr_right fun hb => by rw [hview b hb]

/-- Reading the memory first. -/
theorem Confined.read {f : α → β → Act A α γ} (p : Ptr A) (hf : ∀ x, Confined C D lax (f x)) :
    Confined C D lax fun b => readAt p >>= fun x => f x b := by
  intro R m b Q
  simp only [readAt, Prog.lift_bind, sat_cmd]
  constructor
  · rintro ⟨hb, hR, h⟩
    refine ⟨hR, fun c => ?_⟩
    obtain ⟨x, m', he, hs⟩ := h c
    exact ⟨x, m', he, (hf x R m' b Q).mp ⟨hb, hs⟩⟩
  · rintro ⟨hR, h⟩
    refine ⟨?_, hR, fun c => ?_⟩
    · obtain ⟨x, m', -, hs⟩ := h 0
      exact ((hf x R m' b Q).mpr hs).1
    · obtain ⟨x, m', he, hs⟩ := h c
      exact ⟨x, m', he, ((hf x R m' b Q).mpr hs).2⟩

/-- Looking something up first that is the same over shorter arrays. -/
theorem Confined.lookup {τ : Type} {r : β → Option τ} {f : τ → β → Act A α γ}
    (hr : ∀ b, C.Fits b → r (C.view b) = r b) (hf : ∀ x, Confined C D lax (f x)) :
    Confined C D lax fun b => (Prog.ofOption (r b) : Act A α τ) >>= fun x => f x b := by
  intro R m b Q
  simp only [sat_bind, sat_ofOption]
  constructor
  · rintro ⟨hb, x, hx, h⟩
    exact ⟨x, (hr b hb).symm.trans hx, (hf x R m b Q).mp ⟨hb, h⟩⟩
  · rintro ⟨x, hx, h⟩
    obtain ⟨hb, h⟩ := (hf x R m b Q).mpr h
    exact ⟨hb, x, (hr b hb).trans hx, h⟩

/-- A value that does not depend on the arrays is as good as a parameter. -/
theorem Confined.uncurry {τ : Type} {f : τ × β → Act A α γ}
    (hf : ∀ t, Confined C D lax fun b => f (t, b)) : Confined ((Cut.any τ).prod C) D lax f := by
  rintro R m ⟨t, b⟩ Q
  rw [← hf t]
  exact and_congr_left fun _ => iff_of_eq (true_and _)

theorem Confined.ite {P : Prop} [Decidable P] {f g : β → Act A α γ} (hf : Confined C D lax f)
    (hg : Confined C D lax g) : Confined C D lax fun b => if P then f b else g b := by
  split
  · exact hf
  · exact hg

variable (C D) in
/-- The same for functions that may be undefined. -/
def Confines (f : β → Option γ) : Prop :=
  ∀ b r, (C.Fits b ∧ f (C.view b) = some r) ↔ ∃ c, f b = some c ∧ D.Fits c ∧ D.view c = r

theorem Confines.bind {f : β → Option γ} {g : γ → Option δ} (hf : Confines C D f)
    (hg : Confines D E g) : Confines C E fun b => (f b).bind g := by
  intro b r
  simp only [Option.bind_eq_some_iff]
  constructor
  · rintro ⟨hb, c', hc', hr⟩
    obtain ⟨c, hc, hfit, rfl⟩ := (hf b c').mp ⟨hb, hc'⟩
    obtain ⟨d, hd, h⟩ := (hg c r).mp ⟨hfit, hr⟩
    exact ⟨d, ⟨c, hc, hd⟩, h⟩
  · rintro ⟨d, ⟨c, hc, hd⟩, h⟩
    obtain ⟨hfit, hr⟩ := (hg c r).mpr ⟨d, hd, h⟩
    obtain ⟨hb, hc'⟩ := (hf b _).mpr ⟨c, hc, hfit, rfl⟩
    exact ⟨hb, _, hc', hr⟩

/-- Looking something up first that is the same over shorter arrays. -/
theorem Confines.lookup {τ : Type} {r : β → Option τ} {f : τ → β → Option γ}
    (hr : ∀ b, C.Fits b → r (C.view b) = r b) (hf : ∀ x, Confines C D (f x)) :
    Confines C D fun b => (r b).bind fun x => f x b := by
  intro b v
  simp only [Option.bind_eq_some_iff]
  constructor
  · rintro ⟨hb, x, hx, h⟩
    obtain ⟨c, hc, h⟩ := (hf x b v).mp ⟨hb, h⟩
    exact ⟨c, ⟨x, (hr b hb).symm.trans hx, hc⟩, h⟩
  · rintro ⟨c, ⟨x, hx, hc⟩, h⟩
    obtain ⟨hb, h⟩ := (hf x b v).mpr ⟨c, hc, h⟩
    exact ⟨hb, x, (hr b hb).trans hx, h⟩

theorem Confines.confined {f : β → Option γ} (hf : Confines C D f) :
    Confined C D lax fun b => (Prog.ofOption (f b) : Act A α γ) := by
  intro R m b Q
  simp only [sat_ofOption]
  constructor
  · rintro ⟨hb, c', hc', hQ⟩
    obtain ⟨c, hc, hfit, rfl⟩ := (hf b c').mp ⟨hb, hc'⟩
    exact ⟨c, hc, hfit, hQ⟩
  · rintro ⟨c, hc, hfit, hQ⟩
    obtain ⟨hb, hc'⟩ := (hf b _).mpr ⟨c, hc, hfit, rfl⟩
    exact ⟨hb, _, hc', hQ⟩

end

/-! ### The classifier over arrays of a given length -/

namespace Classifier

/-- The classifier over arrays of `length` slots. What is at or past their end is no storage:
nothing can be constructed in it or read from it. -/
def within (length : ℕ) (c : Classifier α) : Classifier α :=
  { c with
    storage := fun i => if i < length then c.storage i else .moved
    sortedStorage := fun i => if i < length then c.sortedStorage i else .moved }

/-- All splitters are in the first `length` slots of each array. -/
structure InStorage (length : ℕ) (c : Classifier α) : Prop where
  tree : ∀ i, length ≤ i → c.storage i = .raw
  sorted : ∀ i, length ≤ i → c.sortedStorage i = .raw

/-- The classifier over arrays of `length` slots, as a view. -/
def cut (length : ℕ) : Cut (Classifier α) := ⟨InStorage length, within length⟩

/-- The classifier without splitters, over arrays of `length` slots. -/
def emptyWithin (length : ℕ) : Classifier α := within length ⟨fun _ => .raw, fun _ => .raw, 0, 0⟩

variable {length : ℕ} {c : Classifier α}

theorem objectAt_within {a : ℕ → Slot α} (h : ∀ i, length ≤ i → a i = .raw) (i : ℕ) :
    objectAt (fun i => if i < length then a i else .moved) i = objectAt a i := by
  by_cases hi : i < length
  · simp only [objectAt, if_pos hi]
  · simp only [objectAt, if_neg hi, h i (Nat.le_of_not_lt hi)]

/-- Constructing in a slot of an array. -/
theorem newAt_within (a : ℕ → Slot α) (i : ℕ) (x : α) (t : ℕ → Slot α) :
    ((∀ i, length ≤ i → a i = .raw) ∧
      newAt (fun i => if i < length then a i else .moved) i x = some t) ↔
      ∃ a', newAt a i x = some a' ∧ (∀ i, length ≤ i → a' i = .raw) ∧
        (fun i => if i < length then a' i else .moved) = t := by
  cases ha : a i with
  | raw =>
    by_cases hi : i < length
    · have hupd : (fun j => if j < length then Function.update a i (.full x) j else .moved) =
          Function.update (fun j => if j < length then a j else .moved) i (.full x) := by
        funext j
        by_cases hj : j = i
        · subst hj
          simp [hi]
        · simp [Function.update_of_ne hj]
      have hraw : (∀ j, length ≤ j → Function.update a i (.full x) j = .raw) ↔
          ∀ j, length ≤ j → a j = .raw :=
        forall₂_congr fun j hj => by rw [Function.update_of_ne (by omega)]
      simp [newAt, ha, hi, hupd, hraw]
    · have hlen : length ≤ i := Nat.le_of_not_lt hi
      simp only [newAt, ha, if_neg hi]
      constructor
      · rintro ⟨-, h⟩
        cases h
      · rintro ⟨a', ha', hraw, -⟩
        cases ha'
        simpa using hraw i hlen
  | moved =>
    simp [newAt, ha]
  | full y =>
    by_cases hi : i < length <;> simp [newAt, ha, hi]

theorem InStorage.sortedSplitter (h : c.InStorage length) (i : ℕ) :
    (c.within length).sortedSplitter i = c.sortedSplitter i := objectAt_within h.sorted i

theorem InStorage.splitter (h : c.InStorage length) (i : ℕ) :
    (c.within length).splitter i = c.splitter i :=
  objectAt_within h.tree i

theorem confines_newSorted (length i : ℕ) (x : α) :
    Confines (cut length) (cut length) fun c => c.newSorted i x := by
  intro c r
  have h := @newAt_within _ length c.sortedStorage i x
  simp only [newSorted, Option.bind_eq_bind, Option.pure_def,
    Option.bind_eq_some_iff, Option.some.injEq]
  constructor
  · rintro ⟨hc, t, ht, rfl⟩
    obtain ⟨s, hs, hraw, rfl⟩ := (h t).mp ⟨hc.sorted, ht⟩
    exact ⟨_, ⟨s, hs, rfl⟩, ⟨hc.tree, hraw⟩, rfl⟩
  · rintro ⟨_, ⟨s, hs, rfl⟩, hfit, rfl⟩
    obtain ⟨hraw, ht⟩ := (h _).mpr ⟨s, hs, hfit.sorted, rfl⟩
    exact ⟨⟨hfit.tree, hraw⟩, _, ht, rfl⟩

/-- `new (data() + pos) value_type(x)`. -/
def newNode (pos : ℕ) (x : α) (c : Classifier α) : Option (Classifier α) := do
  let t ← newAt c.storage pos x
  pure { c with storage := t }

theorem confines_newNode (length pos : ℕ) (x : α) :
    Confines (cut length) (cut length) (newNode pos x) := by
  intro c r
  have h := @newAt_within _ length c.storage pos x
  simp only [newNode, Option.bind_eq_bind, Option.pure_def,
    Option.bind_eq_some_iff, Option.some.injEq]
  constructor
  · rintro ⟨hc, t, ht, rfl⟩
    obtain ⟨s, hs, hraw, rfl⟩ := (h t).mp ⟨hc.tree, ht⟩
    exact ⟨_, ⟨s, hs, rfl⟩, ⟨hraw, hc.sorted⟩, rfl⟩
  · rintro ⟨_, ⟨s, hs, rfl⟩, hfit, rfl⟩
    obtain ⟨hraw, ht⟩ := (h _).mpr ⟨s, hs, hfit.tree, rfl⟩
    exact ⟨⟨hraw, hfit.sorted⟩, _, ht, rfl⟩

theorem buildTree_succ (depth left right pos : ℕ) (c : Classifier α) :
    buildTree (depth + 1) left right pos c =
      (c.sortedSplitter (left + (right - left) / 2)).bind fun x => (c.newNode pos x).bind fun c =>
        if 2 * pos < c.numBuckets then
          (buildTree depth left (left + (right - left) / 2) (2 * pos) c).bind
            (buildTree depth (left + (right - left) / 2) right (2 * pos + 1))
        else some c := by
  simp only [buildTree, newNode, Option.bind_eq_bind, Option.pure_def,
    Option.bind_assoc, Option.bind_some]

theorem confines_buildTree (length depth left right pos : ℕ) :
    Confines (cut length) (cut length) (@buildTree α depth left right pos) := by
  induction depth generalizing left right pos with
  | zero =>
    intro c r
    simp [buildTree]
  | succ depth ih =>
    simp only [funext (buildTree_succ depth left right pos)]
    refine Confines.lookup (fun c hc => hc.sortedSplitter _) fun x =>
      (confines_newNode length pos x).bind ?_
    intro c r
    have hboth := (ih left (left + (right - left) / 2) (2 * pos)).bind
      (ih (left + (right - left) / 2) right (2 * pos + 1)) c r
    by_cases h : 2 * pos < c.numBuckets
    · simpa only [show ((cut length).view c).numBuckets = c.numBuckets from rfl, if_pos h]
        using hboth
    · simp only [show ((cut length).view c).numBuckets = c.numBuckets from rfl,
        if_neg h, Option.some.injEq, exists_eq_left']

theorem confines_build (length logBuckets : ℕ) :
    Confines (cut length) (cut length) fun c : Classifier α => c.build logBuckets := by
  have h : (fun c : Classifier α => c.build logBuckets) = fun c =>
      (some { c with logBuckets := logBuckets, numBuckets := 2 ^ logBuckets }).bind fun c =>
        (c.sortedSplitter (2 ^ logBuckets - 1 - 1)).bind fun last =>
          (c.newSorted (2 ^ logBuckets - 1) last).bind
              (buildTree logBuckets 0 (2 ^ logBuckets - 1) 1) := by
    funext c
    simp only [build, Option.bind_eq_bind, Option.bind_some]
  rw [h]
  refine Confines.bind (D := cut length) ?_ ?_
  · intro c r
    simp only [Option.some.injEq, exists_eq_left']
    exact and_congr_left fun _ => ⟨fun hc => ⟨hc.tree, hc.sorted⟩, fun hc => ⟨hc.tree, hc.sorted⟩⟩
  · exact Confines.lookup (fun c hc => hc.sortedSplitter _) fun x =>
      (confines_newSorted length _ x).bind (confines_buildTree length _ _ _ _)

end Classifier

/-! ### The code over shorter arrays -/

section
variable [DecidableEq A] (comp : α → α → Bool) (lax : Bool) (p : Ptr A) (length : ℕ)

open Classifier

theorem confined_chooseSplitters (step numBuckets : ℕ) :
    Confined (cut length) ((Cut.any ℕ).prod (cut length)) lax
      (chooseSplitters comp p step numBuckets) := by
  refine Confined.read _ fun x => Confined.bind (confines_newSorted length 0 x).confined ?_
  refine Confined.bind (D := (Cut.any ℕ).prod (cut length))
    (f := fun c => (.ret (0, c) : Act A α (ℕ × Classifier α)))
      (Confined.pure (fun c => ?_) fun c _ => rfl)
    (Confined.loop (fun i => Confined.uncurry fun last => ?_) (numBuckets - 2))
  · exact (iff_of_eq (true_and _)).symm
  · refine Confined.lookup (fun c hc => hc.sortedSplitter last) fun previous =>
      Confined.read _ fun splitter => ?_
    refine Confined.ite (Confined.read _ fun splitter => ?_)
      (Confined.pure (fun c => (iff_of_eq (true_and _)).symm) fun c _ => rfl)
    exact Confined.bind (confines_newSorted length (last + 1) splitter).confined
      (Confined.pure (fun c => (iff_of_eq (true_and _)).symm) fun c _ => rfl)

theorem confined_fillSplitters (diffSplitters numBuckets : ℕ) :
    Confined (cut length) (cut length) lax (@fillSplitters A α p diffSplitters numBuckets) :=
  Confined.loop (fun i => Confined.read _ fun x =>
    (confines_newSorted length (diffSplitters + i) x).confined) _

/-- **Building the classifier over shorter arrays**: it is defined exactly when the splitters
fit. -/
theorem confined_buildFromSample (cfg : Config) (n : ℕ) :
    Confined (cut length) ((cut length).prod (Cut.any (ℕ × Bool))) lax
      (buildFromSample comp cfg p n) := by
  refine Confined.bind (confined_chooseSplitters comp lax p length _ _)
    (Confined.uncurry fun last => ?_)
  refine Confined.bind (confined_fillSplitters lax _ length _ _) ?_
  exact Confined.bind (confines_build length _).confined
    (Confined.pure (fun c => (iff_of_eq (and_true _)).symm) fun c _ => rfl)

end

/-! ### When the splitters fit -/

namespace Classifier.Built

variable {c : Classifier α} {k : ℕ} {splitters : List α} (h : c.Built k splitters)
include h

/-- The splitters fit when there is room for one for each leaf. -/
theorem inStorage_iff (length : ℕ) : c.InStorage length ↔ 2 ^ k ≤ length := by
  have hk2 : 2 ≤ 2 ^ k := Nat.le_self_pow (by have := h.log_pos; omega) 2
  have hlen : (splitters ++ splitters.getLast?.toList).length = 2 ^ k := by
    obtain ⟨x, hx⟩ : ∃ x, splitters.getLast? = some x :=
      ⟨_, List.getLast?_eq_getLast_of_ne_nil
        (List.ne_nil_of_length_pos (by have := h.length; omega))⟩
    rw [hx, Option.toList_some, List.length_append, List.length_singleton, h.length]
    omega
  constructor
  · intro hs
    by_contra hlt
    have hraw := hs.sorted (2 ^ k - 1) (by omega)
    rw [h.sorted, List.getElem?_eq_getElem (by omega)] at hraw
    cases hraw
  · refine fun hle => ⟨fun i hi => (h.tree_raw i).mpr (.inr (by omega)), fun i hi => ?_⟩
    rw [h.sorted, List.getElem?_eq_none (by omega)]
    rfl

end Classifier.Built

theorem countP_lt_countP {q r : α → Bool} {l : List α} {s : α} (hs : s ∈ l)
    (hqr : ∀ x, q x = true → r x = true) (hq : ¬ q s = true) (hr : r s = true) :
    l.countP q < l.countP r := by
  obtain ⟨l₁, l₂, rfl⟩ := List.append_of_mem hs
  have h₁ : l₁.countP q ≤ l₁.countP r := List.countP_mono_left fun x _ => hqr x
  have h₂ : l₂.countP q ≤ l₂.countP r := List.countP_mono_left fun x _ => hqr x
  rw [List.countP_append, List.countP_append, List.countP_cons_of_neg hq,
    List.countP_cons_of_pos hr]
  omega

/-- There are `k` elements of a list that differ from each other. -/
def Distinct (comp : α → α → Bool) (k : ℕ) (l : List α) : Prop :=
  ∃ ds : List α, (∀ x ∈ ds, x ∈ l) ∧ (ds.Pairwise fun a b => comp a b = true) ∧ k ≤ ds.length

section
variable {comp : α → α → Bool} (hc : StrictWeak comp)
include hc

/-- Every element looked at is equal to one that is chosen. -/
theorem exists_chosen_equal {picked : List α} (h : Sorted comp picked) {x : α} (hx : x ∈ picked) :
    ∃ s ∈ chosen comp picked, comp s x = false ∧ comp x s = false := by
  induction picked using List.reverseRecOn with
  | nil => simp at hx
  | append_singleton picked y ih =>
    have hsorted := List.pairwise_append.mp h
    rw [chosen_concat, skipDuplicates]
    rcases List.mem_append.mp hx with hx | hx
    · obtain ⟨s, hs, hsx⟩ := ih hsorted.1 hx
      refine ⟨s, ?_, hsx⟩
      split
      · exact List.mem_append_left _ hs
      · exact hs
    · obtain rfl : x = y := by simpa using hx
      split
      · exact ⟨x, by simp, hc.irrefl x, hc.irrefl x⟩
      · next hnot =>
        cases hl : (chosen comp picked).getLast? with
        | none => simp [hl] at hnot
        | some s =>
          have hs := List.mem_of_getLast? hl
          refine ⟨s, hs, by simpa [hl] using hnot, ?_⟩
          exact hsorted.2.2 s ((chosen_spec hc hsorted.1).subset s hs) x (by simp)

/-- **As many are chosen as differ from each other.** -/
theorem distinct_iff {picked : List α} (h : Sorted comp picked) (k : ℕ) :
    Distinct comp k picked ↔ k ≤ (chosen comp picked).length := by
  have hch := chosen_spec hc h
  refine ⟨?_, fun hk => ⟨_, hch.subset, hch.increasing, hk⟩⟩
  rintro ⟨ds, hsub, hinc, hk⟩
  refine hk.trans ?_
  -- the number of those chosen that are less tells the elements apart
  let rank (x : α) : ℕ := (chosen comp picked).countP fun s => comp s x
  have hrank : ∀ x ∈ ds, rank x < (chosen comp picked).length := fun x hx => by
    obtain ⟨s, hs, hsx, -⟩ := exists_chosen_equal hc h (hsub x hx)
    exact List.countP_lt_length_iff.mpr ⟨s, hs, by simp [hsx]⟩
  have hlt : ∀ x ∈ ds, ∀ y, comp x y = true → rank x < rank y := fun x hx y hxy => by
    obtain ⟨s, hs, hsx, hxs⟩ := exists_chosen_equal hc h (hsub x hx)
    exact countP_lt_countP hs (fun z hz => hc.lt_trans hz hxy) (by simp [hsx])
      (hc.lt_of_le_of_lt hxs hxy)
  have hincreasing : (ds.map rank).Pairwise (· < ·) :=
    List.pairwise_map.mpr (hinc.imp_of_mem fun hx _ hxy => hlt _ hx _ hxy)
  have hsubset : ds.map rank ⊆ List.range (chosen comp picked).length := fun r hr => by
    obtain ⟨x, hx, rfl⟩ := List.mem_map.mp hr
    exact List.mem_range.mpr (hrank x hx)
  simpa using (List.Nodup.subperm (hincreasing.imp fun h => h.ne) hsubset).length_le

end

namespace Config

variable {cfg : Config} {comp : α → α → Bool} {n : ℕ} {sample : List α}

/-- The elements of a sorted sample for `n` elements that are looked at as splitters. -/
def looked (cfg : Config) (n : ℕ) (sample : List α) : List α :=
  picks (cfg.step n) sample (2 ^ cfg.logBuckets n - 1)

theorem kMaxBuckets_div_two (h : 1 ≤ cfg.kLogBuckets) :
    cfg.kMaxBuckets / 2 = 2 ^ (cfg.kLogBuckets + cfg.kAllowEqualBuckets.toNat - 1) := by
  rw [kMaxBuckets, show cfg.kLogBuckets + cfg.kAllowEqualBuckets.toNat =
    cfg.kLogBuckets + cfg.kAllowEqualBuckets.toNat - 1 + 1 by omega, pow_succ,
    Nat.mul_div_cancel _ (by omega)]
  rfl

/-- There is room for the leaves exactly when equality buckets are allowed, or when few splitters
differ. -/
theorem leaves_fit_iff (hc : StrictWeak comp) (h : cfg.Sample comp n sample)
    (hlog : 1 ≤ cfg.kLogBuckets) : 2 ^ cfg.leavesFrom comp n sample ≤ cfg.kMaxBuckets / 2 ↔
      cfg.kAllowEqualBuckets = true ∨ ¬ Distinct comp (2 ^ (cfg.kLogBuckets - 1))
        (cfg.looked n sample) := by
  have hle := (h.leaves_le hc).trans (cfg.logBuckets_mem hlog n).2
  have hsorted : Sorted comp (cfg.looked n sample) := picks_sorted (le_max_left _ _) h.sorted
  rw [kMaxBuckets_div_two hlog, Nat.pow_le_pow_iff_right (by omega),
    distinct_iff hc hsorted, not_le]
  cases hallow : cfg.kAllowEqualBuckets with
  | true => simpa using hle
  | false =>
    have hne : (cfg.chosenFrom comp n sample).length ≠ 0 :=
      (List.length_pos_of_ne_nil (h.chosen_ne_nil hc)).ne'
    have hlt := Nat.log2_lt (k := cfg.kLogBuckets - 1) hne
    simp only [leavesFrom, log2, Bool.toNat_false, Bool.false_eq_true, false_or]
    rw [← show cfg.chosenFrom comp n sample = chosen comp (cfg.looked n sample) from rfl, ← hlt]
    omega

end Config

/-! ### Classifying over shorter arrays -/

namespace Classifier.InStorage

variable {comp : α → α → Bool} {length : ℕ} {c : Classifier α} (h : c.InStorage length)
include h

theorem classify (eq : Bool) (value : α) :
    (c.within length).classify comp eq value = c.classify comp eq value := by
  simp only [Classifier.classify, descend, descendEqual, h.splitter, h.sortedSplitter]
  rfl

theorem classifyRange {β : Type} (eq : Bool) (kUnroll : ℕ) (p : Ptr A) (n : ℕ)
    (yield : ℕ → β → Act A α β) (s : β) :
    (c.within length).classifyRange comp eq kUnroll p n yield s =
    c.classifyRange comp eq kUnroll p n yield s := by
  simp only [Classifier.classifyRange, classifyUnrolled, unrolledLeaves, restLeaf,
    descend, descendEqual, h.splitter, h.sortedSplitter]
  rfl

end Classifier.InStorage

namespace Classifier

/-- **The search is an exact lower bound**, for every number of levels that the arrays have room
for. -/
theorem findsBucket_within {cfg : Config} (hcfg : cfg.Admitted) {comp : α → α → Bool}
    (hc : StrictWeak comp) {splitters : List α} (hsorted : Sorted comp splitters) {k : ℕ}
    (hk : 1 ≤ k) (hroom : 2 ^ k ≤ cfg.kMaxBuckets / 2) (hl : splitters.length = 2 ^ k - 1)
    {c : Classifier α} (h : c.Filled splitters) (value : α) :
    FindsBucket comp (c.within (cfg.kMaxBuckets / 2)) k splitters value := by
  have hk9 : k ≤ 9 := by
    rw [Config.kMaxBuckets_div_two hcfg.log_pos, Nat.pow_le_pow_iff_right (by decide)] at hroom
    have hlog := hcfg.log_le
    have hequal := Bool.toNat_le cfg.kAllowEqualBuckets
    omega
  obtain ⟨c', hbuild, hfalse, htrue⟩ := h.findsBucket hc hsorted hk hk9 hl value
  obtain ⟨c'', hbuild', hbuilt⟩ := h.built hk hl
  obtain rfl := Option.some.inj (hbuild.symm.trans hbuild')
  have hfits : c'.InStorage (cfg.kMaxBuckets / 2) := (hbuilt.inStorage_iff _).mpr hroom
  have hwithin := (confines_build _ k c (c'.within (cfg.kMaxBuckets / 2))).mpr
    ⟨c', hbuild, hfits, rfl⟩
  refine ⟨c'.within (cfg.kMaxBuckets / 2), hwithin.2, ?_, ?_⟩
  · rw [hfits.classify]
    exact hfalse
  · rw [hfits.classify]
    exact htrue

/-- Three splitters, two of them equal. -/
theorem findsBucket_within_three : ∃ c : Classifier ℕ,
    FindsBucket (fun a b => decide (a < b)) (c.within (defaultConfig.kMaxBuckets / 2)) 2 [3, 5, 5]
      4 :=
  ⟨⟨fun _ => .raw, fun i => ([3, 5, 5][i]?).elim .raw .full, 0, 0⟩,
    findsBucket_within (by constructor <;> decide) (StrictWeak.of_linearOrder ℕ) (by simp [Sorted])
      (by decide) (by decide) rfl ⟨fun _ => rfl, fun _ => rfl⟩ 4⟩

/-- There is no room for eight levels in the arrays of `Config<>`. -/
theorem not_findsBucket_eight : ∃ c : Classifier ℕ, c.Filled (List.range (2 ^ 8 - 1)) ∧
    Sorted (fun a b => decide (a < b)) (List.range (2 ^ 8 - 1)) ∧
    2 ^ 8 = 2 * (defaultConfig.kMaxBuckets / 2) ∧
    ¬ FindsBucket (fun a b => decide (a < b)) (c.within (defaultConfig.kMaxBuckets / 2)) 8
      (List.range (2 ^ 8 - 1)) 0 := by
  refine ⟨⟨fun _ => .raw, fun i => ((List.range (2 ^ 8 - 1))[i]?).elim .raw .full, 0, 0⟩,
    ⟨fun _ => rfl, fun _ => rfl⟩, ?_, by decide, ?_⟩
  · exact List.pairwise_lt_range.imp fun h => by simpa using h.le
  · -- the last splitter is read first, which is past the end
    rintro ⟨c, hbuild, -, -⟩
    cases hbuild

end Classifier

section
variable [DecidableEq A] (comp : α → α → Bool) (cfg : Config) (lax : Bool)

/-- Over arrays of `length` slots the code builds a classifier from the sample of `n` elements at
`p`, of `kMaxBuckets` buckets at most, and classifies with it any value and any range. -/
def StaysWithin (length : ℕ) (p : Ptr A) (n : ℕ) (R : Set (Loc A)) (m : Mem A (Slot α)) : Prop :=
  Sat (slots A α lax) R (buildFromSample comp cfg p n (Classifier.emptyWithin length)) m fun r m' =>
    m' = m ∧ r.2.1 ≤ cfg.kMaxBuckets ∧ (∀ eq value, ∃ b, r.1.classify comp eq value = some b) ∧
      ∀ (eq : Bool) (q : Ptr A) (xs : List α) (m₂ : Mem A (Slot α)),
        cfg.kUnrollClassifier ≤ xs.length →
        Has m₂ q (xs.map .full) →
        Sat (slots A α lax) (seg q xs.length)
          (r.1.classifyRange comp eq cfg.kUnrollClassifier q xs.length
            (fun b bs => pure (bs ++ [b])) []) m₂
          fun bs m₃ => m₃ = m₂ ∧ bs.map some = xs.map (r.1.classify comp eq)

variable {comp cfg lax}

theorem Classifier.empty_inStorage (length : ℕ) :
    (⟨fun _ => .raw, fun _ => .raw, 0, 0⟩ : Classifier α).InStorage length :=
  ⟨fun _ _ => rfl, fun _ _ => rfl⟩

/-- Classifying a range with a classifier that has been built. -/
theorem Classifier.Built.sat_classifyAll (hc : StrictWeak comp) {splitters : List α}
    (hs : Sorted comp splitters) {c : Classifier α} {k : ℕ} (h : c.Built k splitters) (hk : k ≤ 8)
    (hU : 1 ≤ cfg.kUnrollClassifier) (eq : Bool) {q : Ptr A} {xs : List α} {m : Mem A (Slot α)}
    (hn : cfg.kUnrollClassifier ≤ xs.length) (hm : Has m q (xs.map .full)) :
    Sat (slots A α lax) (seg q xs.length)
      (c.classifyRange comp eq cfg.kUnrollClassifier q xs.length (fun b bs => pure (bs ++ [b])) [])
      m fun bs m' => m' = m ∧ bs.map some = xs.map (c.classify comp eq) := by
  refine (sat_classifyRange hc hs h hk hU hn subset_rfl
    (fun j bs m' => m' = m ∧ bs = (xs.take j).map (bucketOf comp eq splitters))
    (fun j bs m' hI => by rw [hI.1]; exact hm) ⟨rfl, rfl⟩ fun j hj bs m' hI => ?_).imp ?_
  · obtain ⟨rfl, rfl⟩ := hI
    refine ⟨rfl, ?_⟩
    rw [List.take_add_one, List.getElem?_eq_getElem hj, List.map_append]
    rfl
  · rintro bs m' ⟨rfl, rfl⟩
    refine ⟨rfl, ?_⟩
    rw [List.take_length, List.map_map]
    exact List.map_congr_left fun x _ => (h.classify hc hs (by omega) eq x).symm

/-- **Building and classifying stay within arrays that have room for every leaf, and only within
such.** -/
theorem staysWithin_iff (hc : StrictWeak comp) (hcfg : cfg.Admitted) {n : ℕ} {sample : List α}
    (h : cfg.Sample comp n sample) {p : Ptr A} {R : Set (Loc A)} {m : Mem A (Slot α)}
    (hR : seg p sample.length ⊆ R) (hm : Has m p (sample.map .full)) (length : ℕ) :
    StaysWithin comp cfg lax length p n R m ↔ 2 ^ cfg.leavesFrom comp n sample ≤ length := by
  have hempty := @Classifier.empty_inStorage α length
  have hbuild := @sat_buildFromSample A α comp _ lax m p cfg R hc n sample
    ⟨fun _ => .raw, fun _ => .raw, 0, 0⟩ h ⟨rfl, fun _ => rfl, fun _ => rfl⟩ hR hm
  have hconf := confined_buildFromSample comp lax p length cfg n R m
    ⟨fun _ => .raw, fun _ => .raw, 0, 0⟩
  constructor
  · intro hw
    obtain ⟨r, -, -, -, ⟨-, hb, -⟩, ⟨hfit, -⟩, -⟩ :=
      (hbuild.and ((hconf _).mp ⟨hempty, hw⟩)).run fun _ => 0
    exact (hb.inStorage_iff length).mp hfit
  · intro hle
    refine ((hconf _).mpr (hbuild.imp ?_)).2
    rintro r m' ⟨rfl, hb, hr⟩
    have hfit := (hb.inStorage_iff length).mpr hle
    have hk := (h.leaves_le hc).trans (cfg.logBuckets_mem hcfg.log_pos n).2
    have hs := h.splitters_sorted hc
    refine ⟨⟨hfit, trivial⟩, rfl, ?_, fun eq value => ?_, fun eq q xs m₂ hn hx => ?_⟩
    · have heq : (cfg.equalFrom comp n sample).toNat ≤ cfg.kAllowEqualBuckets.toNat :=
        Bool.toNat_le_toNat fun he => (Bool.and_eq_true_iff.mp he).1
      have htwo : 1 + cfg.kAllowEqualBuckets.toNat = 2 ^ cfg.kAllowEqualBuckets.toNat := by
        cases cfg.kAllowEqualBuckets <;> rfl
      calc r.2.1 = 2 ^ cfg.leavesFrom comp n sample *
        (1 + (cfg.equalFrom comp n sample).toNat) := by rw [hr]
        _ ≤ 2 ^ cfg.kLogBuckets * 2 ^ cfg.kAllowEqualBuckets.toNat :=
          Nat.mul_le_mul (Nat.pow_le_pow_right (by omega) hk) (by omega)
        _ = cfg.kMaxBuckets := (pow_add _ _ _).symm
    · exact ⟨_, (hfit.classify eq value).trans
        (hb.classify hc hs (hk.trans (hcfg.log_le.trans (by omega))) eq value)⟩
    · have hclassify : (r.1.within length).classify comp eq = r.1.classify comp eq :=
        funext (hfit.classify eq)
      show Sat _ _ ((r.1.within length).classifyRange comp eq _ q xs.length _ []) m₂ fun bs m₃ =>
        m₃ = m₂ ∧ bs.map some = xs.map ((r.1.within length).classify comp eq)
      rw [hfit.classifyRange, hclassify]
      exact hb.sat_classifyAll hc hs (hk.trans hcfg.log_le) hcfg.unroll_pos eq hn hx

end

end Ps4o
