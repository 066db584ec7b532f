import LdbcInteractive.Loops
import Mathlib.Data.Fintype.EquivFin

/-!
# Chains of a partial function

A partial function `next` takes each element to at most one other. The chain from `a` is
`a`, `next a`, and so on while it lasts; on a finite type it ends exactly if nothing comes
twice. A search along a chain stops at the first element that has what is looked for.
-/

namespace Chains

open Loops

universe u v
variable {α : Type u} {β : Type v}

section Chain
variable (next : α → Option α)

/-- The `n`-th element of the chain from `a`, counted from 0. -/
def nth : Nat → α → Option α
  | 0, a => some a
  | n + 1, a => (next a).bind (nth n)

/-- No element comes twice on the chain from `a`. -/
def NoRepeat (a : α) : Prop :=
  ∀ i j b, nth next i a = some b → nth next j a = some b → i = j

variable {next}

theorem nth_add (m n : Nat) (a : α) :
    nth next (m + n) a = (nth next m a).bind (nth next n) := by
  induction m generalizing a with
  | zero => rw [Nat.zero_add, nth, Option.bind_some]
  | succ m ih =>
    rw [Nat.succ_add, nth, nth, Option.bind_assoc]
    exact Option.bind_congr fun b _ => ih b

theorem nth_succ_of_next {a c : α} (h : next a = some c) (n : Nat) :
    nth next (n + 1) a = nth next n c := by
  rw [nth, h, Option.bind_some]

theorem nth_of_le {m n : Nat} (hmn : m ≤ n) {a : α} (h : nth next m a = none) :
    nth next n a = none := by
  obtain ⟨k, rfl⟩ := Nat.exists_eq_add_of_le hmn
  rw [nth_add, h, Option.bind_none]

/-- A chain that ends has a last element. -/
theorem exists_last {n : Nat} {a : α} (ends : nth next n a = none) :
    ∃ i b, nth next i a = some b ∧ next b = none := by
  induction n generalizing a with
  | zero => cases ends
  | succ n ih =>
    cases hnext : next a with
    | none => exact ⟨0, a, rfl, hnext⟩
    | some c =>
      rw [nth_succ_of_next hnext] at ends
      obtain ⟨i, b, hi, hb⟩ := ih ends
      exact ⟨i + 1, b, (nth_succ_of_next hnext i).trans hi, hb⟩

/-- A chain that comes back to its start never ends. -/
theorem nth_mul {m : Nat} {a : α} (h : nth next m a = some a) (k : Nat) :
    nth next (m * k) a = some a := by
  induction k with
  | zero => rfl
  | succ k ih => rw [Nat.mul_succ, nth_add, ih, Option.bind_some, h]

/-- A chain that ends at all repeats nothing. -/
theorem noRepeat_of_end {n : Nat} {a : α} (ends : nth next n a = none) : NoRepeat next a := by
  have forward : ∀ i j b, i < j → nth next i a = some b → nth next j a ≠ some b := by
    intro i j b hij hi hj
    obtain ⟨m, rfl⟩ := Nat.exists_eq_add_of_lt hij
    have back : nth next (m + 1) b = some b := by
      rwa [Nat.add_assoc, nth_add, hi, Option.bind_some] at hj
    have long : nth next (i + (m + 1) * n) a = some b := by
      rw [nth_add, hi, Option.bind_some, nth_mul back]
    have hn : n ≤ i + (m + 1) * n :=
      (Nat.le_mul_of_pos_left n m.succ_pos).trans (Nat.le_add_left _ _)
    rw [nth_of_le hn ends] at long
    cases long
  intro i j b hi hj
  rcases lt_trichotomy i j with hlt | heq | hgt
  · exact absurd hj (forward i j b hlt hi)
  · exact heq
  · exact absurd hi (forward j i b hgt hj)

/-- On a finite type the chains that end are those without a repetition. -/
theorem exists_end_iff [Finite α] {a : α} : (∃ n, nth next n a = none) ↔ NoRepeat next a := by
  constructor
  · rintro ⟨n, ends⟩
    exact noRepeat_of_end ends
  · intro distinct
    by_contra lasts
    push Not at lasts
    have member : ∀ n, ∃ b, nth next n a = some b := fun n =>
      Option.ne_none_iff_exists'.mp (lasts n)
    choose f hf using member
    have inj : Function.Injective f := by
      intro i j hij
      exact distinct i j (f i) (hf i) (hij ▸ hf j)
    exact not_injective_infinite_finite f inj

end Chain

section Search
variable (found : α → Option β) (next : α → Option α)

/-- One pass of the search: what is looked for before the next element. -/
def seek (a : α) : Control α (Option β) :=
  match found a with
  | some b => .done (some b)
  | none =>
    match next a with
    | some c => .next c
    | none => .done none

/-- The chain as far as the search follows it. -/
def unfound (a : α) : Option α := if (found a).isSome then none else next a

/-- The chain from `a` reaches `b` at the first element that has one. -/
def FirstFound (a : α) (b : β) : Prop :=
  ∃ i c, nth next i a = some c ∧ found c = some b ∧
    ∀ j < i, ∀ d, nth next j a = some d → found d = none

/-- The chain from `a` ends, and none of its elements has what is looked for. -/
def Exhausted (a : α) : Prop :=
  (∃ n, nth next n a = none) ∧ ∀ i c, nth next i a = some c → found c = none

variable {found next}

theorem FirstFound.unique {a : α} {b b' : β} (h : FirstFound found next a b)
    (h' : FirstFound found next a b') : b = b' := by
  obtain ⟨i, c, hi, hc, before⟩ := h
  obtain ⟨j, d, hj, hd, before'⟩ := h'
  rcases lt_trichotomy i j with hlt | rfl | hgt
  · rw [before' i hlt c hi] at hc
    cases hc
  · obtain rfl := Option.some.inj (hi.symm.trans hj)
    exact Option.some.inj (hc.symm.trans hd)
  · rw [before j hgt d hj] at hd
    cases hd

theorem seek_found {a : α} {b : β} (h : found a = some b) :
    seek found next a = .done (some b) := by
  simp [seek, h]

theorem seek_next {a c : α} (h : found a = none) (hc : next a = some c) :
    seek found next a = .next c := by
  simp [seek, h, hc]

theorem seek_end {a : α} (h : found a = none) (hc : next a = none) :
    seek found next a = .done none := by
  simp [seek, h, hc]

/-- The search is still running after `n` passes if the chain it follows is longer. -/
theorem loop_seek_eq_none {n : Nat} {a : α} :
    loop (seek found next) n a = none ↔ nth (unfound found next) n a ≠ none := by
  induction n generalizing a with
  | zero => simp [loop, nth]
  | succ n ih =>
    cases hfound : found a with
    | some b => simp [loop_done (seek_found hfound), nth, unfound, hfound]
    | none =>
      cases hnext : next a with
      | none => simp [loop_done (seek_end hfound hnext), nth, unfound, hfound, hnext]
      | some c =>
        rw [loop_next (seek_next hfound hnext), ih]
        simp [nth, unfound, hfound, hnext]

/-- The search ends exactly if it meets nothing twice. -/
theorem seek_ends_iff [Finite α] {a : α} :
    (∃ fuel r, loop (seek found next) fuel a = some r) ↔ NoRepeat (unfound found next) a := by
  rw [← exists_end_iff]
  refine exists_congr fun n => ?_
  rw [← Option.ne_none_iff_exists', ne_eq, loop_seek_eq_none, not_not]

theorem nth_of_unfound {n : Nat} {a b : α} (h : nth (unfound found next) n a = some b) :
    nth next n a = some b := by
  induction n generalizing a with
  | zero => exact h
  | succ n ih =>
    obtain ⟨c, hc, hb⟩ := Option.bind_eq_some_iff.mp h
    cases hfound : found a with
    | some _ => simp [unfound, hfound] at hc
    | none =>
      have hnext : next a = some c := by simpa [unfound, hfound] using hc
      exact (nth_succ_of_next hnext n).trans (ih hb)

/-- The search follows a part of the chain. -/
theorem NoRepeat.unfound {a : α} (distinct : NoRepeat next a) (found : α → Option β) :
    NoRepeat (unfound found next) a := fun i j b hi hj =>
  distinct i j b (nth_of_unfound hi) (nth_of_unfound hj)

theorem FirstFound.here {a : α} {b : β} (h : found a = some b) : FirstFound found next a b :=
  ⟨0, a, rfl, h, by simp⟩

/-- What the rest of the chain reaches first is reached first from an element before it. -/
theorem FirstFound.earlier {a c : α} {b : β} (h : found a = none) (hc : next a = some c)
    (first : FirstFound found next c b) : FirstFound found next a b := by
  obtain ⟨i, d, hi, hd, before⟩ := first
  refine ⟨i + 1, d, (nth_succ_of_next hc i).trans hi, hd, ?_⟩
  intro j hj e he
  cases j with
  | zero =>
    obtain rfl := Option.some.inj he
    exact h
  | succ j =>
    rw [nth_succ_of_next hc] at he
    exact before j (Nat.lt_of_succ_lt_succ hj) e he

theorem Exhausted.here {a : α} (h : found a = none) (hc : next a = none) :
    Exhausted found next a := by
  refine ⟨⟨1, by simp [nth, hc]⟩, ?_⟩
  intro i c hi
  cases i with
  | zero =>
    obtain rfl := Option.some.inj hi
    exact h
  | succ i => simp [nth, hc] at hi

theorem Exhausted.earlier {a c : α} (h : found a = none) (hc : next a = some c)
    (exhausted : Exhausted found next c) : Exhausted found next a := by
  obtain ⟨⟨n, ends⟩, without⟩ := exhausted
  refine ⟨⟨n + 1, (nth_succ_of_next hc n).trans ends⟩, ?_⟩
  intro i d hi
  cases i with
  | zero =>
    obtain rfl := Option.some.inj hi
    exact h
  | succ i =>
    rw [nth_succ_of_next hc] at hi
    exact without i d hi

/-- What a search that has ended says about the whole chain. -/
theorem loop_seek_spec {fuel : Nat} {a : α} {r : Option β}
    (h : loop (seek found next) fuel a = some r) :
    (∀ b, r = some b → FirstFound found next a b) ∧ (r = none → Exhausted found next a) := by
  induction fuel generalizing a with
  | zero => simp [loop] at h
  | succ fuel ih =>
    cases hfound : found a with
    | some b =>
      rw [loop_done (seek_found hfound)] at h
      obtain rfl := Option.some.inj h
      constructor
      · rintro _ ⟨⟩
        exact .here hfound
      · rintro ⟨⟩
    | none =>
      cases hnext : next a with
      | none =>
        rw [loop_done (seek_end hfound hnext)] at h
        obtain rfl := Option.some.inj h
        constructor
        · rintro _ ⟨⟩
        · exact fun _ => .here hfound hnext
      | some c =>
        rw [loop_next (seek_next hfound hnext)] at h
        obtain ⟨hsome, hnone⟩ := ih h
        constructor
        · exact fun b hb => (hsome b hb).earlier hfound hnext
        · exact fun hr => (hnone hr).earlier hfound hnext

/-- No element of a chain that runs out has what is looked for. -/
theorem Exhausted.not_firstFound {a : α} (h : Exhausted found next a) (b : β) :
    ¬ FirstFound found next a b := by
  rintro ⟨i, c, hi, hc, -⟩
  rw [h.2 i c hi] at hc
  cases hc

theorem exists_loop_of_end {n : Nat} {a : α} (ends : nth (unfound found next) n a = none) :
    ∃ r, loop (seek found next) n a = some r :=
  Option.ne_none_iff_exists'.mp fun running => loop_seek_eq_none.mp running ends

theorem loop_seek_found {a : α} {b : β} :
    (∃ fuel, loop (seek found next) fuel a = some (some b)) ↔ FirstFound found next a b := by
  constructor
  · rintro ⟨fuel, h⟩
    exact (loop_seek_spec h).1 b rfl
  · intro first
    obtain ⟨i, c, hi, hc, -⟩ := id first
    have ends : nth (unfound found next) (i + 1) a = none := by
      rw [nth_add]
      cases hd : nth (unfound found next) i a with
      | none => rfl
      | some d =>
        obtain rfl := Option.some.inj ((nth_of_unfound hd).symm.trans hi)
        simp [nth, unfound, hc]
    obtain ⟨r, h⟩ := exists_loop_of_end ends
    cases r with
    | none => exact absurd first ((loop_seek_spec h).2 rfl |>.not_firstFound b)
    | some b' =>
      obtain rfl := ((loop_seek_spec h).1 b' rfl).unique first
      exact ⟨i + 1, h⟩

theorem loop_seek_exhausted {a : α} :
    (∃ fuel, loop (seek found next) fuel a = some none) ↔ Exhausted found next a := by
  constructor
  · rintro ⟨fuel, h⟩
    exact (loop_seek_spec h).2 rfl
  · intro exhausted
    obtain ⟨n, ends⟩ := exhausted.1
    have endsHere : nth (unfound found next) n a = none := by
      cases hd : nth (unfound found next) n a with
      | none => rfl
      | some d =>
        rw [nth_of_unfound hd] at ends
        cases ends
    obtain ⟨r, h⟩ := exists_loop_of_end endsHere
    cases r with
    | none => exact ⟨n, h⟩
    | some b => exact absurd ((loop_seek_spec h).1 b rfl) (exhausted.not_firstFound b)

/-- Along a chain without a repetition the search ends; it returns what the first element
that has it has, and nothing exactly if the chain ends without such an element. -/
theorem exists_seek [Finite α] (found : α → Option β) {a : α} (distinct : NoRepeat next a) :
    ∃ r, (∃ enough, ∀ fuel ≥ enough, loop (seek found next) fuel a = some r) ∧
      (∀ b, r = some b ↔ FirstFound found next a b) ∧ (r = none ↔ Exhausted found next a) := by
  obtain ⟨enough, r, h⟩ := seek_ends_iff.mpr (distinct.unfound found)
  obtain ⟨hsome, hnone⟩ := loop_seek_spec h
  refine ⟨r, ⟨enough, fun fuel hfuel => loop_mono hfuel h⟩, fun b => ⟨hsome b, ?_⟩, hnone, ?_⟩
  · intro first
    obtain ⟨fuel, hb⟩ := loop_seek_found.mpr first
    exact loop_unique h hb
  · intro exhausted
    obtain ⟨fuel, hr⟩ := loop_seek_exhausted.mpr exhausted
    exact loop_unique h hr

end Search

end Chains
