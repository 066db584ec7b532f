import Mathlib.Control.Monad.Basic
import Mathlib.Data.List.Basic

/-!
# Loops whose steps may fail

A loop that reads one row for each entry of a list and breaks off at the first entry that
cannot be read: when it comes through, what it has read then, and what two such loops have in
common whose steps agree. A step may also run on for ever, which is a result of its own.
-/

namespace PartialLoops

section Through
variable {α β σ : Type}

/-- A loop over rows comes through if each row does. -/
theorem mapM_isSome (f : α → Option β) (xs : List α) :
    (xs.mapM f).isSome = true ↔ ∀ x ∈ xs, (f x).isSome = true := by
  induction xs with
  | nil => simp
  | cons x rest ih =>
    rw [List.mapM_cons, List.forall_mem_cons, ← ih]
    cases f x with
    | none => simp
    | some b => cases rest.mapM f <;> simp

theorem foldlM_isSome {f : σ → α → Option σ} {defined : α → Prop}
    (step : ∀ s x, (f s x).isSome = true ↔ defined x) (xs : List α) (s : σ) :
    (xs.foldlM f s).isSome = true ↔ ∀ x ∈ xs, defined x := by
  induction xs generalizing s with
  | nil => simp
  | cons x rest ih =>
    rw [List.foldlM_cons, List.forall_mem_cons, ← step s x]
    cases f s x with
    | none => simp
    | some t => simpa using ih t

theorem run_mapM_cons (f : α → OptionT Option β) (x : α) (rest : List α) :
    ((x :: rest).mapM f).run = (f x).run.bind fun r =>
      r.elim (some none) fun b => (rest.mapM f).run.map (Option.map (b :: ·)) := by
  rw [List.mapM_cons]
  simp [Option.elimM]

/-- A loop whose rows may also run on breaks off at a row that all rows before come through to. -/
theorem mapM_eq_absent (f : α → OptionT Option β) (xs : List α) :
    (xs.mapM f).run = some none ↔
      ∃ front x back, xs = front ++ x :: back ∧ (∀ y ∈ front, ∃ b, (f y).run = some (some b)) ∧
        (f x).run = some none := by
  induction xs with
  | nil => simp
  | cons x rest ih =>
    rw [run_mapM_cons]
    constructor
    · intro h
      obtain ⟨r, hx, h⟩ := Option.bind_eq_some_iff.mp h
      cases r with
      | none => exact ⟨[], x, rest, rfl, by simp, hx⟩
      | some b =>
        obtain ⟨q, hrest, hq⟩ := Option.map_eq_some_iff.mp h
        have absent : q = none := Option.map_eq_none_iff.mp hq
        obtain ⟨front, y, back, rfl, through, hy⟩ := ih.mp (absent ▸ hrest)
        exact ⟨x :: front, y, back, rfl, List.forall_mem_cons.mpr ⟨⟨b, hx⟩, through⟩, hy⟩
    · rintro ⟨front, y, back, split, through, hy⟩
      cases front with
      | nil =>
        obtain ⟨rfl, rfl⟩ := List.cons.inj split
        simp [hy]
      | cons z front =>
        obtain ⟨rfl, hsplit⟩ := List.cons.inj split
        obtain ⟨⟨b, hb⟩, through⟩ := List.forall_mem_cons.mp through
        have hrest := ih.mpr ⟨front, y, back, hsplit, through, hy⟩
        simp [hb, hrest]

theorem map_of_mapM {f : α → Option β} {xs : List α} {ys : List β} (h : xs.mapM f = some ys) :
    xs.map f = ys.map some := by
  induction xs generalizing ys with
  | nil =>
    obtain rfl := Option.some.inj h
    rfl
  | cons x rest ih =>
    rw [List.mapM_cons] at h
    obtain ⟨z, hz, h⟩ := Option.bind_eq_some_iff.mp h
    obtain ⟨zs, hzs, h⟩ := Option.bind_eq_some_iff.mp h
    obtain rfl := Option.some.inj h
    rw [List.map_cons, List.map_cons, hz, ih hzs]

/-- What a row shows of its entry, over the whole list. -/
theorem map_key_of_mapM {κ : Type} {f : α → Option β} {key : α → κ} {key' : β → κ}
    (reads : ∀ x y, f x = some y → key' y = key x) {xs : List α} {ys : List β}
    (h : xs.mapM f = some ys) : ys.map key' = xs.map key := by
  have through := (mapM_isSome f xs).mp (Option.isSome_iff_exists.mpr ⟨ys, h⟩)
  have shown : ∀ x ∈ xs, (f x).map key' = some (key x) := by
    intro x hx
    obtain ⟨y, hy⟩ := Option.isSome_iff_exists.mp (through x hx)
    rw [hy, Option.map_some, reads x y hy]
  have rows := congrArg (List.map (Option.map key')) (map_of_mapM h)
  rw [List.map_map, List.map_map] at rows
  refine List.map_injective_iff.mpr (fun _ _ => Option.some.inj) ?_
  rw [List.map_map, List.map_map]
  exact rows.symm.trans (List.map_congr_left shown)

/-- The rows of a loop whose steps may also run on. -/
theorem map_of_run_mapM {f : α → OptionT Option β} {xs : List α} {ys : List β}
    (h : (xs.mapM f).run = some (some ys)) :
    xs.map (fun x => (f x).run) = ys.map fun y => some (some y) := by
  induction xs generalizing ys with
  | nil =>
    obtain rfl := Option.some.inj (Option.some.inj h)
    rfl
  | cons x rest ih =>
    rw [run_mapM_cons] at h
    obtain ⟨r, hr, h⟩ := Option.bind_eq_some_iff.mp h
    cases r with
    | none => cases h
    | some z =>
      obtain ⟨r, hrest, h⟩ := Option.map_eq_some_iff.mp h
      obtain ⟨zs, rfl, rfl⟩ := Option.map_eq_some_iff.mp h
      rw [List.map_cons, List.map_cons, hr, ih hrest]

theorem exists_of_mapM {f : α → Option β} {xs : List α} {ys : List β} (h : xs.mapM f = some ys)
    {y : β} (hy : y ∈ ys) : ∃ x ∈ xs, f x = some y :=
  List.mem_map.mp (map_of_mapM h ▸ List.mem_map_of_mem hy)

theorem exists_of_run_mapM {f : α → OptionT Option β} {xs : List α} {ys : List β}
    (h : (xs.mapM f).run = some (some ys)) {y : β} (hy : y ∈ ys) :
    ∃ x ∈ xs, (f x).run = some (some y) :=
  List.mem_map.mp (map_of_run_mapM h ▸ List.mem_map.mpr ⟨y, hy, rfl⟩)

end Through

section Related
variable {α β γ : Type}

theorem rel_bind {α' β' : Type} {R : α → β → Prop} {S : α' → β' → Prop} {x : Option α}
    {y : Option β} {f : α → Option α'} {g : β → Option β'} (h : Option.Rel R x y)
    (next : ∀ a b, R a b → Option.Rel S (f a) (g b)) : Option.Rel S (x.bind f) (y.bind g) := by
  cases h with
  | some h => exact next _ _ h
  | none => exact .none

theorem rel_refl {R : α → α → Prop} (refl : ∀ a, R a a) (x : Option α) : Option.Rel R x x := by
  cases x with
  | none => exact .none
  | some a => exact .some (refl a)

theorem rel_trans {R : α → α → Prop} (trans : ∀ a b c, R a b → R b c → R a c) {x y z : Option α}
    (h : Option.Rel R x y) (h' : Option.Rel R y z) : Option.Rel R x z := by
  cases h with
  | some h =>
    cases h' with
    | some h' => exact .some (trans _ _ _ h h')
  | none => exact h'

/-- Rows of two lists that agree entry by entry, in presence too. -/
theorem mapM_rel {R : γ → γ → Prop} {f : α → β} {row : α → Option γ} {row' : β → Option γ}
    (rows : ∀ x, Option.Rel R (row' (f x)) (row x)) (xs : List α) :
    Option.Rel (List.Forall₂ R) ((xs.map f).mapM row') (xs.mapM row) := by
  induction xs with
  | nil => exact .some .nil
  | cons x rest ih =>
    rw [List.map_cons, List.mapM_cons, List.mapM_cons]
    exact rel_bind (rows x) fun a b head => rel_bind ih fun as bs tail => .some (.cons head tail)

theorem mapM_perm {xs ys : List α} (perm : ys.Perm xs) (row : α → Option γ) :
    Option.Rel List.Perm (ys.mapM row) (xs.mapM row) := by
  induction perm with
  | nil => exact .some .nil
  | cons x _ ih =>
    rw [List.mapM_cons, List.mapM_cons]
    refine rel_bind (rel_refl (R := Eq) (fun _ => rfl) (row x)) ?_
    rintro a b rfl
    exact rel_bind ih fun as bs tail => .some (tail.cons a)
  | swap x y rest =>
    simp only [List.mapM_cons]
    cases row x with
    | none =>
      cases row y with
      | none => exact .none
      | some b => exact .none
    | some a =>
      cases row y with
      | none => exact .none
      | some b =>
        cases rest.mapM row with
        | none => exact .none
        | some tail => exact .some (.swap a b tail)
  | trans _ _ ih ih' => exact rel_trans (R := List.Perm) (fun _ _ _ => List.Perm.trans) ih ih'

end Related

end PartialLoops
