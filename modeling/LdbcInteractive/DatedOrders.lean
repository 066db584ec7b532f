import LdbcInteractive.PriorityQueues
import Mathlib.Data.Prod.Lex

/-!
# Comparisons by date and identifier

A comparison function that puts later dates first and decides equal dates by an
identifier. Identifiers that run the other way are taken from the dual order.
-/

namespace DatedOrders

open PriorityQueues

universe u
variable {α : Type u} {κ ι : Type*} [LinearOrder κ] [LinearOrder ι]

/-- The chain of tests that such a comparison function is written as. -/
theorem dateTest_iff {x y : κ} {p : Prop} [Decidable p] :
    (if x > y then true else if x < y then false else decide p) = true ↔
      y < x ∨ x = y ∧ p := by
  split_ifs with hgt hlt
  · simp [hgt]
  · simp [hlt.not_gt, hlt.ne]
  · simp [le_antisymm (not_lt.mp hgt) (not_lt.mp hlt)]

/-- The comparison function of a given date and identifier. -/
def datedComparer (before : α → α → Bool) (date : α → κ) (ident : α → ι)
    (spec : ∀ a b, before a b = true ↔ date b < date a ∨ date a = date b ∧ ident b < ident a) :
    Comparer α :=
  Comparer.ofKey before
    (fun a => toLex (OrderDual.toDual (date a), OrderDual.toDual (ident a))) (fun a b => by
      rw [spec, Prod.Lex.toLex_lt_toLex]
      rfl)

/-- A comparison by date, later dates first, then by identifier, larger ones first. -/
structure Dated (c : Comparer α) (κ ι : Type*) [LinearOrder κ] [LinearOrder ι] where
  date : α → κ
  ident : α → ι
  before_iff : ∀ a b,
    c.before a b = true ↔ date b < date a ∨ date a = date b ∧ ident b < ident a

namespace Dated

/-- The parts that a comparison function was made from. -/
def ofComparer (before : α → α → Bool) (date : α → κ) (ident : α → ι)
    (spec : ∀ a b, before a b = true ↔ date b < date a ∨ date a = date b ∧ ident b < ident a) :
    Dated (datedComparer before date ident spec) κ ι := ⟨date, ident, spec⟩

variable {c : Comparer α} (d : Dated c κ ι)

theorem le_iff (a b : α) :
    c.Le a b ↔ ¬ (d.date a < d.date b ∨ d.date b = d.date a ∧ d.ident a < d.ident b) := by
  rw [← d.before_iff, Bool.not_eq_true]
  rfl

theorem date_le {a b : α} (h : c.Le a b) : d.date b ≤ d.date a :=
  le_of_not_gt fun hlt => (d.le_iff a b).mp h (Or.inl hlt)

/-- The comparison as a chain of two tests, the way it is written against a top. -/
theorem if_before {β : Type*} (x worst : α) (accept keep : β) :
    (if d.date x > d.date worst then accept
      else if d.date x = d.date worst ∧ d.ident worst < d.ident x then accept
      else keep) = if c.before x worst then accept else keep := by
  simp only [d.before_iff]
  rcases lt_trichotomy (d.date x) (d.date worst) with hlt | heq | hgt
  · simp [hlt.not_gt, hlt.ne]
  · simp [heq]
  · simp [hgt]

theorem separates_of_key {xs : List α}
    (inj : ∀ a ∈ xs, ∀ b ∈ xs, d.date a = d.date b → d.ident a = d.ident b → a = b) :
    c.Separates xs := by
  intro a ha b hb hab hba
  have hdate : d.date a = d.date b := le_antisymm (d.date_le hba) (d.date_le hab)
  have hident : d.ident a = d.ident b := by
    refine le_antisymm (le_of_not_gt fun h => ?_) (le_of_not_gt fun h => ?_)
    · exact (d.le_iff b a).mp hba (Or.inr ⟨hdate, h⟩)
    · exact (d.le_iff a b).mp hab (Or.inr ⟨hdate.symm, h⟩)
  exact inj a ha b hb hdate hident

theorem separates {xs : List α} (distinct : (xs.map d.ident).Nodup) : c.Separates xs :=
  d.separates_of_key fun _ ha _ hb _ hident => List.inj_on_of_nodup_map distinct ha hb hident

theorem before_of_le {xs : List α} (distinct : (xs.map d.ident).Nodup) {a b : α} (ha : a ∈ xs)
    (hb : b ∈ xs) (h : c.Le a b) (ne : a ≠ b) : c.before a b = true := by
  by_contra hab
  exact ne (d.separates distinct a ha b hb h (Bool.eq_false_of_not_eq_true hab))

end Dated

end DatedOrders
