import Mathlib.Logic.Relation
import Mathlib.Order.Basic

/-!
# Loops with an explicit fuel budget

A `while (true)` body is a function from the loop state to `Control`: either
the next state, or the value the loop is left with. `loop` iterates it under a
fuel budget; `none` means that the budget ran out, never that the body failed.
The rules below turn an invariant and a measure into a result for every large
enough budget.
-/

namespace Loops

universe u v
variable {σ : Type u} {ρ : Type v}

/-- The outcome of one pass through a loop body. -/
inductive Control (σ : Type u) (ρ : Type v) where
  | next (s : σ)
  | done (r : ρ)

def loop (step : σ → Control σ ρ) : Nat → σ → Option ρ
  | 0, _ => none
  | fuel + 1, s =>
    match step s with
    | .next t => loop step fuel t
    | .done r => some r

/-- One more pass of the loop. -/
def Steps (step : σ → Control σ ρ) (s t : σ) : Prop := step s = .next t

/-- The states at the loop head in a run that starts in `s`. -/
def Reaches (step : σ → Control σ ρ) : σ → σ → Prop :=
  Relation.ReflTransGen (Steps step)

theorem loop_next {step : σ → Control σ ρ} {s t : σ} (h : step s = .next t)
    (fuel : Nat) : loop step (fuel + 1) s = loop step fuel t := by
  simp [loop, h]

theorem loop_done {step : σ → Control σ ρ} {s : σ} {r : ρ} (h : step s = .done r)
    (fuel : Nat) : loop step (fuel + 1) s = some r := by
  simp [loop, h]

/-- A result is not changed by a larger budget. -/
theorem loop_mono {step : σ → Control σ ρ} {n m : Nat} (hnm : n ≤ m) {s : σ} {r : ρ}
    (h : loop step n s = some r) : loop step m s = some r := by
  induction n generalizing m s with
  | zero => simp [loop] at h
  | succ n ih =>
    obtain ⟨m, rfl⟩ : ∃ k, m = k + 1 := ⟨m - 1, by omega⟩
    cases hs : step s with
    | next t =>
      rw [loop_next hs] at h ⊢
      exact ih (by omega) h
    | done q =>
      rw [loop_done hs] at h ⊢
      exact h

/-- From one pass on, a run and the run from its second state end together or not at all. -/
theorem exists_loop_next {step : σ → Control σ ρ} {s t : σ} (h : step s = .next t) :
    ∃ enough, ∀ fuel ≥ enough, loop step fuel s = loop step fuel t := by
  by_cases ends : ∃ n r, loop step n t = some r
  · obtain ⟨n, r, hr⟩ := ends
    refine ⟨n + 1, fun fuel hfuel => ?_⟩
    have first : loop step (n + 1) s = some r := (loop_next h n).trans hr
    exact (loop_mono hfuel first).trans (loop_mono (Nat.le_of_succ_le hfuel) hr).symm
  · have running : ∀ n, loop step n t = none := fun n =>
      Option.eq_none_iff_forall_ne_some.mpr fun r hr => ends ⟨n, r, hr⟩
    refine ⟨0, fun fuel _ => ?_⟩
    cases fuel with
    | zero => rfl
    | succ fuel => exact (loop_next h fuel).trans ((running fuel).trans (running (fuel + 1)).symm)

/-- A loop over renamed states ends after as many passes, with the renamed result. -/
theorem loop_renamed {τ ρ' : Type*} {step : σ → Control σ ρ} {step' : τ → Control τ ρ'}
    {f : σ → τ} {g : ρ → ρ'} (next : ∀ s t, step s = .next t → step' (f s) = .next (f t))
    (done : ∀ s r, step s = .done r → step' (f s) = .done (g r)) (fuel : Nat) (s : σ) :
    loop step' fuel (f s) = (loop step fuel s).map g := by
  induction fuel generalizing s with
  | zero => rfl
  | succ fuel ih =>
    cases h : step s with
    | next t => rw [loop_next h, loop_next (next s t h), ih]
    | done r => rw [loop_done h, loop_done (done s r h), Option.map_some]

/-- What one pass owes to the rule of total correctness. -/
def Progress (Inv : σ → Prop) (Post : ρ → Prop) (μ : σ → Nat) (s : σ) :
    Control σ ρ → Prop
  | .next t => Inv t ∧ μ t < μ s
  | .done r => Post r

/-- Total correctness: the invariant is kept and the measure decreases. -/
theorem loop_total {step : σ → Control σ ρ} (Inv : σ → Prop) (Post : ρ → Prop)
    (μ : σ → Nat) (progress : ∀ s, Inv s → Progress Inv Post μ s (step s))
    {fuel : Nat} {s : σ} (inv : Inv s) (enough : μ s < fuel) :
    ∃ r, loop step fuel s = some r ∧ Post r := by
  induction fuel generalizing s with
  | zero => omega
  | succ fuel ih =>
    have hs := progress s inv
    cases h : step s with
    | next t =>
      rw [h] at hs
      rw [loop_next h]
      exact ih hs.1 (by have := hs.2; omega)
    | done r =>
      rw [h] at hs
      exact ⟨r, loop_done h fuel, hs⟩

/-- Partial correctness, for a run whose end is already known. -/
theorem loop_post {step : σ → Control σ ρ} (Inv : σ → Prop) (Post : ρ → Prop)
    (keeps : ∀ s t, Inv s → step s = .next t → Inv t)
    (ends : ∀ s r, Inv s → step s = .done r → Post r)
    {fuel : Nat} {s : σ} {r : ρ} (inv : Inv s) (h : loop step fuel s = some r) : Post r := by
  induction fuel generalizing s with
  | zero => simp [loop] at h
  | succ fuel ih =>
    cases hs : step s with
    | next t =>
      rw [loop_next hs] at h
      exact ih (keeps s t inv hs) h
    | done q =>
      rw [loop_done hs] at h
      exact Option.some.inj h ▸ ends s q inv hs

/-- An invariant under which there is always a further pass exhausts every budget. -/
theorem loop_never {step : σ → Control σ ρ} (Inv : σ → Prop)
    (goes : ∀ s, Inv s → ∃ t, step s = .next t ∧ Inv t) {s : σ} (inv : Inv s) (fuel : Nat) :
    loop step fuel s = none := by
  induction fuel generalizing s with
  | zero => rfl
  | succ fuel ih =>
    obtain ⟨t, hstep, ht⟩ := goes s inv
    rw [loop_next hstep]
    exact ih ht

/-- A run together with what its passes give out, in order. -/
inductive Emits {ε : Type*} (step : σ → Control σ ρ) (emit : σ → List ε) (s : σ) :
    List ε → σ → Prop
  | start : Emits step emit s [] s
  | pass {log : List ε} {t u : σ} (run : Emits step emit s log t) (h : step t = .next u) :
      Emits step emit s (log ++ emit t) u

/-- Every loop head is reached with some output. -/
theorem Emits.of_reaches {ε : Type*} {step : σ → Control σ ρ} (emit : σ → List ε) {s t : σ}
    (run : Reaches step s t) : ∃ log, Emits step emit s log t := by
  induction run with
  | refl => exact ⟨[], .start⟩
  | tail _ hstep ih =>
    obtain ⟨log, hlog⟩ := ih
    exact ⟨_, hlog.pass hstep⟩

/-- What every pass keeps together with its output holds at every loop head. -/
theorem Emits.invariant {ε : Type*} {step : σ → Control σ ρ} {emit : σ → List ε}
    (Inv : List ε → σ → Prop)
    (keeps : ∀ log s t, Inv log s → step s = .next t → Inv (log ++ emit s) t) {s : σ}
    (inv : Inv [] s) {log : List ε} {t : σ} (run : Emits step emit s log t) : Inv log t := by
  induction run with
  | start => exact inv
  | pass _ hstep ih => exact keeps _ _ _ ih hstep

/-- A loop that ends has a last loop head. -/
theorem reaches_of_loop {step : σ → Control σ ρ} {fuel : Nat} {s : σ} {r : ρ}
    (h : loop step fuel s = some r) : ∃ t, Reaches step s t ∧ step t = .done r := by
  induction fuel generalizing s with
  | zero => simp [loop] at h
  | succ fuel ih =>
    cases hs : step s with
    | next u =>
      rw [loop_next hs] at h
      obtain ⟨t, hrun, hdone⟩ := ih h
      exact ⟨t, .head hs hrun, hdone⟩
    | done q =>
      rw [loop_done hs] at h
      exact ⟨s, .refl, Option.some.inj h ▸ hs⟩

/-- The state after exactly `n` passes, if the loop is not left before. -/
def passes (step : σ → Control σ ρ) : Nat → σ → Option σ
  | 0, s => some s
  | n + 1, s =>
    match step s with
    | .next t => passes step n t
    | .done _ => none

/-- One more pass at the end. -/
theorem passes_succ {step : σ → Control σ ρ} {n : Nat} {s t u : σ}
    (h : passes step n s = some t) (hu : step t = .next u) : passes step (n + 1) s = some u := by
  induction n generalizing s with
  | zero =>
    obtain rfl := Option.some.inj h
    simp [passes, hu]
  | succ n ih =>
    cases hs : step s with
    | next r =>
      rw [passes, hs]
      simp only [passes, hs] at h
      exact ih h
    | done r => simp [passes, hs] at h

theorem reaches_of_passes {step : σ → Control σ ρ} {n : Nat} {s t : σ}
    (h : passes step n s = some t) : Reaches step s t := by
  induction n generalizing s with
  | zero =>
    obtain rfl := Option.some.inj h
    exact .refl
  | succ n ih =>
    cases hs : step s with
    | next u =>
      simp only [passes, hs] at h
      exact .head hs (ih h)
    | done r => simp [passes, hs] at h

/-- A run all of whose passes start in a state that satisfies `C`. -/
def Within (step : σ → Control σ ρ) (C : σ → Prop) : σ → σ → Prop :=
  Relation.ReflTransGen (fun s t => C s ∧ Steps step s t)

/-- The states of such a run: those at the loop head, and the one it is left with. -/
def Visits (step : σ → Control σ σ) (C : σ → Prop) (s u : σ) : Prop :=
  Within step C s u ∨ ∃ t, Within step C s t ∧ C t ∧ step t = .done u

/-- What every pass keeps, its last one included, holds of all states of the run. -/
theorem visits_invariant {step : σ → Control σ σ} {C : σ → Prop} (Inv : σ → Prop)
    (next : ∀ s t, Inv s → C s → step s = .next t → Inv t)
    (done : ∀ s t, Inv s → C s → step s = .done t → Inv t)
    {s u : σ} (inv : Inv s) (run : Visits step C s u) : Inv u := by
  have heads : ∀ t, Within step C s t → Inv t := by
    intro t ht
    induction ht with
    | refl => exact inv
    | tail _ hstep ih => exact next _ _ ih hstep.1 hstep.2
  rcases run with hu | ⟨t, ht, hC, hu⟩
  · exact heads u hu
  · exact done t u (heads t ht) hC hu

/-- Two budgets that both suffice give the same result. -/
theorem loop_unique {step : σ → Control σ ρ} {n m : Nat} {s : σ} {r q : ρ}
    (hr : loop step n s = some r) (hq : loop step m s = some q) : r = q := by
  have hr' := loop_mono (Nat.le_max_left n m) hr
  have hq' := loop_mono (Nat.le_max_right n m) hq
  exact Option.some.inj (hr'.symm.trans hq')

end Loops
