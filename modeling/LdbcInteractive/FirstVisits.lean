import Mathlib.Data.Finset.Insert
import Mathlib.Data.Finset.Dedup
import Mathlib.Data.List.Nodup

/-!
# Scans that act on a vertex at its first visit

A scan goes through a list of vertices, skips those already marked and, at each
first visit, sets the mark and calls a function on its own state. Bitmaps, hash
sets and distance arrays are three ways to keep the marks; `Marks` is what they
have in common. The result of a scan depends on the marks only through `fresh`.
-/

namespace FirstVisits


variable {V τ σ : Type*} [DecidableEq V]

/-- A container of visit marks. -/
structure Marks (τ V : Type*) [DecidableEq V] where
  has : τ → V → Bool
  add : τ → V → τ
  has_add : ∀ t v u, has (add t v) u = (decide (u = v) || has t u)

def bitmap : Marks (V → Bool) V where
  has b v := b v
  add b v := Function.update b v true
  has_add b v u := by by_cases h : u = v <;> simp [h]

def hashSet : Marks (Finset V) V where
  has s v := decide (v ∈ s)
  add s v := insert v s
  has_add s v u := by simp

/-- An array of labels, in which every label but `blank` is a mark. -/
def labels {L : Type*} [DecidableEq L] (blank label : L) (different : label ≠ blank) :
    Marks (V → L) V where
  has a v := decide (a v ≠ blank)
  add a v := Function.update a v label
  has_add a v u := by by_cases h : u = v <;> simp [h, different]

/-- The vertices of a list that are not seen before, each at its first occurrence. -/
def fresh (seen : V → Bool) : List V → List V
  | [] => []
  | v :: rest =>
    if seen v then fresh seen rest
    else v :: fresh (fun u => decide (u = v) || seen u) rest

theorem mem_fresh {seen : V → Bool} {vs : List V} {v : V} :
    v ∈ fresh seen vs ↔ seen v = false ∧ v ∈ vs := by
  induction vs generalizing seen with
  | nil => simp [fresh]
  | cons w rest ih =>
    by_cases hw : seen w
    · rw [fresh, if_pos hw, ih, List.mem_cons]
      constructor
      · rintro ⟨h, hv⟩
        exact ⟨h, Or.inr hv⟩
      · rintro ⟨h, rfl | hv⟩
        · rw [hw] at h
          cases h
        · exact ⟨h, hv⟩
    · rw [fresh, if_neg hw, List.mem_cons, List.mem_cons, ih]
      by_cases hvw : v = w
      · simpa [hvw] using hw
      · simp [hvw]

theorem fresh_nodup (seen : V → Bool) (vs : List V) : (fresh seen vs).Nodup := by
  induction vs generalizing seen with
  | nil => exact List.nodup_nil
  | cons w rest ih =>
    by_cases hw : seen w
    · rw [fresh, if_pos hw]
      exact ih seen
    · rw [fresh, if_neg hw, List.nodup_cons]
      refine ⟨?_, ih _⟩
      rw [mem_fresh]
      simp

/-- One step of a scan: act on `v` unless it is marked. -/
def visitFirst (M : Marks τ V) (func : σ → V → σ) (st : τ × σ) (v : V) : τ × σ :=
  if M.has st.1 v then st else (M.add st.1 v, func st.2 v)

theorem visitFirst_foldl_marks (M : Marks τ V) (func : σ → V → σ) (st : τ × σ)
    (vs : List V) (u : V) :
    M.has (vs.foldl (visitFirst M func) st).1 u = (M.has st.1 u || decide (u ∈ vs)) := by
  induction vs generalizing st with
  | nil => simp
  | cons w rest ih =>
    rw [List.foldl_cons, ih, visitFirst]
    by_cases hw : M.has st.1 w
    · by_cases huw : u = w
      · simp [hw, huw]
      · simp [hw, huw]
    · by_cases huw : u = w
      · simp [hw, huw, M.has_add]
      · simp [hw, huw, M.has_add]

/-- The function is called on the fresh vertices, in order, and on nothing else. -/
theorem visitFirst_foldl_state (M : Marks τ V) (func : σ → V → σ) (st : τ × σ)
    (vs : List V) :
    (vs.foldl (visitFirst M func) st).2 = (fresh (M.has st.1) vs).foldl func st.2 := by
  induction vs generalizing st with
  | nil => rfl
  | cons w rest ih =>
    rw [List.foldl_cons, ih, visitFirst]
    by_cases hw : M.has st.1 w
    · rw [if_pos hw, fresh, if_pos hw]
    · rw [if_neg hw, fresh, if_neg hw, List.foldl_cons]
      congr 2
      funext u
      exact M.has_add st.1 w u

/-- In an array of labels the fresh vertices get the new label, and no other changes. -/
theorem labels_foldl {L : Type*} [DecidableEq L] {blank label : L} (different : label ≠ blank)
    (func : σ → V → σ) (st : (V → L) × σ) (vs : List V) (u : V) :
    (vs.foldl (visitFirst (labels blank label different) func) st).1 u =
      if st.1 u = blank ∧ u ∈ vs then label else st.1 u := by
  induction vs generalizing st with
  | nil => simp
  | cons w rest ih =>
    rw [List.foldl_cons, ih, visitFirst]
    by_cases hw : st.1 w = blank
    · by_cases huw : u = w
      · simp [labels, hw, huw, different]
      · simp [labels, hw, huw]
    · by_cases huw : u = w
      · simp [labels, hw, huw]
      · simp [labels, hw, huw]

end FirstVisits
