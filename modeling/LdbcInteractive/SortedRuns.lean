import LdbcInteractive.PriorityQueues

/-!
# The first element of each run

In a list sorted so that equal keys stand together, the elements whose key differs from
the one before. They are the elements that stand first among those of their key, one
for each key.
-/

namespace PriorityQueues

universe u v
variable {α : Type u} {κ : Type v} [LinearOrder κ]

/-- The first element of each run of equal keys, after an element with the key `prev`. -/
def runHeads (key : α → κ) : Option κ → List α → List α
  | _, [] => []
  | prev, a :: rest =>
    if prev = some (key a) then runHeads key prev rest
    else a :: runHeads key (some (key a)) rest

section Sorted
variable {c : Comparer α} {key : α → κ} (mono : ∀ a b, c.Le a b → key a ≤ key b)
include mono

theorem above_rest {a : α} {rest : List α} (sorted : ∀ y ∈ rest, c.Le a y) :
    ∀ k ∈ some (key a), ∀ y ∈ rest, k ≤ key y := by
  rintro k hk y hy
  rw [← Option.mem_some.mp hk]
  exact mono a y (sorted y hy)

/-- The keys of the runs rise strictly. -/
theorem runHeads_keys {prev : Option κ} {xs : List α} (sorted : xs.Pairwise c.Le)
    (above : ∀ k ∈ prev, ∀ x ∈ xs, k ≤ key x) :
    ((runHeads key prev xs).map key).Pairwise (· < ·) ∧
      ∀ k ∈ prev, ∀ x ∈ runHeads key prev xs, k < key x := by
  induction xs generalizing prev with
  | nil => simp [runHeads]
  | cons a rest ih =>
    obtain ⟨ha, hrest⟩ := List.pairwise_cons.mp sorted
    by_cases hprev : prev = some (key a)
    · rw [runHeads, if_pos hprev]
      exact ih hrest fun k hk x hx => above k hk x (List.mem_cons_of_mem a hx)
    · obtain ⟨keys, behind⟩ := ih hrest (above_rest mono ha)
      have overA := behind (key a) rfl
      rw [runHeads, if_neg hprev]
      constructor
      · rw [List.map_cons, List.pairwise_cons]
        refine ⟨fun k hk => ?_, keys⟩
        obtain ⟨x, hx, rfl⟩ := List.mem_map.mp hk
        exact overA x hx
      · intro k hk x hx
        have hka : k < key a := lt_of_le_of_ne (above k hk a List.mem_cons_self) fun h =>
          hprev (h ▸ hk)
        rcases List.mem_cons.mp hx with rfl | hx
        · exact hka
        · exact hka.trans (overA x hx)

end Sorted

end PriorityQueues
