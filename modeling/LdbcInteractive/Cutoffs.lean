import LdbcInteractive.PriorityQueues

/-!
# The first elements of a part, and of one element more

What a condition keeps of the first `n` elements is the beginning of the first `n` that
satisfy it, and all of these where the condition holds of a first part of the order. One
more element changes the first `n` as if only they had been kept.
-/

namespace PriorityQueues

universe u
variable {α : Type u}

/-- A condition that no element satisfies after one that does not. -/
theorem filter_take_of_ahead {p : α → Bool} {xs : List α}
    (ahead : xs.Pairwise fun a b => p b = true → p a = true) (n : Nat) :
    (xs.take n).filter p = (xs.filter p).take n := by
  induction xs generalizing n with
  | nil => simp
  | cons x rest ih =>
    obtain ⟨first, others⟩ := List.pairwise_cons.mp ahead
    cases n with
    | zero => simp
    | succ n =>
      cases hx : p x with
      | true => simp [hx, ih others]
      | false =>
        have behind : ∀ y ∈ rest, ¬ p y = true := fun y hy hpy =>
          Bool.false_ne_true (hx.symm.trans (first y hy hpy))
        have nil : rest.filter p = [] := List.filter_eq_nil_iff.mpr behind
        have nilTake : (rest.take n).filter p = [] :=
          List.filter_eq_nil_iff.mpr fun y hy => behind y (List.mem_of_mem_take hy)
        simp [hx, nil, nilTake]

namespace Comparer
variable (c : Comparer α)

theorem filter_ranked (p : α → Bool) (xs : List α) :
    (c.ranked xs).filter p = c.ranked (xs.filter p) := by
  induction xs using List.reverseRecOn with
  | nil => rfl
  | append_singleton xs x ih =>
    rw [ranked_snoc, List.filter_append]
    cases hx : p x with
    | true =>
      rw [c.filter_place_of_pos hx (c.ranked_pairwise xs), ih, ← ranked_snoc]
      simp [hx]
    | false =>
      rw [c.filter_place_of_neg hx, ih]
      simp [hx]

theorem filter_firstN_prefix (p : α → Bool) (n : Nat) (xs : List α) :
    (c.firstN n xs).filter p <+: c.firstN n (xs.filter p) := by
  rw [firstN, firstN, ← filter_ranked, List.prefix_take_iff]
  refine ⟨⟨((c.ranked xs).drop n).filter p, ?_⟩, ?_⟩
  · rw [← List.filter_append, List.take_append_drop]
  · exact (List.length_filter_le _ _).trans (List.length_take_le _ _)

/-- A list of fewer than `n` leaves no element out. -/
theorem length_le_of_short {n : Nat} {xs : List α} (short : (c.firstN n xs).length < n) :
    xs.length ≤ n := by
  rw [firstN, List.length_take, (c.ranked_perm xs).length_eq] at short
  omega

theorem mem_firstN_of_short {n : Nat} {xs : List α} (short : (c.firstN n xs).length < n) {x : α}
    (hx : x ∈ xs) : x ∈ c.firstN n xs := by
  rw [c.firstN_of_length_le (c.length_le_of_short short)]
  exact (c.ranked_perm xs).mem_iff.mpr hx

theorem filter_firstN_of_short (p : α → Bool) {n : Nat} {xs : List α}
    (short : (c.firstN n xs).length < n) :
    (c.firstN n xs).filter p = c.firstN n (xs.filter p) := by
  have few := c.length_le_of_short short
  rw [c.firstN_of_length_le few, filter_ranked,
    c.firstN_of_length_le ((List.length_filter_le _ _).trans few)]

theorem filter_firstN_of_ahead {p : α → Bool} (ahead : ∀ a b, c.Le a b → p b = true → p a = true)
    (n : Nat) (xs : List α) : (c.firstN n xs).filter p = c.firstN n (xs.filter p) := by
  rw [firstN, firstN, ← filter_ranked]
  exact filter_take_of_ahead ((c.ranked_pairwise xs).imp fun {a b} => ahead a b) n

theorem take_place (n : Nat) (x : α) (xs : List α) :
    (c.place x xs).take n = (c.place x (xs.take n)).take n := by
  induction xs generalizing n with
  | nil => simp
  | cons y rest ih =>
    cases n with
    | zero => rfl
    | succ n =>
      rw [List.take_succ_cons, place_cons, place_cons]
      split
      · cases n with
        | zero => rfl
        | succ n => simp [List.take_take]
      · rw [List.take_succ_cons, List.take_succ_cons, ih]

/-- One more element is placed among the first `n`, and the last of them drops out. -/
theorem firstN_snoc (n : Nat) (xs : List α) (x : α) :
    c.firstN n (xs ++ [x]) = (c.place x (c.firstN n xs)).take n := by
  rw [firstN, ranked_snoc, take_place, firstN]

end Comparer

end PriorityQueues
