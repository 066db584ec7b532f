import LdbcInteractive.GraphDistance

/-!
# The distance after one more edge

A walk that uses the new edge from `u` to `v` goes to one of its ends and on from the
other; using it more than once is never shorter. So the new distance is the least of
three sums of old ones.
-/

namespace GraphDistance

universe u
variable {V : Type u} {G G' : SimpleGraph V} {u v : V}

/-- `G'` has the edges of `G` and the one between `u` and `v`. -/
def Inserted (G G' : SimpleGraph V) (u v : V) : Prop :=
  ∀ x y, G'.Adj x y ↔ G.Adj x y ∨ x ≠ y ∧ (x = u ∧ y = v ∨ x = v ∧ y = u)

/-- The three ways from one vertex to another. -/
noncomputable def detour (G : SimpleGraph V) (u v a b : V) : ℕ∞ :=
  min (G.edist a b) (min (G.edist a u + 1 + G.edist v b) (G.edist a v + 1 + G.edist u b))

theorem detour_le_iff {a b : V} {n : ℕ∞} : detour G u v a b ≤ n ↔
    G.edist a b ≤ n ∨ G.edist a u + 1 + G.edist v b ≤ n ∨ G.edist a v + 1 + G.edist u b ≤ n := by
  rw [detour, min_le_iff, min_le_iff]

theorem detour_swap (a b : V) : detour G u v a b = detour G v u a b :=
  congrArg (min (G.edist a b)) (min_comm _ _)

theorem Inserted.le (h : Inserted G G' u v) : G ≤ G' := fun x y hxy => (h x y).mpr (Or.inl hxy)

theorem Inserted.edist_shorter (h : Inserted G G' u v) (a b : V) : G'.edist a b ≤ G.edist a b :=
  edist_map_le (SimpleGraph.Hom.ofLE h.le) a b

theorem Inserted.edist_ends (h : Inserted G G' u v) : G'.edist u v ≤ 1 := by
  rw [SimpleGraph.edist_le_one_iff_adj_or_eq]
  by_cases huv : u = v
  · exact Or.inr huv
  · exact Or.inl ((h u v).mpr (Or.inr ⟨huv, Or.inl ⟨rfl, rfl⟩⟩))

theorem Inserted.edist_le (h : Inserted G G' u v) (a b : V) : G'.edist a b ≤ detour G u v a b := by
  have through : ∀ x y, G'.edist x y ≤ 1 →
      G'.edist a b ≤ G.edist a x + 1 + G.edist y b := by
    intro x y hxy
    calc G'.edist a b ≤ G'.edist a x + G'.edist x b := SimpleGraph.edist_triangle
      _ ≤ G'.edist a x + (G'.edist x y + G'.edist y b) :=
        add_le_add le_rfl SimpleGraph.edist_triangle
      _ ≤ G.edist a x + (1 + G.edist y b) :=
        add_le_add (h.edist_shorter a x) (add_le_add hxy (h.edist_shorter y b))
      _ = G.edist a x + 1 + G.edist y b := (add_assoc _ _ _).symm
  refine le_min (h.edist_shorter a b) (le_min (through u v h.edist_ends) (through v u ?_))
  exact SimpleGraph.edist_comm.trans_le h.edist_ends

theorem detour_of_old {a x b : V} (hax : G.Adj a x) {n : ℕ∞} (hx : detour G u v x b ≤ n) :
    detour G u v a b ≤ n + 1 := by
  have near : ∀ w, G.edist a w ≤ G.edist x w + 1 := by
    intro w
    rw [add_comm, ← SimpleGraph.edist_eq_one_iff_adj.mpr hax]
    exact SimpleGraph.edist_triangle
  have longer : ∀ w y, G.edist x w + 1 + G.edist y b ≤ n →
      G.edist a w + 1 + G.edist y b ≤ n + 1 := by
    intro w y hwy
    calc G.edist a w + 1 + G.edist y b ≤ G.edist x w + 1 + 1 + G.edist y b :=
          add_le_add (add_le_add (near w) le_rfl) le_rfl
      _ = G.edist x w + 1 + G.edist y b + 1 := add_right_comm _ _ _
      _ ≤ n + 1 := add_le_add hwy le_rfl
  refine detour_le_iff.mpr ?_
  rcases detour_le_iff.mp hx with direct | forth | back
  · exact Or.inl ((near b).trans (add_le_add direct le_rfl))
  · exact Or.inr (Or.inl (longer u v forth))
  · exact Or.inr (Or.inr (longer v u back))

/-- After the new edge a second use of it is a return to where it started. -/
theorem detour_of_new {b : V} {n : ℕ∞} (hv : detour G u v v b ≤ n) :
    detour G u v u b ≤ n + 1 := by
  have used : G.edist v b ≤ n → detour G u v u b ≤ n + 1 := by
    intro hb
    refine detour_le_iff.mpr (Or.inr (Or.inl ?_))
    rw [SimpleGraph.edist_self, zero_add, add_comm]
    exact add_le_add hb le_rfl
  rcases detour_le_iff.mp hv with direct | forth | back
  · exact used direct
  · exact used (le_add_self.trans forth)
  · exact detour_le_iff.mpr (Or.inl ((le_add_self.trans back).trans le_self_add))

theorem Inserted.detour_le_length (h : Inserted G G' u v) {a b : V} (p : G'.Walk a b) :
    detour G u v a b ≤ p.length := by
  induction p with
  | nil => exact detour_le_iff.mpr (Or.inl (SimpleGraph.edist_self.trans_le bot_le))
  | @cons a x b hax p ih =>
    rw [SimpleGraph.Walk.length_cons, Nat.cast_succ]
    rcases (h a x).mp hax with old | ⟨_, ⟨rfl, rfl⟩ | ⟨rfl, rfl⟩⟩
    · exact detour_of_old old ih
    · exact detour_of_new ih
    · rw [detour_swap] at ih ⊢
      exact detour_of_new ih

/-- One more edge changes a distance to the least of three sums. -/
theorem Inserted.edist_eq (h : Inserted G G' u v) (a b : V) :
    G'.edist a b = detour G u v a b := by
  refine le_antisymm (h.edist_le a b) ?_
  by_cases htop : G'.edist a b = ⊤
  · exact htop ▸ le_top
  · obtain ⟨p, hp⟩ := SimpleGraph.exists_walk_of_edist_ne_top htop
    exact hp ▸ h.detour_le_length p

section Between

/-- The distance between two vertices that need not exist. -/
noncomputable def between (G : SimpleGraph V) : Option V → Option V → ℕ∞
  | some a, some b => G.edist a b
  | _, _ => ⊤

theorem between_none_left (x : Option V) : between G none x = ⊤ := by
  cases x <;> rfl

theorem between_none_right (x : Option V) : between G x none = ⊤ := by
  cases x <;> rfl

theorem between_comm (x y : Option V) : between G x y = between G y x := by
  cases x with
  | none => rw [between_none_left, between_none_right]
  | some a =>
    cases y with
    | none => rfl
    | some b => exact SimpleGraph.edist_comm

theorem between_triangle (x y z : Option V) : between G x z ≤ between G x y + between G y z := by
  cases y with
  | none =>
    rw [between_none_right, top_add]
    exact le_top
  | some b =>
    cases x with
    | none =>
      rw [between_none_left (some b), top_add]
      exact le_top
    | some a =>
      cases z with
      | none => exact le_add_self
      | some c => exact SimpleGraph.edist_triangle

theorem between_eq_zero_iff (x y : Option V) :
    between G x y = 0 ↔ ∃ v, x = some v ∧ y = some v := by
  cases x with
  | none => simp [between_none_left]
  | some a =>
    cases y with
    | none => simp [between_none_right]
    | some b =>
      refine SimpleGraph.edist_eq_zero_iff.trans ?_
      simp [eq_comm]

theorem Inserted.between_eq (h : Inserted G G' u v) (x y : Option V) :
    between G' x y = min (between G x y) (min (between G x (some u) + 1 + between G (some v) y)
      (between G x (some v) + 1 + between G (some u) y)) := by
  cases x with
  | none => simp only [between_none_left, top_add, min_self]
  | some a =>
    cases y with
    | none => simp only [between_none_right, add_top, min_self]
    | some b => exact h.edist_eq a b

end Between

end GraphDistance
