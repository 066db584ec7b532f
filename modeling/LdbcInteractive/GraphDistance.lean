import Mathlib.Combinatorics.SimpleGraph.Metric
import Mathlib.Combinatorics.SimpleGraph.Paths

/-!
# Layers and balls of the graph distance

`Layer G s k v` says that `v` is at distance exactly `k` from `s`, `Ball G s k v`
that it is at distance at most `k`. Both are stated with `SimpleGraph.edist`, so
that an unreachable vertex is in no layer and in no ball. The lemmas are the ones
a layered search needs: how a layer is made from the one before it, and how the
layers around two vertices meet.
-/

namespace GraphDistance

universe u
variable {V : Type u} {G : SimpleGraph V} {s t v w : V} {i j k d : ℕ}

def Layer (G : SimpleGraph V) (s : V) (k : ℕ) (v : V) : Prop := G.edist s v = k

def Ball (G : SimpleGraph V) (s : V) (k : ℕ) (v : V) : Prop := G.edist s v ≤ k

theorem edist_map_le {W : Type*} {G' : SimpleGraph W} (φ : G →g G') (s v : V) :
    G'.edist (φ s) (φ v) ≤ G.edist s v := by
  by_cases h : G.edist s v = ⊤
  · rw [h]
    exact le_top
  · obtain ⟨p, hp⟩ := SimpleGraph.exists_walk_of_edist_ne_top h
    rw [← hp, ← p.length_map φ]
    exact SimpleGraph.edist_le _

theorem layer_zero_iff : Layer G s 0 v ↔ v = s := by
  rw [Layer, Nat.cast_zero, SimpleGraph.edist_eq_zero_iff]
  exact eq_comm

theorem ball_zero_iff : Ball G s 0 v ↔ v = s := by
  rw [Ball, Nat.cast_zero, nonpos_iff_eq_zero, SimpleGraph.edist_eq_zero_iff]
  exact eq_comm

theorem Layer.ball (h : Layer G s i v) (hik : i ≤ k) : Ball G s k v := by
  rw [Layer] at h
  rw [Ball, h]
  exact_mod_cast hik

theorem Layer.unique (hi : Layer G s i v) (hj : Layer G s j v) : i = j := by
  rw [Layer] at hi hj
  exact_mod_cast hi.symm.trans hj

theorem Ball.layer (h : Ball G s k v) : ∃ i, i ≤ k ∧ Layer G s i v := by
  obtain ⟨i, hi⟩ := ENat.ne_top_iff_exists.mp (ne_top_of_le_ne_top (ENat.natCast_ne_top k) h)
  refine ⟨i, ?_, hi.symm⟩
  rw [Ball, ← hi] at h
  exact_mod_cast h

theorem Layer.le_of_ball (h : Layer G s i v) (hb : Ball G s k v) : i ≤ k := by
  obtain ⟨j, hjk, hj⟩ := hb.layer
  exact h.unique hj ▸ hjk

theorem Ball.mono (h : Ball G s i v) (hik : i ≤ k) : Ball G s k v := by
  obtain ⟨j, hj, hl⟩ := h.layer
  exact hl.ball (by omega)

theorem Layer.symm (h : Layer G s k v) : Layer G v k s :=
  SimpleGraph.edist_comm.trans h

theorem Layer.reachable (h : Layer G s k v) : G.Reachable s v :=
  SimpleGraph.reachable_of_edist_ne_top (by rw [Layer] at h; simp [h])

theorem exists_layer_of_reachable (h : G.Reachable s v) : ∃ k, Layer G s k v := by
  obtain ⟨p, hp⟩ := h.exists_walk_length_eq_edist
  exact ⟨p.length, hp.symm⟩

/-- Distances to and from a common vertex bound the distance between the ends. -/
theorem Layer.triangle (hi : Layer G s i v) (hj : Layer G v j t) (hd : Layer G s d t) :
    d ≤ i + j := by
  have h := G.edist_triangle (u := s) (v := v) (w := t)
  rw [Layer] at hi hj hd
  rw [hi, hj, hd] at h
  exact_mod_cast h

theorem Layer.ball_trans (hi : Layer G s i v) (hj : Layer G v j t) : Ball G s (i + j) t := by
  have h := G.edist_triangle (u := s) (v := v) (w := t)
  rw [Layer] at hi hj
  rw [hi, hj] at h
  exact_mod_cast h

theorem layer_one_iff : Layer G s 1 v ↔ G.Adj s v := by
  rw [Layer, Nat.cast_one]
  exact SimpleGraph.edist_eq_one_iff_adj

theorem Ball.adj (h : Ball G s k v) (hvw : G.Adj v w) : Ball G s (k + 1) w := by
  obtain ⟨i, hik, hi⟩ := h.layer
  exact (hi.ball_trans (layer_one_iff.mpr hvw)).mono (by omega)

theorem Layer.adj_ball (h : Layer G s k v) (hvw : G.Adj v w) : Ball G s (k + 1) w :=
  (h.ball le_rfl).adj hvw

/-- A geodesic of length `i + j` passes through a vertex `i` steps from its start. -/
theorem exists_layer_between (h : Layer G s (i + j) t) :
    ∃ m, Layer G s i m ∧ Layer G m j t := by
  obtain ⟨p, hp⟩ := SimpleGraph.exists_walk_of_edist_eq_coe h
  have left : Ball G s i (p.getVert i) := by
    have hle := (p.take i).edist_le
    have hlen : (p.take i).length ≤ i := by simp
    exact hle.trans (by exact_mod_cast hlen)
  have right : Ball G (p.getVert i) j t := by
    have hle := (p.drop i).edist_le
    have hlen : (p.drop i).length ≤ j := by simp [SimpleGraph.Walk.drop_length, hp]
    exact hle.trans (by exact_mod_cast hlen)
  obtain ⟨a, ha, hla⟩ := left.layer
  obtain ⟨b, hb, hlb⟩ := right.layer
  have hd := hla.triangle hlb h
  obtain rfl : a = i := by omega
  obtain rfl : b = j := by omega
  exact ⟨_, hla, hlb⟩

theorem Layer.below (h : Layer G s k v) (hi : i ≤ k) : ∃ u, Layer G s i u := by
  obtain ⟨u, hu, _⟩ := exists_layer_between (i := i) (j := k - i)
    (by rwa [show i + (k - i) = k by omega])
  exact ⟨u, hu⟩

/-- Every vertex of a layer has a neighbour in the layer before it. -/
theorem Layer.exists_pred (h : Layer G s (k + 1) v) : ∃ u, Layer G s k u ∧ G.Adj u v := by
  obtain ⟨u, hu, huv⟩ := exists_layer_between h
  exact ⟨u, hu, layer_one_iff.mp huv⟩

theorem Layer.exists_succ (h : Layer G s (k + 1) v) : ∃ u, G.Adj s u ∧ Layer G u k v := by
  obtain ⟨u, hu, huv⟩ := h.symm.exists_pred
  exact ⟨u, huv.symm, hu.symm⟩

/-- A layer is what the previous layer sees outside its ball. -/
theorem layer_succ_iff :
    Layer G s (k + 1) v ↔ ¬ Ball G s k v ∧ ∃ u, Layer G s k u ∧ G.Adj u v := by
  constructor
  · intro h
    refine ⟨fun hb => ?_, h.exists_pred⟩
    have := h.le_of_ball hb
    omega
  · rintro ⟨hb, u, hu, huv⟩
    obtain ⟨i, hi, hl⟩ := (hu.adj_ball huv).layer
    obtain rfl | hlt : i = k + 1 ∨ i ≤ k := by omega
    · exact hl
    · exact False.elim (hb (hl.ball hlt))

theorem ball_succ_iff :
    Ball G s (k + 1) v ↔ Ball G s k v ∨ Layer G s (k + 1) v := by
  constructor
  · intro h
    obtain ⟨i, hi, hl⟩ := h.layer
    obtain rfl | hlt : i = k + 1 ∨ i ≤ k := by omega
    · exact Or.inr hl
    · exact Or.inl (hl.ball hlt)
  · rintro (h | h)
    · exact h.mono (Nat.le_succ k)
    · exact h.ball le_rfl

/-- When one layer is empty, no vertex is further away than it. -/
theorem ball_of_layer_empty (empty : ∀ u, ¬ Layer G s k u) (h : G.Reachable s v) :
    Ball G s k v := by
  obtain ⟨d, hd⟩ := exists_layer_of_reachable h
  by_cases hkd : d ≤ k
  · exact hd.ball hkd
  · obtain ⟨m, hm, _⟩ := exists_layer_between (i := k) (j := d - k)
      (by rwa [show k + (d - k) = d by omega])
    exact False.elim (empty m hm)

theorem Layer.lt_card [Fintype V] (h : Layer G s k v) : k < Fintype.card V := by
  classical
  obtain ⟨p, hp⟩ := SimpleGraph.exists_walk_of_edist_eq_coe h
  have hle := p.bypass.edist_le
  rw [Layer] at h
  rw [h] at hle
  have hk : k ≤ p.bypass.length := by exact_mod_cast hle
  exact lt_of_le_of_lt hk p.bypass_isPath.length_lt

/-- A vertex at distance `k`, with another one outside the ball of radius `k`. -/
theorem Layer.add_two_le_card [Fintype V] (h : Layer G s k v) (far : ¬ Ball G s k w) :
    k + 2 ≤ Fintype.card V := by
  classical
  obtain ⟨p, hp⟩ := SimpleGraph.exists_walk_of_edist_eq_coe h
  have hlen : p.bypass.length = k := by
    have hle := p.bypass.edist_le
    rw [Layer] at h
    rw [h] at hle
    have hk : k ≤ p.bypass.length := by exact_mod_cast hle
    have := p.length_bypass_le_length
    omega
  have outside : w ∉ p.bypass.support := by
    intro hw
    apply far
    have hle := (p.bypass.takeUntil w hw).edist_le
    have := p.bypass.length_takeUntil_le_length hw
    exact hle.trans (by exact_mod_cast hlen ▸ this)
  have nodup : (w :: p.bypass.support).Nodup :=
    List.nodup_cons.mpr ⟨outside, p.bypass_isPath.support_nodup⟩
  have := nodup.length_le_card
  simp only [List.length_cons, SimpleGraph.Walk.length_support] at this
  omega

/-- Vertices on a geodesic from `s` to `t`. -/
def OnGeodesic (G : SimpleGraph V) (s t : V) (v : V) : Prop :=
  ∃ i j, Layer G s i v ∧ Layer G t j v ∧ Layer G s (i + j) t

theorem OnGeodesic.layer_target (h : OnGeodesic G s t v) (hd : Layer G s d t)
    (hi : Layer G s i v) : i ≤ d ∧ Layer G t (d - i) v := by
  obtain ⟨a, b, ha, hb, hab⟩ := h
  obtain rfl := hab.unique hd
  obtain rfl := ha.unique hi
  exact ⟨by omega, by rwa [show a + b - a = b by omega]⟩

/-- One step back towards the source from a geodesic vertex stays on a geodesic. -/
theorem OnGeodesic.of_pred (h : OnGeodesic G s t v) (hv : Layer G s (k + 1) v)
    (hw : Layer G s k w) (hwv : G.Adj w v) : OnGeodesic G s t w := by
  obtain ⟨a, b, ha, hb, hab⟩ := h
  obtain rfl := ha.unique hv
  obtain ⟨j, hj, hl⟩ := (hb.adj_ball hwv.symm).layer
  have hd := hw.triangle hl.symm hab
  obtain rfl : j = b + 1 := by omega
  exact ⟨k, b + 1, hw, hl, by rwa [show k + (b + 1) = k + 1 + b by omega]⟩

theorem OnGeodesic.symm (h : OnGeodesic G s t v) : OnGeodesic G t s v := by
  obtain ⟨a, b, ha, hb, hab⟩ := h
  exact ⟨b, a, hb, ha, by rw [Nat.add_comm]; exact hab.symm⟩

/-- The geodesic successor of a vertex that is not the target. -/
theorem exists_geodesic_succ (hi : Layer G s i v) (hj : Layer G t (j + 1) v)
    (hd : Layer G s (i + j + 1) t) :
    ∃ u, G.Adj v u ∧ Layer G s (i + 1) u ∧ Layer G t j u := by
  obtain ⟨u, hvu, hu⟩ := hj.symm.exists_succ
  obtain ⟨k, hk, hl⟩ := (hi.adj_ball hvu).layer
  have hle := hl.triangle hu hd
  obtain rfl : k = i + 1 := by omega
  exact ⟨u, hvu, hl, hu.symm⟩

section Steps
variable {ι : Type*} {R : ι → ι → Prop}

/-- A way of `n` steps, each of them in the relation. -/
def Steps (R : ι → ι → Prop) : ℕ → ι → ι → Prop
  | 0, a, b => a = b
  | n + 1, a, b => ∃ c, R a c ∧ Steps R n c b

/-- A geodesic is a way of as many steps in every relation that contains the edges. -/
theorem Layer.steps {f : V → ι} (edges : ∀ u v, G.Adj u v → R (f u) (f v)) {n : ℕ}
    (h : Layer G s n v) : Steps R n (f s) (f v) := by
  induction n generalizing s with
  | zero => exact congrArg f (layer_zero_iff.mp h).symm
  | succ n ih =>
    obtain ⟨u, hsu, hu⟩ := h.exists_succ
    exact ⟨f u, edges s u hsu, ih hu⟩

/-- A way whose steps stay within distance 1 is no shorter than the distance of its ends. -/
theorem Steps.ball {f : V → ι}
    (near : ∀ u y, R (f u) y → ∃ v, y = f v ∧ Ball G u 1 v) {n : ℕ} {y : ι}
    (h : Steps R n (f s) y) : ∃ v, y = f v ∧ Ball G s n v := by
  induction n generalizing s with
  | zero => exact ⟨s, h.symm, ball_zero_iff.mpr rfl⟩
  | succ n ih =>
    obtain ⟨_, step, rest⟩ := h
    obtain ⟨u, rfl, hu⟩ := near s _ step
    obtain ⟨v, rfl, hv⟩ := ih rest
    obtain ⟨i, hi, hsu⟩ := hu.layer
    obtain ⟨j, hj, huv⟩ := hv.layer
    exact ⟨v, rfl, (hsu.ball_trans huv).mono (by omega)⟩

end Steps

/-- Marks that cover layer `a` of the geodesics and are closed under geodesic
predecessors cover the layers before it. -/
theorem marked_of_closed {a b : ℕ} {marked : V → Prop} (hd : Layer G s (a + b) t)
    (full : ∀ v, Layer G s a v → Layer G t b v → marked v)
    (closed : ∀ v u k, k < a → Layer G s k v → Layer G s (k + 1) u → G.Adj v u →
      marked u → marked v)
    (n : ℕ) (hn : i + n = a) (hi : Layer G s i v) (hj : Layer G t (b + n) v) : marked v := by
  induction n generalizing i v with
  | zero =>
    obtain rfl : i = a := by omega
    exact full v hi hj
  | succ n ih =>
    obtain ⟨u, hvu, hu, hu'⟩ := exists_geodesic_succ (j := b + n) hi hj
      (by rwa [show i + (b + n) + 1 = a + b by omega])
    exact closed v u i (by omega) hi hu hvu (ih (by omega) hu hu')

end GraphDistance
