import LdbcInteractive.IC14Paths
import LdbcInteractive.IC14Scores
import Mathlib.Algebra.Order.Field.Basic
import Mathlib.Algebra.Order.Ring.Rat

/-!
# IC14: the result rows

The rows are the enumerated paths with their scores, sorted by descending score. On
a simple KNOWS graph whose finite distances fit the 8-bit labels, the paths are all
shortest paths, each of them once.
-/

namespace LdbcInteractive

open EdgeTables GraphDistance PriorityQueues

namespace IC14

section Rows
variable {G : Graph} {src dst : G.Person}

/-- The row of a path: ids, and half the score. -/
def pathRow (path : List G.Person) (score : Int) : Row where
  personIdsInPath := path.map G.personId
  pathWeight := (score : ℚ) / 2

theorem hops_support {K : SimpleGraph G.Person} {u v : G.Person} (w : K.Walk u v) :
    ∀ e ∈ hops w.support, K.Adj e.1 e.2 := by
  induction w with
  | nil => simp [hops]
  | @cons u x v h w ih =>
    intro e he
    cases w with
    | nil =>
      simp only [hops, SimpleGraph.Walk.support_cons, SimpleGraph.Walk.support_nil,
        List.tail_cons, List.zip_cons_cons, List.zip_nil_right, List.mem_singleton] at he
      rw [he]
      exact h
    | cons h' w =>
      rcases List.mem_cons.mp he with rfl | he
      · exact h
      · exact ih e he

theorem rows_of_order (paths : List (List G.Person)) (scores : List Int)
    (same : scores.length = paths.length) :
    (List.range paths.length).map (fun idx => pathRow (paths.getD idx []) (scores.getD idx 0)) =
      List.zipWith pathRow paths scores := by
  apply List.ext_getElem
  · simp [same]
  · intro i h1 h2
    simp only [List.length_map, List.length_range] at h1
    simp [List.getElem?_eq_getElem h1, List.getElem?_eq_getElem (same ▸ h1)]

/-- The rows are the paths with their scores, best score first. -/
theorem exec_rows (sort : StdSort) {paths : List (List G.Person)}
    (found : findPaths G src dst = some paths) (stepping : Stepping paths) :
    ∃ scores rows, (paths ≠ [] → scorePaths paths = some scores) ∧
      scores.length = paths.length ∧
      exec sort G (G.personId src) (G.personId dst) = some rows ∧
      rows.Perm (List.zipWith pathRow paths scores) ∧
      rows.Pairwise (fun a b => b.pathWeight ≤ a.pathWeight) := by
  by_cases hnil : paths = []
  · subst hnil
    refine ⟨[], [], fun h => False.elim (h rfl), rfl, ?_, List.Perm.refl _, List.Pairwise.nil⟩
    simp [exec, getVertexIndex_self G.personKey, found]
  · obtain ⟨scores, hscores, hlen⟩ := scorePaths_total stepping
    let order := sort.sort (scoreOrder scores) (List.range paths.length)
    let rows := order.map (fun idx => pathRow (paths.getD idx []) (scores.getD idx 0))
    refine ⟨scores, rows, fun _ => hscores, hlen, ?_, ?_, ?_⟩
    · simp only [exec, getVertexIndex_self G.personKey, found, Option.bind_eq_bind,
        Option.bind_some, hnil, if_false, hscores]
      rfl
    · rw [← rows_of_order paths scores hlen]
      exact (sort.perm _ _).map _
    · refine List.pairwise_map.mpr ((sort.sorted _ _).imp ?_)
      intro a b hab
      have hle : scores.getD b 0 ≤ scores.getD a 0 := by
        have : decide (scores.getD b 0 > scores.getD a 0) = false := hab
        simpa using this
      have hcast : (scores.getD b 0 : ℚ) ≤ scores.getD a 0 := Int.cast_le.mpr hle
      exact div_le_div_of_nonneg_right hcast (by decide)

/-- The enumerated paths between two persons at distance `d`. -/
structure ShortestPaths (G : Graph) (src dst : G.Person) (d : ℕ)
    (paths : List (List G.Person)) : Prop where
  found : findPaths G src dst = some paths
  mem : ∀ p, p ∈ paths ↔
    ∃ w : (undirected G.knows).Walk src dst, w.length = d ∧ w.support = p
  nodup : SimpleKnows G.knows → paths.Nodup

theorem shortestPaths_near (different : src ≠ dst) {d : ℕ}
    (hd : Layer (undirected G.knows) src d dst) (near : d ≤ 127) :
    ∃ paths, ShortestPaths G src dst d paths := by
  obtain ⟨label, onPath, marked, found⟩ := findPaths_near G different hd near
  exact ⟨_, found, fun p => marked.mem_paths G hd, fun simple => routes_nodup simple src⟩

theorem ShortestPaths.stepping {d : ℕ} {paths : List (List G.Person)}
    (shortest : ShortestPaths G src dst d paths) : Stepping paths := by
  intro path hpath e he
  obtain ⟨w, _, rfl⟩ := (shortest.mem path).mp hpath
  exact (hops_support w e he).ne

theorem ShortestPaths.ne_nil {d : ℕ} {paths : List (List G.Person)}
    (shortest : ShortestPaths G src dst d paths)
    (hd : Layer (undirected G.knows) src d dst) : paths ≠ [] := by
  obtain ⟨w, hw⟩ := SimpleGraph.exists_walk_of_edist_eq_coe hd
  exact List.ne_nil_of_mem ((shortest.mem w.support).mpr ⟨w, hw, rfl⟩)

theorem dist_eq_of_layer {K : SimpleGraph G.Person} {d : ℕ} (hd : Layer K src d dst) :
    K.dist src dst = d := by
  rw [SimpleGraph.dist, hd, ENat.toNat_natCast]

end Rows

end IC14

open IC14

/-- On a simple KNOWS graph whose finite distances are at most 127, the path list of two
distinct persons is the list of their shortest paths without repetition, empty exactly when
there is none, and the rows are that list with its scores, in descending order. -/
theorem findPaths_shortest (sort : StdSort) (G : Graph) (simple : SimpleKnows G.knows)
    (near : ∀ u v, (undirected G.knows).Reachable u v → (undirected G.knows).dist u v ≤ 127)
    (src dst : G.Person) (different : src ≠ dst) :
    ∃ paths, findPaths G src dst = some paths ∧ paths.Nodup ∧
      (∀ p, p ∈ paths ↔ ∃ w : (undirected G.knows).Walk src dst,
        w.length = (undirected G.knows).dist src dst ∧ w.support = p) ∧
      (paths = [] ↔ ¬ (undirected G.knows).Reachable src dst) ∧
      ∃ scores rows, (paths ≠ [] → scorePaths paths = some scores) ∧
        scores.length = paths.length ∧
        exec sort G (G.personId src) (G.personId dst) = some rows ∧
        rows.Perm (List.zipWith pathRow paths scores) ∧
        rows.Pairwise (fun a b => b.pathWeight ≤ a.pathWeight) := by
  by_cases reachable : (undirected G.knows).Reachable src dst
  · obtain ⟨d, hd⟩ := exists_layer_of_reachable reachable
    have hdist := dist_eq_of_layer hd
    obtain ⟨paths, shortest⟩ := shortestPaths_near different hd (hdist ▸ near src dst reachable)
    refine ⟨paths, shortest.found, shortest.nodup simple, ?_, ?_,
      exec_rows sort shortest.found shortest.stepping⟩
    · rw [hdist]
      exact shortest.mem
    · exact ⟨fun h => False.elim (shortest.ne_nil hd h), fun h => False.elim (h reachable)⟩
  · have none := findPaths_unreachable G reachable
    refine ⟨[], none, List.nodup_nil, ?_, ⟨fun _ => reachable, fun _ => rfl⟩,
      exec_rows sort none (by simp [Stepping])⟩
    intro p
    constructor
    · intro hp
      cases hp
    · rintro ⟨w, _⟩
      exact False.elim (reachable ⟨w⟩)

theorem dist_le_of_small {G : Graph} (small : G.personNum ≤ 128) (u v : G.Person)
    (h : (undirected G.knows).Reachable u v) : (undirected G.knows).dist u v ≤ 127 := by
  obtain ⟨d, hd⟩ := exists_layer_of_reachable h
  have hlt := hd.lt_card
  rw [Fintype.card_fin] at hlt
  rw [dist_eq_of_layer hd]
  omega

/-- The square with the corners 0, 1, 3, 2. -/
def square : Graph := Graph.ofKnows 4 (by decide) [(0, 1), (0, 2), (1, 3), (2, 3)]

theorem square_simple : SimpleKnows square.knows := by
  unfold SimpleKnows
  decide

theorem findPaths_shortest_square :
    let knows := square.knows
    let src : Fin 4 := 0
    let dst : Fin 4 := 3
    ∃ paths, findPaths square src dst = some paths ∧ paths.Nodup ∧
      (∀ p, p ∈ paths ↔ ∃ w : (undirected knows).Walk src dst,
        w.length = (undirected knows).dist src dst ∧ w.support = p) ∧
      (paths = [] ↔ ¬ (undirected knows).Reachable src dst) ∧
      ∃ scores rows, (paths ≠ [] → scorePaths (G := square) paths = some scores) ∧
        scores.length = paths.length ∧
        exec stableSort square (square.personId src) (square.personId dst) = some rows ∧
        rows.Perm (List.zipWith (pathRow (G := square)) paths scores) ∧
        rows.Pairwise (fun a b => b.pathWeight ≤ a.pathWeight) :=
  findPaths_shortest stableSort square square_simple (dist_le_of_small (by decide))
    (0 : Fin 4) (3 : Fin 4) (show (0 : Fin 4) ≠ 3 by decide)

end LdbcInteractive
