import LdbcInteractive.IC13
import LdbcInteractive.IC14Rows
import LdbcInteractive.SamePerson

/-!
# IC13 and IC14 side by side

IC13 answers with a length and IC14 with paths of that length. They agree while the
length fits the 8-bit labels of IC14, and for a person and itself only where the
search of IC14, which lacks the branch IC13 has, happens to meet itself.
-/

namespace LdbcInteractive

open EdgeTables GraphDistance

/-- IC14 has a row exactly when IC13 has a length, and its rows have that length. -/
def PathQueriesAgree (sort : StdSort) (G : Graph) (a b : G.Person) : Prop :=
  ∃ rows L, IC14.exec sort G (G.personId a) (G.personId b) = some rows ∧
    IC13.exec G (G.personId a) (G.personId b) = some L ∧
    (rows ≠ [] ↔ 0 ≤ L.toInt) ∧
    (0 ≤ L.toInt → ∀ row ∈ rows,
      row.personIdsInPath.head? = some (G.personId a) ∧
        row.personIdsInPath.getLast? = some (G.personId b) ∧
        (row.personIdsInPath.length : Int) = L.toInt + 1)

/-- Distinct persons within 127 steps or unreachable, or a person who is not the start of a
chain that the search follows to its end. -/
def LabelsSuffice (G : Graph) (a b : G.Person) : Prop :=
  if a = b then ¬ IC14.ShortChain G.knows a
  else (undirected G.knows).Reachable a b → (undirected G.knows).dist a b ≤ 127

namespace IC14

variable {G : Graph} {a b : G.Person}

theorem exec13_some (fit : IC13.LabelsFit G.knows a b) :
    ∃ L, IC13.exec G (G.personId a) (G.personId b) = some L ∧
      IC13.Answer G.knows a b L := by
  have budget : Fintype.card G.Person + 2 ≤ G.personNum + 2 := by rw [Fintype.card_fin]
  obtain ⟨L, hL, answer⟩ := IC13.shortestPathLength_answer fit budget
  refine ⟨L, ?_, answer⟩
  simp only [IC13.exec, getVertexIndex_self G.personKey]
  exact hL

theorem exec13_same (a : G.Person) :
    IC13.exec G (G.personId a) (G.personId a) = some 0 := by
  simp [IC13.exec, getVertexIndex_self G.personKey, IC13.shortestPathLength]

/-- The rows of a path list are empty exactly when it is. -/
theorem exec_rows_of_paths (sort : StdSort) {paths : List (List G.Person)}
    (found : findPaths G a b = some paths) (stepping : Stepping paths) :
    ∃ rows, exec sort G (G.personId a) (G.personId b) = some rows ∧
      (rows = [] ↔ paths = []) ∧
      ∀ row ∈ rows, ∃ path ∈ paths, row.personIdsInPath = path.map G.personId := by
  obtain ⟨scores, rows, _, hlen, hexec, hperm, _⟩ := exec_rows sort found stepping
  refine ⟨rows, hexec, ?_, ?_⟩
  · rw [← List.length_eq_zero_iff, hperm.length_eq, List.length_zipWith, hlen, Nat.min_self,
      List.length_eq_zero_iff]
  · intro row hrow
    rw [hperm.mem_iff, List.mem_iff_getElem] at hrow
    obtain ⟨i, hi, rfl⟩ := hrow
    rw [List.length_zipWith] at hi
    refine ⟨paths[i], List.getElem_mem _, ?_⟩
    rw [List.getElem_zipWith]
    rfl

/-- Paths from `a` to `b` with `d` steps, when IC13 returns `d`. -/
theorem agree_of_paths (sort : StdSort) {d : ℕ} {L : Int32} {paths : List (List G.Person)}
    (h13 : IC13.exec G (G.personId a) (G.personId b) = some L) (hL : L.toInt = d)
    (found : findPaths G a b = some paths) (stepping : Stepping paths) (nonempty : paths ≠ [])
    (ends : ∀ path ∈ paths,
      path.head? = some a ∧ path.getLast? = some b ∧ path.length = d + 1) :
    PathQueriesAgree sort G a b := by
  obtain ⟨rows, hexec, hempty, hrows⟩ := exec_rows_of_paths sort found stepping
  refine ⟨rows, L, hexec, h13, ?_, ?_⟩
  · rw [ne_eq, hempty]
    exact ⟨fun _ => by omega, fun _ => nonempty⟩
  · intro _ row hrow
    obtain ⟨path, hpath, hids⟩ := hrows row hrow
    obtain ⟨hhead, hlast, hlength⟩ := ends path hpath
    rw [hids, List.head?_map, List.getLast?_map, List.length_map, hhead, hlast, hlength, hL]
    exact ⟨rfl, rfl, by push_cast; rfl⟩

/-- Without a path, IC13 has to return -1. -/
theorem agree_iff_of_no_paths (sort : StdSort) {L : Int32}
    (h13 : IC13.exec G (G.personId a) (G.personId b) = some L)
    (found : findPaths G a b = some []) : PathQueriesAgree sort G a b ↔ L.toInt < 0 := by
  obtain ⟨rows, hexec, hempty, _⟩ :=
    exec_rows_of_paths sort found (by simp [Stepping])
  have hnil : rows = [] := hempty.mpr rfl
  constructor
  · rintro ⟨rows', L', hexec', h13', hiff, _⟩
    obtain rfl := Option.some.inj (hexec.symm.trans hexec')
    obtain rfl := Option.some.inj (h13.symm.trans h13')
    by_contra hneg
    exact hiff.mpr (by omega) hnil
  · intro hneg
    refine ⟨rows, L, hexec, h13, ?_, fun h => by omega⟩
    exact ⟨fun h => False.elim (h hnil), fun h => by omega⟩

theorem walk_ends {K : SimpleGraph G.Person} (w : K.Walk a b) :
    w.support.head? = some a ∧ w.support.getLast? = some b ∧ w.support.length = w.length + 1 := by
  refine ⟨?_, ?_, w.length_support⟩
  · rw [List.head?_eq_some_head w.support_ne_nil, w.head_support]
  · rw [List.getLast?_eq_some_getLast w.support_ne_nil, w.getLast_support]

theorem agree_iff_of_ne (sort : StdSort) (fit : IC13.LabelsFit G.knows a b)
    (different : a ≠ b) :
    PathQueriesAgree sort G a b ↔
      ((undirected G.knows).Reachable a b → (undirected G.knows).dist a b ≤ 127) := by
  obtain ⟨L, h13, answer⟩ := exec13_some fit
  by_cases reachable : (undirected G.knows).Reachable a b
  · obtain ⟨d, hd⟩ := exists_layer_of_reachable reachable
    have hL := answer.1 d hd
    rw [dist_eq_of_layer hd]
    by_cases near : d ≤ 127
    · obtain ⟨paths, shortest⟩ := shortestPaths_near different hd near
      refine iff_of_true ?_ fun _ => near
      apply agree_of_paths sort h13 hL shortest.found shortest.stepping (shortest.ne_nil hd)
      intro path hpath
      obtain ⟨w, hw, rfl⟩ := (shortest.mem path).mp hpath
      rw [← hw]
      exact walk_ends w
    · rw [agree_iff_of_no_paths sort h13 (findPaths_far G hd (by omega))]
      exact iff_of_false (by omega) (fun h => near (h reachable))
  · rw [agree_iff_of_no_paths sort h13 (findPaths_unreachable G reachable)]
    refine iff_of_true ?_ fun h => False.elim (reachable h)
    rw [answer.2 reachable]
    decide

/-- From a person to itself the only path is the person alone, if the search meets. -/
theorem findPaths_same (a : G.Person) :
    (ShortChain G.knows a ∧ findPaths G a a = some []) ∨
      (¬ ShortChain G.knows a ∧ findPaths G a a = some [[a]]) := by
  rcases findPaths_cases G a a with ⟨st, hst, hmeet, h⟩ | ⟨st, m, hst, hmeet, _, h⟩
  · exact Or.inl ⟨(same_person_search G.knows a hst).mp hmeet, h⟩
  · refine Or.inr ⟨fun hchain => hmeet ((same_person_search G.knows a hst).mpr hchain), ?_⟩
    rw [h, routes_at_target]

theorem agree_iff_of_same (sort : StdSort) (a : G.Person) :
    PathQueriesAgree sort G a a ↔ ¬ ShortChain G.knows a := by
  have h13 := exec13_same a
  have hL : (0 : Int32).toInt = (0 : ℕ) := rfl
  rcases findPaths_same a with ⟨hchain, found⟩ | ⟨hchain, found⟩
  · rw [agree_iff_of_no_paths sort h13 found]
    exact iff_of_false (by omega) (not_not.mpr hchain)
  · refine iff_of_true ?_ hchain
    apply agree_of_paths sort h13 hL found
    · simp [Stepping, hops]
    · simp
    · simp

end IC14

/-- As long as the 32-bit labels of IC13 do not overflow, IC13 and IC14 agree on two persons
exactly when the 8-bit labels of IC14 suffice. -/
theorem path_queries_agree_iff (sort : StdSort) (G : Graph) (a b : G.Person)
    (fit : a ≠ b → IC13.LabelsFit G.knows a b) :
    PathQueriesAgree sort G a b ↔ LabelsSuffice G a b := by
  by_cases same : a = b
  · subst same
    rw [LabelsSuffice, if_pos rfl]
    exact IC14.agree_iff_of_same sort a
  · rw [LabelsSuffice, if_neg same]
    exact IC14.agree_iff_of_ne sort (fit same) same

theorem path_queries_agree_iff_square :
    PathQueriesAgree stableSort square (0 : Fin 4) (3 : Fin 4) ↔
      LabelsSuffice square (0 : Fin 4) (3 : Fin 4) :=
  path_queries_agree_iff stableSort square (0 : Fin 4) (3 : Fin 4) fun _ =>
    IC13.labelsFit_of_card (by decide) square.knows (0 : Fin 4) (3 : Fin 4)

/-- A person without friends, asked for twice: IC13 returns 0, IC14 has no row. -/
theorem path_queries_disagree :
    ¬ PathQueriesAgree stableSort (Graph.ofKnows 1 (by decide) []) (0 : Fin 1) (0 : Fin 1) := by
  rintro ⟨rows, L, h14, h13, hiff, _⟩
  have hrows : rows = [] := by
    have hexec : IC14.exec stableSort (Graph.ofKnows 1 (by decide) []) 0 0 = some [] := by
      decide
    exact Option.some.inj (h14.symm.trans hexec)
  have hlength : L = 0 := by
    have hexec : IC13.exec (Graph.ofKnows 1 (by decide) []) 0 0 = some 0 := by decide
    exact Option.some.inj (h13.symm.trans hexec)
  exact hiff.mpr (by rw [hlength]; decide) hrows

end LdbcInteractive
