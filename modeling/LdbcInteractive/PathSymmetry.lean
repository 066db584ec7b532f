import LdbcInteractive.PathRows

/-!
# The two ends of a path query exchanged

KNOWS is read in both directions, so nothing in IC13 and IC14 should depend on which
person is named first, although the two searches start from different sides and the
paths are enumerated from one of them. The length is the same; the paths are the
reversed ones, with the same weights.
-/

namespace LdbcInteractive

open EdgeTables GraphDistance PriorityQueues

namespace IC14

section Hops
variable {V : Type}

theorem hops_concat (front : List V) (a b : V) :
    hops (front ++ [a, b]) = hops (front ++ [a]) ++ [(a, b)] := by
  induction front with
  | nil => rfl
  | cons x rest ih =>
    cases rest with
    | nil => rfl
    | cons y rest =>
      have step : ∀ tail : List V, hops (x :: y :: tail) = (x, y) :: hops (y :: tail) :=
        fun _ => rfl
      rw [List.cons_append, List.cons_append, step, List.cons_append, List.cons_append, step]
      exact congrArg _ ih

theorem hops_reverse (path : List V) :
    (hops path.reverse).Perm ((hops path).map Prod.swap) := by
  induction path with
  | nil => exact List.Perm.refl _
  | cons a rest ih =>
    cases rest with
    | nil => exact List.Perm.refl _
    | cons b rest =>
      have split : (a :: b :: rest).reverse = rest.reverse ++ [b, a] := by simp
      have tail : (b :: rest).reverse = rest.reverse ++ [b] := by simp
      have step : hops (a :: b :: rest) = (a, b) :: hops (b :: rest) := rfl
      rw [split, hops_concat, ← tail, step, List.map_cons]
      exact (ih.append_right _).trans (List.perm_append_singleton _ _)

end Hops

variable {G : Graph} {src dst : G.Person}

theorem pathScore_reverse (path : List G.Person) :
    pathScore G path.reverse = pathScore G path := by
  rw [pathScore, pathScore, ((hops_reverse path).map _).sum_eq, List.map_map]
  refine congrArg List.sum (List.map_congr_left fun e _ => ?_)
  exact pairScore_comm e.2 e.1

theorem Enumerated.reverse {p : List G.Person} (h : Enumerated G src dst p) :
    Enumerated G dst src p.reverse := by
  rcases h with ⟨rfl, hchain, rfl⟩ | ⟨different, d, near, hd, w, hlength, hsupport⟩
  · exact Or.inl ⟨rfl, hchain, rfl⟩
  · refine Or.inr ⟨different.symm, d, near, hd.symm, w.reverse, ?_, ?_⟩
    · rw [SimpleGraph.Walk.length_reverse, hlength]
    · rw [SimpleGraph.Walk.support_reverse, hsupport]

theorem PathList.reverse {paths paths' : List (List G.Person)} (list : PathList G src dst paths)
    (list' : PathList G dst src paths') : paths'.Perm (paths.map List.reverse) := by
  refine (List.perm_ext_iff_of_nodup list'.nodup
    (list.nodup.map List.reverse_injective)).mpr fun p => ?_
  rw [list'.mem, List.mem_map]
  constructor
  · intro h
    exact ⟨p.reverse, (list.mem _).mpr h.reverse, List.reverse_reverse p⟩
  · rintro ⟨q, hq, rfl⟩
    exact ((list.mem q).mp hq).reverse

def Row.reversed (row : Row) : Row := { row with personIdsInPath := row.personIdsInPath.reverse }

end IC14

open IC14

/-- From the second person to the first, IC14 gives the same paths read backwards, each with its
weight. -/
theorem paths_reversed (G : Graph) (simple : SimpleKnows G.knows) (contract : ReplyContract G)
    (sort sort' : StdSort) (person1Id person2Id : Int) :
    ∃ rows rows', IC14.exec sort G person1Id person2Id = some rows ∧
      IC14.exec sort' G person2Id person1Id = some rows' ∧
      rows'.Perm (rows.map Row.reversed) ∧
      rows'.map Row.pathWeight = rows.map Row.pathWeight := by
  cases first : getVertexIndex G.personId person1Id with
  | none =>
    exact ⟨[], [], exec_absent sort (Or.inl first), exec_absent sort' (Or.inr first),
      List.Perm.refl _, rfl⟩
  | some src =>
    cases second : getVertexIndex G.personId person2Id with
    | none =>
      exact ⟨[], [], exec_absent sort (Or.inr second), exec_absent sort' (Or.inl second),
        List.Perm.refl _, rfl⟩
    | some dst =>
      obtain rfl : G.personId src = person1Id := by simpa using List.find?_some first
      obtain rfl : G.personId dst = person2Id := by simpa using List.find?_some second
      obtain ⟨paths, list⟩ := exists_pathList simple src dst
      obtain ⟨paths', list'⟩ := exists_pathList simple dst src
      obtain ⟨rows, result, perm, sorted⟩ := list.exec_scored contract sort
      obtain ⟨rows', result', perm', sorted'⟩ := list'.exec_scored contract sort'
      have reversed : rows'.Perm (rows.map Row.reversed) := by
        refine perm'.trans (((list.reverse list').map _).trans
          (List.Perm.trans (List.Perm.of_eq ?_) (perm.map Row.reversed).symm))
        rw [List.map_map, List.map_map]
        refine List.map_congr_left fun path _ => ?_
        simp only [Function.comp_apply, pathRow, Row.reversed, pathScore_reverse,
          List.map_reverse]
      refine ⟨rows, rows', result, result', reversed, ?_⟩
      have weights : (rows'.map Row.pathWeight).Perm (rows.map Row.pathWeight) := by
        have mapped := reversed.map Row.pathWeight
        rwa [List.map_map] at mapped
      exact weights_eq_of_perm weights sorted sorted'

theorem paths_reversed_square :
    ∃ rows rows', IC14.exec stableSort answeredSquare 0 3 = some rows ∧
      IC14.exec stableSort answeredSquare 3 0 = some rows' ∧
      rows'.Perm (rows.map Row.reversed) ∧
      rows'.map Row.pathWeight = rows.map Row.pathWeight :=
  paths_reversed answeredSquare answeredSquare_simple answeredSquare_contract stableSort stableSort
    0 3

example : pathScore answeredSquare ([3, 1, 0] : List (Fin 4)) = 3 ∧
    pathScore answeredSquare ([3, 2, 0] : List (Fin 4)) = 0 := by decide +kernel

end LdbcInteractive
