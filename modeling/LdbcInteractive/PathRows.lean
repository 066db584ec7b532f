import LdbcInteractive.PathQueries

/-!
# IC14: the rows as a function of the graph

The path list of two persons, whether distinct or not, near or far, is a set given by
the KNOWS graph, and on the reply contract the score of a path is the sum of the scores
of its pairs. The rows are then known up to the order of equal scores.
-/

namespace LdbcInteractive

open EdgeTables GraphDistance PriorityQueues

namespace IC14

variable {G : Graph} {src dst : G.Person} {paths : List (List G.Person)}

def pathScore (G : Graph) (path : List G.Person) : Int :=
  ((hops path).map fun e => pairScore G e.1 e.2).sum

/-- Cached or not, a score is the sum over the pairs of the path. -/
theorem scorePaths_sum (contract : ReplyContract G) (stepping : Stepping paths)
    (nonempty : paths ≠ []) : scorePaths paths = some (paths.map (pathScore G)) := by
  cases paths with
  | nil => exact absurd rfl nonempty
  | cons path rest =>
    cases rest with
    | nil => rw [scorePaths, singleScore_eq, List.map_cons, List.map_nil, pathScore]
    | cons other rest =>
      obtain ⟨st, hpeel, hcached⟩ := peel_caches (pairScore_scoring contract) stepping
      rw [scorePaths_of_several (by simp), hpeel, Option.bind_some]
      refine mapM_of_forall fun path hpath => cachedScore_of_cached fun e he => ?_
      obtain ⟨_, rfl, hscore⟩ := hcached path hpath e he
      exact hscore

/-- The paths that are enumerated: the person alone for equal ends, unless the search follows a
short chain; the shortest paths of up to 127 edges for distinct ends. -/
def Enumerated (G : Graph) (src dst : G.Person) (p : List G.Person) : Prop :=
  (src = dst ∧ ¬ ShortChain G.knows src ∧ p = [src]) ∨
    (src ≠ dst ∧ ∃ d, d ≤ 127 ∧ Layer (undirected G.knows) src d dst ∧
      ∃ w : (undirected G.knows).Walk src dst, w.length = d ∧ w.support = p)

structure PathList (G : Graph) (src dst : G.Person) (paths : List (List G.Person)) : Prop where
  found : findPaths G src dst = some paths
  nodup : paths.Nodup
  mem : ∀ p, p ∈ paths ↔ Enumerated G src dst p

theorem pathList_nil (found : findPaths G src dst = some [])
    (none : ∀ p, ¬ Enumerated G src dst p) : PathList G src dst [] where
  found := found
  nodup := List.nodup_nil
  mem p := iff_of_false (by simp) (none p)

theorem exists_pathList (simple : SimpleKnows G.knows) (src dst : G.Person) :
    ∃ paths, PathList G src dst paths := by
  by_cases same : src = dst
  · subst same
    rcases findPaths_same src with ⟨hchain, found⟩ | ⟨hchain, found⟩
    · refine ⟨[], pathList_nil found ?_⟩
      rintro p (⟨-, hother, -⟩ | ⟨hne, -⟩)
      · exact hother hchain
      · exact hne rfl
    · refine ⟨[[src]], found, List.nodup_singleton _, fun p => ?_⟩
      rw [List.mem_singleton]
      constructor
      · intro h
        exact Or.inl ⟨rfl, hchain, h⟩
      · rintro (⟨-, -, h⟩ | ⟨hne, -⟩)
        · exact h
        · exact absurd rfl hne
  · by_cases reachable : (undirected G.knows).Reachable src dst
    · obtain ⟨d, hd⟩ := exists_layer_of_reachable reachable
      by_cases near : d ≤ 127
      · obtain ⟨paths, shortest⟩ := shortestPaths_near same hd near
        refine ⟨paths, shortest.found, shortest.nodup simple, fun p => ?_⟩
        rw [shortest.mem]
        constructor
        · intro h
          exact Or.inr ⟨same, d, near, hd, h⟩
        · rintro (⟨heq, -⟩ | ⟨-, e, -, he, h⟩)
          · exact absurd heq same
          · rwa [hd.unique he]
      · refine ⟨[], pathList_nil (findPaths_far G hd (not_le.mp near)) ?_⟩
        rintro p (⟨heq, -⟩ | ⟨-, e, hnear, he, -⟩)
        · exact same heq
        · exact near (hd.unique he ▸ hnear)
    · refine ⟨[], pathList_nil (findPaths_unreachable G reachable) ?_⟩
      rintro p (⟨heq, -⟩ | ⟨-, e, -, he, -⟩)
      · exact same heq
      · exact reachable he.reachable

theorem PathList.stepping (list : PathList G src dst paths) : Stepping paths := by
  intro path hpath e he
  rcases (list.mem path).mp hpath with ⟨-, -, rfl⟩ | ⟨-, d, -, -, w, -, rfl⟩
  · simp [hops] at he
  · exact (hops_support w e he).ne

/-- The rows are the enumerated paths with their sums, best first. -/
theorem PathList.exec_scored (list : PathList G src dst paths) (contract : ReplyContract G)
    (sort : StdSort) : ∃ rows, exec sort G (G.personId src) (G.personId dst) = some rows ∧
      rows.Perm (paths.map fun path => pathRow path (pathScore G path)) ∧
      rows.Pairwise fun a b => b.pathWeight ≤ a.pathWeight := by
  obtain ⟨scores, rows, scored, length, result, perm, sorted⟩ :=
    exec_rows sort list.found list.stepping
  refine ⟨rows, result, perm.trans (List.Perm.of_eq ?_), sorted⟩
  by_cases hnil : paths = []
  · subst hnil
    rfl
  · have hscores := scored hnil
    rw [scorePaths_sum contract list.stepping hnil, Option.some_inj] at hscores
    rw [← hscores, List.zipWith_map_right, List.zipWith_self]

/-- Rows sorted by weight have the same weights in the same places, whatever ties there are. -/
theorem weights_eq_of_perm {rows rows' : List Row}
    (perm : (rows'.map Row.pathWeight).Perm (rows.map Row.pathWeight))
    (sorted : rows.Pairwise fun a b => b.pathWeight ≤ a.pathWeight)
    (sorted' : rows'.Pairwise fun a b => b.pathWeight ≤ a.pathWeight) :
    rows'.map Row.pathWeight = rows.map Row.pathWeight :=
  perm.eq_of_pairwise (fun _ _ _ _ hab hba => le_antisymm hba hab)
    (List.pairwise_map.mpr sorted') (List.pairwise_map.mpr sorted)

theorem exec_absent (sort : StdSort) {person1Id person2Id : Int}
    (absent : getVertexIndex G.personId person1Id = none ∨
      getVertexIndex G.personId person2Id = none) :
    exec sort G person1Id person2Id = some [] := by
  rcases absent with absent | absent
  · rw [exec, absent]
  · rw [exec, absent]
    cases getVertexIndex G.personId person1Id <;> rfl

theorem answeredSquare_small : 4 ≤ kInvalidVid := by decide

/-- The square with the corners 0, 1, 3, 2; person 1 answers a post of person 0, and person 3
that answer. -/
def answeredSquare : Graph :=
  { Graph.numbered 4 1 2 answeredSquare_small
      (.ofNumbers [(0, 1, ()), (0, 2, ()), (1, 3, ()), (2, 3, ())]) with
    postHasCreator := .ofNumbers [(0, 0, 10)]
    commentHasCreator := .ofNumbers [(0, 1, 20), (1, 3, 30)]
    replyOfPost := .ofNumbers [(0, 0, ())]
    replyOfComment := .ofNumbers [(1, 0, ())] }

theorem answeredSquare_simple : SimpleKnows answeredSquare.knows := by
  unfold SimpleKnows
  decide +kernel

theorem answeredSquare_contract : ReplyContract answeredSquare where
  postCreator := by decide
  commentCreator := by decide
  oneParent := by decide

end IC14

end LdbcInteractive
