import LdbcInteractive.Hops
import LdbcInteractive.ShortReads

/-!
# IS3 and IC13 speak of one relation

IS3 lists the friends of a person and IC13 counts steps without asking IS3. Each listing
is mirrored by those of the friends, and the length of IC13 is the least number of times
IS3 has to be asked to come from the first person to the second.
-/

namespace LdbcInteractive

open EdgeTables GraphDistance PriorityQueues IC13

namespace IS3
variable {S : Store}

/-- The dates at which one person lists another, in the order of the rows. -/
def friendDates (S : Store) (sort : StdSort) (personId friendId : Int) : List DateTime :=
  ((exec S sort personId).filter fun row => row.personId = friendId).map
    Row.friendshipCreationDate

def Listed (S : Store) (sort : StdSort) (personId friendId : Int) : Prop :=
  ∃ row ∈ exec S sort personId, row.personId = friendId

theorem exec_perm (sort : StdSort) (root : S.Person) :
    (exec S sort (S.personId root)).Perm ((friendships S root).map (row S)) := by
  rw [exec_known]
  exact (sort.perm (friendOrder S) _).map _

theorem exec_unknown (sort : StdSort) {personId : Int}
    (absent : getVertexIndex S.personId personId = none) : exec S sort personId = [] := by
  simp only [exec, absent]

theorem exec_sorted (sort : StdSort) (personId : Int) :
    (exec S sort personId).Pairwise fun a b =>
      b.friendshipCreationDate ≤ a.friendshipCreationDate := by
  cases known : getVertexIndex S.personId personId with
  | none =>
    rw [exec_unknown sort known]
    exact List.Pairwise.nil
  | some root =>
    rw [← getVertexIndex_id known, exec_known]
    exact List.pairwise_map.mpr ((sort.sorted (friendOrder S) _).imp fun h =>
      (byDate S).date_le h)

theorem listed_iff (sort : StdSort) (root : S.Person) (friendId : Int) :
    Listed S sort (S.personId root) friendId ↔
      ∃ v, friendId = S.personId v ∧ Joined S.knows root v := by
  have members : ∀ v, Joined S.knows root v ↔
      ∃ d, (v, d) ∈ S.friendship.outEdges root ++ S.friendship.inEdges root := by
    intro v
    rw [Joined, ← S.friendship_out, ← S.friendship_in]
    simp [EdgeTable.outgoing, EdgeTable.incoming, exists_or]
  constructor
  · rintro ⟨row, hrow, rfl⟩
    obtain ⟨info, hinfo, rfl⟩ := List.mem_map.mp ((exec_perm sort root).mem_iff.mp hrow)
    obtain ⟨e, he, rfl⟩ := List.mem_map.mp hinfo
    exact ⟨e.1, rfl, (members e.1).mpr ⟨e.2, he⟩⟩
  · rintro ⟨v, rfl, joined⟩
    obtain ⟨d, hd⟩ := (members v).mp joined
    exact ⟨row S (friendInfo S (v, d)),
      (exec_perm sort root).mem_iff.mpr (List.mem_map_of_mem (List.mem_map_of_mem hd)), rfl⟩

/-- The dates of one friend are those of the edges between the two, whichever way they go. -/
theorem friendDates_perm (sort : StdSort) (a b : S.Person) :
    (friendDates S sort (S.personId a) (S.personId b)).Perm
      (((S.friendship.outEdges a).filter fun e => e.1 = b).map Prod.snd ++
        ((S.friendship.inEdges a).filter fun e => e.1 = b).map Prod.snd) := by
  have dates := ((exec_perm sort a).filter fun row => row.personId = S.personId b).map
    Row.friendshipCreationDate
  refine dates.trans (List.Perm.of_eq ?_)
  simp only [friendships, List.map_map, List.filter_map, Function.comp_def, row, friendInfo,
    S.personKey.eq_iff, List.filter_append, List.map_append]

end IS3

open IS3

/-- Two persons list each other at the same dates, in the same order. -/
theorem friendships_mutual (S : Store) (sort sort' : StdSort) (a b : S.Person) :
    friendDates S sort (S.personId a) (S.personId b) =
      friendDates S sort' (S.personId b) (S.personId a) := by
  have mirrored : (friendDates S sort (S.personId a) (S.personId b)).Perm
      (friendDates S sort' (S.personId b) (S.personId a)) := by
    refine (friendDates_perm sort a b).trans (List.Perm.trans ?_ (friendDates_perm sort' b a).symm)
    refine ((S.friendship.converse a b).append (S.friendship.converse b a).symm).trans ?_
    exact List.perm_append_comm
  have sorted : ∀ (sort : StdSort) (a b : S.Person),
      (friendDates S sort (S.personId a) (S.personId b)).Pairwise fun d d' => d' ≤ d :=
    fun sort a _ => List.pairwise_map.mpr ((exec_sorted sort (S.personId a)).filter _)
  exact mirrored.eq_of_pairwise (fun _ _ _ _ h h' => le_antisymm h' h) (sorted sort a b)
    (sorted sort' b a)

section Steps
variable {S : Store} (sort : StdSort) {root : S.Person} {personId : Int} {n : ℕ}

theorem IS3.distance_le_of_steps (h : Steps (Listed S sort) n (S.personId root) personId) :
    between (undirected S.knows) (some root) (getVertexIndex S.personId personId) ≤ n := by
  obtain ⟨v, rfl, hv⟩ := h.ball (G := undirected S.knows) (f := S.personId) fun u y step => by
    obtain ⟨v, hy, joined⟩ := (listed_iff sort u y).mp step
    exact ⟨v, hy, joined.ball_succ (ball_zero_iff.mpr rfl)⟩
  rw [getVertexIndex_self S.personKey]
  exact hv

theorem IS3.steps_of_distance
    (h : between (undirected S.knows) (some root) (getVertexIndex S.personId personId) = n) :
    Steps (Listed S sort) n (S.personId root) personId := by
  cases known : getVertexIndex S.personId personId with
  | none =>
    rw [known] at h
    exact absurd h (ENat.top_ne_natCast n)
  | some v =>
    rw [known] at h
    rw [← getVertexIndex_id known]
    have layer : Layer (undirected S.knows) root n v := h
    exact layer.steps fun u w hadj =>
      (listed_iff sort u _).mpr ⟨w, rfl, ((adj_iff S.knows u w).mp hadj).2⟩

end Steps

/-- The length that IC13 reports is the least number of steps from listing to listing, and -1
says that no listings lead from the one person to the other. -/
theorem length_of_listings (S : Store) (small : S.personNum < 2 ^ 31) (sort : StdSort)
    (root : S.Person) (personId : Int) :
    ∃ len, IC13.exec S.toGraph (S.personId root) personId = some len ∧
      (∀ n : ℕ, len.toInt = n ↔ Steps (Listed S sort) n (S.personId root) personId ∧
        ∀ m < n, ¬ Steps (Listed S sort) m (S.personId root) personId) ∧
      (len = -1 ↔ ∀ n, ¬ Steps (Listed S sort) n (S.personId root) personId) := by
  obtain ⟨len, result, infinite, read⟩ := exec_between small (S.personId root) personId
  rw [getVertexIndex_self S.personKey] at read
  refine ⟨len, result, fun n => ?_, ?_⟩
  · rw [← readLength_eq_iff, read]
    constructor
    · intro h
      refine ⟨steps_of_distance sort h, fun m hm steps => ?_⟩
      have short := distance_le_of_steps sort steps
      rw [h, Nat.cast_le] at short
      omega
    · rintro ⟨steps, least⟩
      have short := distance_le_of_steps sort steps
      obtain ⟨j, hj⟩ := ENat.ne_top_iff_exists.mp
        (ne_top_of_le_ne_top (ENat.natCast_ne_top n) short)
      rw [← hj, Nat.cast_le] at short
      obtain rfl | hlt := short.eq_or_lt
      · exact hj.symm
      · exact absurd (steps_of_distance sort hj.symm) (least j hlt)
  · constructor
    · rintro rfl n steps
      have short := distance_le_of_steps sort steps
      rw [← read] at short
      exact ENat.natCast_ne_top n (top_le_iff.mp short)
    · intro none
      refine infinite (read.trans (by_contra fun finite => ?_))
      obtain ⟨j, hj⟩ := ENat.ne_top_iff_exists.mp finite
      exact none j (steps_of_distance sort hj.symm)

theorem length_of_listings_seminar :
    ∃ len, IC13.exec seminar.toGraph 0 2 = some len ∧
      (∀ n : ℕ, len.toInt = n ↔ Steps (Listed seminar stableSort) n 0 2 ∧
        ∀ m < n, ¬ Steps (Listed seminar stableSort) m 0 2) ∧
      (len = -1 ↔ ∀ n, ¬ Steps (Listed seminar stableSort) n 0 2) :=
  length_of_listings seminar (by decide) stableSort (0 : Fin 3) 2

end LdbcInteractive
