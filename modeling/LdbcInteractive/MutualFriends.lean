import LdbcInteractive.FriendCircles
import LdbcInteractive.IC1
import LdbcInteractive.IC12
import LdbcInteractive.IC14Rows
import LdbcInteractive.IC2
import LdbcInteractive.IC4

/-!
# A friendship stored in both directions

The queries on direct friends walk the outgoing and then the incoming KNOWS edges of
a person. Where no visit mark is tested in between, a friend with an edge in each
direction is met twice. The path query shows this between any two friends.
-/

namespace LdbcInteractive

open EdgeTables GraphDistance PriorityQueues IC14

/-- The edges of `knows` and one more from `u` to `v`, anywhere in the lists. -/
def OneMore {V : Type} [DecidableEq V] (knows knows' : EdgeTable V V Unit) (u v : V) : Prop :=
  ∀ x y, (knows'.outgoing x).count y =
    (knows.outgoing x).count y + if x = u ∧ y = v then 1 else 0

theorem oneMore_insert {V : Type} [DecidableEq V] (knows : EdgeTable V V Unit) (u v : V) :
    OneMore knows (knows.insert u v ()) u v := by
  intro x y
  rw [EdgeTable.outgoing_insert, List.count_append]
  by_cases hx : x = u
  · by_cases hy : y = v
    · simp [hx, hy]
    · simp [hx, hy, Ne.symm hy]
  · simp [hx]

/-- Both runs end in the same way, with the same rows up to their order. -/
abbrev SameRows {ρ : Type} : Option (List ρ) → Option (List ρ) → Prop := Option.Rel List.Perm

/-- No direct-friend query can tell the two graphs apart, for any arguments. -/
structure SameResults (sort : StdSort) (lt : NbrLt) (G G' : Graph) : Prop where
  ic1 : ∀ personId firstName,
    SameRows (IC1.exec G personId firstName) (IC1.exec G' personId firstName)
  ic2 : ∀ personId maxDate,
    (IC2.exec lt G personId maxDate).Perm (IC2.exec lt G' personId maxDate)
  ic4 : ∀ personId startDate durationDays,
    (IC4.exec G lt personId startDate durationDays).Perm
      (IC4.exec G' lt personId startDate durationDays)
  ic12 : ∀ passes personId tagClassName,
    SameRows (IC12.exec G passes personId tagClassName)
      (IC12.exec G' passes personId tagClassName)
  ic14 : ∀ person1Id person2Id,
    SameRows (IC14.exec sort G person1Id person2Id) (IC14.exec sort G' person1Id person2Id)

/-- Between two friends the path query has one row for each KNOWS edge that joins them. -/
theorem IC14.exec_friends (sort : StdSort) (G : Graph) {a b : G.Person} (different : a ≠ b)
    (joined : Joined G.knows a b) :
    ∃ rows, IC14.exec sort G (G.personId a) (G.personId b) = some rows ∧
      rows.length = (G.knows.outgoing a).count b + (G.knows.outgoing b).count a := by
  have hd : Layer (undirected G.knows) a 1 b := layer_one_joined.mpr ⟨different.symm, joined⟩
  obtain ⟨label, onPath, marked, found⟩ := findPaths_near G different hd (by decide)
  rw [marked.routes_adjacent hd, G.knows.count_incoming] at found
  have stepping : Stepping (List.replicate
      ((G.knows.outgoing a).count b + (G.knows.outgoing b).count a) [a, b]) := by
    intro path hpath e he
    obtain rfl := List.eq_of_mem_replicate hpath
    obtain rfl : e = (a, b) := by simpa [hops] using he
    exact different
  obtain ⟨scores, rows, -, hlen, hrows, hperm, -⟩ := exec_rows sort found stepping
  refine ⟨rows, hrows, ?_⟩
  rw [hperm.length_eq, List.length_zipWith, hlen, Nat.min_self, List.length_replicate]

/-- With the reverse edge of a friendship the path query between the two has a row more, so
that never all direct-friend queries are left as they were. -/
theorem reverse_edge_not_neutral (sort : StdSort) (lt : NbrLt) (G : Graph) (a b : G.Person)
    (different : a ≠ b) (friends : b ∈ G.knows.outgoing a)
    (mutualKnows : EdgeTable G.Person G.Person Unit) (more : OneMore G.knows mutualKnows b a) :
    (∃ rows rows', IC14.exec sort G (G.personId a) (G.personId b) = some rows ∧
      IC14.exec sort (G.withKnows mutualKnows) (G.personId a) (G.personId b) = some rows' ∧
      rows'.length = rows.length + 1) ∧
    ¬ SameResults sort lt G (G.withKnows mutualKnows) := by
  have hout : (mutualKnows.outgoing a).count b = (G.knows.outgoing a).count b := by
    rw [more, if_neg fun h => different h.1, Nat.add_zero]
  have hin : (mutualKnows.outgoing b).count a = (G.knows.outgoing b).count a + 1 := by
    rw [more, if_pos ⟨rfl, rfl⟩]
  have friends' : b ∈ mutualKnows.outgoing a := by
    rw [← List.count_pos_iff, hout]
    exact List.count_pos_iff.mpr friends
  obtain ⟨rows, hrows, hlen⟩ := IC14.exec_friends sort G different (Or.inl friends)
  obtain ⟨rows', hrows', hlen'⟩ :=
    IC14.exec_friends sort (G.withKnows mutualKnows) different (Or.inl friends')
  have longer : rows'.length = rows.length + 1 := by
    rw [hlen, hlen', Nat.add_assoc, ← hin, ← hout]
  refine ⟨⟨rows, rows', hrows, hrows', longer⟩, fun same => ?_⟩
  have h := same.ic14 (G.personId a) (G.personId b)
  rw [hrows, show IC14.exec sort (G.withKnows mutualKnows) (G.personId a) (G.personId b) =
    some rows' from hrows'] at h
  cases h with
  | some perm =>
    have := perm.length_eq
    omega

def oneWay : EdgeTable (Fin 2) (Fin 2) Unit := .ofNumbers [(0, 1, ())]

def bothWays : EdgeTable (Fin 2) (Fin 2) Unit := oneWay.insert 1 0 ()

theorem taggedFriends_small : 2 ≤ kInvalidVid := by decide

/-- Two friends; the second one has a post with a tag, and a comment that replies to it. -/
def taggedFriends : Graph :=
  { Graph.numbered 2 1 1 taggedFriends_small oneWay with
    firstName := fun _ => "Jan"
    tagNum := 1
    tagName := fun _ => "Jazz"
    tagClassNum := 1
    tagClassName := fun _ => "Music"
    placeNum := 1
    placeName := fun _ => "Basel"
    postHasCreator := .ofNumbers [(0, 1, 10)]
    commentHasCreator := .ofNumbers [(0, 1, 20)]
    replyOfPost := .ofNumbers [(0, 0, ())]
    postHasTag := .ofNumbers [(0, 0, ())]
    hasType := .ofNumbers [(0, 0, ())]
    isSubclassOf := .ofNumbers []
    personIsLocatedIn := .ofNumbers [(0, 0, ()), (1, 0, ())]
    organisationIsLocatedIn := .ofNumbers []
    hasInterest := .ofNumbers []
    isPartOf := .ofNumbers []
    postIsLocatedIn := .ofNumbers []
    commentIsLocatedIn := .ofNumbers [] }

def taggedFriendsMutual : Graph := taggedFriends.withKnows bothWays

theorem reverse_edge_not_neutral_tagged :
    (∃ rows rows', IC14.exec stableSort taggedFriends 0 1 = some rows ∧
      IC14.exec stableSort taggedFriendsMutual 0 1 = some rows' ∧
      rows'.length = rows.length + 1) ∧
    ¬ SameResults stableSort .stored taggedFriends taggedFriendsMutual :=
  reverse_edge_not_neutral stableSort .stored taggedFriends (0 : Fin 2) (1 : Fin 2)
    (show (0 : Fin 2) ≠ 1 by decide) (show (1 : Fin 2) ∈ oneWay.outgoing 0 by decide)
    bothWays (oneMore_insert oneWay 1 0)

/-- Every one of the five queries counts or repeats the friend with two edges twice. -/
theorem reverse_edge_counted_twice :
    ¬ SameResults stableSort .stored taggedFriends taggedFriendsMutual ∧
    (IC1.exec taggedFriends 0 "Jan").map (List.map IC1.Row.friendId) = some [1] ∧
    (IC1.exec taggedFriendsMutual 0 "Jan").map (List.map IC1.Row.friendId) = some [1, 1] ∧
    (IC2.exec .stored taggedFriends 0 30).map MessageRow.messageId = [0, 1] ∧
    (IC2.exec .stored taggedFriendsMutual 0 30).map MessageRow.messageId =
      [0, 0, 1, 1] ∧
    (IC4.exec taggedFriends .stored 0 0 1).map IC4.Row.postCount = [1] ∧
    (IC4.exec taggedFriendsMutual .stored 0 0 1).map IC4.Row.postCount = [2] ∧
    (IC12.exec taggedFriends 3 0 "Music").map (List.map IC12.Row.personId) = some [1] ∧
    (IC12.exec taggedFriendsMutual 3 0 "Music").map (List.map IC12.Row.personId) =
      some [1, 1] ∧
    (IC14.exec stableSort taggedFriends 0 1).map (List.map IC14.Row.personIdsInPath) =
      some [[0, 1]] ∧
    (IC14.exec stableSort taggedFriendsMutual 0 1).map (List.map IC14.Row.personIdsInPath) =
      some [[0, 1], [0, 1]] := by
  constructor
  · exact fun same => absurd (same.ic2 0 30).length_eq (by decide +kernel)
  · decide +kernel

end LdbcInteractive
