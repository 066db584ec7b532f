import LdbcInteractive.FriendCircles
import LdbcInteractive.Messages

/-!
# IC9: the most recent messages of friends and friends of friends

Each message in the window is compared with the top of the heap itself, and the
friends are those that the 1-2 hop enumeration calls its function on.
-/

namespace LdbcInteractive

open EdgeTables PriorityQueues

namespace IC9

def kTopN : Nat := 20

abbrev Queue (G : Graph) := PriorityQueue (messageInfoComparer G.Message G.Person)

section Scan
variable {G : Graph} {P : Type}

/-- The function that `scan_messages` hands to the window. -/
def considerEdge (vertex : P → G.Message) (messageIdCol : P → Int) (friendVid : G.Person)
    (pq : Queue G) (e : P × DateTime) : Queue G :=
  let info : G.Info := edgeInfo vertex messageIdCol friendVid e
  if pq.size < kTopN then pq.push info
  else match pq.top? with
    | none => pq
    | some worst =>
      if info.creationDateMs > worst.creationDateMs then pq.pop.push info
      else if info.creationDateMs = worst.creationDateMs then
        if info.messageId < worst.messageId then pq.pop.push info else pq
      else pq

def scanMessages (lt : NbrLt) (hasCreatorIn : G.Person → List (P × DateTime))
    (vertex : P → G.Message) (messageIdCol : P → Int) (friendVid : G.Person)
    (maxDateMs : Int64) (pq : Queue G) : Queue G :=
  foreachIncomingNbrBetween lt hasCreatorIn friendVid 0 maxDateMs
    (considerEdge vertex messageIdCol friendVid) pq

def scanFriend (lt : NbrLt) (maxDateMs : Int64) (pq : Queue G) (friendVid : G.Person) :
    Queue G :=
  let pq := scanMessages lt G.postHasCreator.inEdges .post G.postId friendVid maxDateMs pq
  scanMessages lt G.commentHasCreator.inEdges .comment G.commentId friendVid maxDateMs pq

end Scan

def exec (lt : NbrLt) (G : Graph) (personId : Int) (maxDateMs : Int64) : List MessageRow :=
  match getVertexIndex G.personId personId with
  | none => []
  | some root =>
    let pq : Queue G := foreachKnows1d2dNeighbor G.knows root (scanFriend lt maxDateMs) .empty
    pq.drain.reverse.map (messageRow G)

section Selection
variable {G : Graph} {P : Type}

theorem considerEdge_eq (vertex : P → G.Message) (messageIdCol : P → Int)
    (friendVid : G.Person) (pq : Queue G) (e : P × DateTime) :
    considerEdge vertex messageIdCol friendVid pq e =
      pq.offer kTopN messageBefore (edgeInfo vertex messageIdCol friendVid e) := by
  let info : G.Info := edgeInfo vertex messageIdCol friendVid e
  refine PriorityQueue.eq_offer (by decide) ?_ ?_
  · intro room
    exact if_pos room
  · intro worst full top
    have test := (messagesByDate G.Message G.Person).if_before info worst (pq.pop.push info) pq
    rw [considerEdge, if_neg full, top]
    refine Eq.trans ?_ test
    simp only [ite_and]
    rfl

theorem scanMessages_eq (lt : NbrLt) (hasCreatorIn : G.Person → List (P × DateTime))
    (vertex : P → G.Message) (messageIdCol : P → Int) (friendVid : G.Person)
    (maxDateMs : Int64) (pq : Queue G) :
    scanMessages lt hasCreatorIn vertex messageIdCol friendVid maxDateMs pq =
      (windowOf lt hasCreatorIn vertex messageIdCol (maxDateMs + 1).toInt friendVid).foldl
        (PriorityQueue.offer kTopN messageBefore) pq := by
  rw [scanMessages, foreachIncomingNbrBetween, foreachIncomingNbrLt, windowOf, List.foldl_map,
    List.foldl_filter]
  congr 1
  funext pq e
  by_cases he : 0 ≤ e.2
  · simp [he, considerEdge_eq]
  · simp [he, not_le.mp he]

/-- The rows are the selection from all messages of the circle in the window. -/
theorem exec_eq (lt : NbrLt) {root : G.Person} (maxDateMs : Int64) :
    exec lt G (G.personId root) maxDateMs =
      ((messageInfoComparer G.Message G.Person).firstN kTopN
        ((oneTwoCalls G.knows root).flatMap
          (friendMessages lt G (maxDateMs + 1).toInt))).map (messageRow G) := by
  have friend : scanFriend (G := G) lt maxDateMs = fun pq f =>
      (friendMessages lt G (maxDateMs + 1).toInt f).foldl
        (PriorityQueue.offer kTopN messageBefore) pq := by
    funext pq f
    rw [scanFriend, scanMessages_eq, scanMessages_eq, friendMessages, List.foldl_append]
  rw [exec, getVertexIndex_self G.personKey]
  simp only [foreachKnows1d2dNeighbor_eq, PriorityQueue.drain, List.reverse_reverse]
  rw [← PriorityQueue.foldl_offer_selects fun _ _ => rfl, List.foldl_flatMap, friend]
  rfl

end Selection

end IC9

end LdbcInteractive
