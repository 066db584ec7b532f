import LdbcInteractive.CachedTops
import LdbcInteractive.Messages

/-!
# IC2: the most recent messages of direct friends

The scan keeps the date of the heap's top in a variable that starts at 0. While the
heap fills up it stays 0; afterwards it is the date of the top, so that the test
against it is the test against the top.
-/

namespace LdbcInteractive

open EdgeTables PriorityQueues DatedOrders

namespace IC2

def kTopN : Nat := 20

abbrev Queue (G : Graph) := PriorityQueue (messageInfoComparer G.Message G.Person)

/-- The heap with the cached date `min_date_ms`. -/
structure Scan (G : Graph) where
  pq : Queue G
  minDateMs : Int

section Scan
variable {G : Graph} {P : Type}

/-- `min_date_ms = pq.top().creation_date_ms`. -/
def cacheTop (pq : Queue G) (minDateMs : Int) : Scan G :=
  ⟨pq, (pq.top?.map MessageInfo.creationDateMs).getD minDateMs⟩

/-- The function that `scan_messages_for_friend` hands to the view. -/
def considerEdge (vertex : P → G.Message) (messageIdCol : P → Int) (friendVid : G.Person)
    (st : Scan G) (e : P × DateTime) : Scan G :=
  let creationDateMs := e.2
  if creationDateMs < st.minDateMs then st
  else if st.pq.size < kTopN then
    let pq := st.pq.push (edgeInfo vertex messageIdCol friendVid e)
    if pq.size = kTopN then cacheTop pq st.minDateMs else { st with pq := pq }
  else if creationDateMs > st.minDateMs then
    cacheTop (st.pq.pop.push (edgeInfo vertex messageIdCol friendVid e)) st.minDateMs
  else if creationDateMs = st.minDateMs then
    match st.pq.top? with
    | none => st
    | some worst =>
      if messageIdCol e.1 < worst.messageId then
        { st with pq := st.pq.pop.push (edgeInfo vertex messageIdCol friendVid e) }
      else st
  else st

def scanMessagesForFriend (lt : NbrLt) (hasCreatorIn : G.Person → List (P × DateTime))
    (vertex : P → G.Message) (messageIdCol : P → Int) (friendVid : G.Person)
    (maxDateMs : Int64) (st : Scan G) : Scan G :=
  foreachIncomingNbrLt lt hasCreatorIn friendVid (maxDateMs + 1).toInt
    (considerEdge vertex messageIdCol friendVid) st

def scanFriend (lt : NbrLt) (maxDateMs : Int64) (st : Scan G) (friendVid : G.Person) : Scan G :=
  let st := scanMessagesForFriend lt G.postHasCreator.inEdges .post G.postId friendVid
    maxDateMs st
  scanMessagesForFriend lt G.commentHasCreator.inEdges .comment G.commentId friendVid
    maxDateMs st

end Scan

def exec (lt : NbrLt) (G : Graph) (personId : Int) (maxDateMs : Int64) : List MessageRow :=
  match getVertexIndex G.personId personId with
  | none => []
  | some root =>
    let st := foreachKnowsNeighbor G.knows root (scanFriend lt maxDateMs) ⟨.empty, 0⟩
    st.pq.drain.reverse.map (messageRow G)

section Cache
variable {G : Graph} {P : Type}

/-- The cached date is 0 until the heap is full and then the date of the top. -/
structure Cached (st : Scan G) : Prop where
  nonneg : ∀ m ∈ st.pq.items, 0 ≤ m.creationDateMs
  filling : st.pq.size < kTopN → st.minDateMs = 0
  full : ∀ worst, st.pq.top? = some worst → ¬ st.pq.size < kTopN →
    st.minDateMs = worst.creationDateMs

def offerMessage (pq : Queue G) (m : G.Info) : Queue G :=
  pq.offer kTopN (messageInfoComparer G.Message G.Person).before m

theorem cached_cacheTop {pq : Queue G} {minDateMs : Int}
    (nonneg : ∀ m ∈ pq.items, 0 ≤ m.creationDateMs) (full : ¬ pq.size < kTopN) :
    Cached (cacheTop pq minDateMs) where
  nonneg := nonneg
  filling h := absurd h full
  full worst top _ := by
    have htop : pq.top? = some worst := top
    simp [cacheTop, htop]

theorem Cached.minDate_nonneg {st : Scan G} (h : Cached st) (hsize : ¬ st.pq.size < kTopN) :
    0 ≤ st.minDateMs := by
  obtain ⟨worst, htop⟩ :=
    PriorityQueue.exists_top ((Nat.succ_pos 19).trans_le (not_lt.mp hsize))
  rw [h.full worst htop hsize]
  exact h.nonneg worst (List.mem_of_getLast? htop)

section Step
variable {st : Scan G} (vertex : P → G.Message) (messageIdCol : P → Int) (friendVid : G.Person)
  (e : P × DateTime)

/-- While the heap has room a message is pushed, unless its date is before 0. -/
theorem Cached.considerEdge_of_room (h : Cached st) (hsize : st.pq.size < kTopN) :
    (considerEdge vertex messageIdCol friendVid st e).pq =
      (if 0 ≤ e.2 then offerMessage st.pq (edgeInfo vertex messageIdCol friendVid e)
        else st.pq) ∧
      Cached (considerEdge vertex messageIdCol friendVid st e) := by
  let m : G.Info := edgeInfo vertex messageIdCol friendVid e
  have offered : offerMessage st.pq m = st.pq.push m := PriorityQueue.offer_of_lt hsize m
  unfold IC2.considerEdge
  rw [h.filling hsize]
  by_cases he : 0 ≤ e.2
  · have nonneg : ∀ x ∈ (st.pq.push m).items, 0 ≤ x.creationDateMs := by
      intro x hx
      rw [PriorityQueue.items_push, (Comparer.place_perm _ m _).mem_iff, List.mem_cons] at hx
      rcases hx with rfl | hx
      · exact he
      · exact h.nonneg x hx
    rw [if_neg (not_lt.mpr he), if_pos hsize, if_pos he, offered]
    by_cases hfull : (st.pq.push m).size = kTopN
    · rw [if_pos hfull]
      exact ⟨rfl, cached_cacheTop nonneg hfull.not_lt⟩
    · rw [if_neg hfull]
      refine ⟨rfl, nonneg, fun _ => rfl, fun worst _ hnot => ?_⟩
      have hlen := PriorityQueue.size_push st.pq m
      exact absurd (show (st.pq.push m).size < kTopN by omega) hnot
  · rw [if_pos (not_le.mp he), if_neg he]
    exact ⟨rfl, h⟩

/-- A full heap: the cached date decides unless it ties, and then the identifiers do. -/
theorem Cached.considerEdge_of_full (h : Cached st) (hsize : ¬ st.pq.size < kTopN) :
    (considerEdge vertex messageIdCol friendVid st e).pq =
      offerMessage st.pq (edgeInfo vertex messageIdCol friendVid e) ∧
      Cached (considerEdge vertex messageIdCol friendVid st e) := by
  let byDate := messagesByDate G.Message G.Person
  let m : G.Info := edgeInfo vertex messageIdCol friendVid e
  have caches : byDate.Caches kTopN st.pq st.minDateMs := h.full
  have step : (IC2.considerEdge vertex messageIdCol friendVid st e).pq = offerMessage st.pq m ∧
      byDate.Caches kTopN (IC2.considerEdge vertex messageIdCol friendVid st e).pq
        (IC2.considerEdge vertex messageIdCol friendVid st e).minDateMs := by
    unfold IC2.considerEdge
    refine caches.consider (by decide) hsize ?_ ?_ ?_
    · intro older
      have hdate : e.2 < st.minDateMs := older
      rw [if_pos hdate]
      exact ⟨rfl, rfl⟩
    · intro worst htop tie
      have hdate : e.2 = st.minDateMs := tie
      rw [if_neg hdate.not_lt, if_neg hsize, if_neg hdate.not_gt, if_pos hdate, htop]
      exact Dated.ite_scan Scan.pq Scan.minDateMs rfl rfl
    · intro newer
      have hdate : e.2 > st.minDateMs := newer
      rw [if_neg hdate.not_gt, if_neg hsize, if_pos hdate]
      exact ⟨rfl, rfl⟩
  have nonneg : ∀ x ∈ (offerMessage st.pq m).items, 0 ≤ x.creationDateMs := by
    intro x hx
    rcases (PriorityQueue.offer_mem _ _ _ _).2 x hx with rfl | hold
    · by_contra hneg
      -- A message dated before 0 is older than the cached date and leaves the heap alone.
      have older : e.2 < st.minDateMs := (not_le.mp hneg).trans_le (h.minDate_nonneg hsize)
      have same : offerMessage st.pq m = st.pq := caches.offer_older hsize older
      rw [same] at hx
      exact hneg (h.nonneg m hx)
    · exact h.nonneg x hold
  have full : ¬ (offerMessage st.pq m).size < kTopN := by
    rwa [offerMessage, PriorityQueue.size_offer_full _ hsize]
  obtain ⟨hpq, hcaches⟩ := step
  refine ⟨hpq, ?_, ?_, hcaches⟩
  · rwa [hpq]
  · rw [hpq]
    exact fun room => absurd room full

/-- One edge: what the cached date rejects the heap would reject, or is dated before 0. -/
theorem Cached.considerEdge (h : Cached st) :
    (considerEdge vertex messageIdCol friendVid st e).pq =
      (if 0 ≤ e.2 then offerMessage st.pq (edgeInfo vertex messageIdCol friendVid e)
        else st.pq) ∧
      Cached (considerEdge vertex messageIdCol friendVid st e) := by
  by_cases hsize : st.pq.size < kTopN
  · exact h.considerEdge_of_room vertex messageIdCol friendVid e hsize
  · by_cases he : 0 ≤ e.2
    · rw [if_pos he]
      exact h.considerEdge_of_full vertex messageIdCol friendVid e hsize
    · -- The cached date is at least 0, so an earlier one is not considered.
      have hlt : e.2 < st.minDateMs := (not_le.mp he).trans_le (h.minDate_nonneg hsize)
      unfold IC2.considerEdge
      rw [if_neg he, if_pos hlt]
      exact ⟨rfl, h⟩

end Step

theorem Cached.foldl {st : Scan G} (h : Cached st) (vertex : P → G.Message)
    (messageIdCol : P → Int) (friendVid : G.Person) (es : List (P × DateTime)) :
    (es.foldl (IC2.considerEdge vertex messageIdCol friendVid) st).pq =
      ((es.filter fun e => 0 ≤ e.2).map (edgeInfo vertex messageIdCol friendVid)).foldl
        offerMessage st.pq ∧
      Cached (es.foldl (IC2.considerEdge vertex messageIdCol friendVid) st) := by
  induction es generalizing st with
  | nil => exact ⟨rfl, h⟩
  | cons e rest ih =>
    obtain ⟨hpq, hcached⟩ := h.considerEdge vertex messageIdCol friendVid e
    obtain ⟨hrest, hlast⟩ := ih hcached
    refine ⟨?_, hlast⟩
    rw [List.foldl_cons, hrest, hpq, List.filter_cons]
    by_cases he : 0 ≤ e.2 <;> simp [he]

theorem Cached.scanFriend {st : Scan G} (h : Cached st) (lt : NbrLt) (maxDateMs : Int64)
    (friendVid : G.Person) :
    (scanFriend lt maxDateMs st friendVid).pq =
      (friendMessages lt G (maxDateMs + 1).toInt friendVid).foldl offerMessage st.pq ∧
      Cached (scanFriend lt maxDateMs st friendVid) := by
  obtain ⟨hposts, cached⟩ := h.foldl .post G.postId friendVid
    (lt.order G.postHasCreator.inEdges friendVid (maxDateMs + 1).toInt)
  obtain ⟨hcomments, cached⟩ := cached.foldl .comment G.commentId friendVid
    (lt.order G.commentHasCreator.inEdges friendVid (maxDateMs + 1).toInt)
  refine ⟨?_, cached⟩
  rw [hposts] at hcomments
  rw [friendMessages, List.foldl_append]
  exact hcomments

theorem Cached.scanFriends {st : Scan G} (h : Cached st) (lt : NbrLt) (maxDateMs : Int64)
    (friends : List G.Person) :
    (friends.foldl (IC2.scanFriend lt maxDateMs) st).pq =
      (friends.flatMap (friendMessages lt G (maxDateMs + 1).toInt)).foldl offerMessage st.pq := by
  induction friends generalizing st with
  | nil => rfl
  | cons f rest ih =>
    obtain ⟨hpq, cached⟩ := h.scanFriend lt maxDateMs f
    rw [List.foldl_cons, ih cached, hpq, List.flatMap_cons, List.foldl_append]

theorem cached_start : Cached (⟨.empty, 0⟩ : Scan G) where
  nonneg m hm := by cases hm
  filling _ := rfl
  full worst _ hfull := absurd (Nat.succ_pos 19) hfull

/-- The rows are the selection from all messages of the direct friends in the window. -/
theorem exec_eq (lt : NbrLt) {root : G.Person} (maxDateMs : Int64) :
    exec lt G (G.personId root) maxDateMs =
      ((messageInfoComparer G.Message G.Person).firstN kTopN
        ((G.knows.outgoing root ++ G.knows.incoming root).flatMap
          (friendMessages lt G (maxDateMs + 1).toInt))).map (messageRow G) := by
  have hpq := cached_start.scanFriends lt maxDateMs
    (G.knows.outgoing root ++ G.knows.incoming root)
  rw [List.foldl_append] at hpq
  rw [exec, getVertexIndex_self G.personKey]
  simp only [foreachKnowsNeighbor, hpq, PriorityQueue.drain, List.reverse_reverse]
  rw [← PriorityQueue.foldl_offer_selects fun _ _ => rfl]
  rfl

end Cache

section Result
variable {G : Graph}

theorem friendPosts_small : 2 ≤ kInvalidVid := by decide

/-- Two friends; the second one has two posts. -/
def friendPosts : Graph :=
  { Graph.numbered 2 2 0 friendPosts_small (.ofNumbers [(0, 1, ())]) with
    postHasCreator := .ofNumbers [(0, 1, 10), (1, 1, 20)] }

end Result

end IC2

end LdbcInteractive
