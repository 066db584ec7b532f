import LdbcInteractive.NarrowedWindows

/-!
# One more message

A message that gets its author takes its place among the rows of IC2 and IC9 of those whom
the author stands near to, by its date and id, and the last row makes room where there are
20 already. The rows of all others stay.
-/

namespace LdbcInteractive

open EdgeTables GraphDistance PriorityQueues DatedOrders

/-- The order of the rows of IC2 and IC9. -/
def rowBefore (lhs rhs : MessageRow) : Bool :=
  if lhs.messageCreationDate > rhs.messageCreationDate then true
  else if lhs.messageCreationDate < rhs.messageCreationDate then false
  else lhs.messageId < rhs.messageId

theorem rowBefore_iff (a b : MessageRow) :
    rowBefore a b = true ↔ b.messageCreationDate < a.messageCreationDate ∨
      a.messageCreationDate = b.messageCreationDate ∧
        OrderDual.toDual b.messageId < OrderDual.toDual a.messageId := dateTest_iff

def rowComparer : Comparer MessageRow :=
  datedComparer rowBefore MessageRow.messageCreationDate
    (fun row => OrderDual.toDual row.messageId) rowBefore_iff

section Creation
variable {G : Graph} (message : G.Message) (author : G.Person) (date : DateTime)

def postCreators : EdgeTable G.Post G.Person DateTime :=
  match message with
  | .post v => G.postHasCreator.insert v author date
  | .comment _ => G.postHasCreator

def commentCreators : EdgeTable G.Comment G.Person DateTime :=
  match message with
  | .post _ => G.commentHasCreator
  | .comment v => G.commentHasCreator.insert v author date

end Creation

/-- The graph with one more edge from a message to an author: one more message is a vertex of the
graph that gets its creator edge. -/
def Graph.withCreator (G : Graph) (message : G.Message) (author : G.Person) (date : DateTime) :
    Graph :=
  { G with
    postHasCreator := postCreators message author date
    commentHasCreator := commentCreators message author date }

section Windows
variable {G : Graph} {P : Type} [DecidableEq P]

/-- The new message, to a person whose messages are looked through with the threshold. -/
def arrival (message : G.Message) (author : G.Person) (date threshold : DateTime)
    (friendVid : G.Person) : List G.Info :=
  if friendVid = author ∧ 0 ≤ date ∧ date < threshold then
    [⟨message, author, G.messageId message, date⟩]
  else []

theorem windowOf_insert (T : EdgeTable P G.Person DateTime) (vertex : P → G.Message)
    (messageIdCol : P → Int) (v : P) (author : G.Person) (date threshold : DateTime)
    (friendVid : G.Person) :
    windowOf .stored (T.insert v author date).inEdges vertex messageIdCol threshold friendVid =
      windowOf .stored T.inEdges vertex messageIdCol threshold friendVid ++
        if friendVid = author ∧ 0 ≤ date ∧ date < threshold then
          [⟨vertex v, author, messageIdCol v, date⟩] else [] := by
  simp only [windowOf, NbrLt.stored, EdgeTable.insert, List.filter_append, List.map_append]
  congr 1
  by_cases here : friendVid = author
  · subst here
    by_cases inside : 0 ≤ date ∧ date < threshold
    · simp [inside, edgeInfo]
    · rw [if_neg (not_and.mpr fun _ => inside)]
      rw [not_and_or] at inside
      rcases inside with early | late
      · simp [early]
      · simp [late]
  · simp [here]

theorem friendMessages_withCreator (message : G.Message) (author : G.Person)
    (date threshold : DateTime) (friendVid : G.Person) :
    (friendMessages .stored (G.withCreator message author date) threshold friendVid).Perm
      (friendMessages .stored G threshold friendVid ++
        arrival message author date threshold friendVid) := by
  cases message with
  | post v =>
    change (windowOf .stored (G.postHasCreator.insert v author date).inEdges .post G.postId
        threshold friendVid ++ windowOf .stored G.commentHasCreator.inEdges .comment G.commentId
          threshold friendVid).Perm _
    rw [windowOf_insert, List.append_assoc, friendMessages, List.append_assoc]
    exact List.perm_append_comm.append_left _
  | comment v =>
    change (windowOf .stored G.postHasCreator.inEdges .post G.postId threshold friendVid ++
      windowOf .stored (G.commentHasCreator.insert v author date).inEdges .comment G.commentId
        threshold friendVid).Perm _
    rw [windowOf_insert, ← List.append_assoc]
    exact List.Perm.refl _

/-- The author comes at most once among those whose messages are looked through. -/
theorem flatMap_arrival (message : G.Message) (author : G.Person) (date threshold : DateTime)
    {friends : List G.Person} (distinct : friends.Nodup) :
    friends.flatMap (arrival message author date threshold) =
      if author ∈ friends then arrival message author date threshold author else [] := by
  induction friends with
  | nil => rfl
  | cons v rest ih =>
    obtain ⟨apart, others⟩ := List.nodup_cons.mp distinct
    rw [List.flatMap_cons, ih others]
    by_cases here : v = author
    · subst here
      simp [apart]
    · have missed : arrival message author date threshold v = [] := if_neg fun h => here h.1
      simp [missed, Ne.symm here]

theorem messages_withCreator (lt lt' : NbrLt) (message : G.Message) (author : G.Person)
    (date threshold : DateTime) {friends : List G.Person} (distinct : friends.Nodup) :
    (friends.flatMap (friendMessages lt' (G.withCreator message author date) threshold)).Perm
      (friends.flatMap (friendMessages lt G threshold) ++
        if author ∈ friends then arrival message author date threshold author else []) := by
  have each : ∀ v, (friendMessages lt' (G.withCreator message author date) threshold v).Perm
      (friendMessages lt G threshold v ++ arrival message author date threshold v) := fun v =>
    (friendMessages_perm lt' .stored threshold v).trans
      ((friendMessages_withCreator message author date threshold v).trans
        ((friendMessages_perm (G := G) .stored lt threshold v).append_right _))
  rw [← flatMap_arrival message author date threshold distinct]
  exact (List.Perm.flatMap_left friends fun v _ => each v).trans
    (List.flatMap_append_perm friends _ _).symm

end Windows

section Rows
variable {G : Graph}

/-- The row of the new message among the rows before, for a person whose friends or circle
the author belongs to. -/
def withRow (near : Prop) [Decidable near] (date : DateTime) (maxDateMs : Int64)
    (row : MessageRow) (rows : List MessageRow) : List MessageRow :=
  if near ∧ 0 ≤ date ∧ date ≤ maxDateMs.toInt then (rowComparer.place row rows).take 20
  else rows

theorem map_place (m : G.Info) (ms : List G.Info) :
    ((messageInfoComparer G.Message G.Person).place m ms).map (messageRow G) =
      rowComparer.place (messageRow G m) (ms.map (messageRow G)) := by
  exact List.map_orderedInsert _ _ (messageRow G) ms m (fun _ _ => Iff.rfl) fun _ _ => Iff.rfl

theorem firstRows_withCreator (lt lt' : NbrLt) (message : G.Message) (author : G.Person)
    (date : DateTime) (contract : LookupContract (G.withCreator message author date))
    {maxDateMs : Int64} (below : maxDateMs < Int64.maxValue) {friends : List G.Person}
    (distinct : friends.Nodup) :
    ((messageInfoComparer G.Message G.Person).firstN 20 (friends.flatMap (friendMessages lt'
        (G.withCreator message author date) (maxDateMs + 1).toInt))).map (messageRow G) =
      withRow (author ∈ friends) date maxDateMs
        (messageRow G ⟨message, author, G.messageId message, date⟩)
        (((messageInfoComparer G.Message G.Person).firstN 20 (friends.flatMap
          (friendMessages lt G (maxDateMs + 1).toInt))).map (messageRow G)) := by
  have sep := separates_messages contract.postCreator contract.commentCreator
    (messageId_injective contract.apart) lt' (maxDateMs + 1).toInt friends
  have same : (messageInfoComparer G.Message G.Person).firstN 20 (friends.flatMap (friendMessages
        lt' (G.withCreator message author date) (maxDateMs + 1).toInt)) =
      (messageInfoComparer G.Message G.Person).firstN 20
        (friends.flatMap (friendMessages lt G (maxDateMs + 1).toInt) ++ if author ∈ friends then
          arrival message author date (maxDateMs + 1).toInt author else []) :=
    Comparer.firstN_congr _ sep (messages_withCreator lt lt' message author date _ distinct) 20
  refine (congrArg (List.map (messageRow G)) same).trans ?_
  have last : date < (maxDateMs + 1).toInt ↔ date ≤ maxDateMs.toInt := by
    rw [toInt_add_one below]
    exact Int.lt_add_one_iff
  by_cases near : author ∈ friends
  · by_cases inside : 0 ≤ date ∧ date ≤ maxDateMs.toInt
    · have arrived : arrival message author date (maxDateMs + 1).toInt author =
          [⟨message, author, G.messageId message, date⟩] :=
        if_pos ⟨rfl, inside.1, last.mpr inside.2⟩
      rw [if_pos near, arrived, Comparer.firstN_snoc, withRow, if_pos ⟨near, inside⟩,
        List.map_take, map_place]
    · have missed : arrival message author date (maxDateMs + 1).toInt author = [] :=
        if_neg fun h => inside ⟨h.2.1, last.mp h.2.2⟩
      rw [if_pos near, missed, List.append_nil, withRow, if_neg fun h => inside h.2]
  · rw [if_neg near, List.append_nil, withRow, if_neg fun h => near h.1]

theorem messageRow_withCreator (message : G.Message) (author : G.Person) (date : DateTime) :
    messageRow (G.withCreator message author date) = messageRow G := by
  funext m
  have content : messageContent (G.withCreator message author date) m.messageVid =
      messageContent G m.messageVid := by
    cases m.messageVid <;> rfl
  simp only [messageRow, content]
  rfl

theorem withRow_congr {near near' : Prop} [Decidable near] [Decidable near']
    (same : near ↔ near') (date : DateTime) (maxDateMs : Int64) (row : MessageRow)
    (rows : List MessageRow) :
    withRow near date maxDateMs row rows = withRow near' date maxDateMs row rows := by
  simp only [withRow, same]

end Rows

/-- What one more message changes in IC2, for the friends of its author, and in IC9, for those
who are one or two steps away. -/
theorem newest_messages_insert (lt lt' : NbrLt) (G : Graph) (simple : SimpleKnows G.knows)
    (message : G.Message) (author : G.Person) (date : DateTime)
    (contract : LookupContract (G.withCreator message author date)) (root : G.Person)
    (maxDateMs : Int64) (below : maxDateMs < Int64.maxValue) :
    let row := messageRow G ⟨message, author, G.messageId message, date⟩
    IC2.exec lt' (G.withCreator message author date) (G.personId root) maxDateMs =
        withRow (Joined G.knows root author) date maxDateMs row
          (IC2.exec lt G (G.personId root) maxDateMs) ∧
      IC9.exec lt' (G.withCreator message author date) (G.personId root) maxDateMs =
        withRow (InCircle G.knows root author) date maxDateMs row
          (IC9.exec lt G (G.personId root) maxDateMs) := by
  intro row
  have friends := firstRows_withCreator lt lt' message author date contract below
    (simple.neighbors_nodup root)
  have circle := firstRows_withCreator lt lt' message author date contract below
    (oneTwoCalls_nodup G.knows root)
  have friends' := @IC2.exec_eq (G.withCreator message author date) lt' root maxDateMs
  have circle' := @IC9.exec_eq (G.withCreator message author date) lt' root maxDateMs
  have joined : author ∈ G.knows.outgoing root ++ G.knows.incoming root ↔
      Joined G.knows root author := List.mem_append
  rw [messageRow_withCreator] at friends' circle'
  rw [IC2.exec_eq lt, IC9.exec_eq lt]
  constructor
  · exact friends'.trans (friends.trans (withRow_congr joined _ _ _ _))
  · exact circle'.trans (circle.trans (withRow_congr mem_oneTwoCalls _ _ _ _))

/-- A friend has published one of two posts. -/
def draft : Graph :=
  { Graph.numbered 2 2 0 IC2.friendPosts_small (.ofNumbers [(0, 1, ())]) with
    postHasCreator := .ofNumbers [(0, 1, 10)] }

theorem draft_published :
    LookupContract (draft.withCreator (.post (1 : Fin 2)) (1 : Fin 2) 20) where
  postCreator := by decide
  commentCreator := by decide
  apart := by decide

theorem newest_messages_insert_draft :
    let root : draft.Person := (0 : Fin 2)
    let author : draft.Person := (1 : Fin 2)
    let message : draft.Message := .post (1 : Fin 2)
    let row := messageRow draft ⟨message, author, draft.messageId message, 20⟩
    IC2.exec .reversed (draft.withCreator message author 20) (draft.personId root) 30 =
        withRow (Joined draft.knows root author) 20 30 row
          (IC2.exec .stored draft (draft.personId root) 30) ∧
      IC9.exec .reversed (draft.withCreator message author 20) (draft.personId root) 30 =
        withRow (InCircle draft.knows root author) 20 30 row
          (IC9.exec .stored draft (draft.personId root) 30) :=
  newest_messages_insert .stored .reversed draft (by decide) (.post (1 : Fin 2)) (1 : Fin 2) 20
    draft_published (0 : Fin 2) 30 (by decide)

end LdbcInteractive
