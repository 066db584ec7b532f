import LdbcInteractive.Messages
import LdbcInteractive.TieEvictions

/-!
# IS2: the most recent messages of a person

The posts and then the comments of the person are offered to a priority queue of 10.
As in IC8 the test against the top prefers the smaller of two ids of one date, while
the comparison of the queue puts the larger one first.
-/

namespace LdbcInteractive

open EdgeTables PriorityQueues DatedOrders

namespace IS2

def kTopN : Nat := 10

/-- The vertex number and the flag `is_post` are the message. -/
structure MessageInfo (G : Graph) where
  messageVid : G.Message
  messageId : Int
  creationDateMs : Int
  deriving DecidableEq

section Queue
variable {G : Graph}

/-- The comparison of `MessageInfoComparer`. -/
def messageBefore (lhs rhs : MessageInfo G) : Bool :=
  if lhs.creationDateMs > rhs.creationDateMs then true
  else if lhs.creationDateMs < rhs.creationDateMs then false
  else lhs.messageId > rhs.messageId

theorem messageBefore_iff (a b : MessageInfo G) :
    messageBefore a b = true ↔ b.creationDateMs < a.creationDateMs ∨
      a.creationDateMs = b.creationDateMs ∧ b.messageId < a.messageId := dateTest_iff

def messageInfoComparer (G : Graph) : Comparer (MessageInfo G) :=
  datedComparer messageBefore MessageInfo.creationDateMs MessageInfo.messageId messageBefore_iff

def byDate (G : Graph) : Dated (messageInfoComparer G) Int Int :=
  .ofComparer messageBefore MessageInfo.creationDateMs MessageInfo.messageId messageBefore_iff

abbrev Queue (G : Graph) := PriorityQueue (messageInfoComparer G)

def considerMessage (pq : Queue G) (candidate : MessageInfo G) : Queue G :=
  if pq.size < kTopN then pq.push candidate
  else match pq.top? with
    | none => pq
    | some worst =>
      if candidate.creationDateMs > worst.creationDateMs then pq.pop.push candidate
      else if candidate.creationDateMs = worst.creationDateMs ∧
          candidate.messageId < worst.messageId then pq.pop.push candidate
      else pq

theorem considerMessage_eq :
    considerMessage (G := G) = PriorityQueue.offer kTopN (byDate G).reversed := by
  funext pq candidate
  refine PriorityQueue.eq_offer (by decide) ?_ ?_
  · intro hsize
    rw [considerMessage, if_pos hsize]
  · intro worst hsize htop
    rw [considerMessage, if_neg hsize, htop]
    exact (byDate G).if_reversed candidate worst _ _

end Queue

section Query
variable (G : Graph)

/-- The entry for an edge that the view hands out. -/
def edgeInfo {P : Type} (vertex : P → G.Message) (messageIdCol : P → Int) (e : P × DateTime) :
    MessageInfo G where
  messageVid := vertex e.1
  messageId := messageIdCol e.1
  creationDateMs := e.2

def scanPersonMessages {P : Type} (gt : NbrGt) (hasCreatorIn : G.Person → List (P × DateTime))
    (vertex : P → G.Message) (personVid : G.Person) (messageIdCol : P → Int) (pq : Queue G) :
    Queue G :=
  foreachIncomingNbrGt gt hasCreatorIn personVid (-1)
    (fun pq e => considerMessage pq (edgeInfo G vertex messageIdCol e)) pq

/-- The heap after both scans of `exec`. -/
def scanPerson (gt : NbrGt) (personVid : G.Person) : Queue G :=
  let pq := scanPersonMessages G gt G.postHasCreator.inEdges .post personVid G.postId .empty
  scanPersonMessages G gt G.commentHasCreator.inEdges .comment personVid G.commentId pq

/-- The original post of a message, with its author. -/
structure OriginalPost where
  postId : Int
  authorId : Int
  authorFirstName : String
  authorLastName : String
  deriving DecidableEq

structure Row where
  messageId : Int
  messageContent : String
  messageCreationDate : DateTime
  originalPostId : Int
  originalPostAuthorId : Int
  originalPostAuthorFirstName : String
  originalPostAuthorLastName : String
  deriving DecidableEq

/-- A post is its own original. For a comment neither the post that is found nor its author
is tested for `kInvalidVid`. The outer `none` stands for a loop that has not ended after
`passes` passes, the inner one for a read at `kInvalidVid`. -/
def originalPost (passes : Nat) (personId : Int) (personVid : G.Person)
    (message : MessageInfo G) : OptionT Option OriginalPost :=
  match message.messageVid with
  | .post _ => return {
      postId := message.messageId
      authorId := personId
      authorFirstName := G.firstName personVid
      authorLastName := G.lastName personVid }
  | .comment _ => do
    let postVid ← OptionT.mk (resolveRootPost G.replyOfPost.outgoing
      G.replyOfComment.outgoing passes message.messageVid)
    let authorVid ← OptionT.mk (some (getSingleOutNeighbor G.postHasCreator.outgoing postVid))
    return {
      postId := G.postId postVid
      authorId := G.personId authorVid
      authorFirstName := G.firstName authorVid
      authorLastName := G.lastName authorVid }

def row (message : MessageInfo G) (original : OriginalPost) : Row where
  messageId := message.messageId
  messageContent := messageContent G message.messageVid
  messageCreationDate := message.creationDateMs
  originalPostId := original.postId
  originalPostAuthorId := original.authorId
  originalPostAuthorFirstName := original.authorFirstName
  originalPostAuthorLastName := original.authorLastName

def exec (passes : Nat) (gt : NbrGt) (personId : Int) : OptionT Option (List Row) :=
  match getVertexIndex G.personId personId with
  | none => return []
  | some personVid =>
    (scanPerson G gt personVid).drain.reverse.mapM fun message => do
      let original ← originalPost G passes personId personVid message
      return row G message original

end Query

section Messages
variable {G : Graph}

/-- The entries of the edges in the order in which the views hand them out. -/
def deliveredMessages (gt : NbrGt) (G : Graph) (personVid : G.Person) :
    List (MessageInfo G) :=
  (gt.order G.postHasCreator.inEdges personVid (-1)).map (edgeInfo G .post G.postId) ++
    (gt.order G.commentHasCreator.inEdges personVid (-1)).map (edgeInfo G .comment G.commentId)

/-- The posts and comments of a person, those dated before 0 left out. -/
def personMessages (G : Graph) (personVid : G.Person) : List (MessageInfo G) :=
  ((G.postHasCreator.inEdges personVid).filter fun e => 0 ≤ e.2).map
      (edgeInfo G .post G.postId) ++
    ((G.commentHasCreator.inEdges personVid).filter fun e => 0 ≤ e.2).map
      (edgeInfo G .comment G.commentId)

theorem deliveredMessages_perm (gt : NbrGt) (personVid : G.Person) :
    (deliveredMessages gt G personVid).Perm (personMessages G personVid) := by
  have posts := gt.perm G.postHasCreator.inEdges personVid (-1)
  have comments := gt.perm G.commentHasCreator.inEdges personVid (-1)
  exact (posts.map _).append (comments.map _)

theorem scanPerson_eq (gt : NbrGt) (personVid : G.Person) :
    scanPerson G gt personVid =
      (deliveredMessages gt G personVid).foldl (PriorityQueue.offer kTopN (byDate G).reversed)
        .empty := by
  rw [deliveredMessages, List.foldl_append, List.foldl_map, List.foldl_map, ← considerMessage_eq]
  rfl

/-- The drained and reversed heap is the selection exactly if the ties of the order in which
the messages are delivered are settled. -/
theorem first_messages_iff (gt : NbrGt) (G : Graph) (personVid : G.Person)
    (distinct : ((personMessages G personVid).map MessageInfo.messageId).Nodup) :
    (scanPerson G gt personVid).drain.reverse =
        (messageInfoComparer G).firstN kTopN (personMessages G personVid) ↔
      (byDate G).Settled kTopN (deliveredMessages gt G personVid) := by
  have perm := deliveredMessages_perm gt personVid
  have hdistinct := (perm.map MessageInfo.messageId).nodup_iff.mpr distinct
  rw [PriorityQueue.drain, List.reverse_reverse, scanPerson_eq,
    ← (messageInfoComparer G).firstN_congr ((byDate G).separates hdistinct) perm]
  exact Dated.foldl_reversed_iff (by decide) hdistinct

theorem sameDayPosts_small : 1 ≤ kInvalidVid := by decide

/-- One person with `n` posts, all of one date. -/
def sameDayPosts (n : Nat) : Graph :=
  { Graph.numbered 1 n 0 sameDayPosts_small (.ofNumbers []) with
    postHasCreator := .ofNumbers ((List.range n).map fun p => (p, 0, 0)) }

/-- 11 posts of one date are not delivered in a settled order, 10 of them are. -/
theorem first_messages_iff_same_day :
    ((scanPerson (sameDayPosts 11) .stored (0 : Fin 1)).drain.reverse =
        (messageInfoComparer _).firstN kTopN (personMessages (sameDayPosts 11) (0 : Fin 1)) ↔
      (byDate _).Settled kTopN (deliveredMessages .stored (sameDayPosts 11) (0 : Fin 1))) ∧
    ¬ (byDate _).Settled kTopN (deliveredMessages .stored (sameDayPosts 11) (0 : Fin 1)) ∧
    (byDate _).Settled kTopN (deliveredMessages .stored (sameDayPosts 10) (0 : Fin 1)) := by
  have crowded := first_messages_iff .stored (sameDayPosts 11) (0 : Fin 1) (by decide +kernel)
  have roomy := first_messages_iff .stored (sameDayPosts 10) (0 : Fin 1) (by decide +kernel)
  have missed : (scanPerson (sameDayPosts 11) .stored (0 : Fin 1)).drain.reverse ≠
      (messageInfoComparer _).firstN kTopN (personMessages (sameDayPosts 11) (0 : Fin 1)) := by
    decide +kernel
  have kept : (scanPerson (sameDayPosts 10) .stored (0 : Fin 1)).drain.reverse =
      (messageInfoComparer _).firstN kTopN (personMessages (sameDayPosts 10) (0 : Fin 1)) := by
    decide +kernel
  exact ⟨crowded, mt crowded.mpr missed, roomy.mp kept⟩

/-- Of 11 posts of one date with rising ids the heap keeps the ids 0 to 9, while the
comparison puts the ids 10 to 1 first. -/
theorem first_messages_reversed_tie :
    ((personMessages (sameDayPosts 11) (0 : Fin 1)).map MessageInfo.messageId).Nodup ∧
    (scanPerson (sameDayPosts 11) .stored (0 : Fin 1)).drain.reverse ≠
      (messageInfoComparer _).firstN kTopN (personMessages (sameDayPosts 11) (0 : Fin 1)) := by
  decide +kernel

end Messages

end IS2

end LdbcInteractive
