import LdbcInteractive.Common
import LdbcInteractive.DatedOrders

/-!
# IS7: the replies to one message

The message is looked up among the posts first and then among the comments. Replies
without an author are skipped; the others are sorted by date, later dates first, and
then by the id of the author.
-/

namespace LdbcInteractive

open EdgeTables PriorityQueues DatedOrders

namespace IS7

structure ReplyInfo (G : Graph) where
  commentVid : G.Comment
  authorVid : G.Person
  commentId : Int
  authorId : Int
  creationDateMs : Int
  deriving DecidableEq

/-- The comparison that the replies are sorted with. -/
def replyBefore {G : Graph} (lhs rhs : ReplyInfo G) : Bool :=
  if lhs.creationDateMs ≠ rhs.creationDateMs then lhs.creationDateMs > rhs.creationDateMs
  else lhs.authorId < rhs.authorId

def replyOrder (G : Graph) : Comparer (ReplyInfo G) :=
  datedComparer replyBefore ReplyInfo.creationDateMs
    (fun r => OrderDual.toDual r.authorId) (fun a b => by
      by_cases h : a.creationDateMs = b.creationDateMs <;> simp [replyBefore, h])

section Query
variable (G : Graph)

def hasCreatorOut : G.Message → List G.Person
  | .post v => G.postHasCreator.outgoing v
  | .comment v => G.commentHasCreator.outgoing v

def replyIn : G.Message → List G.Comment
  | .post v => G.replyOfPost.incoming v
  | .comment v => G.replyOfComment.incoming v

def replyInfo (commentVid : G.Comment) (author : G.Person × DateTime) : ReplyInfo G where
  commentVid := commentVid
  authorVid := author.1
  commentId := G.commentId commentVid
  authorId := G.personId author.1
  creationDateMs := author.2

def collectReplies (comments : List G.Comment) : List (ReplyInfo G) :=
  comments.foldl (fun replies commentVid =>
    match (G.commentHasCreator.outEdges commentVid).head? with
    | none => replies
    | some author => replies ++ [replyInfo G commentVid author]) []

def knowsAuthor (messageAuthorVid : G.Person) : G.Person → Bool :=
  markAll (markAll (fun _ => false) (G.knows.outgoing messageAuthorVid))
    (G.knows.incoming messageAuthorVid)

structure Row where
  commentId : Int
  commentContent : String
  commentCreationDate : DateTime
  replyAuthorId : Int
  replyAuthorFirstName : String
  replyAuthorLastName : String
  isReplyAuthorKnowsOriginalMessageAuthor : Bool
  deriving DecidableEq

def row (messageAuthorVid : G.Person) (reply : ReplyInfo G) : Row where
  commentId := reply.commentId
  commentContent := G.commentContent reply.commentVid
  commentCreationDate := reply.creationDateMs
  replyAuthorId := reply.authorId
  replyAuthorFirstName := G.firstName reply.authorVid
  replyAuthorLastName := G.lastName reply.authorVid
  isReplyAuthorKnowsOriginalMessageAuthor := knowsAuthor G messageAuthorVid reply.authorVid

def exec (sort : StdSort) (messageId : Int) : List Row :=
  match findMessageVertex G messageId with
  | none => []
  | some messageVid =>
    match (hasCreatorOut G messageVid).head? with
    | none => []
    | some messageAuthorVid =>
      let replies := collectReplies G (replyIn G messageVid)
      (sort.sort (replyOrder G) replies).map (row G messageAuthorVid)

end Query

theorem collectReplies_eq (G : Graph) (comments : List G.Comment) :
    collectReplies G comments = comments.filterMap fun comment =>
      (G.commentHasCreator.outEdges comment).head?.map (replyInfo G comment) := by
  have general : ∀ acc : List (ReplyInfo G),
      comments.foldl (fun replies commentVid =>
        match (G.commentHasCreator.outEdges commentVid).head? with
        | none => replies
        | some author => replies ++ [replyInfo G commentVid author]) acc =
      acc ++ comments.filterMap fun comment =>
        (G.commentHasCreator.outEdges comment).head?.map (replyInfo G comment) := by
    induction comments with
    | nil => simp
    | cons comment rest ih =>
      intro acc
      cases h : (G.commentHasCreator.outEdges comment).head? with
      | none => simp only [List.foldl_cons, List.filterMap_cons, h, Option.map_none, ih]
      | some author =>
        simp only [List.foldl_cons, List.filterMap_cons, h, Option.map_some, ih,
          List.append_assoc, List.singleton_append]
  exact general []

/-- The author knows those on either adjacency list. -/
theorem knowsAuthor_iff (G : Graph) (author v : G.Person) :
    knowsAuthor G author v = true ↔ Joined G.knows author v := by
  simp [knowsAuthor, markAll_eq, Joined]

end IS7

end LdbcInteractive
