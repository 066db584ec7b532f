import LdbcInteractive.IC8
import LdbcInteractive.IS7

/-!
# IC8 and IS7 report the same replies

IC8 goes from the author to the messages and on to the replies; IS7 is asked for one
message. With at most 20 replies the heap of IC8 drops nothing, and what is left of
both queries is the list of replies of each message.
-/

namespace LdbcInteractive

open EdgeTables PriorityQueues

/-- One creator for each message, at most one parent for each comment, no shared ids. -/
structure AuthoredContract (G : Graph) : Prop where
  postCreator : G.postHasCreator.ExactlyOne
  commentCreator : G.commentHasCreator.ExactlyOne
  oneParent : ∀ comment,
    (G.replyOfPost.outEdges comment).length + (G.replyOfComment.outEdges comment).length ≤ 1
  apart : ∀ p c, G.postId p ≠ G.commentId c

section Messages
variable (G : Graph)

/-- Every message created by a person, once. -/
def messagesOf (r : G.Person) : List G.Message :=
  ((List.finRange G.postNum).map MessageVertex.post ++
    (List.finRange G.commentNum).map MessageVertex.comment).filter
      fun m => r ∈ IS7.hasCreatorOut G m

/-- The comments with a REPLYOF edge to a message that `r` created. -/
def repliersTo (r : G.Person) : List G.Comment :=
  (List.finRange G.commentNum).filter fun c =>
    (∃ p ∈ G.replyOfPost.outgoing c, r ∈ G.postHasCreator.outgoing p) ∨
      ∃ m ∈ G.replyOfComment.outgoing c, r ∈ G.commentHasCreator.outgoing m

/-- A reply as both queries can be read: comment id, content, date and author id. -/
abbrev Reply := Int × String × DateTime × Int

def IC8.Row.reply (row : IC8.Row) : Reply :=
  (row.commentId, row.commentContent, row.commentCreationDate, row.personId)

def IS7.Row.reply (row : IS7.Row) : Reply :=
  (row.commentId, row.commentContent, row.commentCreationDate, row.replyAuthorId)

/-- The reading of a comment with its author and the date of the HASCREATOR edge. -/
def replyOf (c : G.Comment) (author : G.Person × DateTime) : Reply :=
  (G.commentId c, G.commentContent c, author.2, G.personId author.1)

def repliesRead (comments : List G.Comment) : List Reply :=
  comments.filterMap fun c => (G.commentHasCreator.outEdges c).head?.map (replyOf G c)

variable {G}

theorem AuthoredContract.replyContract (contract : AuthoredContract G) : ReplyContract G :=
  ⟨contract.postCreator.atMostOne, contract.commentCreator.atMostOne, contract.oneParent⟩

theorem AuthoredContract.authored (contract : AuthoredContract G) (c : G.Comment) :
    G.commentHasCreator.outEdges c ≠ [] := by
  intro h
  have one := contract.commentCreator c
  simp [h] at one

theorem AuthoredContract.exists_creator (contract : AuthoredContract G) (m : G.Message) :
    ∃ author, (IS7.hasCreatorOut G m).head? = some author := by
  have hlen : (IS7.hasCreatorOut G m).length = 1 := by
    cases m with
    | post v => simpa [IS7.hasCreatorOut, EdgeTable.outgoing] using contract.postCreator v
    | comment v => simpa [IS7.hasCreatorOut, EdgeTable.outgoing] using contract.commentCreator v
  obtain ⟨author, hauthor⟩ := List.length_eq_one_iff.mp hlen
  exact ⟨author, by simp [hauthor]⟩

/-- Each message's replies, in the order in which IC8 visits the messages. -/
theorem directReplies_perm (contract : AuthoredContract G) (r : G.Person) :
    (directReplies G r).Perm ((messagesOf G r).flatMap (IS7.replyIn G)) := by
  have split : (messagesOf G r).flatMap (IS7.replyIn G) =
      ((List.finRange G.postNum).filter fun v => r ∈ G.postHasCreator.outgoing v).flatMap
        G.replyOfPost.incoming ++
      ((List.finRange G.commentNum).filter fun v => r ∈ G.commentHasCreator.outgoing v).flatMap
        G.replyOfComment.incoming := by
    rw [messagesOf, List.filter_append, List.flatMap_append, List.filter_map, List.filter_map,
      List.flatMap_map, List.flatMap_map]
    rfl
  have posts := contract.postCreator.atMostOne.incoming_perm r
    (List.nodup_finRange G.postNum) List.mem_finRange
  have comments := contract.commentCreator.atMostOne.incoming_perm r
    (List.nodup_finRange G.commentNum) List.mem_finRange
  rw [split, directReplies]
  exact (posts.flatMap_right _).append (comments.flatMap_right _)

theorem directReplies_nodup (contract : AuthoredContract G) (r : G.Person) :
    (directReplies G r).Nodup := by
  have tree := contract.replyContract
  refine List.nodup_append.mpr ⟨tree.replyOfPost.flatMap_incoming_nodup
    (tree.postCreator.incoming_nodup r), tree.replyOfComment.flatMap_incoming_nodup
    (tree.commentCreator.incoming_nodup r), ?_⟩
  rintro c hpost _ hcomment rfl
  obtain ⟨p, -, hp⟩ := List.mem_flatMap.mp hpost
  obtain ⟨m, -, hm⟩ := List.mem_flatMap.mp hcomment
  have hp' := List.length_pos_of_mem ((G.replyOfPost.mem_incoming c p).mp hp)
  have hm' := List.length_pos_of_mem ((G.replyOfComment.mem_incoming c m).mp hm)
  have one := contract.oneParent c
  rw [EdgeTable.outgoing, List.length_map] at hp' hm'
  omega

theorem directReplies_perm_repliersTo (contract : AuthoredContract G) (r : G.Person) :
    (directReplies G r).Perm (repliersTo G r) := by
  refine (List.perm_ext_iff_of_nodup (directReplies_nodup contract r)
    ((List.nodup_finRange _).filter _)).mpr fun c => ?_
  simp only [directReplies, List.mem_append, List.mem_flatMap, List.mem_filter,
    List.mem_finRange, true_and, decide_eq_true_eq, EdgeTable.mem_incoming]
  exact or_congr (exists_congr fun _ => and_comm) (exists_congr fun _ => and_comm)

theorem map_reply_repliesOf (comments : List G.Comment) :
    ((repliesOf G comments).map fun result => (IC8.row G result).reply) =
      repliesRead G comments := by
  rw [repliesOf, List.map_filterMap, repliesRead]
  refine List.filterMap_congr fun c _ => ?_
  rw [Option.map_map]
  rfl

/-- With room for all replies the heap of IC8 keeps them all. -/
theorem IC8.exec_perm (contract : AuthoredContract G) (r : G.Person)
    (few : (repliersTo G r).length ≤ IC8.kTopN) :
    ∃ rows, IC8.exec G (G.personId r) = some rows ∧
      (rows.map IC8.Row.reply).Perm (repliesRead G (directReplies G r)) := by
  let replies := repliesOf G (directReplies G r)
  have scanned : IC8.scanRoot G r = some (feed G replies) :=
    scanRoot_eq fun c _ => contract.authored c
  have room : replies.length ≤ IC8.kTopN :=
    calc replies.length ≤ (directReplies G r).length := List.length_filterMap_le _ _
      _ = (repliersTo G r).length := (directReplies_perm_repliersTo contract r).length_eq
      _ ≤ IC8.kTopN := few
  refine ⟨(feed G replies).drain.reverse.map (IC8.row G), ?_, ?_⟩
  · rw [IC8.exec, getVertexIndex_self G.personKey]
    simp only [scanned]
    rfl
  · have items : (feed G replies).drain.reverse = (IC8.commentResultComparer G).ranked replies := by
      rw [PriorityQueue.drain, List.reverse_reverse, feed, IC8.considerComment_eq]
      exact PriorityQueue.foldl_offer_of_length_le _ room
    rw [items, ← map_reply_repliesOf, List.map_map]
    exact (Comparer.ranked_perm _ replies).map _

theorem IS7.exec_perm (sort : StdSort) (contract : AuthoredContract G) (m : G.Message) :
    ((IS7.exec G sort (G.messageId m)).map IS7.Row.reply).Perm
      (repliesRead G (IS7.replyIn G m)) := by
  obtain ⟨author, hauthor⟩ := contract.exists_creator m
  simp only [IS7.exec, findMessageVertex_messageId contract.apart m, hauthor]
  have readings : (IS7.collectReplies G (IS7.replyIn G m)).map
      (IS7.Row.reply ∘ IS7.row G author) = repliesRead G (IS7.replyIn G m) := by
    rw [IS7.collectReplies_eq, List.map_filterMap, repliesRead]
    refine List.filterMap_congr fun c _ => ?_
    rw [Option.map_map]
    rfl
  rw [List.map_map, ← readings]
  exact (sort.perm (IS7.replyOrder G) _).map _

/-- What IC8 reports is what IS7 reports for the messages of the person, and the comments
reported are the replies to them, each once. -/
theorem replies_agree (sort : StdSort) (G : Graph) (contract : AuthoredContract G) (r : G.Person)
    (few : (repliersTo G r).length ≤ 20) :
    ∃ rows, IC8.exec G (G.personId r) = some rows ∧
      (rows.map IC8.Row.reply).Perm ((messagesOf G r).flatMap fun m =>
        (IS7.exec G sort (G.messageId m)).map IS7.Row.reply) ∧
      (rows.map IC8.Row.commentId).Perm ((repliersTo G r).map G.commentId) := by
  obtain ⟨rows, hrows, hreplies⟩ := IC8.exec_perm contract r few
  refine ⟨rows, hrows, hreplies.trans ?_, ?_⟩
  · have flat : ∀ ms : List G.Message, repliesRead G (ms.flatMap (IS7.replyIn G)) =
        ms.flatMap fun m => repliesRead G (IS7.replyIn G m) := by
      intro ms
      rw [repliesRead, List.filterMap_flatMap]
      rfl
    refine ((directReplies_perm contract r).filterMap _).trans ?_
    refine (List.Perm.of_eq (flat _)).trans ?_
    exact List.Perm.flatMap_left _ fun m _ => (IS7.exec_perm sort contract m).symm
  · have ids : (repliesRead G (directReplies G r)).map Prod.fst =
        (directReplies G r).map G.commentId := by
      rw [repliesRead, List.map_filterMap, ← List.filterMap_eq_map]
      refine List.filterMap_congr fun c _ => ?_
      obtain ⟨author, hauthor⟩ : ∃ a, (G.commentHasCreator.outEdges c).head? = some a :=
        ⟨_, List.head?_eq_some_head (contract.authored c)⟩
      simp [hauthor, replyOf]
    have hids := hreplies.map Prod.fst
    rw [List.map_map, ids] at hids
    exact hids.trans ((directReplies_perm_repliersTo contract r).map _)

theorem answeredThread_small : 2 ≤ kInvalidVid := by decide

/-- Person 1 replies to the post of person 0, who answers twice, the second time to himself. -/
def answeredThread : Graph :=
  { Graph.numbered 2 1 3 answeredThread_small (.ofNumbers []) with
    postHasCreator := .ofNumbers [(0, 0, 10)]
    commentHasCreator := .ofNumbers [(0, 1, 20), (1, 0, 30), (2, 0, 30)]
    replyOfPost := .ofNumbers [(0, 0, ())]
    replyOfComment := .ofNumbers [(1, 0, ()), (2, 1, ())] }

theorem answeredThread_contract : AuthoredContract answeredThread := by
  refine ⟨?_, ?_, ?_, ?_⟩
  · unfold EdgeTable.ExactlyOne
    decide
  · unfold EdgeTable.ExactlyOne
    decide
  · decide
  · decide

theorem replies_agree_thread :
    ∃ rows, IC8.exec answeredThread (answeredThread.personId (0 : Fin 2)) = some rows ∧
      (rows.map IC8.Row.reply).Perm ((messagesOf answeredThread (0 : Fin 2)).flatMap fun m =>
        (IS7.exec answeredThread stableSort (answeredThread.messageId m)).map IS7.Row.reply) ∧
      (rows.map IC8.Row.commentId).Perm
        ((repliersTo answeredThread (0 : Fin 2)).map answeredThread.commentId) :=
  replies_agree stableSort answeredThread answeredThread_contract (0 : Fin 2) (by decide)

example : (IC8.exec answeredThread 0).map (List.map IC8.Row.commentId) = some [2, 0] := by decide

end Messages

end LdbcInteractive
