import LdbcInteractive.MessageLookups

/-!
# One forum for a thread

IS6 finds the forum of a message through the post at the root of its thread. The original
post that IS2 names has the same forum, and so has every message that the rows of IS7 lead
to, from reply to reply; where the way to the root never ends, it ends for none of them.
-/

namespace LdbcInteractive

open Chains EdgeTables Loops

section Messages
variable {S : Store}

theorem IS6.exec_message (apart : ∀ p c, S.postId p ≠ S.commentId c) (passes : Nat)
    (message : S.Message) :
    IS6.exec S passes (S.messageId message) =
      (resolveRootPost S.replyOfPost.outgoing S.replyOfComment.outgoing passes message).map
        fun found => found.elim [] (IS6.forumRows S) := by
  simp only [IS6.exec, findMessageVertex_messageId apart]
  cases resolveRootPost S.replyOfPost.outgoing S.replyOfComment.outgoing passes message with
  | none => rfl
  | some found => cases found <;> rfl

theorem author_of_post (apart : ∀ p c, S.postId p ≠ S.commentId c) {post : S.Post}
    {author : S.Person} (creator : getSingleOutNeighbor S.postHasCreator.outgoing post =
      some author) : IS5.exec S.toGraph (S.postId post) = [IS5.row S.toGraph author] := by
  have found := findMessageVertex_messageId apart (.post post : S.Message)
  have written : getSingleOutNeighbor (IS5.hasCreatorOut S.toGraph) (.post post) = some author :=
    creator
  change findMessageVertex S.toGraph (S.postId post) = _ at found
  simp only [IS5.exec, found, written]

/-- The original post of a message, its author and its forum. -/
theorem original_post (contract : LookupContract S.toGraph) {passes : Nat} {gt : NbrGt}
    {root : S.Person} {message : IS2.MessageInfo S.toGraph} {original : IS2.OriginalPost}
    (delivered : message ∈ IS2.deliveredMessages gt S.toGraph root)
    (read : (IS2.originalPost S.toGraph passes (S.personId root) root message).run =
      some (some original)) :
    IS5.exec S.toGraph original.postId =
        [⟨original.authorId, original.authorFirstName, original.authorLastName⟩] ∧
      IS6.exec S passes message.messageId = IS6.exec S passes original.postId := by
  obtain ⟨creator, ident⟩ := IS2.mem_deliveredMessages delivered
  cases hm : message.messageVid with
  | post post =>
    rw [IS2.originalPost, hm] at read
    obtain rfl := Option.some.inj (Option.some.inj read)
    have asked := author_eq contract creator
    rw [← ident] at asked
    exact ⟨asked, rfl⟩
  | comment comment =>
    rw [run_originalPost hm] at read
    obtain ⟨found, resolved, read⟩ := Option.map_eq_some_iff.mp read
    obtain ⟨post, rfl, read⟩ := Option.bind_eq_some_iff.mp read
    obtain ⟨author, written, rfl⟩ := Option.map_eq_some_iff.mp read
    refine ⟨author_of_post contract.apart written, ?_⟩
    have rows := IS6.exec_message contract.apart passes (.comment comment : S.Message)
    have postRows := IS6.exec_message contract.apart passes (.post post : S.Message)
    rw [resolved] at rows
    rw [ident, hm]
    exact rows.trans postRows.symm

end Messages

/-- Each row of IS2: the message is one of the person, and the post that it names as the
original has the author that is named and the forum of the message. -/
theorem original_posts_shown (S : Store) (contract : LookupContract S.toGraph) (passes : Nat)
    (gt : NbrGt) (personId : Int) (rows : List IS2.Row)
    (result : (IS2.exec S.toGraph passes gt personId).run = some (some rows)) :
    ∀ row ∈ rows,
      (∃ writer : IS5.Row, writer.personId = personId ∧
        Shows S row.messageId row.messageContent writer) ∧
      IS5.exec S.toGraph row.originalPostId = [⟨row.originalPostAuthorId,
        row.originalPostAuthorFirstName, row.originalPostAuthorLastName⟩] ∧
      IS6.exec S passes row.messageId = IS6.exec S passes row.originalPostId := by
  intro row hrow
  cases known : getVertexIndex S.personId personId with
  | none =>
    rw [IS2.exec, known] at result
    obtain rfl := Option.some.inj (Option.some.inj result)
    cases hrow
  | some root =>
    obtain rfl := getVertexIndex_id known
    obtain ⟨message, original, delivered, read, rfl⟩ := IS2.row_source result hrow
    obtain ⟨creator, ident⟩ := IS2.mem_deliveredMessages delivered
    have shown := shows_created contract message.messageVid creator
    rw [← ident] at shown
    exact ⟨⟨IS5.row S.toGraph root, rfl, shown⟩, original_post contract delivered read⟩

theorem original_posts_shown_seminar :
    ∃ rows, (IS2.exec seminar.toGraph 3 .stored 2).run = some (some rows) ∧ ∀ row ∈ rows,
      (∃ writer : IS5.Row, writer.personId = 2 ∧
        Shows seminar row.messageId row.messageContent writer) ∧
      IS5.exec seminar.toGraph row.originalPostId = [⟨row.originalPostAuthorId,
        row.originalPostAuthorFirstName, row.originalPostAuthorLastName⟩] ∧
      IS6.exec seminar 3 row.messageId = IS6.exec seminar 3 row.originalPostId := by
  have result : (IS2.exec seminar.toGraph 3 .stored 2).run =
      some (some [⟨2, "", 40, 3, 0, "", ""⟩]) := by decide +kernel
  exact ⟨_, result, original_posts_shown seminar seminar_lookups 3 .stored 2 _ result⟩

section Threads
variable {S : Store}

theorem findMessageVertex_id {G : Graph} {messageId : Int} {message : G.Message}
    (found : findMessageVertex G messageId = some message) : G.messageId message = messageId := by
  unfold findMessageVertex at found
  cases hpost : getVertexIndex G.postId messageId with
  | some post =>
    rw [hpost] at found
    obtain rfl := Option.some.inj found
    exact getVertexIndex_id hpost
  | none =>
    cases hcomment : getVertexIndex G.commentId messageId with
    | some comment =>
      rw [hpost, hcomment] at found
      obtain rfl := Option.some.inj found
      exact getVertexIndex_id hcomment
    | none =>
      rw [hpost, hcomment] at found
      cases found

/-- IS7 answers the one message with the other. -/
def Answered (G : Graph) (messageId replyId : Int) : Prop :=
  ∃ sort, ∃ row ∈ IS7.exec G sort messageId, row.commentId = replyId

/-- The walk from a reply and the walk from its parent end together. -/
theorem resolve_reply (oneParent : ∀ comment,
      (S.replyOfPost.outEdges comment).length + (S.replyOfComment.outEdges comment).length ≤ 1)
    {message : S.Message} {comment : S.Comment} (reply : comment ∈ IS7.replyIn S.toGraph message) :
    ∃ enough, ∀ passes ≥ enough,
      resolveRootPost S.replyOfPost.outgoing S.replyOfComment.outgoing passes
          (.comment comment) =
        resolveRootPost S.replyOfPost.outgoing S.replyOfComment.outgoing passes message := by
  have contract := oneParent comment
  cases message with
  | post post =>
    have single : S.replyOfPost.AtMostOne := fun c => (Nat.le_add_right _ _).trans (oneParent c)
    have parent : getSingleOutNeighbor S.replyOfPost.outgoing comment = some post :=
      (single.mem_incoming_iff comment post).mp reply
    refine ⟨1, fun passes hpasses => ?_⟩
    obtain ⟨fuel, rfl⟩ := Nat.exists_eq_add_of_le' hpasses
    exact loop_done (seek_found parent) fuel
  | comment parent =>
    have single : S.replyOfComment.AtMostOne := fun c => (Nat.le_add_left _ _).trans (oneParent c)
    have next : getSingleOutNeighbor S.replyOfComment.outgoing comment = some parent :=
      (single.mem_incoming_iff comment parent).mp reply
    have noPost : getSingleOutNeighbor S.replyOfPost.outgoing comment = none := by
      have occupied : 0 < (S.replyOfComment.outEdges comment).length := by
        rw [← List.length_map Prod.fst]
        exact List.length_pos_of_mem (List.mem_of_mem_head? next)
      have free : S.replyOfPost.outEdges comment = [] := List.length_eq_zero_iff.mp (by omega)
      rw [getSingleOutNeighbor, EdgeTable.outgoing, free]
      rfl
    exact exists_loop_next (seek_next noPost next)

theorem forum_of_reply (oneParent : ∀ comment,
      (S.replyOfPost.outEdges comment).length + (S.replyOfComment.outEdges comment).length ≤ 1)
    (apart : ∀ p c, S.postId p ≠ S.commentId c) {a b : Int} (answered : Answered S.toGraph a b) :
    ∃ enough, ∀ passes ≥ enough, IS6.exec S passes b = IS6.exec S passes a := by
  obtain ⟨sort, row, hrow, rfl⟩ := answered
  obtain ⟨message, writer, comment, author, found, -, reply, -, rfl⟩ := IS7.row_source hrow
  obtain ⟨enough, together⟩ := resolve_reply oneParent reply
  refine ⟨enough, fun passes hpasses => ?_⟩
  have rows := IS6.exec_message apart passes (.comment comment : S.Message)
  have parentRows := IS6.exec_message apart passes message
  rw [findMessageVertex_id found] at parentRows
  rw [together passes hpasses] at rows
  exact rows.trans parentRows.symm

end Threads

/-- However far one follows the answers of IS7, IS6 names the same forum. -/
theorem forum_of_thread (S : Store) (oneParent : ∀ comment,
      (S.replyOfPost.outEdges comment).length + (S.replyOfComment.outEdges comment).length ≤ 1)
    (apart : ∀ p c, S.postId p ≠ S.commentId c) {a b : Int}
    (thread : Relation.ReflTransGen (Answered S.toGraph) a b) :
    ∃ enough, ∀ passes ≥ enough, IS6.exec S passes b = IS6.exec S passes a := by
  induction thread with
  | refl => exact ⟨0, fun _ _ => rfl⟩
  | tail _ answered ih =>
    obtain ⟨n, before⟩ := ih
    obtain ⟨m, here⟩ := forum_of_reply oneParent apart answered
    exact ⟨max n m, fun passes hpasses => (here passes (le_of_max_le_right hpasses)).trans
      (before passes (le_of_max_le_left hpasses))⟩

/-- From the post to the last comment. -/
theorem forum_of_thread_seminar :
    ∃ enough, ∀ passes ≥ enough, IS6.exec seminar passes 2 = IS6.exec seminar passes 3 := by
  refine forum_of_thread seminar (by decide) (by decide) ?_
  refine .tail (b := 1) (.tail (b := 0) (.tail .refl ?_) ?_) ?_ <;>
    exact ⟨stableSort, by decide +kernel⟩

end LdbcInteractive
