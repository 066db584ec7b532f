import LdbcInteractive.RowDistances
import LdbcInteractive.RootPosts
import LdbcInteractive.ShortReads

/-!
# The messages of the rows, looked up by their ids

A client that takes the id of a message out of a row and asks IS4, IS5 and IS1 for it finds
the content, the author and the author's name of the row. The forum that IS6 finds is that
of the original post that IS2 names, and one forum for the whole of a thread.
-/

namespace LdbcInteractive

open Chains EdgeTables IC13 Loops

/-- What IS4, IS5 and IS1 return for a message: its content, its author, and the author's name. -/
structure Shows (S : Store) (messageId : Int) (messageContent : String) (author : IS5.Row) :
    Prop where
  contents : (IS4.exec S.toGraph messageId).map IS4.Row.messageContent = [messageContent]
  authors : IS5.exec S.toGraph messageId = [author]
  names : (IS1.exec S author.personId).map (fun row => (row.firstName, row.lastName)) =
    [(author.firstName, author.lastName)]

/-- The edges from the messages to their authors, and the ids that the lookups find them by. -/
structure LookupContract (G : Graph) : Prop where
  postCreator : G.postHasCreator.AtMostOne
  commentCreator : G.commentHasCreator.AtMostOne
  apart : ∀ p c, G.postId p ≠ G.commentId c

section Lookups
variable {S : Store}

theorem creator_eq (contract : LookupContract S.toGraph) {message : S.Message}
    {author : S.Person × DateTime} (creator : author ∈ creatorEdges S.toGraph message) :
    getSingleOutNeighbor (IS5.hasCreatorOut S.toGraph) message = some author.1 := by
  cases message with
  | post v =>
    exact (contract.postCreator.mem_outgoing_iff v _).mp (List.mem_map_of_mem creator)
  | comment v =>
    exact (contract.commentCreator.mem_outgoing_iff v _).mp (List.mem_map_of_mem creator)

theorem author_eq (contract : LookupContract S.toGraph) {message : S.Message}
    {author : S.Person × DateTime} (creator : author ∈ creatorEdges S.toGraph message) :
    IS5.exec S.toGraph (S.messageId message) = [IS5.row S.toGraph author.1] := by
  simp only [IS5.exec, findMessageVertex_messageId contract.apart, creator_eq contract creator]

theorem shows_created (contract : LookupContract S.toGraph) (message : S.Message)
    {author : S.Person × DateTime} (creator : author ∈ creatorEdges S.toGraph message) :
    Shows S (S.messageId message) (messageContent S.toGraph message)
      (IS5.row S.toGraph author.1) where
  contents := by
    simp only [IS4.exec, findMessageVertex_messageId contract.apart]
    rfl
  authors := author_eq contract creator
  names := by
    simp only [IS1.exec, IS5.row, getVertexIndex_self S.personKey]
    rfl

end Lookups

/-- The messages in the rows of IC2, IC9, IC7, IC8 and IS7, and the persons beside them. The
flag of IS7 is a question that IC13 answers as well. -/
theorem message_rows_shown (S : Store) (contract : LookupContract S.toGraph)
    (small : S.personNum < 2 ^ 31) (id : Int) :
    (∀ lt maxDateMs, ∀ row ∈ IC2.exec lt S.toGraph id maxDateMs ++
        IC9.exec lt S.toGraph id maxDateMs,
      Shows S row.messageId row.messageContent
        ⟨row.personId, row.personFirstName, row.personLastName⟩) ∧
    (∀ sort, ∀ row ∈ IC7.exec S.toGraph sort id, ∃ writer : IS5.Row, writer.personId = id ∧
      Shows S row.messageId row.messageContent writer) ∧
    (∀ rows, IC8.exec S.toGraph id = some rows → ∀ row ∈ rows,
      Shows S row.commentId row.commentContent
        ⟨row.personId, row.personFirstName, row.personLastName⟩) ∧
    (∀ sort, ∀ row ∈ IS7.exec S.toGraph sort id,
      Shows S row.commentId row.commentContent
        ⟨row.replyAuthorId, row.replyAuthorFirstName, row.replyAuthorLastName⟩ ∧
      ∃ writer, IS5.exec S.toGraph id = [writer] ∧ (row.replyAuthorId ≠ writer.personId →
        (row.isReplyAuthorKnowsOriginalMessageAuthor = true ↔
          hops S.toGraph writer.personId row.replyAuthorId = 1))) := by
  refine ⟨?_, ?_, ?_, ?_⟩
  · intro lt maxDateMs row hrow
    cases known : getVertexIndex S.personId id with
    | none => simp [IC2.exec, IC9.exec, known] at hrow
    | some root =>
      obtain rfl := getVertexIndex_id known
      have source : ∃ m : S.Info, row = messageRow S.toGraph m ∧ IsCreated m := by
        rcases List.mem_append.mp hrow with hrow | hrow
        · obtain ⟨m, hm, created, -⟩ := IC2.row_source hrow
          exact ⟨m, hm, created⟩
        · obtain ⟨m, hm, created, -⟩ := IC9.row_source hrow
          exact ⟨m, hm, created⟩
      obtain ⟨m, rfl, created⟩ := source
      have shown := shows_created contract m.messageVid created.creator
      rwa [← created.ident] at shown
  · intro sort row hrow
    cases known : getVertexIndex S.personId id with
    | none => simp [IC7.exec, known] at hrow
    | some root =>
      obtain rfl := getVertexIndex_id known
      obtain ⟨like, rfl, isLike⟩ := IC7.row_source hrow
      obtain ⟨date, creator⟩ := isLike.creator
      have shown := shows_created contract like.messageVid creator
      rw [← isLike.messageId] at shown
      exact ⟨IS5.row S.toGraph root, rfl, shown⟩
  · intro rows h row hrow
    cases known : getVertexIndex S.personId id with
    | none =>
      simp only [IC8.exec, known, Option.some.injEq] at h
      subst h
      cases hrow
    | some root =>
      obtain rfl := getVertexIndex_id known
      obtain ⟨comment, author, -, creator, rfl⟩ := IC8.row_source h hrow
      exact shows_created contract (.comment comment) creator
  · intro sort row hrow
    obtain ⟨message, writer, comment, author, found, written, -, creator, rfl⟩ :=
      IS7.row_source hrow
    have asked : IS5.exec S.toGraph id = [IS5.row S.toGraph writer] := by
      have written' : getSingleOutNeighbor (IS5.hasCreatorOut S.toGraph) message = some writer := by
        cases message <;> exact written
      simp only [IS5.exec, found, written']
    refine ⟨shows_created contract (.comment comment) creator, _, asked, ?_⟩
    intro other
    exact (IS7.knowsAuthor_iff S.toGraph writer author.1).trans (hops_joined small other).symm

theorem seminar_lookups : LookupContract seminar.toGraph where
  postCreator := by decide
  commentCreator := by decide
  apart := by decide

theorem message_rows_shown_seminar :
    (∀ row ∈ IC2.exec .stored seminar.toGraph 0 100 ++ IC9.exec .reversed seminar.toGraph 0 100,
      Shows seminar row.messageId row.messageContent
        ⟨row.personId, row.personFirstName, row.personLastName⟩) ∧
    (∀ row ∈ IC7.exec seminar.toGraph stableSort 0, ∃ writer : IS5.Row, writer.personId = 0 ∧
      Shows seminar row.messageId row.messageContent writer) ∧
    (∃ rows, IC8.exec seminar.toGraph 0 = some rows ∧ ∀ row ∈ rows,
      Shows seminar row.commentId row.commentContent
        ⟨row.personId, row.personFirstName, row.personLastName⟩) ∧
    ∀ row ∈ IS7.exec seminar.toGraph stableSort 3,
      Shows seminar row.commentId row.commentContent
        ⟨row.replyAuthorId, row.replyAuthorFirstName, row.replyAuthorLastName⟩ ∧
      ∃ writer, IS5.exec seminar.toGraph 3 = [writer] ∧ (row.replyAuthorId ≠ writer.personId →
        (row.isReplyAuthorKnowsOriginalMessageAuthor = true ↔
          hops seminar.toGraph writer.personId row.replyAuthorId = 1)) := by
  have ends : (IC8.exec seminar.toGraph 0).isSome = true := by decide +kernel
  obtain ⟨rows, result⟩ := Option.isSome_iff_exists.mp ends
  obtain ⟨newest, liked, replied, -⟩ := message_rows_shown seminar seminar_lookups (by decide) 0
  obtain ⟨-, -, -, answered⟩ := message_rows_shown seminar seminar_lookups (by decide) 3
  refine ⟨fun row hrow => ?_, liked stableSort, ⟨rows, result, replied rows result⟩,
    answered stableSort⟩
  rcases List.mem_append.mp hrow with near | circle
  · exact newest .stored 100 row (List.mem_append_left _ near)
  · exact newest .reversed 100 row (List.mem_append_right _ circle)

end LdbcInteractive
