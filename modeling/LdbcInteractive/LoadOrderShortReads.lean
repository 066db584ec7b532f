import LdbcInteractive.LoadOrderFriends
import LdbcInteractive.LoadOrderLatest
import LdbcInteractive.ShortReads

/-!
# The short reads do not see the load order

IS1, IS3, IS4, IS5 and IS6 return the same rows in every store of one property graph,
the friends of IS3 in the same order under every sort.
-/

namespace LdbcInteractive

open EdgeTables PriorityQueues

/-- A renumbering of the graph that carries the columns and tables of the short reads too. -/
structure StoreRenumbering (S T : Store) extends Renumbering S.toGraph T.toGraph where
  placeId : ∀ v, T.placeId (place v) = S.placeId v
  hasModerator : S.hasModerator.Renamed T.hasModerator forum person
  friendship : S.friendship.Renamed T.friendship person person

/-- The edges that the short reads follow without a loop: each of them goes to one vertex. -/
structure SingleLinks (S : Store) : Prop where
  homes : S.personIsLocatedIn.AtMostOne
  postCreator : S.postHasCreator.AtMostOne
  commentCreator : S.commentHasCreator.AtMostOne
  replyOfPost : S.replyOfPost.AtMostOne
  replyOfComment : S.replyOfComment.AtMostOne
  oneForum : IC5.OneForum S.toGraph
  moderator : S.hasModerator.AtMostOne

theorem Store.reloaded_out (S : Store) (v : S.Person) :
    (S.friendship.reload Fin.revPerm Fin.revPerm).outgoing v =
      S.toGraph.reloaded.knows.outgoing v :=
  (S.friendship.outgoing_reload _ _ v).trans
    ((congrArg (fun friends => (friends.map Fin.revPerm).reverse) (S.friendship_out _)).trans
      (S.knows.outgoing_reload _ _ v).symm)

theorem Store.reloaded_in (S : Store) (v : S.Person) :
    (S.friendship.reload Fin.revPerm Fin.revPerm).incoming v =
      S.toGraph.reloaded.knows.incoming v :=
  (S.friendship.incoming_reload _ _ v).trans
    ((congrArg (fun friends => (friends.map Fin.revPerm).reverse) (S.friendship_in _)).trans
      (S.knows.incoming_reload _ _ v).symm)

def Store.reloaded (S : Store) : Store where
  toGraph := S.toGraph.reloaded
  placeId v := S.placeId v.rev
  hasModerator := S.hasModerator.reload Fin.revPerm Fin.revPerm
  friendship := S.friendship.reload Fin.revPerm Fin.revPerm
  friendship_out := S.reloaded_out
  friendship_in := S.reloaded_in

def StoreRenumbering.reloaded (S : Store) : StoreRenumbering S S.reloaded where
  toRenumbering := .reloaded S.toGraph
  placeId v := congrArg S.placeId (Fin.rev_rev v)
  hasModerator := S.hasModerator.renamed_reload Fin.revPerm Fin.revPerm
  friendship := S.friendship.renamed_reload Fin.revPerm Fin.revPerm

namespace StoreRenumbering
variable {S T : Store} (r : StoreRenumbering S T)

theorem cityId (homes : S.personIsLocatedIn.AtMostOne) (root : S.Person) :
    IS1.cityId T (r.person root) = IS1.cityId S root := by
  simp only [IS1.cityId, getSingleOutNeighbor, r.personIsLocatedIn.head_outgoing homes]
  cases (S.personIsLocatedIn.outgoing root).head? with
  | none => rfl
  | some placeVid => exact r.placeId placeVid

theorem personRow (homes : S.personIsLocatedIn.AtMostOne) (root : S.Person) :
    IS1.row T (r.person root) = IS1.row S root := by
  simp only [IS1.row, r.cityId homes, r.firstName, r.lastName, r.birthday, r.locationIP,
    r.browserUsed, r.gender, r.personCreationDate]

def friendInfo (info : IS3.FriendInfo S) : IS3.FriendInfo T where
  personVid := r.person info.personVid
  personId := info.personId
  friendshipCreationMs := info.friendshipCreationMs

theorem friendships (root : S.Person) :
    (IS3.friendships T (r.person root)).Perm ((IS3.friendships S root).map r.friendInfo) := by
  have both := ((r.friendship root).append (r.friendship.inEdges root)).map (IS3.friendInfo T)
  refine both.trans (List.Perm.of_eq ?_)
  rw [← List.map_append, List.map_map, IS3.friendships, List.map_map]
  refine List.map_congr_left fun e _ => ?_
  simp only [Function.comp_apply, IS3.friendInfo, friendInfo, Prod.map_fst, Prod.map_snd, id,
    r.personId]

theorem friends (sort sort' : StdSort) (root : S.Person) :
    IS3.exec T sort' (T.personId (r.person root)) = IS3.exec S sort (S.personId root) := by
  have before_friend : ∀ a b, (IS3.friendOrder T).before (r.friendInfo a) (r.friendInfo b) =
      (IS3.friendOrder S).before a b := fun _ _ => rfl
  rw [IS3.exec_known, IS3.exec_known, StdSort.sort_renamed sort sort'
    (IS3.friendships_separates root) before_friend (r.friendships root), List.map_map]
  refine List.map_congr_left fun info _ => ?_
  simp only [Function.comp_apply, IS3.row, friendInfo, r.firstName, r.lastName]

theorem messageRow (message : S.Message) :
    (⟨IS4.content T.toGraph (r.message message),
      IS4.creationDate T.toGraph (r.message message)⟩ : IS4.Row) =
    ⟨IS4.content S.toGraph message, IS4.creationDate S.toGraph message⟩ := by
  cases message with
  | post v =>
    simp only [Renumbering.message, IS4.content, IS4.creationDate, r.postLength, r.imageFile,
      r.postContent, r.postCreationDate]
  | comment v =>
    simp only [Renumbering.message, IS4.content, IS4.creationDate, r.commentContent,
      r.commentCreationDate]

theorem creator (links : SingleLinks S) (message : S.Message) :
    getSingleOutNeighbor (IS5.hasCreatorOut T.toGraph) (r.message message) =
      (getSingleOutNeighbor (IS5.hasCreatorOut S.toGraph) message).map r.person := by
  cases message with
  | post v => exact r.postHasCreator.head_outgoing links.postCreator v
  | comment v => exact r.commentHasCreator.head_outgoing links.commentCreator v

theorem container (one : IC5.OneForum S.toGraph) (post : S.Post) :
    getSingleOutNeighbor T.containerOf.incoming (r.post post) =
      (getSingleOutNeighbor S.containerOf.incoming post).map r.forum := by
  refine Option.ext fun forum => ?_
  obtain ⟨forum, rfl⟩ := r.forum.surjective forum
  rw [(r.oneForum one).first_iff, r.containerOf.mem_incoming_iff, ← one.first_iff,
    ← Option.map_some, (Option.map_injective r.forum.injective).eq_iff]

theorem forumRows (links : SingleLinks S) (post : S.Post) :
    IS6.forumRows T (r.post post) = IS6.forumRows S post := by
  simp only [IS6.forumRows, r.container links.oneForum]
  cases getSingleOutNeighbor S.containerOf.incoming post with
  | none => rfl
  | some forum =>
    simp only [Option.map_some, getSingleOutNeighbor,
      r.hasModerator.head_outgoing links.moderator]
    cases (S.hasModerator.outgoing forum).head? with
    | none => rfl
    | some moderator =>
      simp only [Option.map_some, IS6.row, r.forumId, r.forumTitle, r.personId, r.firstName,
        r.lastName]

end StoreRenumbering

/-- A person (IS1), a person's friends (IS3), a message (IS4), its author (IS5) and its forum
(IS6), with the same number of passes to the root post. -/
theorem short_reads_renumbered {S T : Store} (r : StoreRenumbering S T) (links : SingleLinks S)
    (sort sort' : StdSort) (passes : Nat) (id : Int) :
    IS1.exec T id = IS1.exec S id ∧ IS3.exec T sort' id = IS3.exec S sort id ∧
      IS4.exec T.toGraph id = IS4.exec S.toGraph id ∧
      IS5.exec T.toGraph id = IS5.exec S.toGraph id ∧
      IS6.exec T passes id = IS6.exec S passes id := by
  refine ⟨?_, ?_, ?_, ?_, ?_⟩
  · simp only [IS1.exec, r.rootOf]
    cases getVertexIndex S.personId id with
    | none => rfl
    | some root => exact congrArg (fun row => [row]) (r.personRow links.homes root)
  · cases known : getVertexIndex S.personId id with
    | none =>
      have known' := r.rootOf id
      rw [known] at known'
      simp only [IS3.exec, known, known', Option.map_none]
    | some root =>
      have friends := r.friends sort sort' root
      rwa [r.personId, getVertexIndex_id known] at friends
  · simp only [IS4.exec, r.findMessageVertex]
    cases findMessageVertex S.toGraph id with
    | none => rfl
    | some message => exact congrArg (fun row => [row]) (r.messageRow message)
  · simp only [IS5.exec, r.findMessageVertex]
    cases findMessageVertex S.toGraph id with
    | none => rfl
    | some message =>
      simp only [Option.map_some, r.creator links]
      cases getSingleOutNeighbor (IS5.hasCreatorOut S.toGraph) message with
      | none => rfl
      | some author =>
        simp only [Option.map_some, IS5.row, r.personId, r.firstName, r.lastName]
  · simp only [IS6.exec, r.findMessageVertex]
    cases findMessageVertex S.toGraph id with
    | none => rfl
    | some message =>
      simp only [Option.map_some, r.rootPost links.replyOfPost links.replyOfComment]
      cases resolveRootPost S.replyOfPost.outgoing S.replyOfComment.outgoing passes message with
      | none => rfl
      | some found =>
        cases found with
        | none => rfl
        | some post => simp only [Option.map_some, r.forumRows links]

theorem seminar_links : SingleLinks seminar where
  homes := by decide
  postCreator := by decide
  commentCreator := by decide
  replyOfPost := by decide
  replyOfComment := by decide
  oneForum := by decide
  moderator := by decide

theorem short_reads_renumbered_reloaded :
    IS1.exec seminar.reloaded 1 = IS1.exec seminar 1 ∧
      IS3.exec seminar.reloaded stableSort 1 = IS3.exec seminar stableSort 1 ∧
      IS4.exec seminar.reloaded.toGraph 1 = IS4.exec seminar.toGraph 1 ∧
      IS5.exec seminar.reloaded.toGraph 1 = IS5.exec seminar.toGraph 1 ∧
      IS6.exec seminar.reloaded 2 1 = IS6.exec seminar 2 1 :=
  short_reads_renumbered (.reloaded seminar) seminar_links stableSort stableSort 2 1

end LdbcInteractive
