import LdbcInteractive.IC2
import LdbcInteractive.IC7
import LdbcInteractive.IC9
import LdbcInteractive.IS7
import LdbcInteractive.Renumberings
import LdbcInteractive.Replies

/-!
# Queries about messages do not see the load order

The rows of IC2 and IC9 are the same in every store of one property graph, and in
every order in which the typed view hands out the edges of a window.
-/

namespace LdbcInteractive

open EdgeTables PriorityQueues

section Messages
variable {G H : Graph} (r : Renumbering G H)

def Renumbering.info (m : G.Info) : H.Info where
  messageVid := r.message m.messageVid
  personVid := r.person m.personVid
  messageId := m.messageId
  creationDateMs := m.creationDateMs

theorem Renumbering.before_info (m m' : G.Info) :
    (messageInfoComparer H.Message H.Person).before (r.info m) (r.info m') =
      (messageInfoComparer G.Message G.Person).before m m' := rfl

theorem Renumbering.messageRow (m : G.Info) :
    LdbcInteractive.messageRow H (r.info m) = LdbcInteractive.messageRow G m := by
  simp only [LdbcInteractive.messageRow, info, r.personId, r.firstName, r.lastName,
    r.messageContent]

theorem Renumbering.windowOf {P P' : Type} {view : G.Person → List (P × DateTime)}
    {view' : H.Person → List (P' × DateTime)} {f : P ≃ P'}
    (same : ∀ a, (view' (r.person a)).Perm ((view a).map (Prod.map f id)))
    {vertex : P → G.Message} {vertex' : P' → H.Message}
    (vertices : ∀ v, vertex' (f v) = r.message (vertex v)) {idCol : P → Int} {idCol' : P' → Int}
    (ids : ∀ v, idCol' (f v) = idCol v) (lt lt' : NbrLt) (threshold : DateTime)
    (friendVid : G.Person) :
    (LdbcInteractive.windowOf lt' view' vertex' idCol' threshold (r.person friendVid)).Perm
      ((LdbcInteractive.windowOf lt view vertex idCol threshold friendVid).map r.info) := by
  have window := ((NbrLt.order_renamed same lt lt' friendVid threshold).filter
    fun e => decide (0 ≤ e.2)).map (edgeInfo vertex' idCol' (r.person friendVid))
  rw [List.filter_map, List.map_map] at window
  rw [LdbcInteractive.windowOf, LdbcInteractive.windowOf, List.map_map]
  refine window.trans (List.Perm.of_eq (List.map_congr_left fun e _ => ?_))
  simp only [Function.comp_apply, edgeInfo, info, Prod.map_fst, Prod.map_snd, id, vertices, ids]

theorem Renumbering.friendMessages (lt lt' : NbrLt) (threshold : DateTime)
    (friendVid : G.Person) :
    (LdbcInteractive.friendMessages lt' H threshold (r.person friendVid)).Perm
      ((LdbcInteractive.friendMessages lt G threshold friendVid).map r.info) := by
  rw [LdbcInteractive.friendMessages, LdbcInteractive.friendMessages, List.map_append]
  exact (r.windowOf r.postHasCreator.inEdges (fun _ => rfl) r.postId lt lt' threshold
    friendVid).append
    (r.windowOf r.commentHasCreator.inEdges (fun _ => rfl) r.commentId lt lt' threshold friendVid)

/-- The messages of some persons have no two entries of one date and one id that differ, also
where a person is met more than once. -/
theorem separates_messages (posts : G.postHasCreator.AtMostOne)
    (comments : G.commentHasCreator.AtMostOne) (unique : Function.Injective G.messageId)
    (lt : NbrLt) (threshold : DateTime) (friends : List G.Person) :
    (messageInfoComparer G.Message G.Person).Separates
      (friends.flatMap (LdbcInteractive.friendMessages lt G threshold)) := by
  have created : ∀ m ∈ friends.flatMap (LdbcInteractive.friendMessages lt G threshold),
      IsCreated m := by
    intro m hm
    obtain ⟨v, -, hm⟩ := List.mem_flatMap.mp hm
    exact (mem_friendMessages.mp hm).2.1
  refine (messagesByDate _ _).separates_of_key fun m hm m' hm' _ ids => ?_
  refine (created m hm).unique posts comments (created m' hm') (unique ?_)
  exact (created m hm).ident.symm.trans ((OrderDual.toDual_inj.mp ids).trans (created m' hm').ident)

theorem Renumbering.firstMessages (posts : G.postHasCreator.AtMostOne)
    (comments : G.commentHasCreator.AtMostOne) (unique : Function.Injective G.messageId)
    (lt lt' : NbrLt) (threshold : DateTime) {friends : List G.Person} {friends' : List H.Person}
    (same : friends'.Perm (friends.map r.person)) (n : Nat) :
    ((messageInfoComparer H.Message H.Person).firstN n
        (friends'.flatMap (LdbcInteractive.friendMessages lt' H threshold))).map
          (LdbcInteractive.messageRow H) =
      ((messageInfoComparer G.Message G.Person).firstN n
        (friends.flatMap (LdbcInteractive.friendMessages lt G threshold))).map
          (LdbcInteractive.messageRow G) := by
  have stream : (friends'.flatMap (LdbcInteractive.friendMessages lt' H threshold)).Perm
      ((friends.flatMap (LdbcInteractive.friendMessages lt G threshold)).map r.info) :=
    flatMap_renamed same (r.friendMessages lt lt' threshold)
  exact Comparer.firstN_rows_renamed (separates_messages posts comments unique lt threshold friends)
    r.before_info stream n r.messageRow

/-- The newest messages of the friends (IC2) and of the circle of radius two (IC9) do not
depend on the numbering of the vertices or on the order of any adjacency list. -/
theorem newest_messages_renumbered (r : Renumbering G H) (posts : G.postHasCreator.AtMostOne)
    (comments : G.commentHasCreator.AtMostOne) (unique : Function.Injective G.messageId)
    (lt lt' : NbrLt) (personId : Int) (maxDateMs : Int64) :
    IC2.exec lt' H personId maxDateMs = IC2.exec lt G personId maxDateMs ∧
      IC9.exec lt' H personId maxDateMs = IC9.exec lt G personId maxDateMs := by
  induction personId using r.byRoot with
  | unknown id absent absent' => simp only [IC2.exec, IC9.exec, absent, absent', and_self]
  | known root =>
    rw [IC2.exec_eq, IC9.exec_eq, ← r.personId, IC2.exec_eq, IC9.exec_eq]
    exact ⟨r.firstMessages posts comments unique lt lt' _ (r.neighbors root) _,
      r.firstMessages posts comments unique lt lt' _ (r.oneTwoCalls root) _⟩

theorem newest_messages_renumbered_reloaded :
    IC2.exec .reversed IC2.friendPosts.reloaded 0 15 = IC2.exec .stored IC2.friendPosts 0 15 ∧
      IC9.exec .reversed IC2.friendPosts.reloaded 0 15 = IC9.exec .stored IC2.friendPosts 0 15 :=
  newest_messages_renumbered (.reloaded IC2.friendPosts) (by decide) (by decide)
    (messageId_injective (G := IC2.friendPosts) (by decide)) .stored .reversed 0 15

end Messages

section Likes
variable {G H : Graph} (r : Renumbering G H)

def Renumbering.like (l : IC7.LikeResult G) : IC7.LikeResult H where
  personVid := r.person l.personVid
  messageVid := r.message l.messageVid
  likeDateMs := l.likeDateMs
  personId := l.personId
  messageId := l.messageId

theorem Renumbering.likeOrder_like (l l' : IC7.LikeResult G) :
    (IC7.likeOrder H).before (r.like l) (r.like l') = (IC7.likeOrder G).before l l' := rfl

theorem Renumbering.before_like (l l' : IC7.LikeResult G) :
    (IC7.likeResultComparer H).before (r.like l) (r.like l') =
      (IC7.likeResultComparer G).before l l' := rfl

theorem Renumbering.collectLikes {P P' : Type} [DecidableEq P] [DecidableEq P'] {f : P ≃ P'}
    {creators : EdgeTable P G.Person DateTime} {creators' : EdgeTable P' H.Person DateTime}
    {likes : EdgeTable G.Person P DateTime} {likes' : EdgeTable H.Person P' DateTime}
    (hc : creators.Renamed creators' f r.person) (hl : likes.Renamed likes' r.person f)
    {vertex : P → G.Message} {vertex' : P' → H.Message}
    (vertices : ∀ v, vertex' (f v) = r.message (vertex v)) {idCol : P → Int} {idCol' : P' → Int}
    (ids : ∀ v, idCol' (f v) = idCol v) (root : G.Person) :
    ((creators'.incoming (r.person root)).flatMap fun v =>
        (likes'.inEdges v).map (IC7.likeInfo H vertex' idCol' v)).Perm
      (((creators.incoming root).flatMap fun v =>
        (likes.inEdges v).map (IC7.likeInfo G vertex idCol v)).map r.like) := by
  refine flatMap_renamed (hc.incoming root) fun v => ((hl.inEdges v).map _).trans ?_
  rw [List.map_map, List.map_map]
  refine List.Perm.of_eq (List.map_congr_left fun e _ => ?_)
  simp only [Function.comp_apply, IC7.likeInfo, like, Prod.map_fst, Prod.map_snd, id, vertices,
    ids, r.personId]

theorem Renumbering.likesOf (root : G.Person) :
    (IC7.likesOf H (r.person root)).Perm ((IC7.likesOf G root).map r.like) := by
  simp only [IC7.likesOf, IC7.collectLikes_eq, List.nil_append, List.map_append]
  exact (r.collectLikes r.postHasCreator r.likesPost (fun _ => rfl) r.postId root).append
    (r.collectLikes r.commentHasCreator r.likesComment (fun _ => rfl) r.commentId root)

theorem Renumbering.likeRow (root : G.Person) (l : IC7.LikeResult G) :
    IC7.row H (r.person root) (r.like l) = IC7.row G root l := by
  have known : IC7.friends H (r.person root) (r.person l.personVid) =
      IC7.friends G root l.personVid := by
    rw [Bool.eq_iff_iff, IC7.friends_iff, IC7.friends_iff, r.joined]
  have created : IC7.messageCreationMs H (r.message l.messageVid) =
      IC7.messageCreationMs G l.messageVid := by
    cases l.messageVid with
    | post v => exact r.postCreationDate v
    | comment v => exact r.commentCreationDate v
  simp only [IC7.row, like, known, created, r.firstName, r.lastName, r.messageContent]

/-- The newest like of each liker (IC7), where message ids are unique. -/
theorem newest_likes_renumbered (r : Renumbering G H) (unique : Function.Injective G.messageId)
    (sort sort' : StdSort) (personId : Int) :
    IC7.exec H sort' personId = IC7.exec G sort personId := by
  induction personId using r.byRoot with
  | unknown id absent absent' => simp only [IC7.exec, absent, absent']
  | known root =>
    have sep : (IC7.likeOrder G).Separates (IC7.likesOf G root) :=
      IC7.separates_likes unique fun l hl => IC7.mem_likesOf.mp hl
    have sorted : sort'.sort (IC7.likeOrder H) (IC7.likesOf H (r.person root)) =
        (sort.sort (IC7.likeOrder G) (IC7.likesOf G root)).map r.like :=
      StdSort.sort_renamed sort sort' sep r.likeOrder_like (r.likesOf root)
    have heads : runHeads IC7.LikeResult.personId none
        ((sort.sort (IC7.likeOrder G) (IC7.likesOf G root)).map r.like) =
          (runHeads IC7.LikeResult.personId none
            (sort.sort (IC7.likeOrder G) (IC7.likesOf G root))).map r.like :=
      runHeads_map (fun _ => rfl) none _
    have ids : ((runHeads IC7.LikeResult.personId none
        (sort.sort (IC7.likeOrder G) (IC7.likesOf G root))).map IC7.LikeResult.personId).Nodup :=
      (runHeads_keys IC7.personId_mono (sort.sorted _ _) (by simp)).1.imp ne_of_lt
    rw [IC7.exec_eq, ← r.personId, IC7.exec_eq, sorted, heads]
    exact Comparer.firstN_rows_renamed ((IC7.likesByDate G).separates ids) r.before_like
      (List.Perm.refl _) _ (r.likeRow root)

theorem newest_likes_renumbered_reloaded :
    IC7.exec IC7.likedMessages.reloaded stableSort 0 =
      IC7.exec IC7.likedMessages stableSort 0 :=
  newest_likes_renumbered (.reloaded IC7.likedMessages)
    (messageId_injective (G := IC7.likedMessages) (by decide)) stableSort stableSort 0

end Likes

section Replies
variable {G H : Graph} (r : Renumbering G H)

def Renumbering.reply (reply : IS7.ReplyInfo G) : IS7.ReplyInfo H where
  commentVid := r.comment reply.commentVid
  authorVid := r.person reply.authorVid
  commentId := reply.commentId
  authorId := reply.authorId
  creationDateMs := reply.creationDateMs

theorem Renumbering.collectReplies (comments : G.commentHasCreator.AtMostOne)
    {replies : List G.Comment} {replies' : List H.Comment}
    (same : replies'.Perm (replies.map r.comment)) :
    (IS7.collectReplies H replies').Perm ((IS7.collectReplies G replies).map r.reply) := by
  rw [IS7.collectReplies_eq, IS7.collectReplies_eq, List.map_filterMap]
  refine (same.filterMap _).trans (List.Perm.of_eq ?_)
  rw [List.filterMap_map]
  refine List.filterMap_congr fun c _ => ?_
  rw [Function.comp_apply, r.commentHasCreator.outEdges_eq comments, List.head?_map]
  cases (G.commentHasCreator.outEdges c).head? with
  | none => rfl
  | some e => simp [IS7.replyInfo, reply, r.commentId, r.personId]

theorem Renumbering.replyRow (author : G.Person) (reply : IS7.ReplyInfo G) :
    IS7.row H (r.person author) (r.reply reply) = IS7.row G author reply := by
  have known : IS7.knowsAuthor H (r.person author) (r.person reply.authorVid) =
      IS7.knowsAuthor G author reply.authorVid := by
    rw [Bool.eq_iff_iff, IS7.knowsAuthor_iff, IS7.knowsAuthor_iff, r.joined]
  simp only [IS7.row, Renumbering.reply, known, r.firstName, r.lastName, r.commentContent]

theorem Renumbering.replyIn (m : G.Message) :
    (IS7.replyIn H (r.message m)).Perm ((IS7.replyIn G m).map r.comment) := by
  cases m with
  | post v => exact r.replyOfPost.incoming v
  | comment v => exact r.replyOfComment.incoming v

theorem Renumbering.author (posts : G.postHasCreator.AtMostOne)
    (comments : G.commentHasCreator.AtMostOne) (m : G.Message) :
    (IS7.hasCreatorOut H (r.message m)).head? = (IS7.hasCreatorOut G m).head?.map r.person := by
  cases m with
  | post v => exact r.postHasCreator.head_outgoing posts v
  | comment v => exact r.commentHasCreator.head_outgoing comments v

/-- The replies to a message (IS7): only replies of one author at one instant may change
places, and then in one store too. -/
theorem replies_renumbered (r : Renumbering G H) (posts : G.postHasCreator.AtMostOne)
    (comments : G.commentHasCreator.AtMostOne) (sort sort' : StdSort) (messageId : Int) :
    (IS7.exec H sort' messageId).Perm (IS7.exec G sort messageId) := by
  rw [IS7.exec, IS7.exec, r.findMessageVertex]
  cases findMessageVertex G messageId with
  | none => exact List.Perm.refl _
  | some m =>
    simp only [Option.map_some, r.author posts comments]
    cases (IS7.hasCreatorOut G m).head? with
    | none => exact List.Perm.refl _
    | some author =>
      have replies := ((sort'.perm (IS7.replyOrder H) _).trans
        ((r.collectReplies comments (r.replyIn m)).trans
          ((sort.perm (IS7.replyOrder G) _).symm.map _))).map (IS7.row H (r.person author))
      rw [List.map_map] at replies
      refine replies.trans (List.Perm.of_eq (List.map_congr_left fun reply _ => ?_))
      exact r.replyRow author reply

theorem replies_renumbered_reloaded :
    (IS7.exec answeredThread.reloaded stableSort 3).Perm (IS7.exec answeredThread stableSort 3) :=
  replies_renumbered (.reloaded answeredThread) (by decide) (by decide) stableSort stableSort 3

end Replies

end LdbcInteractive
