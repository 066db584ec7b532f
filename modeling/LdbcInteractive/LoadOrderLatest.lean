import LdbcInteractive.CoarseOrders
import LdbcInteractive.MissingLinks
import LdbcInteractive.Renumberings

/-!
# What the load order can change in IC8 and IS2

The two queries with the reversed tie test keep other rows of the oldest date when the
edges arrive in another order. The dates of all rows, and every row that is newer than
the oldest ones, are the same in every store of one property graph.
-/

namespace LdbcInteractive

open Chains DatedOrders EdgeTables Loops PriorityQueues

variable {G H : Graph}

section Replies
open IC8
variable (r : Renumbering G H)

def Renumbering.reply8 (result : IC8.CommentResult G) : IC8.CommentResult H where
  commentVid := r.comment result.commentVid
  authorVid := r.person result.authorVid
  creationDateMs := result.creationDateMs
  commentId := result.commentId

theorem Renumbering.directReplies (root : G.Person) :
    (LdbcInteractive.directReplies H (r.person root)).Perm
      ((LdbcInteractive.directReplies G root).map r.comment) := by
  rw [LdbcInteractive.directReplies, LdbcInteractive.directReplies, List.map_append]
  exact (flatMap_renamed (r.postHasCreator.incoming root) r.replyOfPost.incoming).append
    (flatMap_renamed (r.commentHasCreator.incoming root) r.replyOfComment.incoming)

theorem Renumbering.repliesOf (creators : G.commentHasCreator.AtMostOne)
    {comments : List G.Comment} {comments' : List H.Comment}
    (perm : comments'.Perm (comments.map r.comment)) :
    (LdbcInteractive.repliesOf H comments').Perm
      ((LdbcInteractive.repliesOf G comments).map r.reply8) := by
  refine (perm.filterMap _).trans (List.Perm.of_eq ?_)
  rw [List.filterMap_map, LdbcInteractive.repliesOf, List.map_filterMap]
  refine List.filterMap_congr fun comment _ => ?_
  simp only [Function.comp_apply, r.commentHasCreator.outEdges_eq creators, List.head?_map,
    Option.map_map]
  cases (G.commentHasCreator.outEdges comment).head? with
  | none => rfl
  | some author =>
    simp only [Option.map_some, Function.comp_apply, commentInfo, Renumbering.reply8,
      Prod.map_fst, Prod.map_snd, id, r.commentId]

theorem repliesOf_separates (comments : List G.Comment) :
    (commentResultComparer G).Separates (repliesOf G comments) := by
  refine (IC8.byDate G).separates_of_key fun a ha b hb _ ids => ?_
  obtain ⟨c, -, ha⟩ := List.mem_filterMap.mp ha
  obtain ⟨c', -, hb⟩ := List.mem_filterMap.mp hb
  obtain ⟨author, hauthor, rfl⟩ := Option.map_eq_some_iff.mp ha
  obtain ⟨author', hauthor', rfl⟩ := Option.map_eq_some_iff.mp hb
  obtain rfl : c = c' := G.commentKey ids
  obtain rfl : author = author' := Option.some.inj (hauthor.symm.trans hauthor')
  rfl

theorem Renumbering.replyRow8 (result : IC8.CommentResult G) :
    IC8.row H (r.reply8 result) = IC8.row G result := by
  simp only [IC8.row, Renumbering.reply8, r.personId, r.firstName, r.lastName, r.commentContent]

theorem IC8.exec_feed {root : G.Person} (authored : IC8.LinksPresent G root) :
    IC8.exec G (G.personId root) =
      some (((LdbcInteractive.repliesOf G (LdbcInteractive.directReplies G root)).foldl
        (PriorityQueue.offer IC8.kTopN (IC8.byDate G).reversed)
        (.empty : IC8.Queue G)).items.map (IC8.row G)) := by
  rw [IC8.exec, getVertexIndex_self G.personKey]
  simp only [scanRoot_eq authored, feed, considerComment_eq, PriorityQueue.drain,
    List.reverse_reverse]
  rfl

theorem IC8.exec_unauthored {root : G.Person} (missing : ¬ IC8.LinksPresent G root) :
    IC8.exec G (G.personId root) = none := by
  rw [← IC8.exec_isSome] at missing
  exact Option.not_isSome_iff_eq_none.mp missing

theorem Renumbering.replyLinks {root : G.Person} :
    IC8.LinksPresent H (r.person root) ↔ IC8.LinksPresent G root := by
  have edges : ∀ comment, H.commentHasCreator.outEdges (r.comment comment) ≠ [] ↔
      G.commentHasCreator.outEdges comment ≠ [] := fun comment => by
    rw [Ne, Ne, ← List.length_eq_zero_iff, ← List.length_eq_zero_iff,
      (r.commentHasCreator comment).length_eq, List.length_map]
  simp only [IC8.LinksPresent, (r.directReplies root).mem_iff, List.forall_mem_map, edges]

theorem repliesOf_length_le (comments : List G.Comment) :
    (LdbcInteractive.repliesOf G comments).length ≤ comments.length :=
  List.length_filterMap_le _ _

/-- The most recent replies to a person's messages (IC8), up to those of the oldest date, and
without a difference where there are no more than 20 replies. -/
theorem latest_replies_renumbered (r : Renumbering G H)
    (creators : G.commentHasCreator.AtMostOne) (personId : Int) :
    Option.Rel (SameButOldest IC8.Row.commentCreationDate) (IC8.exec G personId)
        (IC8.exec H personId) ∧
      ∀ root, G.personId root = personId → (LdbcInteractive.directReplies G root).length ≤ 20 →
        IC8.exec H personId = IC8.exec G personId := by
  induction personId using r.byRoot with
  | unknown id absent absent' =>
    simp only [IC8.exec, absent, absent']
    exact ⟨.some (.refl _ _), fun _ _ _ => trivial⟩
  | known root =>
    rw [← r.personId root]
    by_cases authored : IC8.LinksPresent G root
    · rw [IC8.exec_feed (r.replyLinks.mpr authored), r.personId, IC8.exec_feed authored]
      have before_reply : ∀ a b, (commentResultComparer H).before (r.reply8 a) (r.reply8 b) =
          (commentResultComparer G).before a b := fun _ _ => rfl
      have replies := r.repliesOf creators (r.directReplies root)
      constructor
      · exact .some (reversed_renamed (IC8.byDate G) (IC8.byDate H) (repliesOf_separates _)
          before_reply replies (fun _ => rfl) IC8.kTopN r.replyRow8 (fun _ => rfl) fun _ => rfl)
      · intro root' same few
        obtain rfl := G.personKey same
        exact congrArg some (items_rows_of_room (repliesOf_separates _) before_reply replies
          ((repliesOf_length_le _).trans few) r.replyRow8)
    · rw [IC8.exec_unauthored (mt r.replyLinks.mp authored), r.personId,
        IC8.exec_unauthored authored]
      exact ⟨.none, fun _ _ _ => rfl⟩

theorem latest_replies_renumbered_reloaded :
    Option.Rel (SameButOldest IC8.Row.commentCreationDate) (IC8.exec (sameDayReplies 21) 0)
        (IC8.exec (sameDayReplies 21).reloaded 0) ∧
      IC8.exec (sameDayReplies 20).reloaded 0 = IC8.exec (sameDayReplies 20) 0 :=
  ⟨(latest_replies_renumbered (.reloaded (sameDayReplies 21)) (by decide) 0).1,
    (latest_replies_renumbered (.reloaded (sameDayReplies 20)) (by decide) 0).2 (0 : Fin 1) rfl
      (by decide +kernel)⟩

end Replies

section Messages
open IS2
variable (r : Renumbering G H)

def Renumbering.message2 (info : IS2.MessageInfo G) : IS2.MessageInfo H where
  messageVid := r.message info.messageVid
  messageId := info.messageId
  creationDateMs := info.creationDateMs

theorem Renumbering.message2_surjective : Function.Surjective r.message2 := by
  intro info
  obtain ⟨vid, hvid⟩ := r.message_surjective info.messageVid
  refine ⟨⟨vid, info.messageId, info.creationDateMs⟩, ?_⟩
  simp only [Renumbering.message2, hvid]

theorem Renumbering.personMessages (root : G.Person) :
    (IS2.personMessages H (r.person root)).Perm ((IS2.personMessages G root).map r.message2) := by
  have view : ∀ {P P' : Type} {es : List (P × DateTime)} {es' : List (P' × DateTime)}
      {f : P → P'} {vertex : P → G.Message} {vertex' : P' → H.Message} {idCol : P → Int}
      {idCol' : P' → Int}, es'.Perm (es.map (Prod.map f id)) →
      (∀ v, vertex' (f v) = r.message (vertex v)) → (∀ v, idCol' (f v) = idCol v) →
      ((es'.filter fun e => 0 ≤ e.2).map (IS2.edgeInfo H vertex' idCol')).Perm
        (((es.filter fun e => 0 ≤ e.2).map (IS2.edgeInfo G vertex idCol)).map r.message2) := by
    intro P P' es es' f vertex vertex' idCol idCol' perm vertices ids
    refine ((filter_renamed (p := fun e => decide (0 ≤ e.2)) perm fun e => rfl).map _).trans
      (List.Perm.of_eq ?_)
    rw [List.map_map, List.map_map]
    refine List.map_congr_left fun e _ => ?_
    simp only [Function.comp_apply, IS2.edgeInfo, Renumbering.message2, Prod.map_fst,
      Prod.map_snd, id, vertices, ids]
  rw [IS2.personMessages, IS2.personMessages, List.map_append]
  exact (view (r.postHasCreator.inEdges root) (fun _ => rfl) r.postId).append
    (view (r.commentHasCreator.inEdges root) (fun _ => rfl) r.commentId)

theorem Renumbering.deliveredMessages (gt gt' : NbrGt) (root : G.Person) :
    (IS2.deliveredMessages gt' H (r.person root)).Perm
      ((IS2.deliveredMessages gt G root).map r.message2) :=
  (deliveredMessages_perm gt' (r.person root)).trans ((r.personMessages root).trans
    ((deliveredMessages_perm gt root).symm.map _))

theorem Renumbering.rootPostStep (posts : G.replyOfPost.AtMostOne)
    (parents : G.replyOfComment.AtMostOne) (c : G.Comment) :
    (∀ t, LdbcInteractive.rootPostStep G.replyOfPost.outgoing G.replyOfComment.outgoing c =
        .next t →
      LdbcInteractive.rootPostStep H.replyOfPost.outgoing H.replyOfComment.outgoing
        (r.comment c) = .next (r.comment t)) ∧
    ∀ found, LdbcInteractive.rootPostStep G.replyOfPost.outgoing G.replyOfComment.outgoing c =
        .done found →
      LdbcInteractive.rootPostStep H.replyOfPost.outgoing H.replyOfComment.outgoing
        (r.comment c) = .done (found.map r.post) := by
  simp only [LdbcInteractive.rootPostStep, getSingleOutNeighbor,
    r.replyOfPost.head_outgoing posts, r.replyOfComment.head_outgoing parents]
  cases (G.replyOfPost.outgoing c).head? with
  | some post =>
    refine ⟨fun _ h => ?_, fun _ h => ?_⟩ <;> cases h
    rfl
  | none =>
    cases (G.replyOfComment.outgoing c).head? with
    | some parent =>
      refine ⟨fun _ h => ?_, fun _ h => ?_⟩ <;> cases h
      rfl
    | none =>
      refine ⟨fun _ h => ?_, fun _ h => ?_⟩ <;> cases h
      rfl

theorem Renumbering.rootPost (posts : G.replyOfPost.AtMostOne)
    (parents : G.replyOfComment.AtMostOne) (passes : Nat) (message : G.Message) :
    resolveRootPost H.replyOfPost.outgoing H.replyOfComment.outgoing passes (r.message message) =
      (resolveRootPost G.replyOfPost.outgoing G.replyOfComment.outgoing passes message).map
        (Option.map r.post) := by
  cases message with
  | post v => rfl
  | comment v =>
    exact loop_renamed (fun c => (r.rootPostStep posts parents c).1)
      (fun c => (r.rootPostStep posts parents c).2) passes v

theorem Renumbering.originalPost (posts : G.replyOfPost.AtMostOne)
    (parents : G.replyOfComment.AtMostOne) (creators : G.postHasCreator.AtMostOne) (passes : Nat)
    (personId : Int) (root : G.Person) (message : IS2.MessageInfo G) :
    (IS2.originalPost H passes personId (r.person root) (r.message2 message)).run =
      (IS2.originalPost G passes personId root message).run := by
  cases hmessage : message.messageVid with
  | post v =>
    have hmessage' : (r.message2 message).messageVid = .post (r.post v) :=
      congrArg r.message hmessage
    rw [IS2.originalPost, IS2.originalPost, hmessage, hmessage']
    simp only [Renumbering.message2, r.firstName, r.lastName]
  | comment c =>
    have hmessage' : (r.message2 message).messageVid = .comment (r.comment c) :=
      congrArg r.message hmessage
    have resolved := r.rootPost posts parents passes (.comment c)
    rw [run_originalPost hmessage, run_originalPost hmessage']
    rw [Renumbering.message] at resolved
    rw [resolved, Option.map_map]
    refine congrArg (Option.map · _) (funext fun found => ?_)
    cases found with
    | none => rfl
    | some v =>
      simp only [Function.comp_apply, Option.map_some, Option.bind_some, getSingleOutNeighbor,
        r.postHasCreator.head_outgoing creators, Option.map_map, Function.comp_def, r.postId,
        r.personId, r.firstName, r.lastName]

theorem deliveredMessages_separates (unique : Function.Injective G.messageId) (gt : NbrGt)
    (root : G.Person) : (IS2.messageInfoComparer G).Separates (deliveredMessages gt G root) := by
  have own : ∀ m ∈ deliveredMessages gt G root, m.messageId = G.messageId m.messageVid := by
    intro m hm
    rcases List.mem_append.mp hm with hm | hm
    · obtain ⟨e, -, rfl⟩ := List.mem_map.mp hm
      rfl
    · obtain ⟨e, -, rfl⟩ := List.mem_map.mp hm
      rfl
  refine (IS2.byDate G).separates_of_key fun a ha b hb dates ids => ?_
  have vids : a.messageVid = b.messageVid :=
    unique ((own a ha).symm.trans (ids.trans (own b hb)))
  cases a
  cases b
  simp only [IS2.MessageInfo.mk.injEq]
  exact ⟨vids, ids, dates⟩

/-- With enough passes every comment leads to a post with an author. -/
theorem exists_originals (traced : ∀ m, Traced G m) : ∃ enough, ∀ passes ≥ enough,
    ∀ personId root (m : IS2.MessageInfo G), ∃ original,
      (originalPost G passes personId root m).run = some (some original) := by
  have each : ∀ comment ∈ List.finRange G.commentNum, ∃ enough, ∀ passes ≥ enough,
      ∃ postVid, resolveRootPost G.replyOfPost.outgoing G.replyOfComment.outgoing passes
        (.comment comment) = some (some postVid) ∧
        getSingleOutNeighbor G.postHasCreator.outgoing postVid ≠ none := by
    intro comment _
    obtain ⟨postVid, first, creator⟩ := traced (.comment comment) comment rfl
    obtain ⟨enough, h⟩ := resolves_some_iff.mpr first
    exact ⟨enough, fun passes hpasses => ⟨postVid, h passes hpasses, creator⟩⟩
  obtain ⟨enough, h⟩ := exists_common each
  exact ⟨enough, fun passes hpasses personId root m => originalPost_present.mpr
    fun comment _ => h passes hpasses comment (List.mem_finRange comment)⟩

theorem IS2.exec_rows {passes : Nat} (gt : NbrGt) (root : G.Person)
    {original : IS2.MessageInfo G → OriginalPost} (found : ∀ m,
      (originalPost G passes (G.personId root) root m).run = some (some (original m))) :
    (IS2.exec G passes gt (G.personId root)).run =
      some (some ((keptMessages gt G root).map fun m => IS2.row G m (original m))) := by
  have rows : (fun message => do
      let post ← originalPost G passes (G.personId root) root message
      return IS2.row G message post : IS2.MessageInfo G → OptionT Option IS2.Row) =
      fun m => pure (IS2.row G m (original m)) := by
    funext m
    refine OptionT.ext ?_
    simp [found m]
  rw [run_exec, rows, List.mapM_pure]
  rfl

/-- The other store finds the same post behind each message, and returns rows as well. -/
theorem Renumbering.exists_rows (posts : G.replyOfPost.AtMostOne)
    (parents : G.replyOfComment.AtMostOne) (creators : G.postHasCreator.AtMostOne) {passes : Nat}
    (gt' : NbrGt) (root : G.Person) {original : IS2.MessageInfo G → OriginalPost}
    (found : ∀ m, (IS2.originalPost G passes (G.personId root) root m).run =
      some (some (original m))) :
    ∃ original' : IS2.MessageInfo H → OriginalPost,
      (IS2.exec H passes gt' (G.personId root)).run =
        some (some ((keptMessages gt' H (r.person root)).map fun m =>
          IS2.row H m (original' m))) ∧
      ∀ m, IS2.row H (r.message2 m) (original' (r.message2 m)) = IS2.row G m (original m) := by
  have originals' : ∀ m', ∃ o,
      (IS2.originalPost H passes (G.personId root) (r.person root) m').run = some (some o) := by
    intro m'
    obtain ⟨m, rfl⟩ := r.message2_surjective m'
    exact ⟨original m, (r.originalPost posts parents creators _ _ _ m).trans (found m)⟩
  choose original' found' using originals'
  refine ⟨original', ?_, fun m => ?_⟩
  · rw [← r.personId root] at found' ⊢
    exact IS2.exec_rows gt' (r.person root) found'
  · have same := (found' (r.message2 m)).symm.trans
      ((r.originalPost posts parents creators _ _ _ m).trans (found m))
    rw [Option.some_inj, Option.some_inj] at same
    rw [same]
    simp only [IS2.row, Renumbering.message2, r.messageContent]

/-- The most recent messages of a person (IS2), up to those of the oldest date, and without a
difference where there are no more than 10 messages. -/
theorem latest_messages_renumbered (r : Renumbering G H) (posts : G.replyOfPost.AtMostOne)
    (parents : G.replyOfComment.AtMostOne) (creators : G.postHasCreator.AtMostOne)
    (unique : Function.Injective G.messageId) (traced : ∀ m, Traced G m) (gt gt' : NbrGt)
    (personId : Int) :
    ∃ enough, ∀ passes ≥ enough, ∃ rows rows',
      (IS2.exec G passes gt personId).run = some (some rows) ∧
      (IS2.exec H passes gt' personId).run = some (some rows') ∧
      SameButOldest IS2.Row.messageCreationDate rows rows' ∧
      ∀ root, G.personId root = personId → (IS2.personMessages G root).length ≤ 10 →
        rows' = rows := by
  induction personId using r.byRoot with
  | unknown id absent absent' =>
    refine ⟨0, fun _ _ => ⟨[], [], ?_, ?_, .refl _ _, fun _ _ _ => rfl⟩⟩
    · simp only [IS2.exec, absent]
      rfl
    · simp only [IS2.exec, absent']
      rfl
  | known root =>
    obtain ⟨enough, originals⟩ := exists_originals traced
    refine ⟨enough, fun passes hpasses => ?_⟩
    choose original found using originals passes hpasses (G.personId root) root
    obtain ⟨original', rowsH, reads⟩ := r.exists_rows posts parents creators gt' root found
    have before_message : ∀ a b,
        (IS2.messageInfoComparer H).before (r.message2 a) (r.message2 b) =
        (IS2.messageInfoComparer G).before a b := fun _ _ => rfl
    have sep := deliveredMessages_separates unique gt root
    have delivered := r.deliveredMessages gt gt' root
    refine ⟨_, _, IS2.exec_rows gt root found, rowsH, ?_, ?_⟩
    · exact reversed_renamed (IS2.byDate G) (IS2.byDate H) sep before_message delivered
        (fun _ => rfl) IS2.kTopN reads (fun _ => rfl) fun _ => rfl
    · intro root' same few
      obtain rfl := G.personKey same
      rw [← (deliveredMessages_perm gt root').length_eq] at few
      exact items_rows_of_room sep before_message delivered few reads

theorem traced_of_resolves (passes : Nat) (resolves : ∀ comment : G.Comment, ∃ postVid,
      resolveRootPost G.replyOfPost.outgoing G.replyOfComment.outgoing passes (.comment comment) =
        some (some postVid) ∧
      getSingleOutNeighbor G.postHasCreator.outgoing postVid ≠ none) (m : G.Message) :
    Traced G m := by
  rintro comment rfl
  obtain ⟨postVid, found, creator⟩ := resolves comment
  exact ⟨postVid, loop_seek_found.mp ⟨passes, found⟩, creator⟩

theorem longThread_small : 2 ≤ kInvalidVid := by decide

/-- One person answers the post of another and then `n - 1` times the own comment before, all on
one day. -/
def longThread (n : Nat) : Graph :=
  { Graph.numbered 2 1 n longThread_small (.ofNumbers []) with
    postHasCreator := .ofNumbers [(0, 1, 0)]
    commentHasCreator := .ofNumbers ((List.range n).map fun c => (c, 0, 0))
    replyOfPost := .ofNumbers [(0, 0, ())]
    replyOfComment := .ofNumbers ((List.range (n - 1)).map fun c => (c + 1, c, ())) }

theorem latest_messages_renumbered_reloaded :
    (∃ enough, ∀ passes ≥ enough, ∃ rows rows',
      (IS2.exec (longThread 11) passes .stored 0).run = some (some rows) ∧
      (IS2.exec (longThread 11).reloaded passes .stored 0).run = some (some rows') ∧
      SameButOldest IS2.Row.messageCreationDate rows rows') ∧
    ∃ enough, ∀ passes ≥ enough, ∃ rows,
      (IS2.exec (longThread 10) passes .stored 0).run = some (some rows) ∧
      (IS2.exec (longThread 10).reloaded passes .stored 0).run = some (some rows) := by
  have traced : ∀ m, Traced (longThread 11) m :=
    traced_of_resolves 11 (by decide +kernel)
  have traced' : ∀ m, Traced (longThread 10) m :=
    traced_of_resolves 10 (by decide +kernel)
  obtain ⟨enough, long⟩ := latest_messages_renumbered (.reloaded (longThread 11))
    (by decide +kernel) (by decide +kernel) (by decide)
    (messageId_injective (G := longThread 11) (by decide +kernel)) traced .stored .stored 0
  obtain ⟨enough', short⟩ := latest_messages_renumbered (.reloaded (longThread 10))
    (by decide +kernel) (by decide +kernel) (by decide)
    (messageId_injective (G := longThread 10) (by decide +kernel)) traced' .stored .stored 0
  refine ⟨⟨enough, fun passes hpasses => ?_⟩, enough', fun passes hpasses => ?_⟩
  · obtain ⟨rows, rows', result, result', same, -⟩ := long passes hpasses
    exact ⟨rows, rows', result, result', same⟩
  · obtain ⟨rows, rows', result, result', -, few⟩ := short passes hpasses
    have all : rows' = rows := few (0 : Fin 2) rfl (by decide +kernel)
    exact ⟨rows, result, all ▸ result'⟩

end Messages

end LdbcInteractive
