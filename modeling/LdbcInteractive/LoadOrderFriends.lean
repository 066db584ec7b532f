import LdbcInteractive.IC10
import LdbcInteractive.IC12
import LdbcInteractive.IC3
import LdbcInteractive.IC5
import LdbcInteractive.Renumberings

/-!
# Queries that rank friends and forums do not see the load order

IC3, IC5, IC10 and IC12 give a number to each friend or forum and keep the first few.
The number is a sum over edges; where the first edge of a list is read, the list must
not have two.
-/

namespace LdbcInteractive

open EdgeTables PriorityQueues DatedOrders

section Visitors
variable {G H : Graph} (r : Renumbering G H)

theorem lastNamed_iff {name : String} (only : OnlyOne G.placeName name) (place : G.Place) :
    IC3.lastNamed G name = some place ↔ G.placeName place = name := by
  refine ⟨IC3.placeName_lastNamed, fun named => ?_⟩
  obtain ⟨last, found⟩ := Option.isSome_iff_exists.mp
    ((IC3.lastNamed_isSome name).mpr ⟨place, named⟩)
  rw [found, only last place (IC3.placeName_lastNamed found) named]

theorem Renumbering.lastNamed {name : String} (only : OnlyOne G.placeName name) :
    IC3.lastNamed H name = (IC3.lastNamed G name).map r.place := by
  ext place'
  obtain ⟨place, rfl⟩ := r.place.surjective place'
  rw [lastNamed_iff (only.renamed r.place r.placeName), r.placeName, ← lastNamed_iff only,
    Option.map_eq_some_iff]
  constructor
  · intro h
    exact ⟨place, h, rfl⟩
  · rintro ⟨v, hv, same⟩
    exact r.place.injective same ▸ hv

/-- Counting a message after another one is counting them in the other order. -/
theorem countMessage_comm {P : Type} (locatedIn : CsrView P G.Place) (countryX countryY : G.Place)
    (counts : Int × Int) (e e' : P × DateTime) :
    IC3.countMessage G locatedIn countryX countryY
        (IC3.countMessage G locatedIn countryX countryY counts e) e' =
      IC3.countMessage G locatedIn countryX countryY
        (IC3.countMessage G locatedIn countryX countryY counts e') e := by
  simp only [IC3.countMessage]
  split_ifs <;> simp

theorem Renumbering.scanFriendMessages {P P' : Type} [DecidableEq P] [DecidableEq P']
    {f : P ≃ P'} {creators : EdgeTable P G.Person DateTime}
    {creators' : EdgeTable P' H.Person DateTime} (hc : creators.Renamed creators' f r.person)
    {places : EdgeTable P G.Place Unit} {places' : EdgeTable P' H.Place Unit}
    (hp : places.Renamed places' f r.place) (located : places.AtMostOne) (lt lt' : NbrLt)
    (v : G.Person) (countryX countryY : G.Place) (startDateMs endDateMs : Int64)
    (counts : Int × Int) :
    IC3.scanFriendMessages H lt' places'.outgoing creators'.inEdges (r.person v)
        (r.place countryX) (r.place countryY) startDateMs endDateMs counts =
      IC3.scanFriendMessages G lt places.outgoing creators.inEdges v countryX countryY
        startDateMs endDateMs counts := by
  have window := (NbrLt.order_renamed hc.inEdges lt lt' v endDateMs.toInt).filter
    fun e => decide (startDateMs.toInt ≤ e.2)
  rw [List.filter_map] at window
  have step : ∀ (counts : Int × Int) (e : P × DateTime),
      IC3.countMessage H places'.outgoing (r.place countryX) (r.place countryY) counts
        (Prod.map f id e) = IC3.countMessage G places.outgoing countryX countryY counts e := by
    intro counts e
    have locate : getSingleOutNeighbor places'.outgoing (f e.1) =
        (getSingleOutNeighbor places.outgoing e.1).map r.place := hp.head_outgoing located e.1
    simp only [IC3.countMessage, Prod.map_fst, locate, Option.map_eq_some_iff,
      r.place.apply_eq_iff_eq, exists_eq_right]
  rw [IC3.scanFriendMessages, IC3.scanFriendMessages, foreachIncomingNbrBetweenHalfOpen_eq,
    foreachIncomingNbrBetweenHalfOpen_eq,
    window.foldl_eq' (fun e _ e' _ counts => countMessage_comm _ _ _ counts e e'), List.foldl_map]
  simp only [step]
  rfl

def Renumbering.friend (result : IC3.PersonResult G) : IC3.PersonResult H where
  total := result.total
  personVid := r.person result.personVid
  personId := result.personId
  countX := result.countX
  countY := result.countY

theorem Renumbering.before_friend (a b : IC3.PersonResult G) :
    (IC3.personResultComparer H).before (r.friend a) (r.friend b) =
      (IC3.personResultComparer G).before a b := rfl

theorem Renumbering.friendRow (result : IC3.PersonResult G) :
    IC3.row H (r.friend result) = IC3.row G result := by
  simp only [IC3.row, friend, r.firstName, r.lastName]

theorem Renumbering.countedFriends (posts : G.postIsLocatedIn.AtMostOne)
    (comments : G.commentIsLocatedIn.AtMostOne) (lt lt' : NbrLt) (countryX countryY : G.Place)
    (startDateMs endDateMs : Int64) {friends : List G.Person} {friends' : List H.Person}
    (same : friends'.Perm (friends.map r.person)) :
    (IC3.countedFriends lt' (r.place countryX) (r.place countryY) startDateMs
        endDateMs friends').Perm
      ((IC3.countedFriends lt countryX countryY startDateMs endDateMs friends).map
        r.friend) := by
  have counts : ∀ v, IC3.friendCounts lt' (r.place countryX) (r.place countryY) startDateMs
      endDateMs (r.person v) =
        IC3.friendCounts lt countryX countryY startDateMs endDateMs v := fun v => by
    rw [IC3.friendCounts, IC3.friendCounts,
      r.scanFriendMessages r.postHasCreator r.postIsLocatedIn posts lt lt',
      r.scanFriendMessages r.commentHasCreator r.commentIsLocatedIn comments lt lt']
  rw [IC3.countedFriends, IC3.countedFriends, List.map_map]
  refine filter_map_renamed same (fun v => ?_) fun v => ?_
  · simp only [counts]
  · simp only [counts, IC3.friendResult, friend, r.personId, Function.comp_apply]

theorem Renumbering.inCountry (countryX countryY place : G.Place) :
    IC3.cityInCountryXOrY H (r.place countryX) (r.place countryY) (r.place place) =
      IC3.cityInCountryXOrY G countryX countryY place := by
  rw [Bool.eq_iff_iff, IC3.cityInCountryXOrY_iff, IC3.cityInCountryXOrY_iff,
    r.isPartOf.mem_outgoing_iff, r.isPartOf.mem_outgoing_iff]

/-- The friends who wrote in two countries (IC3), where each name is carried by one place and
persons and messages have one place each. -/
theorem visitors_renumbered (r : Renumbering G H) (homes : G.personIsLocatedIn.AtMostOne)
    (posts : G.postIsLocatedIn.AtMostOne) (comments : G.commentIsLocatedIn.AtMostOne)
    (lt lt' : NbrLt) (personId : Int) (countryXName countryYName : String)
    (onlyX : OnlyOne G.placeName countryXName) (onlyY : OnlyOne G.placeName countryYName)
    (startDateMs durationDays : Int64) :
    IC3.exec H lt' personId countryXName countryYName startDateMs durationDays =
      IC3.exec G lt personId countryXName countryYName startDateMs durationDays := by
  induction personId using r.byRoot with
  | unknown id absent absent' => simp only [IC3.exec, absent, absent']
  | known root =>
    have rootH := r.root_found root
    simp only [IC3.exec, rootH, getVertexIndex_self G.personKey, IC3.findCountries_eq,
      r.lastNamed onlyX, r.lastNamed onlyY, Option.bind_eq_bind]
    cases IC3.lastNamed G countryXName with
    | none => rfl
    | some countryX =>
      cases IC3.lastNamed G countryYName with
      | none => rfl
      | some countryY =>
        have elsewhere : ∀ v, IC3.livesElsewhere
            (IC3.cityInCountryXOrY H (r.place countryX) (r.place countryY)) (r.person v) =
              IC3.livesElsewhere (IC3.cityInCountryXOrY G countryX countryY) v := by
          intro v
          rw [IC3.livesElsewhere, IC3.livesElsewhere, getSingleOutNeighbor,
            r.personIsLocatedIn.head_outgoing homes, getSingleOutNeighbor]
          cases (G.personIsLocatedIn.outgoing v).head? with
          | none => rfl
          | some place => simp only [Option.map_some, Option.any_some, r.inCountry]
        have friends := filter_renamed (r.oneTwoCalls root) elsewhere
        simp only [Option.map_some, Option.bind_some, foreachKnows1d2dNeighbor_eq,
          IC3.foldl_collectFriend, List.nil_append, IC3.foldl_considerFriend_eq]
        exact congrArg some (PriorityQueue.drain_rows_renamed (fun _ _ => rfl) (fun _ _ => rfl)
          ((IC3.byTotal G).separates
            (IC3.countedFriends_ids_nodup lt _ _ _ _ ((oneTwoCalls_nodup _ _).filter _)))
          r.before_friend (r.countedFriends posts comments lt lt' _ _ _ _ friends) r.friendRow)

theorem visitors_renumbered_reloaded :
    IC3.exec IC3.travels.reloaded .reversed 0 "Peru" "Chad" 0 1 =
      IC3.exec IC3.travels .stored 0 "Peru" "Chad" 0 1 :=
  visitors_renumbered (.reloaded IC3.travels) (by decide) (by decide) (by decide) .stored .reversed
    0 "Peru" "Chad" (by decide) (by decide) 0 1

end Visitors

section Forums
variable {G H : Graph} (r : Renumbering G H)

theorem Renumbering.joinedAfter {minDate : DateTime} {v : G.Person} {forum : G.Forum} :
    IC5.JoinedAfter minDate (r.person v) (r.forum forum) ↔ IC5.JoinedAfter minDate v forum := by
  have names : ∀ e : G.Person × DateTime, r.person e.1 = r.person v ↔ e.1 = v :=
    fun e => r.person.injective.eq_iff
  simp only [IC5.JoinedAfter, (r.hasMember forum).mem_iff, List.mem_map, exists_exists_and_eq_and,
    Prod.map_fst, Prod.map_snd, id, names]

theorem Renumbering.oneForum (r : Renumbering G H) (one : IC5.OneForum G) : IC5.OneForum H := by
  intro post' f hf f' hf'
  obtain ⟨post, rfl⟩ := r.post.surjective post'
  obtain ⟨forum, rfl⟩ := r.forum.surjective f
  obtain ⟨forum', rfl⟩ := r.forum.surjective f'
  rw [one post forum (r.containerOf.mem_incoming_iff.mp hf) forum'
    (r.containerOf.mem_incoming_iff.mp hf')]

theorem Renumbering.postsInForum (one : IC5.OneForum G) (minDate : DateTime) (v : G.Person)
    (forum : G.Forum) :
    IC5.postsInForum minDate (r.person v) (r.forum forum) = IC5.postsInForum minDate v forum := by
  have first : ∀ post, getSingleOutNeighbor H.containerOf.incoming (r.post post) =
      some (r.forum forum) ↔ getSingleOutNeighbor G.containerOf.incoming post = some forum :=
    fun post => by
      rw [(r.oneForum one).first_iff, one.first_iff, r.containerOf.mem_incoming_iff]
  simp only [IC5.postsInForum, r.joinedAfter, (r.postHasCreator.incoming v).countP_eq,
    List.countP_map, Function.comp_def, first]

def Renumbering.forumInfo (info : IC5.ForumInfo G) : IC5.ForumInfo H where
  forumVid := r.forum info.forumVid
  postCount := info.postCount
  forumId := info.forumId

theorem Renumbering.before_forumInfo (a b : IC5.ForumInfo G) :
    (IC5.forumInfoComparer H).before (r.forumInfo a) (r.forumInfo b) =
      (IC5.forumInfoComparer G).before a b := rfl

theorem Renumbering.forumRow (info : IC5.ForumInfo G) :
    IC5.row H (r.forumInfo info) = IC5.row G info := by
  simp only [IC5.row, forumInfo, r.forumTitle]

theorem Renumbering.offeredForums {n : G.Forum → Nat} {n' : H.Forum → Nat}
    (counts : ∀ forum, n' (r.forum forum) = n forum) {forums : List G.Forum}
    {forums' : List H.Forum} (same : forums'.Perm (forums.map r.forum)) :
    (IC5.countedForums n' ++ IC5.uncountedForums n' forums').Perm
      ((IC5.countedForums n ++ IC5.uncountedForums n forums).map r.forumInfo) := by
  have info : ∀ (forum : G.Forum) (count : Int), IC5.forumInfo (r.forum forum) count =
      r.forumInfo (IC5.forumInfo forum count) := fun forum count => by
    simp only [IC5.forumInfo, Renumbering.forumInfo, r.forumId]
  rw [List.map_append, IC5.countedForums, IC5.countedForums, IC5.uncountedForums,
    IC5.uncountedForums, List.map_map, List.map_map]
  refine (filter_map_renamed (finRange_renamed r.forum) (fun f => ?_) fun f => ?_).append
    (filter_map_renamed same (fun f => ?_) fun f => ?_)
  · rw [counts]
  · rw [counts, info, Function.comp_apply]
  · rw [counts]
  · rw [info, Function.comp_apply]

/-- The forums joined by the circle (IC5), where a post lies in one forum. -/
theorem joined_forums_renumbered (r : Renumbering G H) (one : IC5.OneForum G)
    (key : Function.Injective G.forumId) (gt gt' : NbrGt) (personId : Int) (minDate : DateTime) :
    IC5.exec H gt' personId minDate = IC5.exec G gt personId minDate := by
  induction personId using r.byRoot with
  | unknown id absent absent' => simp only [IC5.exec, absent, absent']
  | known root =>
    have rootH := r.root_found root
    have counted := IC5.counted_friends gt minDate (oneTwoCalls G.knows root)
    have counted' := IC5.counted_friends gt' minDate (oneTwoCalls H.knows (r.person root))
    have counts : ∀ forum, ((oneTwoCalls H.knows (r.person root)).map fun v =>
        IC5.postsInForum minDate v (r.forum forum)).sum =
          ((oneTwoCalls G.knows root).map fun v => IC5.postsInForum minDate v forum).sum := by
      intro forum
      rw [((r.oneTwoCalls root).map _).sum_eq, List.map_map]
      simp only [Function.comp_def, r.postsInForum one]
    have forums := perm_map_of_mem r.forum counted.distinct counted'.distinct fun forum => by
      rw [counted'.joined, counted.joined]
      simp only [(r.oneTwoCalls root).mem_iff, List.mem_map, exists_exists_and_eq_and,
        r.joinedAfter]
    simp only [IC5.exec, rootH, getVertexIndex_self G.personKey, foreachKnows1d2dNeighbor_eq,
      foldl_append_singleton, List.nil_append]
    rw [IC5.selectForums_eq (funext counted'.postCount) counted'.distinct counted'.accessed,
      IC5.selectForums_eq (funext counted.postCount) counted.distinct counted.accessed]
    exact PriorityQueue.drain_rows_renamed (fun _ _ => rfl) (fun _ _ => rfl)
      ((IC5.byPosts G).separates (IC5.forums_ids_nodup key _ counted.distinct))
      r.before_forumInfo (r.offeredForums counts forums) r.forumRow

theorem joined_forums_renumbered_reloaded :
    IC5.exec IC5.clubs.reloaded .stored 0 9 = IC5.exec IC5.clubs .stored 0 9 :=
  joined_forums_renumbered (.reloaded IC5.clubs) (by decide) IC5.clubs_key .stored .stored 0 9

end Forums

section Zodiac
variable {G H : Graph} (r : Renumbering G H)

theorem Renumbering.interests (root : G.Person) (tag : G.Tag) :
    IC10.interestsOf H (r.person root) (r.tag tag) = IC10.interestsOf G root tag := by
  simp only [IC10.interestsOf, markAll_eq, r.hasInterest.mem_outgoing_iff]

theorem Renumbering.postDiff {hasInterests : G.Tag → Bool} {hasInterests' : H.Tag → Bool}
    (same : ∀ tag, hasInterests' (r.tag tag) = hasInterests tag) (post : G.Post) :
    IC10.postDiff H hasInterests' (r.post post) = IC10.postDiff G hasInterests post := by
  have tags : (H.postHasTag.outgoing (r.post post)).any hasInterests' =
      (G.postHasTag.outgoing post).any hasInterests := by
    rw [Bool.eq_iff_iff, List.any_eq_true, List.any_eq_true]
    simp only [(r.postHasTag.outgoing post).mem_iff, List.mem_map, exists_exists_and_eq_and, same]
  simp only [IC10.postDiff, tags]

theorem Renumbering.interestScore {hasInterests : G.Tag → Bool} {hasInterests' : H.Tag → Bool}
    (same : ∀ tag, hasInterests' (r.tag tag) = hasInterests tag) (v : G.Person) :
    IC10.scoreFriendPosts H hasInterests' (r.person v) =
      IC10.scoreFriendPosts G hasInterests v := by
  rw [IC10.scoreFriendPosts_eq, IC10.scoreFriendPosts_eq,
    ((r.postHasCreator.incoming v).map _).sum_eq, List.map_map]
  simp only [Function.comp_def, r.postDiff same]

def Renumbering.scored (result : IC10.PersonResult G) : IC10.PersonResult H where
  score := result.score
  personVid := r.person result.personVid
  personId := result.personId

theorem Renumbering.before_scored (a b : IC10.PersonResult G) :
    (IC10.personResultComparer H).before (r.scored a) (r.scored b) =
      (IC10.personResultComparer G).before a b := rfl

theorem Renumbering.scoredRow (homes : G.personIsLocatedIn.AtMostOne)
    (result : IC10.PersonResult G) : IC10.row H (r.scored result) = IC10.row G result := by
  simp only [IC10.row, scored, getSingleOutNeighbor, r.personIsLocatedIn.head_outgoing homes,
    Option.bind_eq_bind]
  cases (G.personIsLocatedIn.outgoing result.personVid).head? with
  | none => rfl
  | some place =>
    simp only [Option.map_some, Option.bind_some, r.firstName, r.lastName, r.gender, r.placeName]

/-- The friends of friends of a sign (IC10), failed reads of a city included. -/
theorem zodiac_friends_renumbered (r : Renumbering G H) (homes : G.personIsLocatedIn.AtMostOne)
    (personId month : Int) : IC10.exec H personId month = IC10.exec G personId month := by
  induction personId using r.byRoot with
  | unknown id absent absent' => simp only [IC10.exec, absent, absent']
  | known root =>
    have friends : ∀ v, IC10.candidate (IC10.interestsOf H (r.person root)) (r.person v) =
        r.scored (IC10.candidate (IC10.interestsOf G root) v) := fun v => by
      simp only [IC10.candidate, Renumbering.scored, r.interestScore (r.interests root),
        r.personId]
    have stream : (((twoCalls H.knows (r.person root)).filter fun v =>
        IC10.matchesZodiacMonth (H.birthday v) month).map
          (IC10.candidate (IC10.interestsOf H (r.person root)))).Perm
        ((((twoCalls G.knows root).filter fun v =>
          IC10.matchesZodiacMonth (G.birthday v) month).map
            (IC10.candidate (IC10.interestsOf G root))).map r.scored) := by
      rw [List.map_map]
      exact filter_map_renamed (r.twoCalls root) (fun v => by rw [r.birthday]) friends
    have sep : (IC10.personResultComparer G).Separates
        (((twoCalls G.knows root).filter fun v =>
          IC10.matchesZodiacMonth (G.birthday v) month).map
            (IC10.candidate (IC10.interestsOf G root))) := by
      refine (IC10.byScore G).separates ?_
      rw [List.map_map]
      exact ((FirstVisits.fresh_nodup _ _).filter _).map fun v w same => G.personKey same
    have rowsH := IC10.exec_eq (r.person root) month
    rw [r.personId] at rowsH
    rw [rowsH, IC10.exec_eq, IC10.results_eq, IC10.results_eq,
      Comparer.firstN_renamed sep r.before_scored stream, List.mapM_map]
    exact congrArg (fun read => List.mapM read _) (funext (r.scoredRow homes))

theorem zodiac_friends_renumbered_reloaded :
    IC10.exec IC10.stars.reloaded 0 5 = IC10.exec IC10.stars 0 5 :=
  zodiac_friends_renumbered (.reloaded IC10.stars) (by decide) 0 5

end Zodiac

section Repliers
variable {G H : Graph} (r : Renumbering G H)

theorem Renumbering.subclassOf (a b : G.TagClass) :
    IC12.SubclassOf (r.tagClass a) (r.tagClass b) ↔ IC12.SubclassOf a b :=
  r.isSubclassOf.mem_outgoing_iff

theorem Renumbering.inClass {cls : G.TagClass} {tag : G.Tag} :
    IC12.InClass (r.tagClass cls) (r.tag tag) ↔ IC12.InClass cls tag := by
  simp only [IC12.InClass, (r.hasType.outgoing tag).mem_iff, List.mem_map,
    exists_exists_and_eq_and, reflTransGen_renamed r.tagClass r.subclassOf]

theorem Renumbering.repliedTags (replies : G.replyOfPost.AtMostOne) (comment : G.Comment) :
    (IC12.repliedTags H (r.comment comment)).Perm ((IC12.repliedTags G comment).map r.tag) := by
  rw [IC12.repliedTags, IC12.repliedTags, getSingleOutNeighbor, getSingleOutNeighbor,
    r.replyOfPost.head_outgoing replies]
  cases (G.replyOfPost.outgoing comment).head? with
  | none => exact List.Perm.refl _
  | some post => exact r.postHasTag.outgoing post

section Class
variable (replies : G.replyOfPost.AtMostOne) {tagSet : G.Tag → Bool} {tagSet' : H.Tag → Bool}
  (same : ∀ tag, tagSet' (r.tag tag) = tagSet tag)
include replies same

theorem Renumbering.countReplies (v : G.Person) :
    IC12.countReplies H tagSet' (r.person v) = IC12.countReplies G tagSet v := by
  have tagged : ∀ comment, (IC12.repliedTags H (r.comment comment)).any tagSet' =
      (IC12.repliedTags G comment).any tagSet := by
    intro comment
    rw [Bool.eq_iff_iff, List.any_eq_true, List.any_eq_true]
    simp only [(r.repliedTags replies comment).mem_iff, List.mem_map, exists_exists_and_eq_and,
      same]
  rw [IC12.countReplies, IC12.countReplies, IC12.foldl_count, IC12.foldl_count,
    (r.commentHasCreator.incoming v).countP_eq, List.countP_map]
  simp only [Function.comp_def, tagged]

theorem Renumbering.distinctTags (v : G.Person) :
    (inOrder (IC12.distinctTags H tagSet' (r.person v))).Perm
      ((inOrder (IC12.distinctTags G tagSet v)).map r.tag) := by
  refine perm_map_of_mem r.tag (inOrder_nodup _) (inOrder_nodup _) fun tag => ?_
  rw [mem_inOrder, mem_inOrder, IC12.mem_distinctTags, IC12.mem_distinctTags, same,
    r.comment.symm.exists_congr_left]
  refine and_congr_right fun _ => exists_congr fun comment => ?_
  rw [Equiv.symm_symm, r.commentHasCreator.mem_outgoing_iff, ← IC12.mem_repliedTags,
    ← IC12.mem_repliedTags, (r.repliedTags replies comment).mem_iff,
    List.mem_map_of_injective r.tag.injective]

end Class

def Renumbering.replier (result : IC12.PersonResult G) : IC12.PersonResult H where
  replyCount := result.replyCount
  personVid := r.person result.personVid
  personId := result.personId

theorem Renumbering.before_replier (a b : IC12.PersonResult G) :
    (IC12.personResultComparer H).before (r.replier a) (r.replier b) =
      (IC12.personResultComparer G).before a b := rfl

/-- Two rows that may list their tags in different orders. -/
structure SameReplier (a b : IC12.Row) : Prop where
  personId : a.personId = b.personId
  personFirstName : a.personFirstName = b.personFirstName
  personLastName : a.personLastName = b.personLastName
  tagNames : a.tagNames.Perm b.tagNames
  replyCount : a.replyCount = b.replyCount

theorem withReplies_separates (tagSet : G.Tag → Bool) (friends : List G.Person) :
    (IC12.personResultComparer G).Separates (IC12.withReplies tagSet friends) := by
  refine (IC12.byCount G).separates_of_key fun a ha b hb _ ids => ?_
  obtain ⟨v, -, rfl⟩ := List.mem_map.mp ha
  obtain ⟨w, -, rfl⟩ := List.mem_map.mp hb
  rw [G.personKey (OrderDual.toDual_inj.mp ids)]

theorem Renumbering.replierRow (replies : G.replyOfPost.AtMostOne) {tagSet : G.Tag → Bool}
    {tagSet' : H.Tag → Bool} (same : ∀ tag, tagSet' (r.tag tag) = tagSet tag)
    (result : IC12.PersonResult G) :
    SameReplier (IC12.row H tagSet' (r.replier result)) (IC12.row G tagSet result) where
  personId := rfl
  personFirstName := r.firstName result.personVid
  personLastName := r.lastName result.personVid
  tagNames := by
    refine ((r.distinctTags replies same result.personVid).map H.tagName).trans ?_
    rw [List.map_map]
    exact List.Perm.of_eq (List.map_congr_left fun tag _ => r.tagName tag)
  replyCount := rfl

/-- The friends who replied under a class (IC12). Of the tags of a row only the order may
differ: it is that of the tag numbers. -/
theorem repliers_renumbered (r : Renumbering G H) (replies : G.replyOfPost.AtMostOne)
    (acyclic : ∀ c : G.TagClass, ¬ Relation.TransGen IC12.SubclassOf c c) (personId : Int)
    (tagClassName : String) (only : OnlyOne G.tagClassName tagClassName) :
    ∃ enough, ∀ passes ≥ enough, ∃ rows rows',
      IC12.exec G passes personId tagClassName = some rows ∧
      IC12.exec H passes personId tagClassName = some rows' ∧
      List.Forall₂ SameReplier rows' rows := by
  induction personId using r.byRoot with
  | unknown id absent absent' =>
    exact ⟨0, fun _ _ => ⟨[], [], by simp only [IC12.exec, absent],
      by simp only [IC12.exec, absent'], List.Forall₂.nil⟩⟩
  | known root =>
    have rootH := r.root_found root
    have foundH : findVertexByStringProp H.tagClassName tagClassName =
        (findVertexByStringProp G.tagClassName tagClassName).map r.tagClass :=
      find_renamed r.tagClass r.tagClassName only
    cases found : findVertexByStringProp G.tagClassName tagClassName with
    | none =>
      rw [found] at foundH
      exact ⟨0, fun _ _ => ⟨[], [],
        by simp only [IC12.exec, getVertexIndex_self G.personKey, found],
        by simp only [IC12.exec, rootH, foundH, Option.map_none], List.Forall₂.nil⟩⟩
    | some cls =>
      rw [found] at foundH
      have acyclic' : ∀ c : H.TagClass, ¬ Relation.TransGen IC12.SubclassOf c c := by
        intro c'
        obtain ⟨c, rfl⟩ := r.tagClass.surjective c'
        rw [transGen_renamed r.tagClass r.subclassOf]
        exact acyclic c
      obtain ⟨tagSet, marks, enough, walk⟩ := IC12.collectTagsInClass_spec acyclic cls
      obtain ⟨tagSet', marks', enough', walk'⟩ :=
        IC12.collectTagsInClass_spec acyclic' (r.tagClass cls)
      have same : ∀ tag, tagSet' (r.tag tag) = tagSet tag := fun tag => by
        rw [Bool.eq_iff_iff, marks', marks, r.inClass]
      have stream : (IC12.withReplies tagSet' (H.knows.outgoing (r.person root) ++
          H.knows.incoming (r.person root))).Perm ((IC12.withReplies tagSet
            (G.knows.outgoing root ++ G.knows.incoming root)).map r.replier) := by
        rw [IC12.withReplies, IC12.withReplies, List.map_map]
        refine filter_map_renamed (r.neighbors root) (fun v => ?_) fun v => ?_
        · rw [r.countReplies replies same]
        · simp only [IC12.candidate, Renumbering.replier, r.countReplies replies same,
            r.personId, Function.comp_apply]
      refine ⟨max enough enough', fun passes hpasses => ?_⟩
      have rows := IC12.exec_eq found (walk passes (le_of_max_le_left hpasses)) root
      have rows' := IC12.exec_eq foundH (walk' passes (le_of_max_le_right hpasses)) (r.person root)
      rw [r.personId] at rows'
      refine ⟨_, _, rows, rows', ?_⟩
      rw [Comparer.firstN_renamed (withReplies_separates _ _) r.before_replier stream,
        List.map_map, List.forall₂_map_left_iff, List.forall₂_map_right_iff]
      exact List.forall₂_same.mpr fun result _ => r.replierRow replies same result

theorem repliers_renumbered_reloaded :
    ∃ enough, ∀ passes ≥ enough, ∃ rows rows',
      IC12.exec IC12.lessons passes 0 "Person" = some rows ∧
      IC12.exec IC12.lessons.reloaded passes 0 "Person" = some rows' ∧
      List.Forall₂ SameReplier rows' rows :=
  repliers_renumbered (.reloaded IC12.lessons) (by decide)
    (Worklists.acyclic_of_rank Fin.val (by decide +kernel)) 0 "Person" (by decide)

end Repliers

end LdbcInteractive
