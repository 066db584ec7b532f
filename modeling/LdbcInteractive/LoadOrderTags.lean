import LdbcInteractive.IC11
import LdbcInteractive.IC4
import LdbcInteractive.IC6
import LdbcInteractive.Renumberings

/-!
# Queries that count tags and works do not see the load order

IC4 strikes a tag out when it meets an old post, IC6 counts the tags that stand beside
a given one, IC11 reads works off the companies of a country. The order in which posts,
tags and companies are met leaves no trace in the rows.
-/

namespace LdbcInteractive

open EdgeTables PriorityQueues

section NewTags
variable {G H : Graph} (r : Renumbering G H)

theorem Renumbering.scannedPosts (lt lt' : NbrLt) (root : G.Person) (endDate : DateTime) :
    (IC4.scannedPosts lt' H (r.person root) endDate).Perm
      ((IC4.scannedPosts lt G root endDate).map (Prod.map r.post id)) := by
  rw [IC4.scannedPosts, IC4.scannedPosts]
  exact flatMap_renamed (r.neighbors root) fun v =>
    NbrLt.order_renamed r.postHasCreator.inEdges lt lt' v endDate

/-- The counters of a scan depend on the posts that were scanned, not on their order. -/
theorem Renumbering.tagCount {startDateMs : Int64} {posts : List (G.Post × DateTime)}
    {posts' : List (H.Post × DateTime)} (same : posts'.Perm (posts.map (Prod.map r.post id)))
    {st : IC4.TagState G} {st' : IC4.TagState H} (h : IC4.Counted startDateMs posts st)
    (h' : IC4.Counted startDateMs posts' st') (tag : G.Tag) :
    st'.tagCount (r.tag tag) = st.tagCount tag := by
  have struck : st'.neg (r.tag tag) = st.neg tag := by
    rw [Bool.eq_iff_iff, h'.neg, h.neg]
    simp only [same.mem_iff, List.mem_map, exists_exists_and_eq_and, Prod.map_fst, Prod.map_snd,
      id, r.postHasTag.mem_outgoing_iff]
  have sums := (same.filter fun post => decide (startDateMs.toInt ≤ post.2)).map
    fun post => ((H.postHasTag.outgoing post.1).count (r.tag tag) : Int)
  rw [List.filter_map, List.map_map] at sums
  have counts : ∀ post : G.Post × DateTime,
      (H.postHasTag.outgoing (r.post post.1)).count (r.tag tag) =
        (G.postHasTag.outgoing post.1).count tag := fun post => by
    rw [(r.postHasTag.outgoing post.1).count_eq, List.count_map_of_injective _ _ r.tag.injective]
  rw [h'.tagCount, h.tagCount, struck, sums.sum_eq]
  simp only [Function.comp_def, Prod.map_fst, Prod.map_snd, id, counts]

theorem Renumbering.countedTags {tagCount : G.Tag → Int} {tagCount' : H.Tag → Int}
    (counts : ∀ tag, tagCount' (r.tag tag) = tagCount tag) :
    (IC4.countedTags H tagCount').Perm (IC4.countedTags G tagCount) :=
  filter_map_renamed (finRange_renamed r.tag) (fun tag => by rw [counts]) fun tag => by
    rw [counts, r.tagName]

/-- The new tags of a window (IC4): no promise about the stored edges is needed. -/
theorem new_tags_renumbered (r : Renumbering G H) (lt lt' : NbrLt) (personId : Int)
    (startDateMs durationDays : Int64) :
    IC4.exec H lt' personId startDateMs durationDays =
      IC4.exec G lt personId startDateMs durationDays := by
  induction personId using r.byRoot with
  | unknown id absent absent' => simp only [IC4.exec, absent, absent']
  | known root =>
    have counts := r.tagCount (r.scannedPosts lt lt' root
      (startDateMs + durationDays * IC4.kMillisPerDay).toInt)
      (IC4.counted_scan _ : IC4.Counted startDateMs _ _) (IC4.counted_scan _)
    rw [IC4.exec_eq, ← r.personId, IC4.exec_eq,
      Comparer.firstN_congr _ (IC4.tagRowCmp_separates _) (r.countedTags counts)]

theorem new_tags_renumbered_reloaded :
    IC4.exec IC4.taggedPosts.reloaded .reversed 0 0 1 = IC4.exec IC4.taggedPosts .stored 0 0 1 :=
  new_tags_renumbered (.reloaded IC4.taggedPosts) .stored .reversed 0 0 1

end NewTags

section SharedTags
variable {G H : Graph} (r : Renumbering G H)

/-- What a scan of posts adds to the counter of a tag, with parallel edges counted. -/
theorem foldl_scanPost_sum (friends : G.Person → Bool) (posts : List G.Post)
    (postCount : G.Tag → Int) (tag : G.Tag) :
    posts.foldl (IC6.scanPost G G.postHasTag.outgoing friends) postCount tag =
      postCount tag + (posts.map fun post =>
        if IC6.byFriend G friends post then ((G.postHasTag.outgoing post).count tag : Int)
          else 0).sum := by
  induction posts generalizing postCount with
  | nil => simp
  | cons post rest ih =>
    rw [List.foldl_cons, ih, List.map_cons, List.sum_cons, ← add_assoc]
    congr 1
    rw [IC6.scanPost, IC6.byFriend, getSingleOutNeighbor]
    cases (G.postHasCreator.outgoing post).head? with
    | none => simp
    | some creator =>
      by_cases hfriend : friends creator = true
      · simp [hfriend, IC6.foldl_countTag]
      · simp [hfriend]

theorem Renumbering.byFriend (creators : G.postHasCreator.AtMostOne) (root : G.Person)
    (post : G.Post) :
    IC6.byFriend H (markKnows1d2dNeighbors H.knows (r.person root)) (r.post post) =
      IC6.byFriend G (markKnows1d2dNeighbors G.knows root) post := by
  rw [IC6.byFriend, IC6.byFriend, r.postHasCreator.head_outgoing creators]
  cases (G.postHasCreator.outgoing post).head? with
  | none => rfl
  | some creator =>
    rw [Option.map_some, Option.any_some, Option.any_some, Bool.eq_iff_iff,
      markKnows1d2dNeighbors_iff, markKnows1d2dNeighbors_iff, r.inCircle]

/-- The counter of a tag after the scan of the posts under another one. -/
theorem Renumbering.sharedCount (creators : G.postHasCreator.AtMostOne) (root : G.Person)
    (tagVid tag : G.Tag) :
    (H.postHasTag.incoming (r.tag tagVid)).foldl (IC6.scanPost H H.postHasTag.outgoing
        (markKnows1d2dNeighbors H.knows (r.person root))) (fun _ => 0) (r.tag tag) =
      (G.postHasTag.incoming tagVid).foldl (IC6.scanPost G G.postHasTag.outgoing
        (markKnows1d2dNeighbors G.knows root)) (fun _ => 0) tag := by
  have counts : ∀ post, (H.postHasTag.outgoing (r.post post)).count (r.tag tag) =
      (G.postHasTag.outgoing post).count tag := fun post => by
    rw [(r.postHasTag.outgoing post).count_eq, List.count_map_of_injective _ _ r.tag.injective]
  rw [foldl_scanPost_sum, foldl_scanPost_sum, ((r.postHasTag.incoming tagVid).map _).sum_eq,
    List.map_map]
  simp only [Function.comp_def, r.byFriend creators, counts]

/-- The rows that the last loop of IC6 leaves, for any counters. -/
theorem foldl_pushTag_eq (postCount : G.Tag → Int) :
    ((List.finRange G.tagNum).foldl (IC6.pushTag G postCount) .empty).drain.reverse =
      IC6.tagResultComparer.firstN IC6.kTopN
        (((List.finRange G.tagNum).filter fun tag => postCount tag ≠ 0).map
          fun tag => ⟨postCount tag, G.tagName tag⟩) := by
  have push : (List.finRange G.tagNum).foldl (IC6.pushTag G postCount) .empty =
      (((List.finRange G.tagNum).filter fun tag => postCount tag ≠ 0).map
        fun tag => (⟨postCount tag, G.tagName tag⟩ : IC6.TagResult)).foldl
          (PriorityQueue.offer IC6.kTopN IC6.tagResultBefore) .empty := by
    rw [List.foldl_map, List.foldl_filter]
    congr 1
    funext heap tag
    by_cases hzero : postCount tag = 0
    · simp [IC6.pushTag, IC6.tryPushTag, hzero]
    · simp [IC6.pushTag, IC6.tryPushTag_eq heap hzero, hzero]
  rw [push]
  exact PriorityQueue.drain_foldl_offer (fun _ _ => rfl) _

/-- The tags that stand beside a given one (IC6), where its name is carried by one tag. -/
theorem shared_tags_renumbered (r : Renumbering G H) (creators : G.postHasCreator.AtMostOne)
    (personId : Int) (tagName : String) (only : OnlyOne G.tagName tagName) :
    IC6.exec H personId tagName = IC6.exec G personId tagName := by
  induction personId using r.byRoot with
  | unknown id absent absent' => simp only [IC6.exec, absent, absent']
  | known root =>
    have found : findVertexByStringProp H.tagName tagName =
        (findVertexByStringProp G.tagName tagName).map r.tag :=
      find_renamed r.tag r.tagName only
    have rootH := r.root_found root
    simp only [IC6.exec, rootH, getVertexIndex_self G.personKey, found]
    cases findVertexByStringProp G.tagName tagName with
    | none => rfl
    | some tagVid =>
      have counts : ∀ tag, Function.update ((H.postHasTag.incoming (r.tag tagVid)).foldl
            (IC6.scanPost H H.postHasTag.outgoing
              (markKnows1d2dNeighbors H.knows (r.person root))) fun _ => 0) (r.tag tagVid) 0
            (r.tag tag) =
          Function.update ((G.postHasTag.incoming tagVid).foldl
            (IC6.scanPost G G.postHasTag.outgoing
              (markKnows1d2dNeighbors G.knows root)) fun _ => 0) tagVid 0 tag := by
        intro tag
        by_cases htag : tag = tagVid
        · simp [htag]
        · rw [Function.update_of_ne htag, Function.update_of_ne (r.tag.injective.ne htag),
            r.sharedCount creators]
      simp only [Option.map_some, IC6.rowsInOrder, foldl_pushTag_eq]
      rw [Comparer.firstN_congr _ (IC6.tagResultComparer_separates _)
        (filter_map_renamed (finRange_renamed r.tag) (fun tag => by rw [counts])
          fun tag => by rw [counts, r.tagName])]

theorem shared_tags_renumbered_reloaded :
    IC6.exec IC6.sharedGraph.reloaded 0 "Jazz" = IC6.exec IC6.sharedGraph 0 "Jazz" :=
  shared_tags_renumbered (.reloaded IC6.sharedGraph) (by decide) 0 "Jazz" (by decide)

end SharedTags

section Works
variable {G H : Graph} (r : Renumbering G H)

def Renumbering.work (result : IC11.WorkResult G) : IC11.WorkResult H where
  personVid := r.person result.personVid
  workFrom := result.workFrom
  personId := result.personId
  companyName := result.companyName

theorem Renumbering.before_work (a b : IC11.WorkResult G) :
    (IC11.workResultComparer H).before (r.work a) (r.work b) =
      (IC11.workResultComparer G).before a b := rfl

theorem Renumbering.workRow (result : IC11.WorkResult G) :
    IC11.row H (r.work result) = IC11.row G result := by
  simp only [IC11.row, work, r.firstName, r.lastName]

theorem Renumbering.companyResults (root : G.Person) (workFromYear : Int)
    (companyVid : G.Organisation) :
    (IC11.companyResults H (r.person root) workFromYear (r.organisation companyVid)).Perm
      ((IC11.companyResults G root workFromYear companyVid).map r.work) := by
  rw [IC11.companyResults, IC11.companyResults, List.map_map]
  refine filter_map_renamed (r.workAt.inEdges companyVid) (fun e => ?_) fun e => ?_
  · simp only [Prod.map_fst, Prod.map_snd, id, r.inCircle]
  · simp only [Function.comp_apply, work, Prod.map_fst, Prod.map_snd, id, r.personId,
      r.organisationName]

/-- The works in a country (IC11), where its name is carried by one place. -/
theorem works_renumbered (r : Renumbering G H) (personId : Int) (countryName : String)
    (only : OnlyOne G.placeName countryName) (workFromYear : Int) :
    IC11.exec H personId countryName workFromYear =
      IC11.exec G personId countryName workFromYear := by
  induction personId using r.byRoot with
  | unknown id absent absent' => simp only [IC11.exec, absent, absent']
  | known root =>
    have found : findVertexByStringProp H.placeName countryName =
        (findVertexByStringProp G.placeName countryName).map r.place :=
      find_renamed r.place r.placeName only
    have rootH := r.root_found root
    simp only [IC11.exec, rootH, getVertexIndex_self G.personKey, found]
    cases findVertexByStringProp G.placeName countryName with
    | none => rfl
    | some countryVid =>
      have scanned : ((H.organisationIsLocatedIn.incoming (r.place countryVid)).flatMap
          (IC11.companyResults H (r.person root) workFromYear)).Perm
            (((G.organisationIsLocatedIn.incoming countryVid).flatMap
              (IC11.companyResults G root workFromYear)).map r.work) :=
        flatMap_renamed (r.organisationIsLocatedIn.incoming countryVid)
          (r.companyResults root workFromYear)
      have sep := (IC11.separates_results root countryVid workFromYear).perm
        (IC11.scanned_perm root countryVid workFromYear)
      simp only [Option.map_some, IC11.scanCompanies_eq]
      exact PriorityQueue.drain_rows_renamed (fun _ _ => rfl) (fun _ _ => rfl) sep r.before_work
        scanned r.workRow

theorem works_renumbered_reloaded :
    IC11.exec IC11.doubleLocation.reloaded 0 "Malta" 2010 =
      IC11.exec IC11.doubleLocation 0 "Malta" 2010 :=
  works_renumbered (.reloaded IC11.doubleLocation) 0 "Malta" (by decide) 2010

end Works

end LdbcInteractive
