import LdbcInteractive.DatedOrders
import LdbcInteractive.FriendCircles
import Mathlib.Data.String.Basic

/-!
# IC6: tags on posts that carry a given tag

The posts of the given tag are scanned, those of friends and friends of friends count
all their tags into a dense array, and the entry of the given tag itself is cleared
afterwards. The loops run in the order in which the views and the tags are stored; the
rows do not depend on it.
-/

namespace LdbcInteractive

open DatedOrders EdgeTables PriorityQueues

namespace IC6

def kTopN : Nat := 10

structure TagResult where
  count : Int
  tagName : String
  deriving DecidableEq

/-- The comparison of `TagResultComparer`. -/
def tagResultBefore (lhs rhs : TagResult) : Bool :=
  if lhs.count > rhs.count then true
  else if lhs.count < rhs.count then false
  else lhs.tagName < rhs.tagName

theorem tagResultBefore_iff (a b : TagResult) :
    tagResultBefore a b = true ↔
      toLex (OrderDual.toDual a.count, a.tagName) <
        toLex (OrderDual.toDual b.count, b.tagName) := by
  rw [tagResultBefore, dateTest_iff, Prod.Lex.toLex_lt_toLex]
  rfl

def tagResultComparer : Comparer TagResult :=
  Comparer.ofKey tagResultBefore (fun r => toLex (OrderDual.toDual r.count, r.tagName))
    tagResultBefore_iff

abbrev Heap := PriorityQueue tagResultComparer

def tryPushTag (heap : Heap) (count : Int) (tagName : String) : Heap :=
  if count = 0 then heap
  else if heap.size < kTopN then heap.push ⟨count, tagName⟩
  else match heap.top? with
    | none => heap
    | some top =>
      if count > top.count ∨ count = top.count ∧ tagName < top.tagName then
        heap.pop.push ⟨count, tagName⟩
      else heap

section Query
variable (G : Graph)

def countTag (postCount : G.Tag → Int) (tagVid : G.Tag) : G.Tag → Int :=
  Function.update postCount tagVid (postCount tagVid + 1)

/-- One turn of the loop over the posts of the given tag. -/
def scanPost (postHasTagOut : CsrView G.Post G.Tag) (friends : G.Person → Bool)
    (postCount : G.Tag → Int) (postVid : G.Post) : G.Tag → Int :=
  match getSingleOutNeighbor G.postHasCreator.outgoing postVid with
  | none => postCount
  | some creatorVid =>
    if friends creatorVid then (postHasTagOut postVid).foldl (countTag G) postCount
    else postCount

/-- One turn of the loop over the tags. -/
def pushTag (postCount : G.Tag → Int) (heap : Heap) (otherTagVid : G.Tag) : Heap :=
  tryPushTag heap (postCount otherTagVid) (G.tagName otherTagVid)

structure Row where
  tagName : String
  postCount : Int
  deriving DecidableEq

/-- What `exec` does once the root and the tag are found, with the three orders in which
its loops run as arguments. -/
def rowsInOrder (root : G.Person) (tagVid : G.Tag) (taggedPosts : List G.Post)
    (postHasTagOut : CsrView G.Post G.Tag) (tags : List G.Tag) : List Row :=
  let friends := markKnows1d2dNeighbors G.knows root
  let postCount := taggedPosts.foldl (scanPost G postHasTagOut friends) fun _ => 0
  let postCount := Function.update postCount tagVid 0
  let heap := tags.foldl (pushTag G postCount) .empty
  heap.drain.reverse.map fun result => ⟨result.tagName, result.count⟩

def exec (personId : Int) (tagName : String) : List Row :=
  match getVertexIndex G.personId personId with
  | none => []
  | some root =>
    match findVertexByStringProp G.tagName tagName with
    | none => []
    | some tagVid =>
      rowsInOrder G root tagVid (G.postHasTag.incoming tagVid) G.postHasTag.outgoing
        (List.finRange G.tagNum)

end Query

section Scan
variable {G : Graph}

theorem foldl_countTag (tags : List G.Tag) (postCount : G.Tag → Int) (tag : G.Tag) :
    tags.foldl (countTag G) postCount tag = postCount tag + tags.count tag := by
  induction tags generalizing postCount with
  | nil => simp
  | cons t rest ih =>
    rw [List.foldl_cons, ih, List.count_cons]
    by_cases ht : t = tag
    · simp [countTag, ht]
      omega
    · simp [countTag, ht, Ne.symm ht]

/-- The first creator of the post is marked as a friend. -/
def byFriend (G : Graph) (friends : G.Person → Bool) (postVid : G.Post) : Bool :=
  (G.postHasCreator.outgoing postVid).head?.any friends

theorem scanPost_apply {postHasTagOut : CsrView G.Post G.Tag}
    (single : ∀ post, (postHasTagOut post).Nodup) (friends : G.Person → Bool)
    (postCount : G.Tag → Int) (post : G.Post) (tag : G.Tag) :
    scanPost G postHasTagOut friends postCount post tag =
      postCount tag + if byFriend G friends post ∧ tag ∈ postHasTagOut post then 1 else 0 := by
  cases hcreator : (G.postHasCreator.outgoing post).head? with
  | none => simp [scanPost, getSingleOutNeighbor, byFriend, hcreator]
  | some creatorVid =>
    have hby : byFriend G friends post = friends creatorVid := by simp [byFriend, hcreator]
    by_cases hfriend : friends creatorVid = true
    · have hscan : scanPost G postHasTagOut friends postCount post =
          (postHasTagOut post).foldl (countTag G) postCount := by
        simp [scanPost, getSingleOutNeighbor, hcreator, hfriend]
      rw [hscan, foldl_countTag, hby]
      by_cases htag : tag ∈ postHasTagOut post
      · simp [hfriend, htag, List.count_eq_one_of_mem (single post) htag]
      · simp [htag, List.count_eq_zero_of_not_mem htag]
    · simp [scanPost, getSingleOutNeighbor, hcreator, hfriend, hby]

theorem foldl_scanPost {postHasTagOut : CsrView G.Post G.Tag}
    (single : ∀ post, (postHasTagOut post).Nodup) (friends : G.Person → Bool)
    (posts : List G.Post) (postCount : G.Tag → Int) (tag : G.Tag) :
    posts.foldl (scanPost G postHasTagOut friends) postCount tag =
      postCount tag +
        posts.countP fun post => decide (byFriend G friends post ∧ tag ∈ postHasTagOut post) := by
  induction posts generalizing postCount with
  | nil => simp
  | cons post rest ih =>
    rw [List.foldl_cons, ih, scanPost_apply single, List.countP_cons]
    by_cases h : byFriend G friends post = true ∧ tag ∈ postHasTagOut post
    · simp [h]
      omega
    · simp [h]

end Scan

section Result

/-- The posts that carry both tags and were created by a person at distance 1 or 2. -/
def sharedPosts (G : Graph) (root : G.Person) (tagVid tag : G.Tag) : Finset G.Post :=
  Finset.univ.filter fun post =>
    tagVid ∈ G.postHasTag.outgoing post ∧ tag ∈ G.postHasTag.outgoing post ∧
      ∃ creator ∈ G.postHasCreator.outgoing post, InCircle G.knows root creator

/-- The tags other than the given one that share a post with it. -/
def sharedTags (G : Graph) (root : G.Person) (tagVid : G.Tag) : List TagResult :=
  ((List.finRange G.tagNum).filter fun tag =>
    tag ≠ tagVid ∧ 0 < (sharedPosts G root tagVid tag).card).map
      fun tag => ⟨(sharedPosts G root tagVid tag).card, G.tagName tag⟩

variable {G : Graph}

theorem byFriend_iff (creators : G.postHasCreator.AtMostOne) (root : G.Person) (post : G.Post) :
    byFriend G (markKnows1d2dNeighbors G.knows root) post = true ↔
      ∃ creator ∈ G.postHasCreator.outgoing post, InCircle G.knows root creator := by
  simp only [byFriend, Option.any_eq_true, ← creators.mem_outgoing_iff,
    markKnows1d2dNeighbors_iff]

/-- The array after the scan, whatever the order of the posts and of their tags. -/
theorem scan_taggedPosts (creators : G.postHasCreator.AtMostOne)
    (single : ∀ post, (G.postHasTag.outgoing post).Nodup) (root : G.Person) (tagVid : G.Tag)
    {taggedPosts : List G.Post} (posts : taggedPosts.Perm (G.postHasTag.incoming tagVid))
    {postHasTagOut : CsrView G.Post G.Tag}
    (out : ∀ post, (postHasTagOut post).Perm (G.postHasTag.outgoing post)) (tag : G.Tag) :
    taggedPosts.foldl (scanPost G postHasTagOut (markKnows1d2dNeighbors G.knows root))
      (fun _ => 0) tag = (sharedPosts G root tagVid tag).card := by
  have singleOut : ∀ post, (postHasTagOut post).Nodup := fun post =>
    (out post).nodup_iff.mpr (single post)
  rw [foldl_scanPost singleOut, zero_add, posts.countP_eq, EdgeTable.countP_incoming single,
    sharedPosts]
  simp only [byFriend_iff creators, (out _).mem_iff, decide_eq_true_eq, and_comm]

theorem tryPushTag_eq (heap : Heap) {count : Int} (hcount : count ≠ 0) (name : String) :
    tryPushTag heap count name = heap.offer kTopN tagResultBefore ⟨count, name⟩ := by
  refine PriorityQueue.eq_offer (by decide) ?_ ?_
  · intro hsize
    rw [tryPushTag, if_neg hcount, if_pos hsize]
  · intro top hsize htop
    rw [tryPushTag, if_neg hcount, if_neg hsize, htop]
    have test : tagResultBefore ⟨count, name⟩ top = true ↔
        count > top.count ∨ count = top.count ∧ name < top.tagName := dateTest_iff
    simp only [test]

theorem tagResultComparer_separates (xs : List TagResult) : tagResultComparer.Separates xs := by
  refine Comparer.ofKey_separates tagResultBefore_iff ?_
  rintro ⟨count, name⟩ - ⟨count', name'⟩ - h
  cases h
  rfl

/-- The pushes of the loop over the tags are the offers of the shared tags. -/
theorem foldl_pushTag (root : G.Person) (tagVid : G.Tag) {postCount : G.Tag → Int}
    (counted : ∀ tag, postCount tag = (sharedPosts G root tagVid tag).card)
    (tags : List G.Tag) (heap : Heap) :
    tags.foldl (pushTag G (Function.update postCount tagVid 0)) heap =
      ((tags.filter fun tag => tag ≠ tagVid ∧ 0 < (sharedPosts G root tagVid tag).card).map
        fun tag => (⟨(sharedPosts G root tagVid tag).card, G.tagName tag⟩ : TagResult)).foldl
          (PriorityQueue.offer kTopN tagResultBefore) heap := by
  rw [List.foldl_map, List.foldl_filter]
  congr 1
  funext heap tag
  by_cases htag : tag = tagVid
  · simp [pushTag, tryPushTag, htag]
  · rw [pushTag, Function.update_of_ne htag, counted]
    by_cases hzero : (sharedPosts G root tagVid tag).card = 0
    · simp [tryPushTag, hzero]
    · simp [tryPushTag_eq heap (Int.natCast_ne_zero.mpr hzero), htag, Nat.pos_of_ne_zero hzero]

theorem rowsInOrder_eq (creators : G.postHasCreator.AtMostOne)
    (single : ∀ post, (G.postHasTag.outgoing post).Nodup) (root : G.Person) (tagVid : G.Tag)
    {taggedPosts : List G.Post} (posts : taggedPosts.Perm (G.postHasTag.incoming tagVid))
    {postHasTagOut : CsrView G.Post G.Tag}
    (out : ∀ post, (postHasTagOut post).Perm (G.postHasTag.outgoing post))
    {tags : List G.Tag} (all : tags.Perm (List.finRange G.tagNum)) :
    rowsInOrder G root tagVid taggedPosts postHasTagOut tags =
      (tagResultComparer.firstN kTopN (sharedTags G root tagVid)).map
        fun result => ⟨result.tagName, result.count⟩ := by
  have counted := scan_taggedPosts creators single root tagVid posts out
  simp only [rowsInOrder, foldl_pushTag root tagVid counted]
  exact congrArg _ (PriorityQueue.drain_foldl_offer_perm (fun _ _ => rfl)
    (tagResultComparer_separates _) ((all.filter _).map _))

/-- The rows are the first 10 of the shared tags, and they are the same in every order of the
tagged posts, of the tags of a post and of all tags. -/
theorem first_shared_tags (G : Graph) (creators : G.postHasCreator.AtMostOne)
    (single : ∀ post, (G.postHasTag.outgoing post).Nodup) (root : G.Person) (tagVid : G.Tag)
    (tagName : String) (named : G.tagName tagVid = tagName)
    (first : ∀ tag < tagVid, G.tagName tag ≠ tagName) :
    let rows := (tagResultComparer.firstN kTopN (sharedTags G root tagVid)).map
      fun result => (⟨result.tagName, result.count⟩ : Row)
    exec G (G.personId root) tagName = rows ∧
      ∀ (taggedPosts : List G.Post) (postHasTagOut : CsrView G.Post G.Tag) (tags : List G.Tag),
        taggedPosts.Perm (G.postHasTag.incoming tagVid) →
        (∀ post, (postHasTagOut post).Perm (G.postHasTag.outgoing post)) →
        tags.Perm (List.finRange G.tagNum) →
        rowsInOrder G root tagVid taggedPosts postHasTagOut tags = rows := by
  constructor
  · rw [exec, getVertexIndex_self G.personKey]
    simp only [findVertexByStringProp_eq_some named first]
    exact rowsInOrder_eq creators single root tagVid (List.Perm.refl _)
      (fun _ => List.Perm.refl _) (List.Perm.refl _)
  · intro taggedPosts postHasTagOut tags posts out all
    exact rowsInOrder_eq creators single root tagVid posts out all

theorem sharedGraph_small : 3 ≤ kInvalidVid := by decide

/-- Posts of a friend, of a friend of this friend and of the root itself, with three tags. -/
def sharedGraph : Graph :=
  { Graph.numbered 3 3 0 sharedGraph_small (.ofNumbers [(1, 0, ()), (1, 2, ())]) with
    tagNum := 3
    tagName := fun tag => if tag.val = 0 then "Jazz" else if tag.val = 1 then "Swing" else "Blues"
    postHasCreator := .ofNumbers [(0, 1, 0), (1, 2, 0), (2, 0, 0)]
    postHasTag := .ofNumbers
      [(0, 0, ()), (0, 1, ()), (0, 2, ()), (1, 1, ()), (1, 0, ()), (2, 0, ()), (2, 2, ())]
    hasType := .ofNumbers []
    hasInterest := .ofNumbers [] }

theorem first_shared_tags_two :
    exec sharedGraph 0 "Jazz" =
      (tagResultComparer.firstN kTopN (sharedTags sharedGraph (0 : Fin 3) (0 : Fin 3))).map
        fun result => ⟨result.tagName, result.count⟩ :=
  (first_shared_tags sharedGraph (by decide) (by decide) (0 : Fin 3) (0 : Fin 3) "Jazz" (by decide)
    (by decide)).1

example : sharedTags sharedGraph (0 : Fin 3) (0 : Fin 3) = [⟨2, "Swing"⟩, ⟨1, "Blues"⟩] := by
  decide +kernel

end Result

end IC6

end LdbcInteractive
