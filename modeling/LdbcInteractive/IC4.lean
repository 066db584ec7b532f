import LdbcInteractive.Common
import Mathlib.Data.Prod.Lex
import Mathlib.Data.String.Basic

/-!
# IC4: new tags on the posts of friends

One scan counts the tags of the posts in the window and strikes out, for good, the
tags of older posts. The window runs from the start date to an end that is formed
in 64-bit arithmetic.
-/

namespace LdbcInteractive

open EdgeTables PriorityQueues

namespace IC4

def kTopN : Nat := 10

def kMillisPerDay : Int64 := 24 * 60 * 60 * 1000

structure TagRow where
  count : Int
  name : String
  deriving DecidableEq

/-- The comparison of `TagRowCmp`. -/
def tagRowBefore (a b : TagRow) : Bool :=
  if a.count ≠ b.count then a.count > b.count else a.name < b.name

theorem tagRowBefore_iff (a b : TagRow) :
    tagRowBefore a b = true ↔
      toLex (OrderDual.toDual a.count, a.name) < toLex (OrderDual.toDual b.count, b.name) := by
  rw [Prod.Lex.toLex_lt_toLex]
  by_cases h : a.count = b.count <;> simp [tagRowBefore, h]

def tagRowCmp : Comparer TagRow :=
  Comparer.ofKey tagRowBefore (fun r => toLex (OrderDual.toDual r.count, r.name))
    tagRowBefore_iff

abbrev Heap := PriorityQueue tagRowCmp

def tryPushTag (heap : Heap) (count : Int) (name : String) : Heap :=
  if count = 0 then heap
  else if heap.size < kTopN then heap.push ⟨count, name⟩
  else match heap.top? with
    | none => heap
    | some top =>
      if count > top.count ∨ count = top.count ∧ name < top.name then
        heap.pop.push ⟨count, name⟩
      else heap

section Query
variable (G : Graph)

/-- The arrays `neg` and `tag_count`. -/
structure TagState where
  neg : G.Tag → Bool
  tagCount : G.Tag → Int

def countTag (st : TagState G) (tagVid : G.Tag) : TagState G :=
  if st.neg tagVid then st
  else { st with tagCount := Function.update st.tagCount tagVid (st.tagCount tagVid + 1) }

def strikeTag (st : TagState G) (tagVid : G.Tag) : TagState G where
  neg := Function.update st.neg tagVid true
  tagCount := Function.update st.tagCount tagVid 0

/-- One post of a friend, dated before the end of the window. -/
def scanPost (startDateMs : Int64) (st : TagState G) (post : G.Post × DateTime) : TagState G :=
  let tags := G.postHasTag.outgoing post.1
  if post.2 ≥ startDateMs.toInt then tags.foldl (countTag G) st
  else tags.foldl (strikeTag G) st

def scanFriend (lt : NbrLt) (startDateMs endMs : Int64) (st : TagState G)
    (friendVid : G.Person) : TagState G :=
  foreachIncomingNbrLt lt G.postHasCreator.inEdges friendVid endMs.toInt
    (scanPost G startDateMs) st

/-- One turn of the loop over the tags. -/
def pushTag (st : TagState G) (heap : Heap) (tagVid : G.Tag) : Heap :=
  let count := st.tagCount tagVid
  if count = 0 then heap
  else tryPushTag heap count (G.tagName tagVid)

structure Row where
  tagName : String
  postCount : Int
  deriving DecidableEq

def exec (lt : NbrLt) (personId : Int) (startDateMs durationDays : Int64) : List Row :=
  match getVertexIndex G.personId personId with
  | none => []
  | some root =>
    let endMs := startDateMs + durationDays * kMillisPerDay
    let st := foreachKnowsNeighbor G.knows root (scanFriend G lt startDateMs endMs)
      ⟨fun _ => false, fun _ => 0⟩
    let heap := (List.finRange G.tagNum).foldl (pushTag G st) .empty
    heap.drain.reverse.map fun row => ⟨row.name, row.count⟩

end Query

section Scan
variable {G : Graph} {startDateMs : Int64}

theorem countTag_neg (st : TagState G) (t : G.Tag) : (countTag G st t).neg = st.neg := by
  unfold countTag
  split <;> rfl

theorem countTag_tagCount (st : TagState G) (t tag : G.Tag) :
    (countTag G st t).tagCount tag =
      if t = tag ∧ ¬ st.neg tag = true then st.tagCount tag + 1 else st.tagCount tag := by
  unfold countTag
  by_cases ht : t = tag
  · by_cases hneg : st.neg tag = true <;> simp [ht, hneg]
  · split <;> simp [ht, Ne.symm ht]

theorem foldl_countTag (tags : List G.Tag) (st : TagState G) (tag : G.Tag) :
    (tags.foldl (countTag G) st).neg = st.neg ∧
      (tags.foldl (countTag G) st).tagCount tag =
        if st.neg tag then st.tagCount tag else st.tagCount tag + tags.count tag := by
  induction tags generalizing st with
  | nil => simp
  | cons t rest ih =>
    obtain ⟨hneg, hcount⟩ := ih (countTag G st t)
    rw [countTag_neg] at hneg hcount
    refine ⟨hneg, hcount.trans ?_⟩
    rw [countTag_tagCount, List.count_cons]
    by_cases hneg : st.neg tag = true
    · simp [hneg]
    · by_cases ht : t = tag
      · simp only [ht, hneg]
        simp
        omega
      · simp [ht, hneg]

theorem foldl_strikeTag (tags : List G.Tag) (st : TagState G) (tag : G.Tag) :
    ((tags.foldl (strikeTag G) st).neg tag = true ↔ st.neg tag = true ∨ tag ∈ tags) ∧
      (tags.foldl (strikeTag G) st).tagCount tag =
        if tag ∈ tags then 0 else st.tagCount tag := by
  induction tags generalizing st with
  | nil => simp
  | cons t rest ih =>
    obtain ⟨hneg, hcount⟩ := ih (strikeTag G st t)
    rw [List.foldl_cons, hneg, hcount]
    by_cases ht : tag = t
    · simp [strikeTag, ht]
    · simp [strikeTag, ht]

/-- What the arrays hold after the posts scanned so far: an older post strikes its tags out
whenever it comes, and the others count as if no post were older. -/
structure Counted (startDateMs : Int64) (posts : List (G.Post × DateTime)) (st : TagState G) :
    Prop where
  neg : ∀ tag, st.neg tag = true ↔
    ∃ post ∈ posts, post.2 < startDateMs.toInt ∧ tag ∈ G.postHasTag.outgoing post.1
  tagCount : ∀ tag, st.tagCount tag = if st.neg tag then 0 else
    ((posts.filter fun post => startDateMs.toInt ≤ post.2).map fun post =>
      ((G.postHasTag.outgoing post.1).count tag : Int)).sum

theorem Counted.scanPost {posts : List (G.Post × DateTime)} {st : TagState G}
    (h : Counted startDateMs posts st) (post : G.Post × DateTime) :
    Counted startDateMs (posts ++ [post]) (scanPost G startDateMs st post) := by
  by_cases hdate : startDateMs.toInt ≤ post.2
  · have hscan : IC4.scanPost G startDateMs st post =
        (G.postHasTag.outgoing post.1).foldl (countTag G) st := if_pos hdate
    have step := foldl_countTag (G.postHasTag.outgoing post.1) st
    rw [hscan]
    constructor
    · intro tag
      rw [(step tag).1, h.neg]
      simp [or_and_right, exists_or, hdate.not_gt]
    · intro tag
      rw [(step tag).1, (step tag).2, h.tagCount]
      split <;> simp [hdate]
  · have hscan : IC4.scanPost G startDateMs st post =
        (G.postHasTag.outgoing post.1).foldl (strikeTag G) st := if_neg hdate
    have step := foldl_strikeTag (G.postHasTag.outgoing post.1) st
    rw [hscan]
    constructor
    · intro tag
      rw [(step tag).1, h.neg]
      simp [or_and_right, exists_or, not_le.mp hdate]
    · intro tag
      rw [(step tag).2, h.tagCount]
      by_cases htag : tag ∈ G.postHasTag.outgoing post.1
      · rw [if_pos htag, if_pos ((step tag).1.mpr (Or.inr htag))]
      · have hneg : (((G.postHasTag.outgoing post.1).foldl (strikeTag G) st).neg tag = true) =
            (st.neg tag = true) := by
          rw [(step tag).1]
          simp [htag]
        simp [htag, hneg, hdate]

theorem counted_scan (posts : List (G.Post × DateTime)) :
    Counted startDateMs posts
      (posts.foldl (scanPost G startDateMs) ⟨fun _ => false, fun _ => 0⟩) := by
  induction posts using List.reverseRecOn with
  | nil => exact ⟨by simp, by simp⟩
  | append_singleton posts post ih =>
    rw [List.foldl_append]
    exact ih.scanPost post

end Scan

section Result
variable {G : Graph}

/-- A post of a direct friend, with a condition on its date. -/
def FriendPost (G : Graph) (root : G.Person) (dated : DateTime → Prop) (post : G.Post) : Prop :=
  ∃ e ∈ G.postHasCreator.outEdges post, (undirected G.knows).Adj root e.1 ∧ dated e.2

instance (root : G.Person) (dated : DateTime → Prop) [DecidablePred dated] :
    DecidablePred (FriendPost G root dated) := fun post =>
  inferInstanceAs (Decidable (∃ e ∈ G.postHasCreator.outEdges post, _ ∧ _))

/-- The count of a tag in two passes: the older posts decide whether the tag is new, then the
posts in the window are counted. -/
def newTagCount (G : Graph) (root : G.Person) (startDate endDate : DateTime) (tag : G.Tag) :
    Nat :=
  if ∃ post, FriendPost G root (· < startDate) post ∧ tag ∈ G.postHasTag.outgoing post then 0
  else ∑ post with FriendPost G root (fun date => startDate ≤ date ∧ date < endDate) post,
    (G.postHasTag.outgoing post).count tag

def newTags (G : Graph) (root : G.Person) (startDate endDate : DateTime) : List TagRow :=
  ((List.finRange G.tagNum).filter fun tag => 0 < newTagCount G root startDate endDate tag).map
    fun tag => ⟨newTagCount G root startDate endDate tag, G.tagName tag⟩

/-- The posts in the order of the scan, friend after friend. -/
def scannedPosts (lt : NbrLt) (G : Graph) (root : G.Person) (endDate : DateTime) :
    List (G.Post × DateTime) :=
  (G.knows.outgoing root ++ G.knows.incoming root).flatMap fun friendVid =>
    lt.order G.postHasCreator.inEdges friendVid endDate

theorem mem_scannedPosts (simple : SimpleKnows G.knows) {lt : NbrLt} {root : G.Person}
    {endDate : DateTime} {e : G.Post × DateTime} :
    e ∈ scannedPosts lt G root endDate ↔
      e.2 < endDate ∧ FriendPost G root (· = e.2) e.1 := by
  simp only [scannedPosts, List.mem_flatMap, (lt.perm _ _ _).mem_iff, List.mem_filter,
    decide_eq_true_eq, ← simple.adj_iff]
  constructor
  · rintro ⟨f, friend, hedge, hdate⟩
    exact ⟨hdate, (f, e.2), (G.postHasCreator.mem_edges_iff e.1 f e.2).mp hedge, friend, rfl⟩
  · rintro ⟨hdate, ⟨f, date⟩, hedge, friend, rfl⟩
    exact ⟨f, friend, (G.postHasCreator.mem_edges_iff e.1 f e.2).mpr hedge, hdate⟩

theorem exists_scannedPost (simple : SimpleKnows G.knows) (lt : NbrLt) {root : G.Person}
    {endDate : DateTime} (dated : DateTime → Prop) (post : G.Post) :
    (∃ date, (post, date) ∈ scannedPosts lt G root endDate ∧ dated date) ↔
      FriendPost G root (fun date => dated date ∧ date < endDate) post := by
  simp only [mem_scannedPosts simple]
  constructor
  · rintro ⟨date, ⟨hlt, e, hedge, friend, rfl⟩, hdated⟩
    exact ⟨e, hedge, friend, hdated, hlt⟩
  · rintro ⟨e, hedge, friend, hdated, hlt⟩
    exact ⟨e.2, ⟨hlt, e, hedge, friend, rfl⟩, hdated⟩

theorem scannedPosts_nodup (simple : SimpleKnows G.knows) (posts : G.postHasCreator.AtMostOne)
    (lt : NbrLt) (root : G.Person) (endDate : DateTime) :
    ((scannedPosts lt G root endDate).map Prod.fst).Nodup := by
  rw [scannedPosts, List.map_flatMap]
  refine posts.flatMap_nodup (fun f => ?_) (simple.neighbors_nodup root)
  exact ((lt.perm _ f endDate).map Prod.fst).subperm.trans
    (List.filter_sublist.map Prod.fst).subperm

/-- A sum over the scanned posts of some dates ranges over the friends' posts. -/
theorem sum_scannedPosts (simple : SimpleKnows G.knows) (posts : G.postHasCreator.AtMostOne)
    (lt : NbrLt) (root : G.Person) (startDate endDate : DateTime) (f : G.Post → Nat) :
    (((scannedPosts lt G root endDate).filter fun e => startDate ≤ e.2).map
        fun e => (f e.1 : Int)).sum =
      (∑ post with FriendPost G root (fun date => startDate ≤ date ∧ date < endDate) post,
        f post : Nat) := by
  let window := (scannedPosts lt G root endDate).filter fun e => startDate ≤ e.2
  have distinct : (window.map Prod.fst).Nodup :=
    (scannedPosts_nodup simple posts lt root endDate).sublist (List.filter_sublist.map _)
  have same : (window.map Prod.fst).toFinset =
      Finset.univ.filter (FriendPost G root fun date => startDate ≤ date ∧ date < endDate) := by
    ext post
    rw [Finset.mem_filter_univ, ← exists_scannedPost simple lt]
    simp [window]
  rw [← same, Nat.cast_sum, List.sum_toFinset _ distinct, List.map_map]
  rfl

/-- One pass in any order counts what two passes count. -/
theorem Counted.two_pass (simple : SimpleKnows G.knows) (posts : G.postHasCreator.AtMostOne)
    {lt : NbrLt} {root : G.Person} {startDateMs : Int64} {endDate : DateTime}
    {st : TagState G} (h : Counted startDateMs (scannedPosts lt G root endDate) st)
    (tag : G.Tag) : st.tagCount tag = newTagCount G root startDateMs.toInt endDate tag := by
  rw [h.tagCount, sum_scannedPosts simple posts lt root startDateMs.toInt endDate
    fun post => (G.postHasTag.outgoing post).count tag, newTagCount]
  have struck : st.neg tag = true ↔
      ∃ post, FriendPost G root (fun date => date < startDateMs.toInt ∧ date < endDate) post ∧
        tag ∈ G.postHasTag.outgoing post := by
    simp only [h.neg, ← exists_scannedPost simple lt]
    constructor
    · rintro ⟨⟨post, date⟩, hmem, hlt, htag⟩
      exact ⟨post, ⟨date, hmem, hlt⟩, htag⟩
    · rintro ⟨post, ⟨date, hmem, hlt⟩, htag⟩
      exact ⟨(post, date), hmem, hlt, htag⟩
  rcases lt_or_ge startDateMs.toInt endDate with hlt | hge
  · have before : ∀ date, date < startDateMs.toInt ∧ date < endDate ↔
        date < startDateMs.toInt := fun date => and_iff_left_of_imp fun h => h.trans hlt
    simp only [before] at struck
    by_cases hneg : st.neg tag = true
    · rw [if_pos hneg, if_pos (struck.mp hneg)]
      rfl
    · rw [if_neg hneg, if_neg fun h => hneg (struck.mpr h)]
  · -- The window is empty, and with it both counts.
    have none : Finset.univ.filter (FriendPost G root
        fun date => startDateMs.toInt ≤ date ∧ date < endDate) = ∅ := by
      refine Finset.filter_eq_empty_iff.mpr ?_
      rintro post - ⟨e, -, -, hle, hlt⟩
      exact absurd (hle.trans_lt hlt) (not_lt.mpr hge)
    simp [none]

theorem tryPushTag_eq (heap : Heap) {count : Int} (hcount : count ≠ 0) (name : String) :
    tryPushTag heap count name = heap.offer kTopN tagRowBefore ⟨count, name⟩ := by
  refine PriorityQueue.eq_offer (by decide) ?_ ?_
  · intro hsize
    rw [tryPushTag, if_neg hcount, if_pos hsize]
  · intro top hsize htop
    rw [tryPushTag, if_neg hcount, if_neg hsize, htop]
    have test : tagRowBefore ⟨count, name⟩ top = true ↔
        count > top.count ∨ count = top.count ∧ name < top.name := by
      rw [tagRowBefore_iff, Prod.Lex.toLex_lt_toLex]
      rfl
    simp only [test]

/-- The tags with a count, with their names. -/
def countedTags (G : Graph) (tagCount : G.Tag → Int) : List TagRow :=
  ((List.finRange G.tagNum).filter fun tag => tagCount tag ≠ 0).map
    fun tag => ⟨tagCount tag, G.tagName tag⟩

/-- The pushes of the last loop, on any table and in any window. -/
theorem exec_eq (lt : NbrLt) (root : G.Person) (startDateMs durationDays : Int64) :
    exec G lt (G.personId root) startDateMs durationDays =
      (tagRowCmp.firstN kTopN (countedTags G
        ((scannedPosts lt G root (startDateMs + durationDays * kMillisPerDay).toInt).foldl
          (scanPost G startDateMs) ⟨fun _ => false, fun _ => 0⟩).tagCount)).map
            fun row => ⟨row.name, row.count⟩ := by
  have push : ∀ st : TagState G, (List.finRange G.tagNum).foldl (pushTag G st) .empty =
      (countedTags G st.tagCount).foldl (PriorityQueue.offer kTopN tagRowBefore) .empty := by
    intro st
    rw [countedTags, List.foldl_map, List.foldl_filter]
    congr 1
    funext heap tag
    by_cases hzero : st.tagCount tag = 0
    · simp [pushTag, hzero]
    · simp [pushTag, hzero, tryPushTag_eq heap hzero]
  rw [exec, getVertexIndex_self G.personKey]
  simp only [push, foreachKnowsNeighbor, scannedPosts]
  rw [← List.foldl_append, List.foldl_flatMap]
  exact congrArg _ (PriorityQueue.drain_foldl_offer (fun _ _ => rfl) _)

theorem tagRowCmp_separates (rows : List TagRow) : tagRowCmp.Separates rows := by
  refine Comparer.ofKey_separates tagRowBefore_iff ?_
  rintro ⟨count, name⟩ - ⟨count', name'⟩ - h
  cases h
  rfl

/-- The rows are the first 10 of the new tags, in whatever order the posts are visited. -/
theorem first_new_tags (lt : NbrLt) (G : Graph) (simple : SimpleKnows G.knows)
    (posts : G.postHasCreator.AtMostOne) (root : G.Person) (startDateMs durationDays : Int64)
    (fits : FitsInt64 (startDateMs.toInt + durationDays.toInt * kMillisPerDay.toInt)) :
    exec G lt (G.personId root) startDateMs durationDays =
      (tagRowCmp.firstN kTopN (newTags G root startDateMs.toInt
        (startDateMs.toInt + durationDays.toInt * kMillisPerDay.toInt))).map
          fun row => ⟨row.name, row.count⟩ := by
  -- The one pass has counted what the two passes of the specification count.
  have counted : ∀ endDate : DateTime, countedTags G ((scannedPosts lt G root endDate).foldl
      (scanPost G startDateMs) ⟨fun _ => false, fun _ => 0⟩).tagCount =
        newTags G root startDateMs.toInt endDate := by
    intro endDate
    simp only [countedTags, newTags, (counted_scan _).two_pass simple posts, Int.natCast_ne_zero,
      Nat.pos_iff_ne_zero]
  rw [exec_eq, toInt_add_mul fits, counted]

theorem taggedPosts_small : 2 ≤ kInvalidVid := by decide

/-- A friend with three tagged posts; the first tag is on a post before the window, too. -/
def taggedPosts : Graph :=
  { Graph.numbered 2 3 0 taggedPosts_small (.ofNumbers [(1, 0, ())]) with
    tagNum := 2
    tagName := fun _ => "Jazz"
    postHasCreator := .ofNumbers [(0, 1, -5), (1, 1, 10), (2, 1, 20)]
    postHasTag := .ofNumbers [(0, 0, ()), (1, 0, ()), (1, 1, ()), (2, 1, ())]
    hasType := .ofNumbers []
    hasInterest := .ofNumbers [] }

theorem first_new_tags_struck_out :
    exec taggedPosts .stored 0 0 1 =
      (tagRowCmp.firstN kTopN (newTags taggedPosts (0 : Fin 2) 0 (0 + 1 * 86400000))).map
        fun row => ⟨row.name, row.count⟩ :=
  first_new_tags .stored taggedPosts (by decide) (by decide) (0 : Fin 2) 0 1 (by decide)

example : newTags taggedPosts (0 : Fin 2) 0 86400000 = [⟨2, "Jazz"⟩] := by decide +kernel

end Result

end IC4

end LdbcInteractive
