import LdbcInteractive.FriendCircles
import LdbcInteractive.Selections
import LdbcInteractive.DatedOrders

/-!
# IC5: forums that friends joined, by their posts

For each friend the forums joined after a date are set in a bitmap, which is cleared
again after the friend's posts in them have been counted. Forums with posts are offered
to a priority queue first; forums without posts follow while the queue is not full.
-/

namespace LdbcInteractive

open EdgeTables PriorityQueues DatedOrders

namespace IC5

def kTopN : Nat := 20

@[ext]
structure ForumInfo (G : Graph) where
  forumVid : G.Forum
  postCount : Int
  forumId : Int
  deriving DecidableEq

section Queue
variable {G : Graph}

/-- The comparison of `ForumInfoComparer`. -/
def forumBefore (lhs rhs : ForumInfo G) : Bool :=
  if lhs.postCount > rhs.postCount then true
  else if lhs.postCount < rhs.postCount then false
  else lhs.forumId < rhs.forumId

theorem forumBefore_iff (a b : ForumInfo G) :
    forumBefore a b = true ↔ b.postCount < a.postCount ∨
      a.postCount = b.postCount ∧ OrderDual.toDual b.forumId < OrderDual.toDual a.forumId :=
  dateTest_iff

def forumInfoComparer (G : Graph) : Comparer (ForumInfo G) :=
  datedComparer forumBefore ForumInfo.postCount (fun r => OrderDual.toDual r.forumId)
    forumBefore_iff

def byPosts (G : Graph) : Dated (forumInfoComparer G) Int Intᵒᵈ :=
  .ofComparer forumBefore ForumInfo.postCount (fun r => OrderDual.toDual r.forumId)
    forumBefore_iff

abbrev Queue (G : Graph) := PriorityQueue (forumInfoComparer G)

end Queue

section Query
variable (G : Graph)

/-- The variables of the counting loop; `post_count` is a map from forums to counts. -/
structure Counting where
  postCount : G.Forum → Option Int
  accessedForumSet : G.Forum → Bool
  personForumSet : G.Forum → Bool
  forumList : List G.Forum
  personForumList : List G.Forum

/-- The function that the view of the joined forums is given. -/
def joinForum (st : Counting G) (e : G.Forum × DateTime) : Counting G :=
  let forumVid := e.1
  let st := { st with
    personForumSet := Function.update st.personForumSet forumVid true
    personForumList := st.personForumList ++ [forumVid] }
  if st.accessedForumSet forumVid then st
  else { st with
    accessedForumSet := Function.update st.accessedForumSet forumVid true
    forumList := st.forumList ++ [forumVid] }

/-- A post without a forum, or in a forum that its author has not joined, is skipped. -/
def countPost (st : Counting G) (postVid : G.Post) : Counting G :=
  match getSingleOutNeighbor G.containerOf.incoming postVid with
  | none => st
  | some forumVid =>
    if st.personForumSet forumVid then { st with
      postCount := Function.update st.postCount forumVid
        (some ((st.postCount forumVid).getD 0 + 1)) }
    else st

/-- The loop over `person_forum_list` that resets the bitmap, and the reset of the list. -/
def clearForums (st : Counting G) : Counting G :=
  { st with
    personForumSet := st.personForumList.foldl (fun b forumVid => Function.update b forumVid false)
      st.personForumSet
    personForumList := [] }

def scanFriend (gt : NbrGt) (minDate : DateTime) (st : Counting G) (friendVid : G.Person) :
    Counting G :=
  let st := foreachIncomingNbrGt gt G.hasMember.inEdges friendVid minDate (joinForum G) st
  if st.personForumList.isEmpty then st
  else clearForums G ((G.postHasCreator.incoming friendVid).foldl (countPost G) st)

/-- A turn of the loop over `post_count`, with the bitmap of the forums still to come. -/
def offerCounted (st : Queue G × (G.Forum → Bool)) (pair : G.Forum × Int) :
    Queue G × (G.Forum → Bool) :=
  let (que, accessedForumSet) := st
  let (forumVid, count) := pair
  let accessedForumSet := Function.update accessedForumSet forumVid false
  let info : ForumInfo G := ⟨forumVid, count, G.forumId forumVid⟩
  if que.size < kTopN then (que.push info, accessedForumSet)
  else match que.top? with
    | none => (que, accessedForumSet)
    | some top =>
      if top.postCount < count then (que.pop.push info, accessedForumSet)
      else if top.postCount = count then
        if info.forumId < top.forumId then (que.pop.push info, accessedForumSet)
        else (que, accessedForumSet)
      else (que, accessedForumSet)

/-- A turn of the loop over `forum_list`: the test against the top compares ids only. -/
def offerUncounted (st : Queue G × (G.Forum → Bool)) (forumVid : G.Forum) :
    Queue G × (G.Forum → Bool) :=
  let (que, accessedForumSet) := st
  if ¬ accessedForumSet forumVid then st
  else
    let accessedForumSet := Function.update accessedForumSet forumVid false
    let info : ForumInfo G := ⟨forumVid, 0, G.forumId forumVid⟩
    if que.size < kTopN then (que.push info, accessedForumSet)
    else match que.top? with
      | none => (que, accessedForumSet)
      | some top =>
        if info.forumId < top.forumId then (que.pop.push info, accessedForumSet)
        else (que, accessedForumSet)

/-- The pairs of the map in the order of the keys. -/
def mapPairs (postCount : G.Forum → Option Int) : List (G.Forum × Int) :=
  (List.finRange G.forumNum).filterMap fun forumVid =>
    (postCount forumVid).map fun count => (forumVid, count)

/-- Where the queue is full after the first loop the code only clears the bitmap, which is
not read again. -/
def selectForums (st : Counting G) : Queue G :=
  let counted := (mapPairs G st.postCount).foldl (offerCounted G) (.empty, st.accessedForumSet)
  if counted.1.size < kTopN then (st.forumList.foldl (offerUncounted G) counted).1
  else counted.1

structure Row where
  forumTitle : String
  postCount : Int
  deriving DecidableEq

def row (info : ForumInfo G) : Row where
  forumTitle := G.forumTitle info.forumVid
  postCount := info.postCount

def emptyCounting : Counting G where
  postCount := fun _ => none
  accessedForumSet := fun _ => false
  personForumSet := fun _ => false
  forumList := []
  personForumList := []

def exec (gt : NbrGt) (personId : Int) (minDate : DateTime) : List Row :=
  match getVertexIndex G.personId personId with
  | none => []
  | some root =>
    let friendsList := foreachKnows1d2dNeighbor G.knows root
      (fun friendsList friendVid => friendsList ++ [friendVid]) []
    let st := friendsList.foldl (scanFriend G gt minDate) (emptyCounting G)
    (selectForums G st).drain.reverse.map (row G)

end Query

section Counting
variable {G : Graph}

/-- The person joined the forum strictly after the date. -/
def JoinedAfter (minDate : DateTime) (v : G.Person) (forum : G.Forum) : Prop :=
  ∃ e ∈ G.hasMember.outEdges forum, e.1 = v ∧ minDate < e.2

instance (minDate : DateTime) (v : G.Person) (forum : G.Forum) :
    Decidable (JoinedAfter minDate v forum) :=
  inferInstanceAs (Decidable (∃ e ∈ G.hasMember.outEdges forum, _ ∧ _))

/-- What one friend adds to the count of a forum. -/
def postsInForum (minDate : DateTime) (v : G.Person) (forum : G.Forum) : Nat :=
  if JoinedAfter minDate v forum then
    (G.postHasCreator.incoming v).countP fun post =>
      getSingleOutNeighbor G.containerOf.incoming post = some forum
  else 0

/-- A count in the map: a forum without posts has no entry. -/
def mapEntry (count : Nat) : Option Int := if count = 0 then none else some count

/-- The variables after the friends `vs`, between two turns of the loop. -/
structure Counted (minDate : DateTime) (vs : List G.Person) (st : Counting G) : Prop where
  cleared : ∀ forum, st.personForumSet forum = false
  noForums : st.personForumList = []
  accessed : ∀ forum, st.accessedForumSet forum = true ↔ forum ∈ st.forumList
  distinct : st.forumList.Nodup
  joined : ∀ forum, forum ∈ st.forumList ↔ ∃ v ∈ vs, JoinedAfter minDate v forum
  postCount : ∀ forum,
    st.postCount forum = mapEntry (vs.map fun v => postsInForum minDate v forum).sum

/-- The variables while the forums of the next friend are collected. -/
structure Joining (minDate : DateTime) (vs : List G.Person) (forums : List G.Forum)
    (st : Counting G) : Prop where
  personForumSet : ∀ forum, st.personForumSet forum = true ↔ forum ∈ forums
  personForumList : st.personForumList = forums
  accessed : ∀ forum, st.accessedForumSet forum = true ↔ forum ∈ st.forumList
  distinct : st.forumList.Nodup
  joined : ∀ forum, forum ∈ st.forumList ↔
    (∃ v ∈ vs, JoinedAfter minDate v forum) ∨ forum ∈ forums
  postCount : ∀ forum,
    st.postCount forum = mapEntry (vs.map fun v => postsInForum minDate v forum).sum

variable {minDate : DateTime} {vs : List G.Person} {forums : List G.Forum} {st : Counting G}

theorem Counted.joining (h : Counted minDate vs st) : Joining minDate vs [] st where
  personForumSet forum := by simp [h.cleared]
  personForumList := h.noForums
  accessed := h.accessed
  distinct := h.distinct
  joined forum := by simp [h.joined]
  postCount := h.postCount

theorem Joining.joinForum (h : Joining minDate vs forums st) (e : G.Forum × DateTime) :
    Joining minDate vs (forums ++ [e.1]) (joinForum G st e) := by
  have set : ∀ forum, Function.update st.personForumSet e.1 true forum = true ↔
      forum ∈ forums ++ [e.1] := by
    intro forum
    by_cases hf : forum = e.1
    · simp [hf]
    · simp [hf, h.personForumSet]
  by_cases hseen : st.accessedForumSet e.1 = true
  · have hmem := (h.accessed e.1).mp hseen
    have hstep : IC5.joinForum G st e = { st with
        personForumSet := Function.update st.personForumSet e.1 true
        personForumList := st.personForumList ++ [e.1] } := if_pos hseen
    rw [hstep]
    refine ⟨set, congrArg (· ++ [e.1]) h.personForumList, h.accessed, h.distinct, ?_, h.postCount⟩
    intro forum
    rw [List.mem_append, ← or_assoc, ← h.joined, List.mem_singleton]
    exact (or_iff_left_of_imp fun heq => heq ▸ hmem).symm
  · have hmem : e.1 ∉ st.forumList := fun h' => hseen ((h.accessed e.1).mpr h')
    have hstep : IC5.joinForum G st e = { st with
        personForumSet := Function.update st.personForumSet e.1 true
        personForumList := st.personForumList ++ [e.1]
        accessedForumSet := Function.update st.accessedForumSet e.1 true
        forumList := st.forumList ++ [e.1] } := if_neg hseen
    rw [hstep]
    refine ⟨set, congrArg (· ++ [e.1]) h.personForumList, ?_, ?_, ?_, h.postCount⟩
    · intro forum
      by_cases hf : forum = e.1
      · simp [hf]
      · simp [hf, h.accessed]
    · exact List.nodup_append.mpr ⟨h.distinct, List.nodup_singleton _, by
        rintro a ha _ hb rfl
        exact hmem (List.mem_singleton.mp hb ▸ ha)⟩
    · intro forum
      simp only [List.mem_append, h.joined, or_assoc]

theorem Joining.foldl (h : Joining minDate vs forums st) (es : List (G.Forum × DateTime)) :
    Joining minDate vs (forums ++ es.map Prod.fst) (es.foldl (IC5.joinForum G) st) := by
  induction es generalizing forums st with
  | nil => simpa using h
  | cons e rest ih => simpa using ih (h.joinForum e)

theorem mapEntry_succ (n : Nat) : some ((mapEntry n).getD 0 + 1) = mapEntry (n + 1) := by
  by_cases h : n = 0 <;> simp [mapEntry, h]

theorem countPost_eq (post : G.Post) {st : Counting G} {n : G.Forum → Nat}
    (entries : ∀ forum, st.postCount forum = mapEntry (n forum)) :
    countPost G st post = { st with
      postCount := fun forum => mapEntry (n forum + if st.personForumSet forum = true ∧
        getSingleOutNeighbor G.containerOf.incoming post = some forum then 1 else 0) } := by
  have same : st.postCount = fun forum => mapEntry (n forum) := funext entries
  unfold countPost
  cases getSingleOutNeighbor G.containerOf.incoming post with
  | none => simp [← same]
  | some f =>
    by_cases hset : st.personForumSet f = true
    · have bumped : Function.update st.postCount f (some ((st.postCount f).getD 0 + 1)) =
          fun forum => mapEntry (n forum + if st.personForumSet forum = true ∧
            some f = some forum then 1 else 0) := by
        funext forum
        by_cases hf : forum = f
        · simp [hf, hset, entries, mapEntry_succ]
        · simp [hf, Ne.symm hf, entries]
      simp only [hset, if_true, bumped]
    · have idle : ∀ forum, ¬ (st.personForumSet forum = true ∧ some f = some forum) := by
        rintro forum ⟨hforum, heq⟩
        exact hset (Option.some.inj heq ▸ hforum)
      simp only [hset, Bool.false_eq_true, if_false, idle, Nat.add_zero, ← same]

/-- Only posts in forums that are set in the bitmap count. -/
theorem foldl_countPost (posts : List G.Post) {st : Counting G} {n : G.Forum → Nat}
    (entries : ∀ forum, st.postCount forum = mapEntry (n forum)) :
    posts.foldl (countPost G) st = { st with
      postCount := fun forum => mapEntry (n forum + if st.personForumSet forum = true then
        posts.countP fun post => getSingleOutNeighbor G.containerOf.incoming post = some forum
        else 0) } := by
  induction posts generalizing st n with
  | nil =>
    have same : st.postCount = fun forum => mapEntry (n forum) := funext entries
    simp [← same]
  | cons post rest ih =>
    rw [List.foldl_cons, countPost_eq post entries, ih fun _ => rfl]
    simp only [List.countP_cons]
    congr 1
    funext forum
    congr 1
    by_cases hset : st.personForumSet forum = true
    · simp [hset]
      omega
    · simp [hset]

theorem foldl_clear (forums : List G.Forum) (b : G.Forum → Bool) (forum : G.Forum) :
    forums.foldl (fun b forumVid => Function.update b forumVid false) b forum =
      (b forum && !decide (forum ∈ forums)) := by
  induction forums generalizing b with
  | nil => simp
  | cons f rest ih =>
    rw [List.foldl_cons, ih]
    by_cases hf : forum = f <;> simp [hf]

theorem mem_joined {v : G.Person} {forum : G.Forum} (gt : NbrGt) :
    forum ∈ (gt.order G.hasMember.inEdges v minDate).map Prod.fst ↔
      JoinedAfter minDate v forum := by
  simp only [List.mem_map, (gt.perm _ _ _).mem_iff, List.mem_filter, decide_eq_true_eq]
  constructor
  · rintro ⟨e, ⟨hedge, hdate⟩, rfl⟩
    exact ⟨(v, e.2), (G.hasMember.mem_edges_iff e.1 v e.2).mp hedge, rfl, hdate⟩
  · rintro ⟨⟨w, date⟩, hedge, rfl, hdate⟩
    exact ⟨(forum, date), ⟨(G.hasMember.mem_edges_iff forum w date).mpr hedge, hdate⟩, rfl⟩

theorem sum_postsInForum_snoc (vs : List G.Person) (v : G.Person) (forum : G.Forum) :
    ((vs ++ [v]).map fun v => postsInForum minDate v forum).sum =
      (vs.map fun v => postsInForum minDate v forum).sum + postsInForum minDate v forum := by
  simp

theorem exists_joined_snoc (vs : List G.Person) (v : G.Person) (forum : G.Forum) :
    (∃ w ∈ vs ++ [v], JoinedAfter minDate w forum) ↔
      (∃ w ∈ vs, JoinedAfter minDate w forum) ∨ JoinedAfter minDate v forum := by
  simp [or_and_right, exists_or]

/-- One friend: the forums joined are set, the posts in them counted, the bitmap cleared. -/
theorem Counted.scanFriend (h : Counted minDate vs st) (gt : NbrGt) (v : G.Person) :
    Counted minDate (vs ++ [v]) (scanFriend G gt minDate st v) := by
  let es := gt.order G.hasMember.inEdges v minDate
  have joining := h.joining.foldl es
  rw [List.nil_append] at joining
  have joined : ∀ forum, forum ∈ es.map Prod.fst ↔ JoinedAfter minDate v forum := fun _ =>
    mem_joined gt
  have scan : IC5.scanFriend G gt minDate st v =
      if (es.map Prod.fst).isEmpty then es.foldl (IC5.joinForum G) st
      else clearForums G
        ((G.postHasCreator.incoming v).foldl (countPost G) (es.foldl (IC5.joinForum G) st)) := by
    rw [← joining.personForumList]
    rfl
  rw [scan]
  by_cases hempty : es.map Prod.fst = []
  · have none : ∀ forum, postsInForum minDate v forum = 0 := fun forum =>
      if_neg fun hj => by simpa [hempty] using (joined forum).mpr hj
    rw [hempty] at joining
    rw [hempty, List.isEmpty_nil, if_pos rfl]
    refine ⟨?_, joining.personForumList, joining.accessed, joining.distinct, ?_, ?_⟩
    · intro forum
      rw [← Bool.not_eq_true, joining.personForumSet]
      exact List.not_mem_nil
    · intro forum
      rw [joining.joined, exists_joined_snoc, ← joined, hempty]
    · intro forum
      rw [joining.postCount, sum_postsInForum_snoc, none, Nat.add_zero]
  · rw [if_neg (by simpa using hempty), foldl_countPost _ joining.postCount]
    refine ⟨?_, rfl, joining.accessed, joining.distinct, ?_, ?_⟩
    · intro forum
      have hset := joining.personForumSet forum
      simp only [clearForums, foldl_clear, joining.personForumList]
      by_cases hmem : forum ∈ es.map Prod.fst
      · simp [hmem]
      · simp [Bool.eq_false_of_not_eq_true fun h' => hmem (hset.mp h')]
    · intro forum
      rw [exists_joined_snoc, ← joined]
      exact joining.joined forum
    · intro forum
      rw [sum_postsInForum_snoc]
      change mapEntry (_ + if (es.foldl (IC5.joinForum G) st).personForumSet forum = true then _
        else _) = _
      simp only [joining.personForumSet, joined, postsInForum]

theorem counted_empty : Counted minDate [] (emptyCounting G) :=
  ⟨fun _ => rfl, rfl, by simp [emptyCounting], List.nodup_nil, by simp [emptyCounting], fun _ => rfl⟩

theorem counted_friends (gt : NbrGt) (minDate : DateTime) (vs : List G.Person) :
    Counted minDate vs (vs.foldl (scanFriend G gt minDate) (emptyCounting G)) := by
  induction vs using List.reverseRecOn with
  | nil => exact counted_empty
  | append_singleton vs v ih =>
    rw [List.foldl_append]
    exact ih.scanFriend gt v

end Counting

section Phases
variable {G : Graph}

def forumInfo (forum : G.Forum) (count : Int) : ForumInfo G := ⟨forum, count, G.forumId forum⟩

theorem offerCounted_eq (st : Queue G × (G.Forum → Bool)) (pair : G.Forum × Int) :
    offerCounted G st pair = (st.1.offer kTopN forumBefore (forumInfo pair.1 pair.2),
      Function.update st.2 pair.1 false) := by
  have tests : ∀ (top : ForumInfo G) (accept keep : Queue G × (G.Forum → Bool)),
      (if top.postCount < pair.2 then accept
        else if top.postCount = pair.2 then
          if G.forumId pair.1 < top.forumId then accept else keep
        else keep) =
      if forumBefore (forumInfo pair.1 pair.2) top then accept else keep := by
    intro top accept keep
    refine Eq.trans ?_ ((byPosts G).if_before (forumInfo pair.1 pair.2) top accept keep)
    change _ = if pair.2 > top.postCount then accept else
      if pair.2 = top.postCount ∧ G.forumId pair.1 < top.forumId then accept else keep
    by_cases heq : top.postCount = pair.2
    · simp [heq]
    · simp [heq, Ne.symm heq]
  unfold offerCounted
  by_cases hsize : st.1.size < kTopN
  · simp only [hsize, if_true, PriorityQueue.offer_of_lt hsize]
    rfl
  · obtain ⟨top, htop⟩ :=
      PriorityQueue.exists_top ((Nat.succ_pos 19).trans_le (not_lt.mp hsize))
    simp only [hsize, if_false, htop, PriorityQueue.offer_full hsize htop, tests]
    split <;> rfl

theorem foldl_offerCounted (pairs : List (G.Forum × Int)) (st : Queue G × (G.Forum → Bool)) :
    pairs.foldl (offerCounted G) st =
      ((pairs.map fun pair => forumInfo pair.1 pair.2).foldl
          (PriorityQueue.offer kTopN forumBefore) st.1,
        fun forum => st.2 forum && !decide (forum ∈ pairs.map Prod.fst)) := by
  induction pairs generalizing st with
  | nil => simp
  | cons pair rest ih =>
    rw [List.foldl_cons, ih, offerCounted_eq]
    refine Prod.ext rfl ?_
    funext forum
    simp only [List.map_cons, List.mem_cons]
    by_cases hf : forum = pair.1 <;> simp [hf]

/-- Counts are not negative, and a full queue holds a forum without posts. -/
structure ZeroTop (que : Queue G) : Prop where
  nonneg : ∀ info ∈ que.items, 0 ≤ info.postCount
  zero : ¬ que.size < kTopN → ∃ info ∈ que.items, info.postCount = 0

variable {que : Queue G}

theorem ZeroTop.top (h : ZeroTop que) {top : ForumInfo G} (htop : que.top? = some top)
    (full : ¬ que.size < kTopN) : top.postCount = 0 := by
  obtain ⟨info, hinfo, hzero⟩ := h.zero full
  refine le_antisymm ?_ (h.nonneg top (List.mem_of_getLast? htop))
  rw [← hzero]
  exact (byPosts G).date_le (PriorityQueue.le_top htop hinfo)

theorem ZeroTop.offer (h : ZeroTop que) (forum : G.Forum) :
    ZeroTop (que.offer kTopN forumBefore (forumInfo forum 0)) := by
  obtain ⟨came, only⟩ := PriorityQueue.offer_mem kTopN forumBefore que (forumInfo forum 0)
  constructor
  · intro info hinfo
    rcases only info hinfo with rfl | hold
    · exact le_refl _
    · exact h.nonneg info hold
  · intro full
    rcases came with hmem | ⟨hfull, hsame⟩
    · exact ⟨_, hmem, rfl⟩
    · rw [hsame]
      exact h.zero hfull

theorem offerUncounted_eq {accessed : G.Forum → Bool} (h : ZeroTop que) {forum : G.Forum}
    (todo : accessed forum = true) :
    offerUncounted G (que, accessed) forum = (que.offer kTopN forumBefore (forumInfo forum 0),
      Function.update accessed forum false) := by
  unfold offerUncounted
  by_cases hsize : que.size < kTopN
  · simp only [todo, hsize, if_true, PriorityQueue.offer_of_lt hsize]
    rfl
  · obtain ⟨top, htop⟩ :=
      PriorityQueue.exists_top ((Nat.succ_pos 19).trans_le (not_lt.mp hsize))
    have test : forumBefore (forumInfo forum 0) top = true ↔ G.forumId forum < top.forumId := by
      rw [forumBefore_iff, h.top htop hsize]
      simp [forumInfo]
    simp only [todo, not_true_eq_false, hsize, if_false, htop,
      PriorityQueue.offer_full hsize htop, test]
    split <;> rfl

/-- The second loop offers the forums that are still set, each with the count 0. -/
theorem foldl_offerUncounted (forums : List G.Forum) (distinct : forums.Nodup)
    (accessed : G.Forum → Bool) (h : ZeroTop que) :
    (forums.foldl (offerUncounted G) (que, accessed)).1 =
      ((forums.filter accessed).map fun forum => forumInfo forum 0).foldl
        (PriorityQueue.offer kTopN forumBefore) que := by
  induction forums generalizing que accessed with
  | nil => rfl
  | cons forum rest ih =>
    obtain ⟨hforum, hrest⟩ := List.nodup_cons.mp distinct
    by_cases todo : accessed forum = true
    · have same : rest.filter (Function.update accessed forum false) = rest.filter accessed := by
        refine List.filter_congr fun f hf => ?_
        rw [Function.update_of_ne fun heq : f = forum => hforum (heq ▸ hf)]
      rw [List.foldl_cons, offerUncounted_eq h todo, ih hrest _ (h.offer forum), same,
        List.filter_cons_of_pos todo]
      rfl
    · have skip : offerUncounted G (que, accessed) forum = (que, accessed) := if_pos todo
      rw [List.foldl_cons, skip, ih hrest accessed h, List.filter_cons_of_neg todo]

/-- The forums with posts, in the order of the map. -/
def countedForums (n : G.Forum → Nat) : List (ForumInfo G) :=
  ((List.finRange G.forumNum).filter fun forum => 0 < n forum).map fun forum =>
    forumInfo forum (n forum)

/-- The forums of a list that have no posts. -/
def uncountedForums (n : G.Forum → Nat) (forums : List G.Forum) : List (ForumInfo G) :=
  (forums.filter fun forum => n forum = 0).map fun forum => forumInfo forum 0

theorem mapPairs_eq (n : G.Forum → Nat) :
    mapPairs G (fun forum => mapEntry (n forum)) =
      ((List.finRange G.forumNum).filter fun forum => 0 < n forum).map fun forum =>
        (forum, (n forum : Int)) := by
  rw [mapPairs]
  induction List.finRange G.forumNum with
  | nil => rfl
  | cons forum rest ih =>
    rw [List.filterMap_cons, ih, List.filter_cons]
    by_cases h : n forum = 0
    · simp [mapEntry, h]
    · simp [mapEntry, h, Nat.pos_of_ne_zero h]

theorem mem_queue_countedForums {n : G.Forum → Nat} {info : ForumInfo G}
    (h : info ∈ ((countedForums n).foldl (PriorityQueue.offer kTopN forumBefore)
      (PriorityQueue.empty : Queue G)).items) : 0 < info.postCount := by
  have hmem : info ∈ countedForums n := PriorityQueue.mem_of_mem_foldl_offer h
  obtain ⟨forum, hforum, rfl⟩ := List.mem_map.mp hmem
  have hpos := (List.mem_filter.mp hforum).2
  simpa [forumInfo] using hpos

/-- The two loops together offer all forums, those with posts first. -/
theorem selectForums_eq {st : Counting G} {n : G.Forum → Nat}
    (entries : st.postCount = fun forum => mapEntry (n forum)) (distinct : st.forumList.Nodup)
    (accessed : ∀ forum, st.accessedForumSet forum = true ↔ forum ∈ st.forumList) :
    selectForums G st = (countedForums n ++ uncountedForums n st.forumList).foldl
      (PriorityQueue.offer kTopN forumBefore) .empty := by
  let que := (countedForums n).foldl (PriorityQueue.offer kTopN forumBefore)
    (PriorityQueue.empty : Queue G)
  let left : G.Forum → Bool := fun forum =>
    st.accessedForumSet forum && !decide (0 < n forum)
  have first : (mapPairs G st.postCount).foldl (offerCounted G) (.empty, st.accessedForumSet) =
      (que, left) := by
    rw [foldl_offerCounted, entries, mapPairs_eq]
    refine Prod.ext ?_ ?_
    · rw [List.map_map]
      rfl
    · funext forum
      simp [left]
  have remaining : st.forumList.filter left = st.forumList.filter fun forum => n forum = 0 := by
    refine List.filter_congr fun forum hforum => ?_
    simp [left, (accessed forum).mpr hforum, Nat.pos_iff_ne_zero]
  rw [selectForums, first, List.foldl_append]
  by_cases hsize : que.size < kTopN
  · have zeroTop : ZeroTop que :=
      ⟨fun info h => (mem_queue_countedForums h).le, fun full => absurd hsize full⟩
    rw [if_pos hsize, foldl_offerUncounted _ distinct left zeroTop, remaining]
    rfl
  · obtain ⟨top, htop⟩ :=
      PriorityQueue.exists_top ((Nat.succ_pos 19).trans_le (not_lt.mp hsize))
    have htop0 := mem_queue_countedForums (List.mem_of_getLast? htop)
    rw [if_neg hsize]
    refine (PriorityQueue.foldl_offer_idle hsize htop fun info hinfo => ?_).symm
    obtain ⟨forum, -, rfl⟩ := List.mem_map.mp hinfo
    rw [← Bool.not_eq_true, forumBefore_iff]
    rintro (hlt | ⟨heq, -⟩)
    · exact absurd hlt htop0.not_gt
    · exact absurd heq htop0.ne

end Phases

section Result
variable {G : Graph}

/-- The posts in a forum by authors of the circle who joined that forum after the date. -/
def forumPostCount (root : G.Person) (minDate : DateTime) (forum : G.Forum) : Nat :=
  (Finset.univ.filter fun post => forum ∈ G.containerOf.incoming post ∧
    ∃ v ∈ G.postHasCreator.outgoing post,
      InCircle G.knows root v ∧ JoinedAfter minDate v forum).card

/-- A forum that someone of the circle joined after the date, with the count of its posts. -/
structure JoinedForum (root : G.Person) (minDate : DateTime) (r : ForumInfo G) : Prop where
  joined : ∃ v, InCircle G.knows root v ∧ JoinedAfter minDate v r.forumVid
  postCount : r.postCount = forumPostCount root minDate r.forumVid
  forumId : r.forumId = G.forumId r.forumVid

/-- Each post lies in at most one forum. -/
def OneForum (G : Graph) : Prop :=
  ∀ post, ∀ f ∈ G.containerOf.incoming post, ∀ f' ∈ G.containerOf.incoming post, f = f'

instance (G : Graph) : Decidable (OneForum G) :=
  inferInstanceAs (Decidable
    (∀ post, ∀ f ∈ G.containerOf.incoming post, ∀ f' ∈ G.containerOf.incoming post, f = f'))

theorem OneForum.first_iff (one : OneForum G) {post : G.Post} {forum : G.Forum} :
    getSingleOutNeighbor G.containerOf.incoming post = some forum ↔
      forum ∈ G.containerOf.incoming post := by
  constructor
  · exact List.mem_of_mem_head?
  · intro h
    have hhead := List.head?_eq_some_head (List.ne_nil_of_mem h)
    rw [getSingleOutNeighbor, hhead, one post _ (List.head_mem _) forum h]

/-- What the friends add up to is the count of the posts. -/
theorem sum_postsInForum (posts : G.postHasCreator.AtMostOne) (one : OneForum G)
    (root : G.Person) (minDate : DateTime) (forum : G.Forum) :
    ((oneTwoCalls G.knows root).map fun v => postsInForum minDate v forum).sum =
      forumPostCount root minDate forum := by
  let joinedPosts : G.Person → List G.Post := fun v =>
    if JoinedAfter minDate v forum then G.postHasCreator.incoming v else []
  have distinct : ((oneTwoCalls G.knows root).flatMap joinedPosts).Nodup := by
    refine posts.flatMap_nodup (fun v => ?_) (oneTwoCalls_nodup G.knows root)
    by_cases hj : JoinedAfter minDate v forum
    · simp only [joinedPosts, if_pos hj]
      exact List.Subperm.refl _
    · simp only [joinedPosts, if_neg hj]
      exact List.nil_subperm
  have mem : ∀ post, post ∈ (oneTwoCalls G.knows root).flatMap joinedPosts ↔
      ∃ v ∈ G.postHasCreator.outgoing post, InCircle G.knows root v ∧
        JoinedAfter minDate v forum := by
    intro post
    simp only [List.mem_flatMap, mem_oneTwoCalls, joinedPosts]
    constructor
    · rintro ⟨v, hv, hpost⟩
      split at hpost
      case isTrue hj => exact ⟨v, (G.postHasCreator.mem_incoming post v).mp hpost, hv, hj⟩
      case isFalse => cases hpost
    · rintro ⟨v, hpost, hv, hj⟩
      refine ⟨v, hv, ?_⟩
      rw [if_pos hj]
      exact (G.postHasCreator.mem_incoming post v).mpr hpost
  have counted : ∀ v, postsInForum minDate v forum = (joinedPosts v).countP fun post =>
      getSingleOutNeighbor G.containerOf.incoming post = some forum := by
    intro v
    simp only [postsInForum, joinedPosts]
    split <;> rfl
  simp only [counted]
  refine List.countP_flatMap.symm.trans ?_
  rw [List.countP_eq_length_filter, ← List.toFinset_card_of_nodup (distinct.filter _),
    forumPostCount]
  congr 1
  ext post
  simp only [List.mem_toFinset, List.mem_filter, mem, decide_eq_true_eq, one.first_iff,
    Finset.mem_filter_univ, and_comm]

/-- The forums of both loops are the joined ones, each once. -/
theorem mem_forums {root : G.Person} {minDate : DateTime} {forums : List G.Forum}
    (joined : ∀ forum, forum ∈ forums ↔
      ∃ v, InCircle G.knows root v ∧ JoinedAfter minDate v forum) (r : ForumInfo G) :
    r ∈ countedForums (forumPostCount root minDate) ++
        uncountedForums (forumPostCount root minDate) forums ↔
      JoinedForum root minDate r := by
  have joinedOfPosts : ∀ forum, 0 < forumPostCount root minDate forum →
      ∃ v, InCircle G.knows root v ∧ JoinedAfter minDate v forum := by
    intro forum hpos
    obtain ⟨post, hpost⟩ := Finset.card_pos.mp hpos
    obtain ⟨-, v, -, hv⟩ := (Finset.mem_filter.mp hpost).2
    exact ⟨v, hv⟩
  simp only [countedForums, uncountedForums, List.mem_append, List.mem_map, List.mem_filter,
    List.mem_finRange, true_and, decide_eq_true_eq, joined]
  constructor
  · rintro (⟨forum, hpos, rfl⟩ | ⟨forum, ⟨hjoined, hzero⟩, rfl⟩)
    · exact ⟨joinedOfPosts forum hpos, rfl, rfl⟩
    · exact ⟨hjoined, by simp [forumInfo, hzero], rfl⟩
  · rintro ⟨hjoined, hcount, hid⟩
    by_cases hzero : forumPostCount root minDate r.forumVid = 0
    · refine Or.inr ⟨r.forumVid, ⟨hjoined, hzero⟩, ForumInfo.ext rfl ?_ hid.symm⟩
      rw [hcount, hzero]
      rfl
    · exact Or.inl ⟨r.forumVid, Nat.pos_of_ne_zero hzero,
        ForumInfo.ext rfl hcount.symm hid.symm⟩

theorem forums_ids_nodup (key : Function.Injective G.forumId) (n : G.Forum → Nat)
    {forums : List G.Forum} (distinct : forums.Nodup) :
    ((countedForums n ++ uncountedForums n forums).map ForumInfo.forumId).Nodup := by
  have ids : (countedForums n ++ uncountedForums n forums).map ForumInfo.forumId =
      (((List.finRange G.forumNum).filter fun forum => 0 < n forum) ++
        forums.filter fun forum => n forum = 0).map G.forumId := by
    rw [countedForums, uncountedForums, List.map_append, List.map_append, List.map_map,
      List.map_map]
    rfl
  rw [ids]
  refine List.Nodup.map key (List.Nodup.append ((List.nodup_finRange _).filter _)
    (distinct.filter _) ?_)
  intro forum hpos hzero
  have h := (List.mem_filter.mp hpos).2
  have h' := (List.mem_filter.mp hzero).2
  simp only [decide_eq_true_eq] at h h'
  omega

/-- The rows are the first 20 of the forums joined after the date, those with no posts last. -/
theorem first_joined_forums (gt : NbrGt) (G : Graph) (posts : G.postHasCreator.AtMostOne)
    (one : OneForum G) (key : Function.Injective G.forumId) (root : G.Person)
    (minDate : DateTime) :
    ∃ selected,
      (forumInfoComparer G).Selects kTopN (JoinedForum root minDate) selected ∧
      exec G gt (G.personId root) minDate = selected.map (row G) := by
  have counted := counted_friends gt minDate (oneTwoCalls G.knows root)
  let st := (oneTwoCalls G.knows root).foldl (scanFriend G gt minDate) (emptyCounting G)
  have joined : ∀ forum, forum ∈ st.forumList ↔
      ∃ v, InCircle G.knows root v ∧ JoinedAfter minDate v forum := by
    intro forum
    simp only [st, counted.joined, mem_oneTwoCalls]
  have entries : st.postCount = fun forum => mapEntry (forumPostCount root minDate forum) := by
    funext forum
    rw [← sum_postsInForum posts one]
    exact counted.postCount forum
  have ids := forums_ids_nodup key (forumPostCount root minDate) counted.distinct
  have selects := Comparer.firstN_selects ((byPosts G).separates ids) ids.of_map kTopN
    (mem_forums joined)
  refine ⟨_, selects, ?_⟩
  have friendsList : foreachKnows1d2dNeighbor G.knows root
      (fun friendsList friendVid => friendsList ++ [friendVid]) [] = oneTwoCalls G.knows root := by
    rw [foreachKnows1d2dNeighbor_eq, foldl_append_singleton, List.nil_append]
  rw [exec, getVertexIndex_self G.personKey]
  simp only [friendsList]
  rw [selectForums_eq entries counted.distinct counted.accessed]
  exact congrArg _ (PriorityQueue.drain_foldl_offer (fun _ _ => rfl) _)

theorem clubs_small : 2 ≤ kInvalidVid := by decide

/-- A friend who joined two forums and has two posts in the second. -/
def clubs : Graph :=
  { Graph.numbered 2 2 0 clubs_small (.ofNumbers [(1, 0, ())]) with
    forumNum := 2
    forumId := fun v => v.val
    forumTitle := fun forum => if forum.val = 0 then "Chess" else "Go"
    postHasCreator := .ofNumbers [(0, 1, 5), (1, 1, 6)]
    hasMember := .ofNumbers [(0, 1, 10), (1, 1, 10)]
    containerOf := .ofNumbers [(1, 0, ()), (1, 1, ())] }

theorem clubs_key : ∀ f f' : Fin 2, (f.val : Int) = f'.val → f = f' := by decide

theorem first_joined_forums_clubs :
    ∃ selected, (forumInfoComparer clubs).Selects kTopN (JoinedForum (0 : Fin 2) 9) selected ∧
      exec clubs .stored 0 9 = selected.map (row clubs) :=
  first_joined_forums .stored clubs (by decide) (by decide) clubs_key (0 : Fin 2) 9

example : exec clubs .stored 0 9 = [⟨"Go", 2⟩, ⟨"Chess", 0⟩] := by decide +kernel

end Result

end IC5

end LdbcInteractive
