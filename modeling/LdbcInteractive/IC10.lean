import LdbcInteractive.FriendCircles
import LdbcInteractive.PartialLoops
import LdbcInteractive.Selections
import LdbcInteractive.CachedTops

/-!
# IC10: friends of friends of one zodiac month, by their interests

The first 10 candidates are scored in full. A later one is given up when the posts that
are left cannot bring its score up to the cached score of the heap's top; the score that
is compared then is a part of the true one.
-/

namespace LdbcInteractive

open EdgeTables GraphDistance FirstVisits PartialLoops PriorityQueues DatedOrders

namespace IC10

def kTopN : Nat := 10

@[ext]
structure PersonResult (G : Graph) where
  score : Int
  personVid : G.Person
  personId : Int
  deriving DecidableEq

section Queue
variable {G : Graph}

/-- The comparison of `PersonResultComparer`. -/
def personBefore (lhs rhs : PersonResult G) : Bool :=
  if lhs.score > rhs.score then true
  else if lhs.score < rhs.score then false
  else lhs.personId < rhs.personId

theorem personBefore_iff (a b : PersonResult G) :
    personBefore a b = true ↔ b.score < a.score ∨
      a.score = b.score ∧ OrderDual.toDual b.personId < OrderDual.toDual a.personId :=
  dateTest_iff

def personResultComparer (G : Graph) : Comparer (PersonResult G) :=
  datedComparer personBefore PersonResult.score (fun r => OrderDual.toDual r.personId)
    personBefore_iff

def byScore (G : Graph) : Dated (personResultComparer G) Int Intᵒᵈ :=
  .ofComparer personBefore PersonResult.score (fun r => OrderDual.toDual r.personId)
    personBefore_iff

abbrev Queue (G : Graph) := PriorityQueue (personResultComparer G)

end Queue

/-- From the 21st of a month to the 21st of the next one. -/
def matchesZodiacMonth (birthday : Date) (month : Int) : Bool :=
  let thisMonth := month
  let nextMonth := if month = 12 then 1 else month + 1
  ((birthday.month : Int) = thisMonth && decide (birthday.day ≥ 21)) ||
    ((birthday.month : Int) = nextMonth && decide (birthday.day < 22))

section Query
variable (G : Graph) (hasInterests : G.Tag → Bool)

/-- A post with an interesting tag counts 1, any other one -1. -/
def postDiff (postVid : G.Post) : Int :=
  if (G.postHasTag.outgoing postVid).any hasInterests then 1 else -1

def scoreFriendPosts (friendVid : G.Person) : Int :=
  (G.postHasCreator.incoming friendVid).foldl
    (fun score postVid => score + postDiff G hasInterests postVid) 0

/-- The loop over the posts with its early break; `remaining` counts the posts left. -/
def scorePosts (minScore : Int) : Int → Nat → List G.Post → Int
  | score, _, [] => score
  | score, remaining, postVid :: rest =>
    if score + remaining < minScore then score
    else scorePosts minScore (score + postDiff G hasInterests postVid) (remaining - 1) rest

/-- The heap with the cached score `min_score`. -/
structure Scan where
  pq : Queue G
  minScore : Int

/-- `min_score = pq.top().score`. -/
def cacheTop (pq : Queue G) (minScore : Int) : Scan G :=
  ⟨pq, (pq.top?.map PersonResult.score).getD minScore⟩

def pushFriend (pq : Queue G) (v : G.Person) : Queue G :=
  pq.push ⟨scoreFriendPosts G hasInterests v, v, G.personId v⟩

/-- The end of the body of the second loop. -/
def offerPerson (st : Scan G) (result : PersonResult G) : Scan G :=
  if st.pq.size < kTopN then cacheTop G (st.pq.push result) st.minScore
  else if result.score > st.minScore then cacheTop G (st.pq.pop.push result) st.minScore
  else if result.score = st.minScore then
    match st.pq.top? with
    | none => st
    | some top =>
      if result.personId < top.personId then { st with pq := st.pq.pop.push result } else st
  else st

/-- The body of the second loop over the friends. -/
def considerFriend (st : Scan G) (v : G.Person) : Scan G :=
  let posts := G.postHasCreator.incoming v
  let score := scorePosts G hasInterests st.minScore 0 posts.length posts
  offerPerson G st ⟨score, v, G.personId v⟩

/-- Both loops: the first 10 friends, then the others. -/
def selectFriends (friends : List G.Person) : Scan G :=
  let pq := (friends.take 10).foldl (pushFriend G hasInterests) .empty
  (friends.drop 10).foldl (considerFriend G hasInterests) (cacheTop G pq 0)

structure Row where
  personId : Int
  personFirstName : String
  personLastName : String
  score : Int
  personGender : String
  cityName : String
  deriving DecidableEq

/-- A row, or `none` where the name of an absent city would be read. -/
def row (result : PersonResult G) : Option Row := do
  let v := result.personVid
  let placeVid ← getSingleOutNeighbor G.personIsLocatedIn.outgoing v
  return {
    personId := result.personId
    personFirstName := G.firstName v
    personLastName := G.lastName v
    score := result.score
    personGender := G.gender v
    cityName := G.placeName placeVid }

def interestsOf (root : G.Person) : G.Tag → Bool :=
  markAll (fun _ => false) (G.hasInterest.outgoing root)

/-- The vector `results`, the last row first. -/
def results (root : G.Person) (month : Int) : List (PersonResult G) :=
  let friends := foreachKnows2dNeighbor G.knows root (fun friends v =>
    if matchesZodiacMonth (G.birthday v) month then friends ++ [v] else friends) []
  (selectFriends G (interestsOf G root) friends).pq.drain

def exec (personId month : Int) : Option (List Row) :=
  match getVertexIndex G.personId personId with
  | none => some []
  | some root => (results G root month).reverse.mapM (row G)

end Query

section Pruning
variable {G : Graph} {hasInterests : G.Tag → Bool}

/-- The score of a list of posts lies within its length. -/
theorem sum_postDiff_le (hasInterests : G.Tag → Bool) (posts : List G.Post) :
    (posts.map (postDiff G hasInterests)).sum ≤ posts.length := by
  induction posts with
  | nil => simp
  | cons post rest ih =>
    have hdiff : postDiff G hasInterests post ≤ 1 := by
      unfold postDiff
      split <;> omega
    rw [List.map_cons, List.sum_cons, List.length_cons]
    push_cast
    omega

/-- The loop ends with the full score, or gives up a score below the cached one. -/
theorem scorePosts_spec (hasInterests : G.Tag → Bool) (minScore score : Int) (posts : List G.Post) :
    let full := score + (posts.map (postDiff G hasInterests)).sum
    scorePosts G hasInterests minScore score posts.length posts = full ∨
      scorePosts G hasInterests minScore score posts.length posts < minScore ∧
        full < minScore := by
  induction posts generalizing score with
  | nil => exact Or.inl (by simp [scorePosts])
  | cons post rest ih =>
    intro full
    rw [scorePosts]
    by_cases hbreak : score + ((post :: rest).length : Int) < minScore
    · rw [if_pos hbreak]
      have hbound := sum_postDiff_le hasInterests (post :: rest)
      exact Or.inr ⟨by omega, by omega⟩
    · rw [if_neg hbreak]
      have hrest := ih (score + postDiff G hasInterests post)
      have hfull : score + postDiff G hasInterests post +
          (rest.map (postDiff G hasInterests)).sum = full := by
        simp only [full, List.map_cons, List.sum_cons]
        omega
      rw [hfull] at hrest
      exact hrest

theorem scoreFriendPosts_eq (v : G.Person) :
    scoreFriendPosts G hasInterests v =
      ((G.postHasCreator.incoming v).map (postDiff G hasInterests)).sum := by
  rw [scoreFriendPosts, List.sum_eq_foldl, List.foldl_map]

def candidate (hasInterests : G.Tag → Bool) (v : G.Person) : PersonResult G :=
  ⟨scoreFriendPosts G hasInterests v, v, G.personId v⟩

/-- The full heap after a friend is the one that the full score is offered to. -/
theorem considerFriend_eq (hasInterests : G.Tag → Bool) {st : Scan G} (full : ¬ st.pq.size < kTopN)
    (caches : (byScore G).Caches kTopN st.pq st.minScore) (v : G.Person) :
    (considerFriend G hasInterests st v).pq =
        st.pq.offer kTopN personBefore (candidate hasInterests v) ∧
      (byScore G).Caches kTopN (considerFriend G hasInterests st v).pq
        (considerFriend G hasInterests st v).minScore := by
  have spec := scorePosts_spec hasInterests st.minScore 0
    (G.postHasCreator.incoming v)
  rw [zero_add, ← scoreFriendPosts_eq] at spec
  rw [considerFriend]
  generalize scorePosts G hasInterests st.minScore 0 (G.postHasCreator.incoming v).length
    (G.postHasCreator.incoming v) = score at spec ⊢
  rw [offerPerson, if_neg full]
  refine caches.consider (by decide) full ?_ ?_ ?_
  · intro older
    have hscore : score < st.minScore := by
      rcases spec with rfl | ⟨hpart, -⟩
      · exact older
      · exact hpart
    rw [if_neg hscore.not_gt, if_neg hscore.ne]
    exact ⟨rfl, rfl⟩
  · intro worst htop tie
    obtain rfl : score = scoreFriendPosts G hasInterests v :=
      spec.resolve_right fun h => h.2.ne tie
    have hscore : scoreFriendPosts G hasInterests v = st.minScore := tie
    rw [if_neg hscore.not_gt, if_pos hscore, htop]
    exact Dated.ite_scan Scan.pq Scan.minScore rfl rfl
  · intro newer
    obtain rfl : score = scoreFriendPosts G hasInterests v :=
      spec.resolve_right fun h => h.2.not_gt newer
    have hscore : scoreFriendPosts G hasInterests v > st.minScore := newer
    rw [if_pos hscore]
    exact ⟨rfl, rfl⟩

/-- All friends are offered with their full scores. -/
theorem foldl_considerFriend (friends : List G.Person) {st : Scan G}
    (full : ¬ st.pq.size < kTopN)
    (caches : (byScore G).Caches kTopN st.pq st.minScore) :
    (friends.foldl (considerFriend G hasInterests) st).pq =
      (friends.map (candidate hasInterests)).foldl (PriorityQueue.offer kTopN personBefore)
        st.pq := by
  induction friends generalizing st with
  | nil => rfl
  | cons v rest ih =>
    obtain ⟨hpq, hcaches⟩ := considerFriend_eq hasInterests full caches v
    have hfull : ¬ (considerFriend G hasInterests st v).pq.size < kTopN := by
      rwa [hpq, PriorityQueue.size_offer_full personBefore full]
    rw [List.foldl_cons, ih hfull hcaches, hpq]
    rfl

theorem selectFriends_eq (friends : List G.Person) :
    (selectFriends G hasInterests friends).pq =
      (friends.map (candidate hasInterests)).foldl (PriorityQueue.offer kTopN personBefore)
        .empty := by
  have pushed : (friends.take 10).foldl (pushFriend G hasInterests) (.empty : Queue G) =
      ((friends.take 10).map (candidate hasInterests)).foldl
        (PriorityQueue.offer kTopN personBefore) .empty := by
    rw [← PriorityQueue.foldl_push personBefore, List.foldl_map]
    · rfl
    · have hlen : (friends.take 10).length ≤ 10 := List.length_take_le _ _
      rw [List.length_map]
      exact (Nat.zero_add _).trans_le hlen
  have split : friends.map (candidate hasInterests) =
      (friends.take 10).map (candidate hasInterests) ++
        (friends.drop 10).map (candidate hasInterests) := by
    rw [← List.map_append, List.take_append_drop]
  rw [selectFriends, pushed, split, List.foldl_append]
  rcases Nat.lt_or_ge friends.length 10 with hshort | hlong
  · rw [List.drop_eq_nil_of_le hshort.le]
    rfl
  · refine foldl_considerFriend _ ?_ (byScore G).caches_top
    have hsize : (((friends.take 10).map (candidate hasInterests)).foldl
        (PriorityQueue.offer kTopN personBefore) (PriorityQueue.empty : Queue G)).size = 10 := by
      rw [PriorityQueue.size, PriorityQueue.foldl_offer_of_length_le,
        (Comparer.ranked_perm _ _).length_eq]
      · simpa using hlong
      · simp [kTopN]
    exact not_lt.mpr hsize.ge

end Pruning

section Result
variable {G : Graph}

/-- The post has a tag that the root is interested in. -/
def Interesting (root : G.Person) (post : G.Post) : Prop :=
  ∃ tag ∈ G.postHasTag.outgoing post, tag ∈ G.hasInterest.outgoing root

instance (root : G.Person) (post : G.Post) : Decidable (Interesting root post) :=
  inferInstanceAs (Decidable (∃ tag ∈ G.postHasTag.outgoing post, _))

/-- The interesting posts of a person less the other ones. -/
def interestScore (root v : G.Person) : Int :=
  (Finset.univ.filter fun post =>
      v ∈ G.postHasCreator.outgoing post ∧ Interesting root post).card -
    (Finset.univ.filter fun post =>
      v ∈ G.postHasCreator.outgoing post ∧ ¬ Interesting root post).card

/-- A person at distance 2 born in the month of the sign, with the score. -/
structure ZodiacFriend (root : G.Person) (month : Int) (r : PersonResult G) : Prop where
  distance : Layer (undirected G.knows) root 2 r.personVid
  birthday : matchesZodiacMonth (G.birthday r.personVid) month = true
  score : r.score = interestScore root r.personVid
  personId : r.personId = G.personId r.personVid

theorem postDiff_eq (root : G.Person) (post : G.Post) :
    postDiff G (interestsOf G root) post = if Interesting root post then 1 else -1 := by
  have test : (G.postHasTag.outgoing post).any (interestsOf G root) = true ↔
      Interesting root post := by
    simp [interestsOf, markAll_eq, Interesting]
  simp only [postDiff, test]

theorem scoreFriendPosts_interest (posts : G.postHasCreator.AtMostOne) (root v : G.Person) :
    scoreFriendPosts G (interestsOf G root) v = interestScore root v := by
  have split : ∀ ps : List G.Post, (ps.map (postDiff G (interestsOf G root))).sum =
      (ps.countP fun post => Interesting root post : Int) -
        ps.countP fun post => ¬ Interesting root post := by
    intro ps
    induction ps with
    | nil => rfl
    | cons post rest ih =>
      rw [List.map_cons, List.sum_cons, ih, postDiff_eq, List.countP_cons, List.countP_cons]
      by_cases h : Interesting root post
      · simp [h]
        omega
      · simp [h]
        omega
  rw [scoreFriendPosts_eq, split, posts.countP_incoming, posts.countP_incoming, interestScore]
  simp only [decide_eq_true_eq]

theorem row_reads (r : PersonResult G) (found : Row) (read : row G r = some found) :
    (found.personId, found.score) = (r.personId, r.score) := by
  simp only [row, Option.bind_eq_bind, Option.bind_eq_some_iff] at read
  obtain ⟨_, -, read⟩ := read
  obtain rfl := Option.some.inj read
  rfl

theorem row_isSome (r : PersonResult G) :
    (row G r).isSome = true ↔
      getSingleOutNeighbor G.personIsLocatedIn.outgoing r.personVid ≠ none := by
  rw [row]
  cases getSingleOutNeighbor G.personIsLocatedIn.outgoing r.personVid <;> simp

/-- The pushes of both loops, on any table. -/
theorem results_eq (root : G.Person) (month : Int) :
    (results G root month).reverse = (personResultComparer G).firstN kTopN
      (((twoCalls G.knows root).filter fun v => matchesZodiacMonth (G.birthday v) month).map
        (candidate (interestsOf G root))) := by
  simp only [results, foreachKnows2dNeighbor_eq, foldl_append_filter, List.nil_append,
    selectFriends_eq]
  exact PriorityQueue.drain_foldl_offer (fun _ _ => rfl) _

theorem exec_eq (root : G.Person) (month : Int) :
    exec G (G.personId root) month = (results G root month).reverse.mapM (row G) := by
  rw [exec, getVertexIndex_self G.personKey]

/-- The results are the first 10 friends of friends of the sign, each with the full score; the
posts that the early break leaves out change neither. They are returned in this order exactly
if each of them has the city that its row shows. -/
theorem first_zodiac_friends (G : Graph) (posts : G.postHasCreator.AtMostOne) (root : G.Person)
    (month : Int) :
    ∃ selected,
      (personResultComparer G).Selects kTopN (ZodiacFriend root month) selected ∧
      (results G root month).reverse = selected ∧
      exec G (G.personId root) month = selected.mapM (row G) ∧
      ((∃ rows, exec G (G.personId root) month = some rows ∧
          rows.map (fun r => (r.personId, r.score)) =
            selected.map fun r => (r.personId, r.score)) ↔
        ∀ r ∈ selected, getSingleOutNeighbor G.personIsLocatedIn.outgoing r.personVid ≠ none) := by
  let friends := (twoCalls G.knows root).filter fun v => matchesZodiacMonth (G.birthday v) month
  have distinct : friends.Nodup := (fresh_nodup _ _).filter _
  have ids : ((friends.map (candidate (interestsOf G root))).map PersonResult.personId).Nodup := by
    rw [List.map_map]
    exact distinct.map G.personKey
  have mem : ∀ r, r ∈ friends.map (candidate (interestsOf G root)) ↔
      ZodiacFriend root month r := by
    intro r
    simp only [friends, List.mem_map, List.mem_filter, mem_twoCalls]
    constructor
    · rintro ⟨v, ⟨distance, birthday⟩, rfl⟩
      exact ⟨distance, birthday, scoreFriendPosts_interest posts root v, rfl⟩
    · rintro ⟨distance, birthday, score, personId⟩
      refine ⟨r.personVid, ⟨distance, birthday⟩, PersonResult.ext ?_ rfl personId.symm⟩
      exact (scoreFriendPosts_interest posts root _).trans score.symm
  have selects := Comparer.firstN_selects ((byScore G).separates ids) ids.of_map kTopN mem
  have selected := results_eq root month
  refine ⟨_, selects, selected, selected ▸ exec_eq root month, ?_⟩
  rw [exec_eq, selected]
  constructor
  · rintro ⟨rows, through, -⟩ r hr
    have each := (mapM_isSome _ _).mp (Option.isSome_iff_exists.mpr ⟨rows, through⟩)
    exact (row_isSome r).mp (each r hr)
  · intro located
    obtain ⟨rows, through⟩ := Option.isSome_iff_exists.mp
      ((mapM_isSome (row G) _).mpr fun r hr => (row_isSome r).mpr (located r hr))
    exact ⟨rows, through, map_key_of_mapM row_reads through⟩

theorem stars_small : 13 ≤ kInvalidVid := by decide

/-- Eleven friends of one friend, all born on one day; the last one has two posts, one of them
with a tag of interest. -/
def stars : Graph :=
  { Graph.numbered 13 2 0 stars_small
      (.ofNumbers ((0, 1, ()) :: (List.range 11).map fun v => (1, v + 2, ()))) with
    tagNum := 1
    tagName := fun _ => "Plato"
    birthday := fun _ => ⟨1990, 5, 30⟩
    placeNum := 1
    placeName := fun _ => "Athens"
    personIsLocatedIn := .ofNumbers ((List.range 13).map fun v => (v, 0, ()))
    hasInterest := .ofNumbers [(0, 0, ())]
    postHasCreator := .ofNumbers [(0, 12, 1), (1, 12, 2)]
    postHasTag := .ofNumbers [(0, 0, ())]
    hasType := .ofNumbers []
    isPartOf := .ofNumbers []
    organisationIsLocatedIn := .ofNumbers []
    postIsLocatedIn := .ofNumbers []
    commentIsLocatedIn := .ofNumbers [] }

theorem first_zodiac_friends_stars :
    ∃ selected,
      (personResultComparer stars).Selects kTopN (ZodiacFriend (0 : Fin 13) 5) selected ∧
      (results stars (0 : Fin 13) 5).reverse = selected ∧
      exec stars 0 5 = selected.mapM (row stars) ∧
      ∃ rows, exec stars 0 5 = some rows ∧
        rows.map (fun r => (r.personId, r.score)) =
          selected.map fun r => (r.personId, r.score) := by
  obtain ⟨selected, selects, read, rows, returned⟩ :=
    first_zodiac_friends stars (by decide +kernel) (0 : Fin 13) 5
  have located : ∀ r ∈ (results stars (0 : Fin 13) 5).reverse,
      getSingleOutNeighbor stars.personIsLocatedIn.outgoing r.personVid ≠ none := by
    decide +kernel
  exact ⟨selected, selects, read, rows, returned.mpr (read ▸ located)⟩

example : (exec stars 0 5).map (List.map Row.personId) =
    some [2, 3, 4, 5, 6, 7, 8, 9, 10, 11] := by decide +kernel

end Result

end IC10

end LdbcInteractive
