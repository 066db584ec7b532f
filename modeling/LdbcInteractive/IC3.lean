import LdbcInteractive.FriendCircles
import LdbcInteractive.Selections
import LdbcInteractive.DatedOrders

/-!
# IC3: friends who wrote messages in two countries

Friends who live in neither country are collected first; then their messages in the
window are counted by country, posts and comments together, and those who wrote in both
countries are offered to a priority queue.
-/

namespace LdbcInteractive

open EdgeTables PriorityQueues DatedOrders

namespace IC3

def kTopN : Nat := 20

def kMillisPerDay : Int64 := 24 * 60 * 60 * 1000

@[ext]
structure PersonResult (G : Graph) where
  total : Int
  personVid : G.Person
  personId : Int
  countX : Int
  countY : Int
  deriving DecidableEq

section Queue
variable {G : Graph}

/-- The comparison of `PersonResultComparer`. -/
def personBefore (lhs rhs : PersonResult G) : Bool :=
  if lhs.total > rhs.total then true
  else if lhs.total < rhs.total then false
  else lhs.personId < rhs.personId

theorem personBefore_iff (a b : PersonResult G) :
    personBefore a b = true ↔ b.total < a.total ∨
      a.total = b.total ∧ OrderDual.toDual b.personId < OrderDual.toDual a.personId :=
  dateTest_iff

def personResultComparer (G : Graph) : Comparer (PersonResult G) :=
  datedComparer personBefore PersonResult.total (fun r => OrderDual.toDual r.personId)
    personBefore_iff

def byTotal (G : Graph) : Dated (personResultComparer G) Int Intᵒᵈ :=
  .ofComparer personBefore PersonResult.total (fun r => OrderDual.toDual r.personId)
    personBefore_iff

abbrev Queue (G : Graph) := PriorityQueue (personResultComparer G)

/-- The end of the loop body over the friends. -/
def offerPerson (pq : Queue G) (row : PersonResult G) : Queue G :=
  if pq.size < kTopN then pq.push row
  else match pq.top? with
    | none => pq
    | some worst =>
      if row.total > worst.total then pq.pop.push row
      else if row.total = worst.total ∧ row.personId < worst.personId then pq.pop.push row
      else pq

theorem offerPerson_eq : offerPerson (G := G) = PriorityQueue.offer kTopN personBefore := by
  funext pq row
  refine PriorityQueue.eq_offer (by decide) ?_ ?_
  · intro hsize
    rw [offerPerson, if_pos hsize]
  · intro worst hsize htop
    rw [offerPerson, if_neg hsize, htop]
    exact (byTotal G).if_before row worst _ _

end Queue

section Query
variable (G : Graph)

/-- One loop over all places sets both countries, so that the last place of a name wins. -/
def findCountries (countryXName countryYName : String) : Option G.Place × Option G.Place :=
  (List.finRange G.placeNum).foldl (fun countries placeVid =>
    let name := G.placeName placeVid
    (if name = countryXName then some placeVid else countries.1,
      if name = countryYName then some placeVid else countries.2)) (none, none)

def cityInCountryXOrY (countryX countryY : G.Place) : G.Place → Bool :=
  markAll (markAll (fun _ => false) (G.isPartOf.incoming countryX))
    (G.isPartOf.incoming countryY)

/-- The function that collects the friends. -/
def collectFriend (inCountry : G.Place → Bool) (friends : List G.Person) (friendVid : G.Person) :
    List G.Person :=
  match getSingleOutNeighbor G.personIsLocatedIn.outgoing friendVid with
  | none => friends
  | some cityVid => if inCountry cityVid then friends else friends ++ [friendVid]

/-- The counters `x_count` and `y_count` after one message. -/
def countMessage {P : Type} (locatedIn : CsrView P G.Place) (countryX countryY : G.Place)
    (counts : Int × Int) (e : P × DateTime) : Int × Int :=
  let locate := getSingleOutNeighbor locatedIn e.1
  if locate = some countryX then (counts.1 + 1, counts.2)
  else if locate = some countryY then (counts.1, counts.2 + 1)
  else counts

def scanFriendMessages {P : Type} (lt : NbrLt) (locatedIn : CsrView P G.Place)
    (hasCreatorIn : G.Person → List (P × DateTime)) (friendVid : G.Person)
    (countryX countryY : G.Place) (startDateMs endDateMs : Int64) (counts : Int × Int) :
    Int × Int :=
  foreachIncomingNbrBetweenHalfOpen lt hasCreatorIn friendVid startDateMs endDateMs
    (countMessage G locatedIn countryX countryY) counts

def considerFriend (lt : NbrLt) (countryX countryY : G.Place) (startDateMs endDateMs : Int64)
    (pq : Queue G) (friendVid : G.Person) : Queue G :=
  let counts := scanFriendMessages G lt G.postIsLocatedIn.outgoing G.postHasCreator.inEdges
    friendVid countryX countryY startDateMs endDateMs (0, 0)
  let counts := scanFriendMessages G lt G.commentIsLocatedIn.outgoing
    G.commentHasCreator.inEdges friendVid countryX countryY startDateMs endDateMs counts
  if counts.1 = 0 ∨ counts.2 = 0 then pq
  else offerPerson pq {
    total := counts.1 + counts.2
    personVid := friendVid
    personId := G.personId friendVid
    countX := counts.1
    countY := counts.2 }

structure Row where
  personId : Int
  personFirstName : String
  personLastName : String
  countryXCount : Int
  countryYCount : Int
  totalCount : Int
  deriving DecidableEq

def row (result : PersonResult G) : Row where
  personId := result.personId
  personFirstName := G.firstName result.personVid
  personLastName := G.lastName result.personVid
  countryXCount := result.countX
  countryYCount := result.countY
  totalCount := result.total

/-- The cities of a country are read without a test whether the country was found: `none`
stands for the adjacency list of `kInvalidVid`. -/
def exec (lt : NbrLt) (personId : Int) (countryXName countryYName : String)
    (startDateMs durationDays : Int64) : Option (List Row) :=
  match getVertexIndex G.personId personId with
  | none => some []
  | some root => do
    let countries := findCountries G countryXName countryYName
    let countryX ← countries.1
    let countryY ← countries.2
    let friends := foreachKnows1d2dNeighbor G.knows root
      (collectFriend G (cityInCountryXOrY G countryX countryY)) []
    let endDateMs := startDateMs + durationDays * kMillisPerDay
    let pq := friends.foldl (considerFriend G lt countryX countryY startDateMs endDateMs) .empty
    return pq.drain.reverse.map (row G)

end Query

section Result
variable {G : Graph}

/-- The last place of a name. -/
def lastNamed (G : Graph) (name : String) : Option G.Place :=
  (List.finRange G.placeNum).reverse.find? fun placeVid => G.placeName placeVid = name

theorem foldl_named (name : String) (places : List G.Place) (found : Option G.Place) :
    places.foldl (fun found placeVid =>
        if G.placeName placeVid = name then some placeVid else found) found =
      (places.reverse.find? fun placeVid => G.placeName placeVid = name).or found := by
  induction places generalizing found with
  | nil => rfl
  | cons place rest ih =>
    rw [List.foldl_cons, ih, List.reverse_cons, List.find?_append, Option.or_assoc]
    by_cases named : G.placeName place = name
    · simp [named]
    · simp [named]

/-- The loop over the places, one country at a time. -/
theorem findCountries_eq (nameX nameY : String) :
    findCountries G nameX nameY = (lastNamed G nameX, lastNamed G nameY) := by
  have apart : ∀ (places : List G.Place) (countries : Option G.Place × Option G.Place),
      places.foldl (fun countries placeVid =>
        let name := G.placeName placeVid
        (if name = nameX then some placeVid else countries.1,
          if name = nameY then some placeVid else countries.2)) countries =
      (places.foldl (fun found placeVid =>
          if G.placeName placeVid = nameX then some placeVid else found) countries.1,
        places.foldl (fun found placeVid =>
          if G.placeName placeVid = nameY then some placeVid else found) countries.2) := by
    intro places
    induction places with
    | nil => exact fun _ => rfl
    | cons place rest ih => exact fun _ => ih _
  rw [findCountries, apart, foldl_named, foldl_named, Option.or_none, Option.or_none, lastNamed,
    lastNamed]

theorem placeName_lastNamed {name : String} {place : G.Place}
    (last : lastNamed G name = some place) : G.placeName place = name := by
  simpa using List.find?_some last

/-- A country is found if and only if some place bears its name. -/
theorem lastNamed_isSome (name : String) :
    (lastNamed G name).isSome = true ↔ ∃ place, G.placeName place = name := by
  simp [lastNamed]

theorem cityInCountryXOrY_iff (countryX countryY cityVid : G.Place) :
    cityInCountryXOrY G countryX countryY cityVid = true ↔
      countryX ∈ G.isPartOf.outgoing cityVid ∨ countryY ∈ G.isPartOf.outgoing cityVid := by
  simp [cityInCountryXOrY, markAll_eq, G.isPartOf.mem_incoming]

/-- The friends that are kept have a city, and it is not marked. -/
def livesElsewhere (inCountry : G.Place → Bool) (v : G.Person) : Bool :=
  (getSingleOutNeighbor G.personIsLocatedIn.outgoing v).any fun cityVid => !inCountry cityVid

theorem foldl_collectFriend (inCountry : G.Place → Bool) (vs friends : List G.Person) :
    vs.foldl (collectFriend G inCountry) friends =
      friends ++ vs.filter (livesElsewhere inCountry) := by
  have test : collectFriend G inCountry = fun friends v =>
      if livesElsewhere inCountry v then friends ++ [v] else friends := by
    funext friends v
    unfold collectFriend livesElsewhere
    cases getSingleOutNeighbor G.personIsLocatedIn.outgoing v with
    | none => rfl
    | some cityVid => cases h : inCountry cityVid <;> simp [h]
  rw [test, foldl_append_filter]

section Ranking
variable (lt : NbrLt) (countryX countryY : G.Place) (startDateMs endDateMs : Int64)

/-- The two counters of a friend after both loops. -/
def friendCounts (v : G.Person) : Int × Int :=
  scanFriendMessages G lt G.commentIsLocatedIn.outgoing G.commentHasCreator.inEdges v
    countryX countryY startDateMs endDateMs
    (scanFriendMessages G lt G.postIsLocatedIn.outgoing G.postHasCreator.inEdges v
      countryX countryY startDateMs endDateMs (0, 0))

def friendResult (counts : Int × Int) (v : G.Person) : PersonResult G where
  total := counts.1 + counts.2
  personVid := v
  personId := G.personId v
  countX := counts.1
  countY := counts.2

/-- The entries of the friends with two counters that are not zero. -/
def countedFriends (friends : List G.Person) : List (PersonResult G) :=
  (friends.filter fun v =>
    let counts := friendCounts lt countryX countryY startDateMs endDateMs v
    ¬ (counts.1 = 0 ∨ counts.2 = 0)).map fun v =>
      friendResult (friendCounts lt countryX countryY startDateMs endDateMs v) v

/-- The loop over the friends, on any tables. -/
theorem foldl_considerFriend_eq (friends : List G.Person) (pq : Queue G) :
    friends.foldl (considerFriend G lt countryX countryY startDateMs endDateMs) pq =
      (countedFriends lt countryX countryY startDateMs endDateMs friends).foldl
        (PriorityQueue.offer kTopN personBefore) pq := by
  rw [countedFriends, List.foldl_map, List.foldl_filter]
  congr 1
  funext pq v
  rw [considerFriend, offerPerson_eq]
  change (if (friendCounts lt countryX countryY startDateMs endDateMs v).1 = 0 ∨
    (friendCounts lt countryX countryY startDateMs endDateMs v).2 = 0 then pq else _) = _
  by_cases hnone : (friendCounts lt countryX countryY startDateMs endDateMs v).1 = 0 ∨
      (friendCounts lt countryX countryY startDateMs endDateMs v).2 = 0
  · simp only [hnone, if_true, not_true, decide_false, Bool.false_eq_true, if_false]
  · simp only [hnone, if_false, not_false_eq_true, decide_true, if_true]
    rfl

theorem countedFriends_ids_nodup {friends : List G.Person} (distinct : friends.Nodup) :
    ((countedFriends lt countryX countryY startDateMs endDateMs friends).map
      PersonResult.personId).Nodup := by
  rw [countedFriends, List.map_map]
  exact (distinct.filter _).map G.personKey

end Ranking

section Counts
variable {P : Type} {countryX countryY : G.Place} (different : countryX ≠ countryY)
include different

end Counts

section Contract
variable {countryX countryY : G.Place} (different : countryX ≠ countryY)
  (posts : G.postHasCreator.AtMostOne) (comments : G.commentHasCreator.AtMostOne)
  (postPlaces : G.postIsLocatedIn.AtMostOne) (commentPlaces : G.commentIsLocatedIn.AtMostOne)
include different posts comments postPlaces commentPlaces

end Contract

theorem travels_small : 2 ≤ kInvalidVid := by decide

def travelsPlaceName (place : Fin 3) : String :=
  if place.val = 0 then "Oslo" else if place.val = 1 then "Peru" else "Chad"

/-- A friend from a third country with a post in one country and a comment in the other; a
second comment is dated at the end of the window. -/
def travels : Graph :=
  { Graph.numbered 2 1 2 travels_small (.ofNumbers [(0, 1, ())]) with
    placeNum := 3
    placeName := travelsPlaceName
    personIsLocatedIn := .ofNumbers [(1, 0, ())]
    isPartOf := .ofNumbers []
    organisationIsLocatedIn := .ofNumbers []
    postHasCreator := .ofNumbers [(0, 1, 10)]
    commentHasCreator := .ofNumbers [(0, 1, 20), (1, 1, 86400000)]
    postIsLocatedIn := .ofNumbers [(0, 1, ())]
    commentIsLocatedIn := .ofNumbers [(0, 2, ()), (1, 2, ())] }

example : (exec travels .stored 0 "Peru" "Chad" 0 1).map (List.map Row.totalCount) =
    some [2] := by decide +kernel

theorem exec_isSome (lt : NbrLt) (root : G.Person) (countryXName countryYName : String)
    (startDateMs durationDays : Int64) :
    (exec G lt (G.personId root) countryXName countryYName startDateMs durationDays).isSome =
        true ↔
      (∃ place, G.placeName place = countryXName) ∧ ∃ place, G.placeName place = countryYName := by
  rw [← lastNamed_isSome, ← lastNamed_isSome, exec, getVertexIndex_self G.personKey]
  simp only [findCountries_eq]
  cases lastNamed G countryXName with
  | none => simp
  | some countryX =>
    cases lastNamed G countryYName with
    | none => simp
    | some countryY => simp

/-- The query reads nothing at `kInvalidVid`, and has no rows for an unknown country, exactly if
no country is unknown. -/
theorem known_countries_iff (lt : NbrLt) (G : Graph) (root : G.Person)
    (countryXName countryYName : String) (startDateMs durationDays : Int64) :
    (∃ rows, exec G lt (G.personId root) countryXName countryYName startDateMs durationDays =
        some rows ∧
      ((∀ place, G.placeName place ≠ countryXName) ∨
        (∀ place, G.placeName place ≠ countryYName) → rows = [])) ↔
      (∃ place, G.placeName place = countryXName) ∧ ∃ place, G.placeName place = countryYName := by
  rw [← exec_isSome lt root countryXName countryYName startDateMs durationDays,
    Option.isSome_iff_exists]
  constructor
  · rintro ⟨rows, hrows, -⟩
    exact ⟨rows, hrows⟩
  · rintro ⟨rows, hrows⟩
    refine ⟨rows, hrows, fun unknown => ?_⟩
    have known := (exec_isSome lt root countryXName countryYName startDateMs durationDays).mp
      (Option.isSome_iff_exists.mpr ⟨rows, hrows⟩)
    obtain ⟨⟨placeX, hx⟩, placeY, hy⟩ := known
    rcases unknown with unknown | unknown
    · exact absurd hx (unknown placeX)
    · exact absurd hy (unknown placeY)

/-- The cities of a country that is not there are asked for. -/
theorem unknown_country_read :
    ¬ ∃ rows, exec travels .stored 0 "Peru" "Eire" 0 1 = some rows := by
  rintro ⟨rows, h⟩
  have none : exec travels .stored 0 "Peru" "Eire" 0 1 = none := by decide +kernel
  rw [none] at h
  cases h

end Result

end IC3

end LdbcInteractive
