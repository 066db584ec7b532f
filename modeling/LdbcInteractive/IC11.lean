import LdbcInteractive.FriendCircles
import Mathlib.Data.Prod.Lex
import Mathlib.Data.String.Basic

/-!
# IC11: friends who work in a country

The organisations of the country are scanned with their workers; the friends are a
bitmap. The comparison of the queue is written out a second time as the test against
its top. An organisation with two edges to the country is scanned twice.
-/

namespace LdbcInteractive

open EdgeTables PriorityQueues

namespace IC11

def kTopN : Nat := 10

@[ext]
structure WorkResult (G : Graph) where
  personVid : G.Person
  workFrom : Int
  personId : Int
  companyName : String
  deriving DecidableEq

section Queue
variable {G : Graph}

/-- The comparison of `WorkResultComparer`. -/
def workBefore (lhs rhs : WorkResult G) : Bool :=
  if lhs.workFrom < rhs.workFrom then true
  else if lhs.workFrom > rhs.workFrom then false
  else if lhs.personId < rhs.personId then true
  else if lhs.personId > rhs.personId then false
  else lhs.companyName > rhs.companyName

theorem workBefore_iff (a b : WorkResult G) :
    workBefore a b = true ↔
      toLex (a.workFrom, toLex (a.personId, OrderDual.toDual a.companyName)) <
        toLex (b.workFrom, toLex (b.personId, OrderDual.toDual b.companyName)) := by
  rw [Prod.Lex.toLex_lt_toLex, Prod.Lex.toLex_lt_toLex]
  unfold workBefore
  rcases lt_trichotomy a.workFrom b.workFrom with hw | hw | hw
  · simp [hw]
  · rcases lt_trichotomy a.personId b.personId with hp | hp | hp
    · simp [hw, hp]
    · simp [hw, hp]
    · simp [hw, hp, hp.not_gt, hp.ne']
  · simp [hw, hw.not_gt, hw.ne']

def workResultComparer (G : Graph) : Comparer (WorkResult G) :=
  Comparer.ofKey workBefore
    (fun r => toLex (r.workFrom, toLex (r.personId, OrderDual.toDual r.companyName)))
    workBefore_iff

abbrev Queue (G : Graph) := PriorityQueue (workResultComparer G)

/-- The end of the inner loop body: the order once more, as a test against the top. -/
def offerRow (pq : Queue G) (row : WorkResult G) : Queue G :=
  if pq.size < kTopN then pq.push row
  else match pq.top? with
    | none => pq
    | some top =>
      if row.workFrom < top.workFrom ∨
          row.workFrom = top.workFrom ∧
            (row.personId < top.personId ∨
              row.personId = top.personId ∧ row.companyName > top.companyName) then
        pq.pop.push row
      else pq

theorem offerRow_eq : offerRow (G := G) = PriorityQueue.offer kTopN workBefore := by
  funext pq row
  refine PriorityQueue.eq_offer (by decide) ?_ ?_
  · intro hsize
    rw [offerRow, if_pos hsize]
  · intro top hsize htop
    rw [offerRow, if_neg hsize, htop]
    simp only [workBefore_iff, Prod.Lex.toLex_lt_toLex, OrderDual.toDual_lt_toDual, gt_iff_lt]

end Queue

section Query
variable (G : Graph)

/-- The inner loop body: one WORKAT edge of a company, from the worker's side. -/
def considerWorker (friends : G.Person → Bool) (workFromYear : Int) (companyVid : G.Organisation)
    (pq : Queue G) (worker : G.Person × Int) : Queue G :=
  let personVid := worker.1
  let workFrom := worker.2
  if workFrom ≥ workFromYear then pq
  else if ¬ friends personVid then pq
  else offerRow pq ⟨personVid, workFrom, G.personId personVid, G.organisationName companyVid⟩

def scanCompanies (friends : G.Person → Bool) (workFromYear : Int) (countryVid : G.Place) :
    Queue G :=
  (G.organisationIsLocatedIn.incoming countryVid).foldl (fun pq companyVid =>
    (G.workAt.inEdges companyVid).foldl (considerWorker G friends workFromYear companyVid) pq)
    .empty

structure Row where
  personId : Int
  personFirstName : String
  personLastName : String
  organizationName : String
  organizationWorkFromYear : Int
  deriving DecidableEq

def row (result : WorkResult G) : Row where
  personId := result.personId
  personFirstName := G.firstName result.personVid
  personLastName := G.lastName result.personVid
  organizationName := result.companyName
  organizationWorkFromYear := result.workFrom

def exec (personId : Int) (countryName : String) (workFromYear : Int) : List Row :=
  match getVertexIndex G.personId personId with
  | none => []
  | some root =>
    match findVertexByStringProp G.placeName countryName with
    | none => []
    | some countryVid =>
      let friends := markKnows1d2dNeighbors G.knows root
      (scanCompanies G friends workFromYear countryVid).drain.reverse.map (row G)

end Query

section Result
variable {G : Graph}

/-- The results of the WORKAT edges from a friend to one company. -/
def companyResults (G : Graph) (root : G.Person) (workFromYear : Int)
    (companyVid : G.Organisation) : List (WorkResult G) :=
  ((G.workAt.inEdges companyVid).filter fun e =>
    e.2 < workFromYear ∧ InCircle G.knows root e.1).map fun e =>
      ⟨e.1, e.2, G.personId e.1, G.organisationName companyVid⟩

/-- One result for each pair of a WORKAT edge and an ISLOCATEDIN edge of its company to the
country. -/
def edgePairResults (G : Graph) (root : G.Person) (countryVid : G.Place) (workFromYear : Int) :
    List (WorkResult G) :=
  (List.finRange G.organisationNum).flatMap fun companyVid =>
    (List.replicate ((G.organisationIsLocatedIn.outgoing companyVid).count countryVid)
      companyVid).flatMap (companyResults G root workFromYear)

/-- One result for each WORKAT edge to a company in the country. -/
def edgeResults (G : Graph) (root : G.Person) (countryVid : G.Place) (workFromYear : Int) :
    List (WorkResult G) :=
  ((List.finRange G.organisationNum).filter fun companyVid =>
    countryVid ∈ G.organisationIsLocatedIn.outgoing companyVid).flatMap
      (companyResults G root workFromYear)

theorem foldl_considerWorker (root : G.Person) (workFromYear : Int)
    (companyVid : G.Organisation) (pq : Queue G) :
    (G.workAt.inEdges companyVid).foldl
        (considerWorker G (markKnows1d2dNeighbors G.knows root) workFromYear companyVid) pq =
      (companyResults G root workFromYear companyVid).foldl
        (PriorityQueue.offer kTopN workBefore) pq := by
  rw [companyResults, List.foldl_map, List.foldl_filter]
  congr 1
  funext pq e
  rw [considerWorker, offerRow_eq]
  by_cases hyear : e.2 < workFromYear
  · by_cases hfriend : InCircle G.knows root e.1
    · have hmark := (markKnows1d2dNeighbors_iff G.knows root e.1).mpr hfriend
      simp [hyear, not_le.mpr hyear, hfriend, hmark]
    · have hmark : ¬ markKnows1d2dNeighbors G.knows root e.1 = true := fun h =>
        hfriend ((markKnows1d2dNeighbors_iff G.knows root e.1).mp h)
      simp [hfriend, hmark]
  · simp [hyear, not_lt.mp hyear]

theorem scanCompanies_eq (root : G.Person) (workFromYear : Int) (countryVid : G.Place) :
    scanCompanies G (markKnows1d2dNeighbors G.knows root) workFromYear countryVid =
      ((G.organisationIsLocatedIn.incoming countryVid).flatMap
        (companyResults G root workFromYear)).foldl (PriorityQueue.offer kTopN workBefore)
          .empty := by
  rw [List.foldl_flatMap, scanCompanies]
  simp only [foldl_considerWorker]

/-- The companies that the scan meets, brought into the order of their numbers. -/
theorem scanned_perm (root : G.Person) (countryVid : G.Place) (workFromYear : Int) :
    ((G.organisationIsLocatedIn.incoming countryVid).flatMap
      (companyResults G root workFromYear)).Perm
        (edgePairResults G root countryVid workFromYear) := by
  rw [edgePairResults, ← List.flatMap_assoc]
  exact (G.organisationIsLocatedIn.incoming_perm countryVid (List.nodup_finRange _)
    List.mem_finRange).flatMap_right _

/-- Results that the comparison does not tell apart are equal. -/
theorem separates_results (root : G.Person) (countryVid : G.Place) (workFromYear : Int) :
    (workResultComparer G).Separates (edgePairResults G root countryVid workFromYear) := by
  have person : ∀ r ∈ edgePairResults G root countryVid workFromYear,
      r.personId = G.personId r.personVid := by
    simp only [edgePairResults, companyResults, List.mem_flatMap, List.mem_map]
    rintro r ⟨_, -, _, -, e, -, rfl⟩
    rfl
  refine Comparer.ofKey_separates _ fun a ha b hb hkey => ?_
  obtain ⟨hwork, hrest⟩ := Prod.mk.inj hkey
  obtain ⟨hid, hname⟩ := Prod.mk.inj hrest
  have hvid : a.personVid = b.personVid := by
    apply G.personKey
    rw [← person a ha, ← person b hb, hid]
  exact WorkResult.ext hvid hwork hid hname

/-- With one edge at most from a company to the country the pairs are the WORKAT edges. -/
theorem edgePairResults_eq (root : G.Person) (countryVid : G.Place) (workFromYear : Int)
    (single : ∀ companyVid,
      (G.organisationIsLocatedIn.outgoing companyVid).count countryVid ≤ 1) :
    edgePairResults G root countryVid workFromYear =
      edgeResults G root countryVid workFromYear := by
  have located : ∀ companyVid, List.replicate
      ((G.organisationIsLocatedIn.outgoing companyVid).count countryVid) companyVid =
        if countryVid ∈ G.organisationIsLocatedIn.outgoing companyVid then [companyVid]
        else [] := by
    intro companyVid
    by_cases hmem : countryVid ∈ G.organisationIsLocatedIn.outgoing companyVid
    · have hcount : (G.organisationIsLocatedIn.outgoing companyVid).count countryVid = 1 :=
        le_antisymm (single companyVid) (List.count_pos_iff.mpr hmem)
      rw [if_pos hmem, hcount]
      rfl
    · rw [if_neg hmem, List.count_eq_zero_of_not_mem hmem]
      rfl
  rw [edgePairResults, edgeResults]
  generalize List.finRange G.organisationNum = companies
  induction companies with
  | nil => rfl
  | cons companyVid rest ih =>
    rw [List.flatMap_cons, ih, located, List.filter_cons]
    split <;> simp_all

/-- The rows are the first 10 of the results for all pairs of edges; these are the WORKAT
edges themselves where no company has two edges to the country. -/
theorem first_edge_pairs (G : Graph) (root : G.Person) (countryName : String)
    (countryVid : G.Place) (named : G.placeName countryVid = countryName)
    (first : ∀ place < countryVid, G.placeName place ≠ countryName) (workFromYear : Int) :
    exec G (G.personId root) countryName workFromYear =
        ((workResultComparer G).firstN kTopN
          (edgePairResults G root countryVid workFromYear)).map (row G) ∧
      ((∀ companyVid,
          (G.organisationIsLocatedIn.outgoing companyVid).count countryVid ≤ 1) →
        edgePairResults G root countryVid workFromYear =
          edgeResults G root countryVid workFromYear) := by
  constructor
  · rw [exec, getVertexIndex_self G.personKey]
    simp only [findVertexByStringProp_eq_some named first, scanCompanies_eq]
    exact congrArg _ (PriorityQueue.drain_foldl_offer_perm (fun _ _ => rfl)
      (separates_results root countryVid workFromYear)
      (scanned_perm root countryVid workFromYear))
  · exact edgePairResults_eq root countryVid workFromYear

theorem doubleLocation_small : 2 ≤ kInvalidVid := by decide

/-- A friend with one job, in a company with two edges to its country. -/
def doubleLocation : Graph :=
  { Graph.numbered 2 0 0 doubleLocation_small (.ofNumbers [(0, 1, ())]) with
    placeNum := 1
    placeName := fun _ => "Malta"
    organisationNum := 1
    organisationName := fun _ => "Air"
    workAt := .ofNumbers [(1, 0, 2000)]
    organisationIsLocatedIn := .ofNumbers [(0, 0, ()), (0, 0, ())]
    studyAt := .ofNumbers []
    personIsLocatedIn := .ofNumbers []
    isPartOf := .ofNumbers []
    postIsLocatedIn := .ofNumbers []
    commentIsLocatedIn := .ofNumbers [] }

theorem first_edge_pairs_double_location :
    exec doubleLocation 0 "Malta" 2010 =
        ((workResultComparer doubleLocation).firstN kTopN
          (edgePairResults doubleLocation (0 : Fin 2) (0 : Fin 1) 2010)).map
            (row doubleLocation) ∧
      ((∀ companyVid,
          (doubleLocation.organisationIsLocatedIn.outgoing companyVid).count (0 : Fin 1) ≤ 1) →
        edgePairResults doubleLocation (0 : Fin 2) (0 : Fin 1) 2010 =
          edgeResults doubleLocation (0 : Fin 2) (0 : Fin 1) 2010) :=
  first_edge_pairs doubleLocation (0 : Fin 2) "Malta" (0 : Fin 1) rfl (by decide) 2010

/-- The one WORKAT edge gives two rows. -/
theorem work_edge_doubled :
    (exec doubleLocation 0 "Malta" 2010).length = 2 ∧
    exec doubleLocation 0 "Malta" 2010 ≠
      ((workResultComparer doubleLocation).firstN kTopN
        (edgeResults doubleLocation (0 : Fin 2) (0 : Fin 1) 2010)).map (row doubleLocation) := by
  decide +kernel

end Result

end IC11

end LdbcInteractive
