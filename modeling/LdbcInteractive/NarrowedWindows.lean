import LdbcInteractive.Cutoffs
import LdbcInteractive.LoadOrders
import LdbcInteractive.MessageLookups

/-!
# Windows that reach less far

A client that has the rows of IC2 or IC9 up to one date, or those of IC11 before one year,
and asks for less: the rows of the smaller window begin with what is left of the old rows,
and for IC11, whose order starts with the year, there is nothing new among them.
-/

namespace LdbcInteractive

open EdgeTables PriorityQueues DatedOrders

section Messages
variable {G : Graph}

theorem windowOf_narrowed {P : Type} (view : G.Person → List (P × DateTime))
    (vertex : P → G.Message) (messageIdCol : P → Int) {threshold threshold' : DateTime}
    (less : threshold ≤ threshold') (friendVid : G.Person) :
    (windowOf .stored view vertex messageIdCol threshold' friendVid).filter
        (fun m => m.creationDateMs < threshold) =
      windowOf .stored view vertex messageIdCol threshold friendVid := by
  simp only [windowOf, NbrLt.stored, List.filter_map, List.filter_filter]
  congr 1
  refine List.filter_congr fun e _ => ?_
  by_cases early : e.2 < threshold
  · simp [edgeInfo, early, early.trans_le less]
  · simp [edgeInfo, early]

/-- The messages of the smaller window, in any order of the scan. -/
theorem messages_narrowed (lt lt' : NbrLt) {threshold threshold' : DateTime}
    (less : threshold ≤ threshold') (friends : List G.Person) :
    ((friends.flatMap (friendMessages lt' G threshold')).filter
        fun m => m.creationDateMs < threshold).Perm
      (friends.flatMap (friendMessages lt G threshold)) := by
  rw [List.filter_flatMap]
  refine List.Perm.flatMap_left friends fun v _ => ?_
  refine ((friendMessages_perm lt' .stored threshold' v).filter _).trans ?_
  refine List.Perm.trans (List.Perm.of_eq ?_) (friendMessages_perm .stored lt threshold v)
  simp only [friendMessages, List.filter_append, windowOf_narrowed _ _ _ less]

end Messages

/-- `rows` begins with what the condition leaves of the first `n` rows that were there before,
and is no more than that where these were all. -/
structure CutDown {α : Type} (n : Nat) (keep : α → Bool) (before rows : List α) : Prop where
  begins : before.filter keep <+: rows
  whole : before.length < n → rows = before.filter keep

section Rows
variable {G : Graph}

theorem messages_cutDown (contract : LookupContract G) (lt lt' : NbrLt)
    {maxDateMs maxDateMs' : Int64} (earlier : maxDateMs ≤ maxDateMs')
    (below : maxDateMs' < Int64.maxValue) (friends : List G.Person) (n : Nat) :
    CutDown n (fun row => row.messageCreationDate ≤ maxDateMs.toInt)
      (((messageInfoComparer G.Message G.Person).firstN n
        (friends.flatMap (friendMessages lt' G (maxDateMs' + 1).toInt))).map (messageRow G))
      (((messageInfoComparer G.Message G.Person).firstN n
        (friends.flatMap (friendMessages lt G (maxDateMs + 1).toInt))).map (messageRow G)) := by
  have next : (maxDateMs + 1).toInt = maxDateMs.toInt + 1 :=
    toInt_add_one (Int64.lt_of_le_of_lt earlier below)
  have less : (maxDateMs + 1).toInt ≤ (maxDateMs' + 1).toInt := by
    rw [next, toInt_add_one below]
    exact Int.add_le_add_right (Int64.le_iff_toInt_le.mp earlier) 1
  have test : ∀ m : G.Info, decide ((messageRow G m).messageCreationDate ≤ maxDateMs.toInt) =
      decide (m.creationDateMs < (maxDateMs + 1).toInt) := by
    intro m
    rw [next]
    exact decide_eq_decide.mpr Int.lt_add_one_iff.symm
  have sep := separates_messages contract.postCreator contract.commentCreator
    (messageId_injective contract.apart) lt (maxDateMs + 1).toInt friends
  have same := Comparer.firstN_congr _ sep (messages_narrowed lt lt' less friends).symm n
  rw [same]
  constructor
  · rw [List.filter_map]
    simp only [Function.comp_def, test]
    exact (Comparer.filter_firstN_prefix _ _ n _).map _
  · intro short
    rw [List.length_map] at short
    rw [List.filter_map]
    simp only [Function.comp_def, test]
    rw [Comparer.filter_firstN_of_short _ _ short]

theorem companyResults_narrowed (root : G.Person) {year year' : Int} (less : year ≤ year')
    (companyVid : G.Organisation) :
    (IC11.companyResults G root year' companyVid).filter (fun r => r.workFrom < year) =
      IC11.companyResults G root year companyVid := by
  simp only [IC11.companyResults, List.filter_map, List.filter_filter]
  congr 1
  refine List.filter_congr fun e _ => ?_
  by_cases early : e.2 < year
  · simp [early, early.trans_le less]
  · simp [early]

theorem workFrom_le {a b : IC11.WorkResult G} (le : (IC11.workResultComparer G).Le a b) :
    a.workFrom ≤ b.workFrom := by
  rcases Prod.Lex.toLex_le_toLex.mp ((Comparer.ofKey_le_iff _).mp le) with lt | ⟨eq, -⟩
  · exact lt.le
  · exact eq.le

theorem works_narrowed (root : G.Person) (countryName : String) {year year' : Int}
    (less : year ≤ year') :
    IC11.exec G (G.personId root) countryName year =
      (IC11.exec G (G.personId root) countryName year').filter
        fun row => row.organizationWorkFromYear < year := by
  simp only [IC11.exec, getVertexIndex_self G.personKey]
  cases findVertexByStringProp G.placeName countryName with
  | none => rfl
  | some countryVid =>
    have drained : ∀ y, (((G.organisationIsLocatedIn.incoming countryVid).flatMap
        (IC11.companyResults G root y)).foldl (PriorityQueue.offer IC11.kTopN IC11.workBefore)
          (.empty : IC11.Queue G)).drain.reverse =
        (IC11.workResultComparer G).firstN IC11.kTopN
          ((G.organisationIsLocatedIn.incoming countryVid).flatMap
            (IC11.companyResults G root y)) := fun _ =>
      PriorityQueue.drain_foldl_offer (fun _ _ => rfl) _
    have ahead : ∀ a b : IC11.WorkResult G, (IC11.workResultComparer G).Le a b →
        decide (b.workFrom < year) = true → decide (a.workFrom < year) = true := by
      intro a b le early
      have first := workFrom_le le
      exact decide_eq_true (first.trans_lt (of_decide_eq_true early))
    have cut := Comparer.filter_firstN_of_ahead _ ahead IC11.kTopN
      ((G.organisationIsLocatedIn.incoming countryVid).flatMap (IC11.companyResults G root year'))
    rw [List.filter_flatMap] at cut
    simp only [companyResults_narrowed root less] at cut
    simp only [IC11.scanCompanies_eq, drained, List.filter_map, ← cut]
    rfl

end Rows

/-- The rows of IC2 and IC9 with an earlier last date, and of IC11 with an earlier year. -/
theorem narrowed_windows (lt lt' : NbrLt) (G : Graph) (contract : LookupContract G)
    (personId : Int) (maxDateMs maxDateMs' : Int64) (earlier : maxDateMs ≤ maxDateMs')
    (below : maxDateMs' < Int64.maxValue) (countryName : String) (year year' : Int)
    (less : year ≤ year') :
    CutDown 20 (fun row => row.messageCreationDate ≤ maxDateMs.toInt)
        (IC2.exec lt' G personId maxDateMs') (IC2.exec lt G personId maxDateMs) ∧
      CutDown 20 (fun row => row.messageCreationDate ≤ maxDateMs.toInt)
        (IC9.exec lt' G personId maxDateMs') (IC9.exec lt G personId maxDateMs) ∧
      IC11.exec G personId countryName year =
        (IC11.exec G personId countryName year').filter
          fun row => row.organizationWorkFromYear < year := by
  cases known : getVertexIndex G.personId personId with
  | none =>
    simp only [IC2.exec, IC9.exec, IC11.exec, known]
    exact ⟨⟨List.prefix_rfl, fun _ => rfl⟩, ⟨List.prefix_rfl, fun _ => rfl⟩, rfl⟩
  | some root =>
    obtain rfl := getVertexIndex_id known
    rw [IC2.exec_eq, IC2.exec_eq, IC9.exec_eq, IC9.exec_eq]
    exact ⟨messages_cutDown contract lt lt' earlier below _ _,
      messages_cutDown contract lt lt' earlier below _ _,
      works_narrowed root countryName less⟩

theorem colleagues_small : 3 ≤ kInvalidVid := by decide

/-- A friend and a friend of that friend, with posts and with jobs in one country. -/
def colleagues : Graph :=
  { Graph.numbered 3 3 0 colleagues_small (.ofNumbers [(0, 1, ()), (1, 2, ())]) with
    postHasCreator := .ofNumbers [(0, 1, 10), (1, 1, 20), (2, 2, 12)]
    placeNum := 1
    placeName := fun _ => "Malta"
    organisationNum := 1
    organisationName := fun _ => "Air"
    workAt := .ofNumbers [(1, 0, 2000), (2, 0, 2008)]
    organisationIsLocatedIn := .ofNumbers [(0, 0, ())]
    studyAt := .ofNumbers []
    personIsLocatedIn := .ofNumbers []
    isPartOf := .ofNumbers []
    postIsLocatedIn := .ofNumbers []
    commentIsLocatedIn := .ofNumbers [] }

theorem colleagues_lookups : LookupContract colleagues where
  postCreator := by decide
  commentCreator := by decide
  apart := by decide

theorem narrowed_windows_colleagues :
    CutDown 20 (fun row => row.messageCreationDate ≤ 15)
        (IC2.exec .reversed colleagues 0 25) (IC2.exec .stored colleagues 0 15) ∧
      CutDown 20 (fun row => row.messageCreationDate ≤ 15)
        (IC9.exec .reversed colleagues 0 25) (IC9.exec .stored colleagues 0 15) ∧
      IC11.exec colleagues 0 "Malta" 2005 =
        (IC11.exec colleagues 0 "Malta" 2010).filter
          fun row => row.organizationWorkFromYear < 2005 :=
  narrowed_windows .stored .reversed colleagues colleagues_lookups 0 15 25 (by decide) (by decide)
    "Malta" 2005 2010 (by decide)

example : (IC11.exec colleagues 0 "Malta" 2010).map IC11.Row.organizationWorkFromYear =
    [2000, 2008] := by decide +kernel

end LdbcInteractive
