import LdbcInteractive.Cutoffs
import LdbcInteractive.LoadOrderTags
import LdbcInteractive.RowSources

/-!
# Rows that answer each other

If IC1 finds one person from another, it finds the other from the one at the same distance;
if IC6 counts one tag beside another, it counts the other beside the one as often. Each time
the answer may only be missing from a list that is full.
-/

namespace LdbcInteractive

open EdgeTables GraphDistance PartialLoops PriorityQueues

section Namesakes
variable {G : Graph} {a b : G.Person}

theorem IC1.Stands.symm {dist : Nat} (h : IC1.Stands a dist b) : IC1.Stands b dist a := by
  rcases h with ⟨first, joined⟩ | ⟨far, layer⟩
  · exact Or.inl ⟨first, joined.symm⟩
  · exact Or.inr ⟨far, layer.symm⟩

/-- A list that is not full has a row for each person of the name within distance 3. -/
theorem IC1.row_of_stands {firstName : String} {rows : List IC1.Row}
    (result : IC1.exec G (G.personId a) firstName = some rows) (short : rows.length < 20)
    {dist : Nat} (stands : IC1.Stands a dist b) (named : G.firstName b = firstName) :
    ∃ row ∈ rows, row.friendId = G.personId b ∧ row.distanceFromPerson = dist := by
  simp only [IC1.exec, getVertexIndex_self G.personKey, collectFriends_reverse] at result
  have reads := map_of_mapM result
  have length := congrArg List.length reads
  rw [List.length_map, List.length_map] at length
  have offered := Comparer.mem_firstN_of_short _ (length.trans_lt short)
    (mem_offeredFriends_iff.mpr ⟨dist, b, stands, named, rfl⟩)
  obtain ⟨row, hrow, read⟩ := List.mem_map.mp (reads ▸ List.mem_map_of_mem offered)
  exact ⟨row, hrow, IC1.row_read read.symm⟩

end Namesakes

/-- A person whom IC1 finds at some distance finds the one who asked at that distance, where
the rows of that second run are not broken off at a missing link. -/
theorem namesakes_mutual (G : Graph) (a b : G.Person) (rows : List IC1.Row)
    (result : IC1.exec G (G.personId a) (G.firstName b) = some rows)
    (links : IC1.LinksPresent G b (G.firstName a)) :
    ∃ rows', IC1.exec G (G.personId b) (G.firstName a) = some rows' ∧
      (rows'.length < 20 → ∀ row ∈ rows, row.friendId = G.personId b → ∃ row' ∈ rows',
        row'.friendId = G.personId a ∧ row'.distanceFromPerson = row.distanceFromPerson) := by
  obtain ⟨rows', result'⟩ := Option.isSome_iff_exists.mp ((IC1.exec_isSome b _).mpr links)
  refine ⟨rows', result', ?_⟩
  intro short row hrow found
  obtain ⟨v, stands, -, ident⟩ := IC1.row_source result hrow
  obtain rfl : v = b := G.personKey (ident.symm.trans found)
  exact IC1.row_of_stands result' short stands.symm rfl

theorem namesakes_mutual_chain :
    ∃ rows rows', IC1.exec IC1.chain 0 "Ann" = some rows ∧
      IC1.exec IC1.chain 3 "Ann" = some rows' ∧
      ∀ row ∈ rows, row.friendId = 3 → ∃ row' ∈ rows',
        row'.friendId = 0 ∧ row'.distanceFromPerson = row.distanceFromPerson := by
  have ends : (IC1.exec IC1.chain 0 "Ann").isSome = true := by decide +kernel
  have links : IC1.LinksPresent IC1.chain (3 : Fin 6) "Ann" :=
    (IC1.exec_isSome (G := IC1.chain) (3 : Fin 6) "Ann").mp (by decide +kernel)
  have few : (IC1.exec IC1.chain 3 "Ann").any (fun rows => rows.length < 20) = true := by
    decide +kernel
  obtain ⟨rows, result⟩ := Option.isSome_iff_exists.mp ends
  obtain ⟨rows', result', mutual_rows⟩ :=
    namesakes_mutual IC1.chain (0 : Fin 6) (3 : Fin 6) rows result links
  obtain ⟨listed, same, short⟩ := Option.any_eq_true _ _ |>.mp few
  obtain rfl : listed = rows' := Option.some.inj (same.symm.trans result')
  exact ⟨rows, listed, result, result', mutual_rows (of_decide_eq_true short)⟩

section SharedTags
variable {G : Graph} {root : G.Person}

/-- The counter of a tag after the posts under another one. -/
def sharedCount (G : Graph) (root : G.Person) (tagVid tag : G.Tag) : Int :=
  (G.postHasTag.incoming tagVid).foldl (IC6.scanPost G G.postHasTag.outgoing
    (markKnows1d2dNeighbors G.knows root)) (fun _ => 0) tag

/-- Post by post it is the product of the edges to the two tags. -/
theorem sharedCount_symm (tagVid tag : G.Tag) :
    sharedCount G root tagVid tag = sharedCount G root tag tagVid := by
  have posts : ∀ tagVid tag : G.Tag, sharedCount G root tagVid tag =
      ((List.finRange G.postNum).map fun post => ((G.postHasTag.outgoing post).count tagVid : Int) *
        if IC6.byFriend G (markKnows1d2dNeighbors G.knows root) post then
          ((G.postHasTag.outgoing post).count tag : Int) else 0).sum := by
    intro tagVid tag
    have scanned := G.postHasTag.incoming_perm tagVid (List.nodup_finRange _) List.mem_finRange
    rw [sharedCount, foldl_scanPost_sum, zero_add, (scanned.map _).sum_eq, List.map_flatMap,
      List.flatMap_def, List.sum_flatten, List.map_map]
    refine congrArg List.sum (List.map_congr_left fun post _ => ?_)
    simp
  rw [posts, posts]
  refine congrArg List.sum (List.map_congr_left fun post _ => ?_)
  split
  · exact mul_comm _ _
  · rw [mul_zero, mul_zero]

/-- The tags that IC6 lists for the known tag of a name, before the cut at 10. -/
def besideTags (G : Graph) (root : G.Person) (tagVid : G.Tag) : List IC6.TagResult :=
  ((List.finRange G.tagNum).filter fun tag =>
    Function.update (sharedCount G root tagVid) tagVid 0 tag ≠ 0).map
      fun tag => ⟨Function.update (sharedCount G root tagVid) tagVid 0 tag, G.tagName tag⟩

theorem mem_besideTags {tagVid : G.Tag} {result : IC6.TagResult} :
    result ∈ besideTags G root tagVid ↔ ∃ tag, tag ≠ tagVid ∧ sharedCount G root tagVid tag ≠ 0 ∧
      result = ⟨sharedCount G root tagVid tag, G.tagName tag⟩ := by
  simp only [besideTags, List.mem_map, List.mem_filter, List.mem_finRange, true_and,
    decide_eq_true_eq]
  constructor
  · rintro ⟨tag, counted, rfl⟩
    have other : tag ≠ tagVid := by
      rintro rfl
      exact counted (Function.update_self ..)
    rw [Function.update_of_ne other] at counted ⊢
    exact ⟨tag, other, counted, rfl⟩
  · rintro ⟨tag, other, counted, rfl⟩
    refine ⟨tag, ?_, ?_⟩
    · rwa [Function.update_of_ne other]
    · rw [Function.update_of_ne other]

theorem exec_besideTags (names : Function.Injective G.tagName) (root : G.Person)
    (tagVid : G.Tag) :
    IC6.exec G (G.personId root) (G.tagName tagVid) =
      (IC6.tagResultComparer.firstN IC6.kTopN (besideTags G root tagVid)).map
        fun result => ⟨result.tagName, result.count⟩ := by
  have found : findVertexByStringProp G.tagName (G.tagName tagVid) = some tagVid :=
    findVertexByStringProp_eq_some rfl fun tag before same => before.ne (names same)
  simp only [IC6.exec, getVertexIndex_self G.personKey, found, IC6.rowsInOrder,
    foldl_pushTag_eq]
  rfl

theorem mem_exec6 (names : Function.Injective G.tagName) {tagVid : G.Tag} {row : IC6.Row}
    (hrow : row ∈ IC6.exec G (G.personId root) (G.tagName tagVid)) :
    ∃ tag, tag ≠ tagVid ∧ sharedCount G root tagVid tag ≠ 0 ∧
      row = ⟨G.tagName tag, sharedCount G root tagVid tag⟩ := by
  rw [exec_besideTags names] at hrow
  obtain ⟨result, hresult, rfl⟩ := List.mem_map.mp hrow
  obtain ⟨tag, other, counted, rfl⟩ := mem_besideTags.mp (mem_of_mem_firstN hresult)
  exact ⟨tag, other, counted, rfl⟩

theorem mem_exec6_of_short (names : Function.Injective G.tagName) {tagVid tag : G.Tag}
    (short : (IC6.exec G (G.personId root) (G.tagName tagVid)).length < 10) (other : tag ≠ tagVid)
    (counted : sharedCount G root tagVid tag ≠ 0) :
    ⟨G.tagName tag, sharedCount G root tagVid tag⟩ ∈
      IC6.exec G (G.personId root) (G.tagName tagVid) := by
  rw [exec_besideTags names] at short ⊢
  rw [List.length_map] at short
  exact List.mem_map.mpr ⟨_, Comparer.mem_firstN_of_short _ short
    (mem_besideTags.mpr ⟨tag, other, counted, rfl⟩), rfl⟩

end SharedTags

/-- If IC6 counts the tag `b` beside `a`, it counts `a` beside `b` as often. -/
theorem shared_tags_mutual (G : Graph) (names : Function.Injective G.tagName) (personId : Int)
    (a b : String) (n : Int) (row : ⟨b, n⟩ ∈ IC6.exec G personId a) :
    (∀ m, ⟨a, m⟩ ∈ IC6.exec G personId b → m = n) ∧
      ((IC6.exec G personId b).length < 10 → ⟨a, n⟩ ∈ IC6.exec G personId b) := by
  cases known : getVertexIndex G.personId personId with
  | none => simp [IC6.exec, known] at row
  | some root =>
    obtain rfl := getVertexIndex_id known
    cases found : findVertexByStringProp G.tagName a with
    | none => simp [IC6.exec, known, found] at row
    | some tagVid =>
      obtain rfl : G.tagName tagVid = a := by simpa using List.find?_some found
      obtain ⟨tag, other, counted, same⟩ := mem_exec6 names row
      obtain ⟨rfl, rfl⟩ := IC6.Row.mk.inj same
      constructor
      · intro m row'
        obtain ⟨tag', -, -, same'⟩ := mem_exec6 names row'
        obtain ⟨named, rfl⟩ := IC6.Row.mk.inj same'
        obtain rfl := names named
        exact sharedCount_symm tag tagVid
      · intro short
        rw [sharedCount_symm] at counted ⊢
        exact mem_exec6_of_short names short other.symm counted

theorem shared_tags_mutual_swing :
    (∀ m, ⟨"Jazz", m⟩ ∈ IC6.exec IC6.sharedGraph 0 "Swing" → m = 2) ∧
      ((IC6.exec IC6.sharedGraph 0 "Swing").length < 10 →
        ⟨"Jazz", 2⟩ ∈ IC6.exec IC6.sharedGraph 0 "Swing") :=
  shared_tags_mutual IC6.sharedGraph (by decide) 0 "Jazz" "Swing" 2 (by decide +kernel)

end LdbcInteractive
