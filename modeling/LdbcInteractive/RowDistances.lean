import LdbcInteractive.Hops
import LdbcInteractive.RowSources

/-!
# The rows stand at the distance that IC13 reports

Each complex query walks the KNOWS edges in its own way: IC1 in three layers with a table
of marks, IC10 with a table and one list, IC3, IC9 and IC11 with a hash set or a table over
two steps, IC2, IC7 and IC12 over the edges of one person. The persons in their rows are at
the distances that the search of IC13 reports.
-/

namespace LdbcInteractive

open EdgeTables GraphDistance IC13

variable {G : Graph} {root v : G.Person}

theorem hops_eq_iff (small : G.personNum < 2 ^ 31) {k : ℕ} :
    hops G (G.personId root) (G.personId v) = k ↔ Layer (undirected G.knows) root k v := by
  rw [hops_eq small, getVertexIndex_self G.personKey, getVertexIndex_self G.personKey]
  rfl

theorem hops_joined (small : G.personNum < 2 ^ 31) (other : G.personId v ≠ G.personId root) :
    hops G (G.personId root) (G.personId v) = 1 ↔ Joined G.knows root v :=
  (hops_eq_iff small).trans (layer_one_joined.trans
    (and_iff_right fun same => other (congrArg G.personId same)))

/-- One or two steps away, as IC13 counts them. -/
def Near (G : Graph) (personId friendId : Int) : Prop :=
  hops G personId friendId = 1 ∨ hops G personId friendId = 2

theorem near_iff (small : G.personNum < 2 ^ 31) :
    Near G (G.personId root) (G.personId v) ↔ InCircle G.knows root v :=
  or_congr (hops_eq_iff small) (hops_eq_iff small)

/-- Without a person there is no row to speak of. -/
theorem rows_hops (G : Graph) (small : G.personNum < 2 ^ 31) (personId : Int) :
    (∀ firstName rows, IC1.exec G personId firstName = some rows → ∀ row ∈ rows,
      row.friendId ≠ personId → hops G personId row.friendId = row.distanceFromPerson) ∧
    (∀ lt maxDateMs, ∀ row ∈ IC2.exec lt G personId maxDateMs,
      row.personId ≠ personId → hops G personId row.personId = 1) ∧
    (∀ lt countryXName countryYName startDateMs durationDays rows,
      IC3.exec G lt personId countryXName countryYName startDateMs durationDays = some rows →
        ∀ row ∈ rows, Near G personId row.personId) ∧
    (∀ sort, ∀ row ∈ IC7.exec G sort personId,
      row.personId ≠ personId → (row.isNew = false ↔ hops G personId row.personId = 1)) ∧
    (∀ lt maxDateMs, ∀ row ∈ IC9.exec lt G personId maxDateMs,
      Near G personId row.personId) ∧
    (∀ month rows, IC10.exec G personId month = some rows → ∀ row ∈ rows,
      hops G personId row.personId = 2) ∧
    (∀ countryName workFromYear, ∀ row ∈ IC11.exec G personId countryName workFromYear,
      Near G personId row.personId) ∧
    (∀ passes tagClassName rows, IC12.exec G passes personId tagClassName = some rows →
      ∀ row ∈ rows, row.personId ≠ personId → hops G personId row.personId = 1) := by
  cases known : getVertexIndex G.personId personId with
  | none =>
    simp [IC1.exec, IC2.exec, IC3.exec, IC7.exec, IC9.exec, IC10.exec, IC11.exec, IC12.exec, known]
  | some root =>
    obtain rfl := getVertexIndex_id known
    refine ⟨?_, ?_, ?_, ?_, ?_, ?_, ?_, ?_⟩
    · intro firstName rows h row hrow other
      obtain ⟨v, place, -, ident⟩ := IC1.row_source h hrow
      rw [ident] at other ⊢
      rcases place with ⟨first, joined⟩ | ⟨-, layer⟩
      · rw [first]
        exact (hops_joined small other).mpr joined
      · exact (hops_eq_iff small).mpr layer
    · intro lt maxDateMs row hrow other
      obtain ⟨m, rfl, -, joined⟩ := IC2.row_source hrow
      exact (hops_joined small other).mpr joined
    · intro lt countryXName countryYName startDateMs durationDays rows h row hrow
      obtain ⟨v, ident, circle⟩ := IC3.row_source h hrow
      exact ident ▸ (near_iff small).mpr circle
    · intro sort row hrow other
      obtain ⟨like, rfl, isLike⟩ := IC7.row_source hrow
      have ident : (IC7.row G root like).personId = G.personId like.personVid := isLike.personId
      rw [ident] at other ⊢
      rw [hops_joined small other, ← IC7.friends_iff]
      exact (Bool.not_eq_false' _).to_iff
    · intro lt maxDateMs row hrow
      obtain ⟨m, rfl, -, circle⟩ := IC9.row_source hrow
      exact (near_iff small).mpr circle
    · intro month rows h row hrow
      obtain ⟨v, ident, layer⟩ := IC10.row_source h hrow
      rw [ident]
      exact (hops_eq_iff small).mpr layer
    · intro countryName workFromYear row hrow
      obtain ⟨v, ident, circle⟩ := IC11.row_source hrow
      exact ident ▸ (near_iff small).mpr circle
    · intro passes tagClassName rows h row hrow other
      obtain ⟨v, ident, joined⟩ := IC12.row_source h hrow
      rw [ident] at other ⊢
      exact (hops_joined small other).mpr joined

theorem rows_hops_instances :
    (∃ rows, IC1.exec IC1.chain 0 "Ann" = some rows ∧ ∀ row ∈ rows,
      row.friendId ≠ 0 → hops IC1.chain 0 row.friendId = row.distanceFromPerson) ∧
    (∃ rows, IC3.exec IC3.travels .stored 0 "Peru" "Chad" 0 1 = some rows ∧ ∀ row ∈ rows,
      Near IC3.travels 0 row.personId) ∧
    (∀ row ∈ IC7.exec IC7.likedMessages stableSort 0,
      row.personId ≠ 0 → (row.isNew = false ↔ hops IC7.likedMessages 0 row.personId = 1)) ∧
    ∃ rows, IC10.exec IC10.stars 0 5 = some rows ∧ ∀ row ∈ rows,
      hops IC10.stars 0 row.personId = 2 := by
  have friends : (IC1.exec IC1.chain 0 "Ann").isSome = true := by decide +kernel
  have visitors : (IC3.exec IC3.travels .stored 0 "Peru" "Chad" 0 1).isSome = true := by
    decide +kernel
  have stars : (IC10.exec IC10.stars 0 5).isSome = true := by decide +kernel
  obtain ⟨friendRows, friends⟩ := Option.isSome_iff_exists.mp friends
  obtain ⟨visitorRows, visitors⟩ := Option.isSome_iff_exists.mp visitors
  obtain ⟨starRows, stars⟩ := Option.isSome_iff_exists.mp stars
  obtain ⟨near, -⟩ := rows_hops IC1.chain (by decide) 0
  obtain ⟨-, -, visited, -⟩ := rows_hops IC3.travels (by decide) 0
  obtain ⟨-, -, -, liked, -⟩ := rows_hops IC7.likedMessages (by decide) 0
  obtain ⟨-, -, -, -, -, apart, -⟩ := rows_hops IC10.stars (by decide) 0
  exact ⟨⟨friendRows, friends, near "Ann" friendRows friends⟩,
    ⟨visitorRows, visitors, visited .stored "Peru" "Chad" 0 1 visitorRows visitors⟩,
    liked stableSort, starRows, stars, apart 5 starRows stars⟩

end LdbcInteractive
