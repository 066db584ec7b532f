import LdbcInteractive.EdgeInsertion
import LdbcInteractive.MutualFriends
import LdbcInteractive.PathQueries

/-!
# The distance that IC13 reports

With its -1 read as infinite, the answer of IC13 is a distance between person ids:
symmetric, with the triangle inequality, and zero between a known person and itself
only. One more KNOWS edge changes it to the least of three sums.
-/

namespace LdbcInteractive

open EdgeTables GraphDistance

namespace IC13

/-- A reported length, the -1 of two unconnected persons read as infinite. -/
def readLength (len : Int32) : ℕ∞ := if 0 ≤ len.toInt then len.toInt.toNat else ⊤

def hops (G : Graph) (person1Id person2Id : Int) : ℕ∞ :=
  (exec G person1Id person2Id).elim ⊤ readLength

variable {G : Graph} {person1Id person2Id : Int}

theorem readLength_eq_iff {len : Int32} {n : ℕ} : readLength len = n ↔ len.toInt = n := by
  by_cases h : 0 ≤ len.toInt
  · rw [readLength, if_pos h, Nat.cast_inj]
    omega
  · rw [readLength, if_neg h]
    refine iff_of_false (ENat.top_ne_natCast n) ?_
    omega

theorem Answer.readLength_eq {a b : G.Person} {len : Int32} (answer : Answer G.knows a b len) :
    readLength len = (undirected G.knows).edist a b ∧ (readLength len = ⊤ → len = -1) := by
  by_cases reach : (undirected G.knows).Reachable a b
  · obtain ⟨d, hd⟩ := exists_layer_of_reachable reach
    have hlen := readLength_eq_iff.mpr (answer.1 d hd)
    exact ⟨hlen.trans (Eq.symm hd), fun htop => absurd (htop.symm.trans hlen)
      (ENat.top_ne_natCast d)⟩
  · obtain rfl := answer.2 reach
    exact ⟨(if_neg (by decide)).trans (SimpleGraph.edist_eq_top_of_not_reachable reach).symm,
      fun _ => rfl⟩

theorem exec_absent (absent : getVertexIndex G.personId person1Id = none ∨
    getVertexIndex G.personId person2Id = none) :
    exec G person1Id person2Id = some (-1) := by
  unfold exec
  rcases absent with absent | absent
  · rw [absent]
  · rw [absent]
    cases getVertexIndex G.personId person1Id <;> rfl

/-- Every answer of IC13 is the distance in KNOWS between the persons that have the ids. -/
theorem exec_between (small : G.personNum < 2 ^ 31) (person1Id person2Id : Int) :
    ∃ len, exec G person1Id person2Id = some len ∧ (readLength len = ⊤ → len = -1) ∧
      readLength len = between (undirected G.knows) (getVertexIndex G.personId person1Id)
        (getVertexIndex G.personId person2Id) := by
  cases h1 : getVertexIndex G.personId person1Id with
  | none =>
    exact ⟨-1, exec_absent (Or.inl h1), fun _ => rfl,
      (if_neg (by decide)).trans (between_none_left _).symm⟩
  | some a =>
    cases h2 : getVertexIndex G.personId person2Id with
    | none => exact ⟨-1, exec_absent (Or.inr h2), fun _ => rfl, if_neg (by decide)⟩
    | some b =>
      have fit := labelsFit_of_card (by rwa [Fintype.card_fin]) G.knows a b
      obtain ⟨len, hlen, answer⟩ := IC14.exec13_some fit
      rw [getVertexIndex_id h1, getVertexIndex_id h2] at hlen
      exact ⟨len, hlen, answer.readLength_eq.2, answer.readLength_eq.1⟩

theorem hops_eq (small : G.personNum < 2 ^ 31) (person1Id person2Id : Int) :
    hops G person1Id person2Id = between (undirected G.knows)
      (getVertexIndex G.personId person1Id) (getVertexIndex G.personId person2Id) := by
  obtain ⟨len, hlen, -, read⟩ := exec_between small person1Id person2Id
  rw [hops, hlen]
  exact read

end IC13

open IC13

/-- IC13 always ends, and what it reports is a metric on the ids of the persons. -/
theorem hops_metric (G : Graph) (small : G.personNum < 2 ^ 31) (a b c : Int) :
    IC13.exec G a b ≠ none ∧
      hops G a b = hops G b a ∧
      hops G a c ≤ hops G a b + hops G b c ∧
      (hops G a b = 0 ↔ a = b ∧ ∃ v, G.personId v = a) := by
  simp only [hops_eq small]
  obtain ⟨len, hlen, -⟩ := exec_between small a b
  refine ⟨hlen ▸ Option.some_ne_none len, between_comm _ _, between_triangle _ _ _, ?_⟩
  rw [between_eq_zero_iff]
  constructor
  · rintro ⟨v, ha, hb⟩
    exact ⟨(getVertexIndex_id ha).symm.trans (getVertexIndex_id hb), v, getVertexIndex_id ha⟩
  · rintro ⟨rfl, v, rfl⟩
    exact ⟨v, getVertexIndex_self G.personKey v, getVertexIndex_self G.personKey v⟩

theorem hops_metric_path :
    let G := Graph.ofKnows 3 (by decide) [(0, 1), (1, 2)]
    IC13.exec G 0 2 ≠ none ∧ hops G 0 2 = hops G 2 0 ∧ hops G 0 1 ≤ hops G 0 2 + hops G 2 1 ∧
      (hops G 0 2 = 0 ↔ (0 : Int) = 2 ∧ ∃ v, G.personId v = 0) :=
  have metric := hops_metric (Graph.ofKnows 3 (by decide) [(0, 1), (1, 2)]) (by decide)
  ⟨(metric 0 2 0).1, (metric 0 2 0).2.1, (metric 0 2 1).2.2.1, (metric 0 2 0).2.2.2⟩

theorem inserted_of_oneMore {V : Type} [DecidableEq V] {knows knows' : EdgeTable V V Unit}
    {u v : V} (more : OneMore knows knows' u v) :
    Inserted (undirected knows) (undirected knows') u v := by
  have mem : ∀ x y, y ∈ knows'.outgoing x ↔ y ∈ knows.outgoing x ∨ x = u ∧ y = v := by
    intro x y
    rw [← List.count_pos_iff, ← List.count_pos_iff, more x y]
    by_cases h : x = u ∧ y = v
    · simp [h]
    · simp [h]
  intro x y
  rw [adj_iff, adj_iff, Joined, Joined, knows'.mem_incoming, knows.mem_incoming, mem x y, mem y x]
  tauto

/-- With one more KNOWS edge IC13 answers from its old answers to and from the two ends. -/
theorem hops_insert (G : Graph) (small : G.personNum < 2 ^ 31) (u v : G.Person)
    (knows' : EdgeTable G.Person G.Person Unit) (more : OneMore G.knows knows' u v)
    (a b : Int) :
    hops (G.withKnows knows') a b = min (hops G a b)
      (min (hops G a (G.personId u) + 1 + hops G (G.personId v) b)
        (hops G a (G.personId v) + 1 + hops G (G.personId u) b)) := by
  rw [hops_eq (G := G.withKnows knows') small]
  simp only [hops_eq small, getVertexIndex_self G.personKey]
  exact (inserted_of_oneMore more).between_eq _ _

/-- Friends of friends who become friends. -/
theorem hops_insert_triangle :
    let G := Graph.ofKnows 3 (by decide) [(0, 1), (1, 2)]
    hops (G.withKnows (G.knows.insert (0 : Fin 3) (2 : Fin 3) ())) 0 2 = min (hops G 0 2)
      (min (hops G 0 0 + 1 + hops G 2 2) (hops G 0 2 + 1 + hops G 0 2)) :=
  hops_insert _ (by decide) _ _ _ (oneMore_insert _ _ _) 0 2

end LdbcInteractive
