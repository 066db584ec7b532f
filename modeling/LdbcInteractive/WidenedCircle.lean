import LdbcInteractive.IC2
import LdbcInteractive.IC9

/-!
# IC9 is IC2 on the widened circle

When the friends of friends are made direct friends, once each, IC2 meets the same
messages as IC9, in another order and through its cached date.
-/

namespace LdbcInteractive

open EdgeTables PriorityQueues

/-- The edges of `wide` join `r` to each person of the circle of `knows`, once, and to no
other, and there are no further edges. -/
structure Widens {V : Type} [DecidableEq V] (knows wide : EdgeTable V V Unit) (r : V) :
    Prop where
  once : ∀ v, InCircle knows r v → (wide.outgoing r).count v + (wide.incoming r).count v = 1
  only : ∀ u v, v ∈ wide.outgoing u →
    u = r ∧ InCircle knows r v ∨ v = r ∧ InCircle knows r u

section Circle
variable {V : Type} [DecidableEq V] {knows wide : EdgeTable V V Unit} {r : V}

theorem not_inCircle_self : ¬ InCircle knows r r := fun h => (inCircle_iff.mp h).1 rfl

theorem Widens.mem_iff (h : Widens knows wide r) (v : V) :
    v ∈ wide.outgoing r ++ wide.incoming r ↔ InCircle knows r v := by
  rw [List.mem_append, wide.mem_incoming]
  constructor
  · rintro (hv | hv)
    · rcases h.only r v hv with ⟨-, hin⟩ | ⟨-, hin⟩
      · exact hin
      · exact absurd hin not_inCircle_self
    · rcases h.only v r hv with ⟨-, hin⟩ | ⟨-, hin⟩
      · exact absurd hin not_inCircle_self
      · exact hin
  · intro hin
    have one := h.once v hin
    by_cases hout : v ∈ wide.outgoing r
    · exact Or.inl hout
    · rw [List.count_eq_zero_of_not_mem hout, Nat.zero_add] at one
      exact Or.inr ((wide.mem_incoming v r).mp (List.count_pos_iff.mp (one ▸ Nat.one_pos)))

/-- The neighbours of the root in the widened table are the circle, each once. -/
theorem Widens.perm (h : Widens knows wide r) :
    (oneTwoCalls knows r).Perm (wide.outgoing r ++ wide.incoming r) := by
  have nodup : (wide.outgoing r ++ wide.incoming r).Nodup := by
    refine List.nodup_iff_count_le_one.mpr fun v => ?_
    rw [List.count_append]
    by_cases hin : InCircle knows r v
    · exact (h.once v hin).le
    · have hout : v ∉ wide.outgoing r ++ wide.incoming r := fun hv => hin ((h.mem_iff v).mp hv)
      rw [← List.count_append, List.count_eq_zero_of_not_mem hout]
      exact Nat.zero_le 1
  refine (List.perm_ext_iff_of_nodup (oneTwoCalls_nodup knows r) nodup).mpr fun v => ?_
  rw [mem_oneTwoCalls, h.mem_iff]

end Circle

theorem messageRow_with_knows (G : Graph) (wide : EdgeTable G.Person G.Person Unit) :
    messageRow (G.withKnows wide) = messageRow G := by
  funext m
  rcases m with ⟨_ | _, _, _, _⟩ <;> rfl

/-- The two queries return the same rows in the same order. -/
theorem ic9_eq_ic2_widened (lt lt' : NbrLt) (G : Graph) (posts : G.postHasCreator.AtMostOne)
    (comments : G.commentHasCreator.AtMostOne) (unique : Function.Injective G.messageId)
    (r : G.Person) (wide : EdgeTable G.Person G.Person Unit) (widens : Widens G.knows wide r)
    (maxDate : Int64) :
    IC9.exec lt G (G.personId r) maxDate =
      IC2.exec lt' (G.withKnows wide) (G.personId r) maxDate := by
  have selection := firstN_friendMessages_congr posts comments unique lt lt'
    (maxDate + 1).toInt (oneTwoCalls_nodup G.knows r) widens.perm 20
  calc IC9.exec lt G (G.personId r) maxDate
      = ((messageInfoComparer G.Message G.Person).firstN 20
          ((oneTwoCalls G.knows r).flatMap
            (friendMessages lt G (maxDate + 1).toInt))).map (messageRow G) :=
        IC9.exec_eq lt maxDate
    _ = ((messageInfoComparer G.Message G.Person).firstN 20
          ((wide.outgoing r ++ wide.incoming r).flatMap
            (friendMessages lt' G (maxDate + 1).toInt))).map (messageRow (G.withKnows wide)) := by
        rw [selection, messageRow_with_knows G wide]
    _ = IC2.exec lt' (G.withKnows wide) (G.personId r) maxDate :=
        (IC2.exec_eq (G := G.withKnows wide) lt' maxDate).symm

/-- Persons 0 and 1 know each other, 1 knows himself and, twice, person 2; person 3 is alone. -/
def twoHopKnows : EdgeTable (Fin 4) (Fin 4) Unit :=
  .ofNumbers [(0, 1, ()), (1, 0, ()), (1, 1, ()), (1, 2, ()), (1, 2, ())]

def twoHopWide : EdgeTable (Fin 4) (Fin 4) Unit := .ofNumbers [(0, 1, ()), (2, 0, ())]

theorem twoHopWide_widens : Widens twoHopKnows twoHopWide 0 where
  once := by
    simp only [inCircle_iff]
    decide
  only := by
    simp only [inCircle_iff]
    decide

theorem twoHopGraph_small : 4 ≤ kInvalidVid := by decide

def twoHopGraph : Graph :=
  { Graph.numbered 4 2 2 twoHopGraph_small twoHopKnows with
    postHasCreator := .ofNumbers [(0, 1, 20), (1, 2, 30)]
    commentHasCreator := .ofNumbers [(0, 2, 30), (1, 3, 40)] }

theorem ic9_eq_ic2_widened_two_hop :
    IC9.exec .stored twoHopGraph (twoHopGraph.personId (0 : Fin 4)) 35 =
      IC2.exec .reversed (twoHopGraph.withKnows twoHopWide)
        (twoHopGraph.personId (0 : Fin 4)) 35 :=
  ic9_eq_ic2_widened .stored .reversed twoHopGraph
    (by unfold EdgeTable.AtMostOne; decide) (by unfold EdgeTable.AtMostOne; decide)
    (messageId_injective (by decide)) (0 : Fin 4) twoHopWide twoHopWide_widens 35

example : (IC9.exec .stored twoHopGraph 0 35).map MessageRow.messageId = [0, 3, 2] := by
  decide

end LdbcInteractive
