import LdbcInteractive.Loops
import Mathlib.Data.Fintype.Card
import Mathlib.Data.List.Basic
import Mathlib.Algebra.BigOperators.Group.List.Basic
import Mathlib.Algebra.GroupWithZero.Nat

/-!
# Worklists without a record of what was met

A queue is worked off from its front: each pass acts on the first vertex and appends all of
its successors, also those that were in the queue before. On a finite acyclic relation the
queue becomes empty, since a vertex can be given a weight above the sum of the weights of its
successors. What has been acted on are then the vertices reachable from the first queue.
Where a cycle can be reached from the queue, the queue never becomes empty.
-/

namespace Worklists

open Loops

universe u v
variable {V : Type u} {τ : Type v}

section Relation
variable (succs : V → List V)

def Leads (a b : V) : Prop := b ∈ succs a

/-- Reachable in any number of steps, none included. -/
def Below (a b : V) : Prop := Relation.ReflTransGen (Leads succs) a b

def Acyclic : Prop := ∀ a, ¬ Relation.TransGen (Leads succs) a a

variable {succs}

theorem below_iff {a c : V} : Below succs a c ↔ c = a ∨ ∃ b ∈ succs a, Below succs b c :=
  Relation.ReflTransGen.cases_head_iff.trans (or_congr_left eq_comm)

/-- A rank that falls along the relation excludes cycles. -/
theorem acyclic_of_rank (rank : V → Nat) (falls : ∀ a, ∀ b ∈ succs a, rank b < rank a) :
    Acyclic succs := by
  have lower : ∀ a b, Relation.TransGen (Leads succs) a b → rank b < rank a := by
    intro a b h
    induction h with
    | single h => exact falls a _ h
    | tail _ h ih => exact (falls _ _ h).trans ih
  intro a h
  exact (lower a a h).false

theorem Acyclic.wellFounded [Finite V] (acyclic : Acyclic succs) :
    WellFounded fun b a => Leads succs a b := by
  have : IsTrans V fun b a => Relation.TransGen (Leads succs) a b :=
    ⟨fun _ _ _ hab hbc => hbc.trans hab⟩
  have : Std.Irrefl fun b a => Relation.TransGen (Leads succs) a b := ⟨acyclic⟩
  have closure : WellFounded fun b a => Relation.TransGen (Leads succs) a b :=
    Finite.wellFounded_of_trans_of_irrefl _
  exact Subrelation.wf (fun h => Relation.TransGen.single h) closure

/-- Every vertex weighs more than all of its successors together. -/
theorem Acyclic.exists_weight [Finite V] (acyclic : Acyclic succs) :
    ∃ weight : V → Nat, ∀ a, ((succs a).map weight).sum < weight a := by
  let total : ∀ a, (∀ b, Leads succs a b → Nat) → Nat := fun a weight =>
    ((succs a).attach.map fun b => weight b.1 b.2).sum + 1
  let weight := acyclic.wellFounded.fix total
  refine ⟨weight, fun a => ?_⟩
  have unfolded : weight a = ((succs a).attach.map fun b => weight b.1).sum + 1 :=
    acyclic.wellFounded.fix_eq total a
  have same : (succs a).attach.map (fun b => weight b.1) = (succs a).map weight :=
    List.attach_map_val
  rw [unfolded, same]
  exact Nat.lt_succ_self _

end Relation

section Runs
variable (succs : V → List V) (act : τ → V → τ)

/-- One pass; the loop is left when the queue is empty. -/
def pass : List V × τ → Control (List V × τ) τ
  | ([], marks) => .done marks
  | (a :: rest, marks) => .next (rest ++ succs a, act marks a)

variable {succs}

/-- The weight of the queue bounds the passes that are left. -/
theorem loop_pass {weight : V → Nat} (heavy : ∀ a, ((succs a).map weight).sum < weight a)
    {fuel : Nat} {queue : List V} (enough : (queue.map weight).sum < fuel) :
    ∃ met : List V, (∀ c, c ∈ met ↔ ∃ a ∈ queue, Below succs a c) ∧
      ∀ marks, loop (pass succs act) fuel (queue, marks) = some (met.foldl act marks) := by
  induction fuel generalizing queue with
  | zero => exact absurd enough (Nat.not_lt_zero _)
  | succ fuel ih =>
    cases queue with
    | nil =>
      refine ⟨[], by simp, ?_⟩
      intro marks
      exact loop_done rfl fuel
    | cons a rest =>
      have less : ((rest ++ succs a).map weight).sum < fuel := by
        have ha := heavy a
        rw [List.map_cons, List.sum_cons] at enough
        rw [List.map_append, List.sum_append]
        omega
      obtain ⟨met, hmet, hloop⟩ := ih less
      refine ⟨a :: met, ?_, ?_⟩
      · intro c
        rw [List.mem_cons, hmet]
        constructor
        · rintro (rfl | ⟨b, hb, hc⟩)
          · exact ⟨c, List.mem_cons_self, .refl⟩
          · rcases List.mem_append.mp hb with hb | hb
            · exact ⟨b, List.mem_cons_of_mem a hb, hc⟩
            · exact ⟨a, List.mem_cons_self, .head hb hc⟩
        · rintro ⟨b, hb, hc⟩
          rcases List.mem_cons.mp hb with rfl | hb
          · refine (below_iff.mp hc).imp_right ?_
            rintro ⟨d, hd, hc⟩
            exact ⟨d, List.mem_append_right rest hd, hc⟩
          · exact Or.inr ⟨b, List.mem_append_left _ hb, hc⟩
      · intro marks
        have next : pass succs act (a :: rest, marks) = .next (rest ++ succs a, act marks a) := rfl
        rw [loop_next next, hloop, List.foldl_cons]

/-- The worklist of an acyclic relation ends, and its result is what acting on the reachable
vertices makes of the marks. -/
theorem exists_passes [Finite V] (acyclic : Acyclic succs) (queue : List V) :
    ∃ met : List V, (∀ c, c ∈ met ↔ ∃ a ∈ queue, Below succs a c) ∧
      ∃ enough, ∀ fuel ≥ enough, ∀ marks,
        loop (pass succs act) fuel (queue, marks) = some (met.foldl act marks) := by
  obtain ⟨weight, heavy⟩ := acyclic.exists_weight
  obtain ⟨met, hmet, hloop⟩ :=
    loop_pass act heavy (Nat.lt_succ_self (queue.map weight).sum)
  refine ⟨met, hmet, (queue.map weight).sum + 1, ?_⟩
  intro fuel hfuel marks
  exact loop_mono hfuel (hloop marks)

end Runs

section Endless
variable (succs : V → List V)

/-- A cycle can be reached. -/
def Endless (a : V) : Prop := ∃ c, Below succs a c ∧ Relation.TransGen (Leads succs) c c

open scoped Classical in
/-- The relation without the edges of endless vertices. -/
noncomputable def cut (a : V) : List V := if Endless succs a then [] else succs a

variable {succs}

theorem Endless.of_leads {a b : V} (endless : Endless succs b) (h : b ∈ succs a) :
    Endless succs a := by
  obtain ⟨c, below, cycle⟩ := endless
  exact ⟨c, .head h below, cycle⟩

theorem Endless.exists_leads {a : V} (endless : Endless succs a) :
    ∃ b ∈ succs a, Endless succs b := by
  obtain ⟨c, below, cycle⟩ := endless
  rcases below_iff.mp below with rfl | ⟨b, hb, below⟩
  · obtain ⟨b, hb, back⟩ := Relation.TransGen.head'_iff.mp cycle
    exact ⟨b, hb, c, back, cycle⟩
  · exact ⟨b, hb, c, below, cycle⟩

theorem cut_eq {a : V} (ends : ¬ Endless succs a) : cut succs a = succs a := if_neg ends

theorem leads_of_cut {a b : V} (h : Leads (cut succs) a b) :
    Leads succs a b ∧ ¬ Endless succs a := by
  by_cases endless : Endless succs a
  · simp [Leads, cut, endless] at h
  · rw [Leads, cut_eq endless] at h
    exact ⟨h, endless⟩

theorem acyclic_cut : Acyclic (cut succs) := by
  intro a cycle
  have kept : Relation.TransGen (Leads succs) a a :=
    Relation.TransGen.mono (fun _ _ h => (leads_of_cut h).1) _ _ cycle
  obtain ⟨b, hb, -⟩ := Relation.TransGen.head'_iff.mp cycle
  exact (leads_of_cut hb).2 ⟨a, .refl, kept⟩

/-- A queue of vertices from which no cycle can be reached does not see the edges cut off. -/
theorem loop_cut (act : τ → V → τ) (fuel : Nat) {queue : List V}
    (ends : ∀ a ∈ queue, ¬ Endless succs a) (marks : τ) :
    loop (pass succs act) fuel (queue, marks) =
      loop (pass (cut succs) act) fuel (queue, marks) := by
  induction fuel generalizing queue marks with
  | zero => rfl
  | succ fuel ih =>
    cases queue with
    | nil => rfl
    | cons a rest =>
      have ha := ends a List.mem_cons_self
      have next : pass succs act (a :: rest, marks) = .next (rest ++ succs a, act marks a) := rfl
      have cutNext : pass (cut succs) act (a :: rest, marks) =
          .next (rest ++ succs a, act marks a) := by
        rw [← cut_eq ha]
        rfl
      rw [loop_next next, loop_next cutNext]
      refine ih ?_ _
      intro b hb
      rcases List.mem_append.mp hb with hb | hb
      · exact ends b (List.mem_cons_of_mem a hb)
      · exact fun endless => ha (endless.of_leads hb)

/-- An endless vertex in the queue is followed by another one. -/
theorem loop_endless (act : τ → V → τ) (fuel : Nat) {queue : List V}
    (endless : ∃ a ∈ queue, Endless succs a) (marks : τ) :
    loop (pass succs act) fuel (queue, marks) = none := by
  refine loop_never (fun st => ∃ a ∈ st.1, Endless succs a) ?_ endless fuel
  rintro ⟨queue, marks⟩ ⟨a, ha, hend⟩
  cases queue with
  | nil => cases ha
  | cons b rest =>
    refine ⟨_, rfl, ?_⟩
    rcases List.mem_cons.mp ha with rfl | ha
    · obtain ⟨c, hc, hend⟩ := hend.exists_leads
      exact ⟨c, List.mem_append_right rest hc, hend⟩
    · exact ⟨a, List.mem_append_left _ ha, hend⟩

/-- The queue becomes empty exactly if no cycle can be reached from it. -/
theorem ends_iff [Finite V] (succs : V → List V) (act : τ → V → τ) (queue : List V) (marks : τ) :
    (∃ fuel r, loop (pass succs act) fuel (queue, marks) = some r) ↔
      ∀ a ∈ queue, ¬ Endless succs a := by
  constructor
  · rintro ⟨fuel, r, h⟩ a ha endless
    rw [loop_endless act fuel ⟨a, ha, endless⟩] at h
    cases h
  · intro ends
    obtain ⟨met, -, enough, h⟩ := exists_passes act acyclic_cut queue
    refine ⟨enough, met.foldl act marks, ?_⟩
    rw [loop_cut act enough ends]
    exact h enough le_rfl marks

end Endless

end Worklists
