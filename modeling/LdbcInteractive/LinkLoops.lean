import LdbcInteractive.IC12
import LdbcInteractive.RootPosts

/-!
# Loops that follow links without a record of what was met

The search for a root post and the walk down a class hierarchy end exactly if no link leads
back to a comment or a class that was met before. Nothing in an edge table excludes that.
-/

namespace LdbcInteractive

open Chains EdgeTables IC12 Loops Worklists

theorem exists_resolves_iff {P C : Type} [Finite C] {commentToPost : CsrView C P}
    {commentToComment : CsrView C C} {c : C} :
    (∃ r, Resolves commentToPost commentToComment (.comment c) r) ↔
      NoRepeat (unfound (getSingleOutNeighbor commentToPost)
        (getSingleOutNeighbor commentToComment)) c := by
  rw [← seek_ends_iff]
  constructor
  · rintro ⟨r, resolves⟩
    obtain ⟨fuel, h⟩ := resolves_iff.mp resolves
    exact ⟨fuel, r, h⟩
  · rintro ⟨fuel, r, h⟩
    exact ⟨r, resolves_iff.mpr ⟨fuel, h⟩⟩

theorem exists_collectTagsInClass_iff {G : Graph} {cls : G.TagClass} :
    (∃ tagSet enough, ∀ passes ≥ enough, collectTagsInClass G passes cls = some tagSet) ↔
      ∀ c : G.TagClass, Relation.ReflTransGen SubclassOf c cls →
        ¬ Relation.TransGen SubclassOf c c := by
  have ends := ends_iff G.isSubclassOf.incoming
    (fun tagSet c => markAll tagSet (G.hasType.incoming c)) [cls] fun _ => false
  simp only [List.mem_singleton, forall_eq, Endless, Below, leads_subclasses,
    Relation.reflTransGen_swap, Relation.transGen_swap, not_exists, not_and] at ends
  rw [← ends]
  constructor
  · rintro ⟨tagSet, enough, h⟩
    have last := h enough le_rfl
    rw [collectTagsInClass, loop_walkStep] at last
    exact ⟨enough, tagSet, last⟩
  · rintro ⟨enough, tagSet, h⟩
    refine ⟨tagSet, enough, fun passes hpasses => ?_⟩
    rw [collectTagsInClass, loop_walkStep]
    exact loop_mono hpasses h

/-- The search ends exactly if no comment repeats on the chain of first parents, as far as it
has no post, and the walk exactly if no class below the given one is on a cycle. -/
theorem link_loops_end_iff {P C : Type} [Finite C] (commentToPost : CsrView C P)
    (commentToComment : CsrView C C) (c : C) (G : Graph) (cls : G.TagClass) :
    ((∃ r, Resolves commentToPost commentToComment (.comment c) r) ↔
      NoRepeat (unfound (getSingleOutNeighbor commentToPost)
        (getSingleOutNeighbor commentToComment)) c) ∧
    ((∃ tagSet enough, ∀ passes ≥ enough, collectTagsInClass G passes cls = some tagSet) ↔
      ∀ c : G.TagClass, Relation.ReflTransGen SubclassOf c cls →
        ¬ Relation.TransGen SubclassOf c c) :=
  ⟨exists_resolves_iff, exists_collectTagsInClass_iff⟩

theorem selfLinks_small : 0 ≤ kInvalidVid := by decide

/-- A comment that replies to itself and a class below itself. -/
def selfLinks : Graph :=
  { Graph.numbered 0 0 1 selfLinks_small (.ofNumbers []) with
    tagClassNum := 1
    tagClassName := fun _ => "Thing"
    replyOfComment := .ofNumbers [(0, 0, ())]
    hasType := .ofNumbers []
    isSubclassOf := .ofNumbers [(0, 0, ())] }

theorem link_loops_end_iff_self :
    ((∃ r, Resolves selfLinks.replyOfPost.outgoing selfLinks.replyOfComment.outgoing
        (.comment (0 : Fin 1)) r) ↔
      NoRepeat (unfound (getSingleOutNeighbor selfLinks.replyOfPost.outgoing)
        (getSingleOutNeighbor selfLinks.replyOfComment.outgoing)) (0 : Fin 1)) ∧
    ((∃ tagSet enough, ∀ passes ≥ enough,
        collectTagsInClass selfLinks passes (0 : Fin 1) = some tagSet) ↔
      ∀ c : selfLinks.TagClass, Relation.ReflTransGen SubclassOf c (0 : Fin 1) →
        ¬ Relation.TransGen SubclassOf c c) :=
  link_loops_end_iff _ _ (0 : Fin 1) selfLinks (0 : Fin 1)

/-- Neither loop ends, whatever the number of passes. -/
theorem link_loops_run_on (passes : Nat) :
    resolveRootPost selfLinks.replyOfPost.outgoing selfLinks.replyOfComment.outgoing passes
        (.comment (0 : Fin 1)) = none ∧
      collectTagsInClass selfLinks passes (0 : Fin 1) = none := by
  constructor
  · refine loop_never (fun c => c = (0 : Fin 1)) ?_ rfl passes
    rintro _ rfl
    exact ⟨(0 : Fin 1), rfl, rfl⟩
  · refine loop_never (fun st => st.q = [(0 : Fin 1)]) ?_ rfl passes
    rintro ⟨q, tagSet⟩ hq
    obtain rfl : q = [(0 : Fin 1)] := hq
    exact ⟨_, rfl, rfl⟩

theorem link_loops_fail :
    (¬ ∃ passes r, resolveRootPost selfLinks.replyOfPost.outgoing
      selfLinks.replyOfComment.outgoing passes (.comment (0 : Fin 1)) = some r) ∧
      ¬ ∃ passes tagSet, collectTagsInClass selfLinks passes (0 : Fin 1) = some tagSet := by
  constructor
  · rintro ⟨passes, r, h⟩
    rw [(link_loops_run_on passes).1] at h
    cases h
  · rintro ⟨passes, tagSet, h⟩
    rw [(link_loops_run_on passes).2] at h
    cases h

end LdbcInteractive
