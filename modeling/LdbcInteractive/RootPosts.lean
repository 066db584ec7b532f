import LdbcInteractive.Chains
import LdbcInteractive.Common

/-!
# The root post of a message

`resolve_root_post` is a search along the chain of first parents: it stops at the first
comment that replies to a post. Where the chain repeats no comment the search ends, and
its result is the same for a comment without a post and for its parent.
-/

namespace LdbcInteractive

open Chains EdgeTables Loops

section
variable {P C : Type}

/-- The loop returns `r` after finitely many passes. -/
def Resolves (commentToPost : CsrView C P) (commentToComment : CsrView C C)
    (message : MessageVertex P C) (r : Option P) : Prop :=
  ∃ enough, ∀ passes ≥ enough,
    resolveRootPost commentToPost commentToComment passes message = some r

variable {commentToPost : CsrView C P} {commentToComment : CsrView C C}

theorem resolveRootPost_comment (passes : Nat) (c : C) :
    resolveRootPost commentToPost commentToComment passes (.comment c) =
      loop (seek (getSingleOutNeighbor commentToPost) (getSingleOutNeighbor commentToComment))
        passes c := rfl

/-- A comment without a post hands over to its first parent. -/
theorem Resolves.parent {c parent : C} {r : Option P}
    (resolves : Resolves commentToPost commentToComment (.comment c) r)
    (noPost : getSingleOutNeighbor commentToPost c = none)
    (reply : getSingleOutNeighbor commentToComment c = some parent) :
    Resolves commentToPost commentToComment (.comment parent) r := by
  obtain ⟨enough, h⟩ := resolves
  refine ⟨enough, fun passes hpasses => ?_⟩
  have more := h (passes + 1) (Nat.le_succ_of_le hpasses)
  rwa [resolveRootPost_comment, loop_next (seek_next noPost reply)] at more

theorem resolves_iff {c : C} {r : Option P} :
    Resolves commentToPost commentToComment (.comment c) r ↔
      ∃ fuel, loop (seek (getSingleOutNeighbor commentToPost)
        (getSingleOutNeighbor commentToComment)) fuel c = some r := by
  constructor
  · rintro ⟨enough, h⟩
    exact ⟨enough, h enough le_rfl⟩
  · rintro ⟨enough, h⟩
    exact ⟨enough, fun passes hpasses => loop_mono hpasses h⟩

theorem resolves_some_iff {c : C} {postVid : P} :
    Resolves commentToPost commentToComment (.comment c) (some postVid) ↔
      FirstFound (getSingleOutNeighbor commentToPost) (getSingleOutNeighbor commentToComment)
        c postVid :=
  resolves_iff.trans loop_seek_found

theorem resolves_none_iff {c : C} :
    Resolves commentToPost commentToComment (.comment c) none ↔
      Exhausted (getSingleOutNeighbor commentToPost) (getSingleOutNeighbor commentToComment) c :=
  resolves_iff.trans loop_seek_exhausted

/-- On a thread without a repetition the result is the post of the earliest comment on the
chain that replies to one; it is the result for the parent of a comment without a post, and
it is a post if every comment replies to something. -/
theorem root_post_first [Finite C] (commentToPost : CsrView C P)
    (commentToComment : CsrView C C) (c : C)
    (distinct : NoRepeat (getSingleOutNeighbor commentToComment) c) :
    ∃ r : Option P, Resolves commentToPost commentToComment (.comment c) r ∧
      (∀ postVid, r = some postVid ↔
        FirstFound (getSingleOutNeighbor commentToPost) (getSingleOutNeighbor commentToComment)
          c postVid) ∧
      (r = none ↔ (∃ n, nth (getSingleOutNeighbor commentToComment) n c = none) ∧
        ∀ i ancestor, nth (getSingleOutNeighbor commentToComment) i c = some ancestor →
          getSingleOutNeighbor commentToPost ancestor = none) ∧
      (∀ parent, getSingleOutNeighbor commentToPost c = none →
        getSingleOutNeighbor commentToComment c = some parent →
        Resolves commentToPost commentToComment (.comment parent) r) ∧
      ((∀ comment, getSingleOutNeighbor commentToPost comment ≠ none ∨
        getSingleOutNeighbor commentToComment comment ≠ none) → r ≠ none) := by
  obtain ⟨r, resolves, hsome, hnone⟩ :=
    exists_seek (getSingleOutNeighbor commentToPost) distinct
  have resolves : Resolves commentToPost commentToComment (.comment c) r := resolves
  refine ⟨r, resolves, hsome, hnone, fun parent => resolves.parent, ?_⟩
  intro replies hr
  obtain ⟨⟨n, ends⟩, without⟩ := hnone.mp hr
  obtain ⟨i, last, hlast, noParent⟩ := exists_last ends
  rcases replies last with hpost | hparent
  · exact hpost (without i last hlast)
  · exact hparent noParent

/-- A thread of four comments, each a reply to the one before; the first two reply to posts as
well, and the search from the last stops at the second. -/
def threadToPost : CsrView (Fin 4) (Fin 2) :=
  (EdgeTable.ofNumbers [(0, 1, ()), (1, 0, ())]).outgoing

def threadToComment : CsrView (Fin 4) (Fin 4) :=
  (EdgeTable.ofNumbers [(1, 0, ()), (2, 1, ()), (3, 2, ())]).outgoing

theorem thread_noRepeat : NoRepeat (getSingleOutNeighbor threadToComment) (3 : Fin 4) :=
  noRepeat_of_end (n := 4) rfl

theorem root_post_first_thread :
    ∃ r : Option (Fin 2), Resolves threadToPost threadToComment (.comment (3 : Fin 4)) r ∧
      (r = some 0 ↔ FirstFound (getSingleOutNeighbor threadToPost)
        (getSingleOutNeighbor threadToComment) (3 : Fin 4) 0) := by
  obtain ⟨r, resolves, hsome, -⟩ := root_post_first threadToPost threadToComment 3 thread_noRepeat
  exact ⟨r, resolves, hsome 0⟩

example : resolveRootPost threadToPost threadToComment 3 (.comment (3 : Fin 4)) =
    some (some 0) := by decide

end

end LdbcInteractive
