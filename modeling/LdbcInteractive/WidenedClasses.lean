import LdbcInteractive.MutualRows

/-!
# IC12 from a class to one above it

The tags of a class are among those of each class above it, so a friend who is listed for
the lower class replied at least as often under the upper one, to posts with all the tags
named before; the friend may only be missing there from a list that is full.
-/

namespace LdbcInteractive

open EdgeTables PriorityQueues IC12

section Widening
variable {G : Graph} {root v : G.Person} {tagSet tagSet' : G.Tag → Bool}

theorem IC12.InClass.above {cls upper : G.TagClass} {tag : G.Tag} (inClass : InClass cls tag)
    (below : Relation.ReflTransGen SubclassOf cls upper) : InClass upper tag := by
  obtain ⟨c, typed, reach⟩ := inClass
  exact ⟨c, typed, reach.trans below⟩

theorem countReplies_mono (wider : ∀ tag, tagSet tag = true → tagSet' tag = true)
    (v : G.Person) : countReplies G tagSet v ≤ countReplies G tagSet' v := by
  rw [countReplies, countReplies, foldl_count, foldl_count, zero_add, zero_add]
  refine Int.ofNat_le.mpr (List.countP_mono_left fun comment _ counts => ?_)
  obtain ⟨tag, replied, marked⟩ := List.any_eq_true.mp counts
  exact List.any_eq_true.mpr ⟨tag, replied, wider tag marked⟩

theorem countReplies_nonneg (tagSet : G.Tag → Bool) (v : G.Person) :
    0 ≤ countReplies G tagSet v := by
  rw [countReplies, foldl_count, zero_add]
  exact Int.natCast_nonneg _

theorem tagNames_mono (wider : ∀ tag, tagSet tag = true → tagSet' tag = true) (v : G.Person) :
    (row G tagSet (candidate tagSet v)).tagNames ⊆
      (row G tagSet' (candidate tagSet' v)).tagNames := by
  refine List.map_subset _ fun tag listed => ?_
  obtain ⟨marked, replied⟩ := mem_distinctTags.mp (mem_inOrder.mp listed)
  exact mem_inOrder.mpr (mem_distinctTags.mpr ⟨wider tag marked, replied⟩)

/-- The rows of a list of friends, for one set of tags. -/
def replierRows (G : Graph) (tagSet : G.Tag → Bool) (friends : List G.Person) : List Row :=
  ((personResultComparer G).firstN kTopN (withReplies tagSet friends)).map (row G tagSet)

theorem mem_replierRows {friends : List G.Person} {r : Row}
    (hr : r ∈ replierRows G tagSet friends) :
    ∃ v ∈ friends, countReplies G tagSet v ≠ 0 ∧ r = row G tagSet (candidate tagSet v) := by
  obtain ⟨result, hresult, rfl⟩ := List.mem_map.mp hr
  obtain ⟨v, hv, rfl⟩ := List.mem_map.mp (mem_of_mem_firstN hresult)
  obtain ⟨friend, counted⟩ := List.mem_filter.mp hv
  exact ⟨v, friend, of_decide_eq_true counted, rfl⟩

theorem mem_replierRows_of_short {friends : List G.Person}
    (short : (replierRows G tagSet friends).length < 20) (friend : v ∈ friends)
    (counted : countReplies G tagSet v ≠ 0) :
    row G tagSet (candidate tagSet v) ∈ replierRows G tagSet friends := by
  rw [replierRows, List.length_map] at short
  exact List.mem_map_of_mem (Comparer.mem_firstN_of_short _ short
    (List.mem_map_of_mem (List.mem_filter.mpr ⟨friend, decide_eq_true counted⟩)))

theorem replierRows_widened (wider : ∀ tag, tagSet tag = true → tagSet' tag = true)
    (friends : List G.Person) :
    ∀ r ∈ replierRows G tagSet friends,
      (∀ r' ∈ replierRows G tagSet' friends, r'.personId = r.personId →
        r.replyCount ≤ r'.replyCount ∧ r.tagNames ⊆ r'.tagNames) ∧
      ((replierRows G tagSet' friends).length < 20 →
        ∃ r' ∈ replierRows G tagSet' friends, r'.personId = r.personId) := by
  intro r hr
  obtain ⟨v, friend, counted, rfl⟩ := mem_replierRows hr
  constructor
  · intro r' hr' same
    obtain ⟨w, -, -, rfl⟩ := mem_replierRows hr'
    obtain rfl : w = v := G.personKey same
    exact ⟨countReplies_mono wider w, tagNames_mono wider w⟩
  · intro short
    have more := countReplies_mono wider v
    have nonneg := countReplies_nonneg tagSet v
    have counted' : countReplies G tagSet' v ≠ 0 := by omega
    exact ⟨_, mem_replierRows_of_short short friend counted', rfl⟩

end Widening

/-- The rows for a class and for one above it, once both walks over the classes have ended. -/
theorem repliers_widened (G : Graph) (names : Function.Injective G.tagClassName)
    (acyclic : ∀ c : G.TagClass, ¬ Relation.TransGen SubclassOf c c) (personId : Int)
    (cls upper : G.TagClass) (below : Relation.ReflTransGen SubclassOf cls upper) :
    ∃ enough, ∀ passes ≥ enough, ∃ rows rows',
      exec G passes personId (G.tagClassName cls) = some rows ∧
      exec G passes personId (G.tagClassName upper) = some rows' ∧
      ∀ r ∈ rows,
        (∀ r' ∈ rows', r'.personId = r.personId →
          r.replyCount ≤ r'.replyCount ∧ r.tagNames ⊆ r'.tagNames) ∧
        (rows'.length < 20 → ∃ r' ∈ rows', r'.personId = r.personId) := by
  cases known : getVertexIndex G.personId personId with
  | none =>
    refine ⟨0, fun passes _ => ⟨[], [], ?_, ?_, ?_⟩⟩
    · simp only [exec, known]
    · simp only [exec, known]
    · intro r hr
      cases hr
  | some root =>
    obtain rfl := getVertexIndex_id known
    have found : ∀ c, findVertexByStringProp G.tagClassName (G.tagClassName c) = some c := fun c =>
      findVertexByStringProp_eq_some rfl fun d before same => before.ne (names same)
    obtain ⟨tagSet, marks, n, collected⟩ := collectTagsInClass_spec acyclic cls
    obtain ⟨tagSet', marks', m, collected'⟩ := collectTagsInClass_spec acyclic upper
    have wider : ∀ tag, tagSet tag = true → tagSet' tag = true := fun tag marked =>
      (marks' tag).mpr (((marks tag).mp marked).above below)
    refine ⟨max n m, fun passes hpasses => ?_⟩
    exact ⟨_, _, exec_eq (found cls) (collected passes (le_of_max_le_left hpasses)) root,
      exec_eq (found upper) (collected' passes (le_of_max_le_right hpasses)) root,
      replierRows_widened wider _⟩

theorem lessons_subclass : @SubclassOf lessons (1 : Fin 3) (0 : Fin 3) := List.mem_singleton_self _

theorem repliers_widened_lessons :
    ∃ enough, ∀ passes ≥ enough, ∃ rows rows',
      exec lessons passes 0 "Person" = some rows ∧ exec lessons passes 0 "Thing" = some rows' ∧
      ∀ r ∈ rows,
        (∀ r' ∈ rows', r'.personId = r.personId →
          r.replyCount ≤ r'.replyCount ∧ r.tagNames ⊆ r'.tagNames) ∧
        (rows'.length < 20 → ∃ r' ∈ rows', r'.personId = r.personId) :=
  repliers_widened lessons (by decide +kernel)
    (Worklists.acyclic_of_rank Fin.val (by decide +kernel)) 0 (1 : Fin 3) (0 : Fin 3)
    (.single lessons_subclass)

end LdbcInteractive
