import LdbcInteractive.Common
import LdbcInteractive.Selections
import LdbcInteractive.CachedTops
import LdbcInteractive.Worklists
import Mathlib.Data.Set.Card

/-!
# IC12: friends who reply to posts under a tag class

The classes below the given one are walked with a queue and no record of the classes
already met. The heap of friends is guarded by a cached smallest count.
-/

namespace LdbcInteractive

open EdgeTables PriorityQueues DatedOrders Loops Worklists

namespace IC12

def kTopN : Nat := 20

@[ext]
structure PersonResult (G : Graph) where
  replyCount : Int
  personVid : G.Person
  personId : Int
  deriving DecidableEq

section Queue
variable {G : Graph}

/-- The comparison of `PersonResultComparer`. -/
def personBefore (lhs rhs : PersonResult G) : Bool :=
  if lhs.replyCount > rhs.replyCount then true
  else if lhs.replyCount < rhs.replyCount then false
  else lhs.personId < rhs.personId

theorem personBefore_iff (a b : PersonResult G) :
    personBefore a b = true ↔ b.replyCount < a.replyCount ∨
      a.replyCount = b.replyCount ∧
        OrderDual.toDual b.personId < OrderDual.toDual a.personId := dateTest_iff

def personResultComparer (G : Graph) : Comparer (PersonResult G) :=
  datedComparer personBefore PersonResult.replyCount
    (fun r => OrderDual.toDual r.personId) personBefore_iff

def byCount (G : Graph) : Dated (personResultComparer G) Int Intᵒᵈ :=
  .ofComparer personBefore PersonResult.replyCount (fun r => OrderDual.toDual r.personId)
    personBefore_iff

abbrev Queue (G : Graph) := PriorityQueue (personResultComparer G)

end Queue

section Query
variable (G : Graph)

/-- The queue of classes with the marks of the tags. -/
structure ClassWalk where
  q : List G.TagClass
  tagSet : G.Tag → Bool

def walkStep (st : ClassWalk G) : Control (ClassWalk G) (G.Tag → Bool) :=
  match st.q with
  | [] => .done st.tagSet
  | current :: rest =>
    .next ⟨rest ++ G.isSubclassOf.incoming current,
      markAll st.tagSet (G.hasType.incoming current)⟩

/-- `none` when the walk has not ended after `passes` classes. -/
def collectTagsInClass (passes : Nat) (tagClassVid : G.TagClass) : Option (G.Tag → Bool) :=
  loop (walkStep G) passes ⟨[tagClassVid], fun _ => false⟩

variable (tagSet : G.Tag → Bool)

/-- The tags of the post that a comment replies to; replies to comments have none. -/
def repliedTags (commentVid : G.Comment) : List G.Tag :=
  match getSingleOutNeighbor G.replyOfPost.outgoing commentVid with
  | none => []
  | some postVid => G.postHasTag.outgoing postVid

def countReplies (friendVid : G.Person) : Int :=
  (G.commentHasCreator.incoming friendVid).foldl (fun count commentVid =>
    if (repliedTags G commentVid).any tagSet then count + 1 else count) 0

/-- The heap with the cached count `min_count`. -/
structure Scan where
  pq : Queue G
  minCount : Int

/-- `min_count = pq.top().reply_count`. -/
def cacheTop (pq : Queue G) (minCount : Int) : Scan G :=
  ⟨pq, (pq.top?.map PersonResult.replyCount).getD minCount⟩

def considerFriend (st : Scan G) (friendVid : G.Person) : Scan G :=
  let count := countReplies G tagSet friendVid
  let candidate : PersonResult G := ⟨count, friendVid, G.personId friendVid⟩
  if count = 0 then st
  else if st.pq.size < kTopN then
    let pq := st.pq.push candidate
    if pq.size = kTopN then cacheTop G pq st.minCount else { st with pq := pq }
  else if count > st.minCount then cacheTop G (st.pq.pop.push candidate) st.minCount
  else if count = st.minCount then
    match st.pq.top? with
    | none => st
    | some worst =>
      if candidate.personId < worst.personId then { st with pq := st.pq.pop.push candidate }
      else st
  else st

structure Row where
  personId : Int
  personFirstName : String
  personLastName : String
  tagNames : List String
  replyCount : Int
  deriving DecidableEq

def distinctTags (personVid : G.Person) : Finset G.Tag :=
  (G.commentHasCreator.incoming personVid).foldl (fun tags commentVid =>
    (repliedTags G commentVid).foldl (fun tags tagVid =>
      if tagSet tagVid then insert tagVid tags else tags) tags) ∅

def row (result : PersonResult G) : Row where
  personId := result.personId
  personFirstName := G.firstName result.personVid
  personLastName := G.lastName result.personVid
  tagNames := (inOrder (distinctTags G tagSet result.personVid)).map G.tagName
  replyCount := result.replyCount

def exec (passes : Nat) (personId : Int) (tagClassName : String) : Option (List Row) :=
  match getVertexIndex G.personId personId with
  | none => some []
  | some root =>
    match findVertexByStringProp G.tagClassName tagClassName with
    | none => some []
    | some tagClassVid => do
      let tagSet ← collectTagsInClass G passes tagClassVid
      let st := foreachKnowsNeighbor G.knows root (considerFriend G tagSet) ⟨.empty, 0⟩
      return st.pq.drain.reverse.map (row G tagSet)

end Query

section Walk
variable {G : Graph}

def SubclassOf (a b : G.TagClass) : Prop := b ∈ G.isSubclassOf.outgoing a

/-- The tag has an edge to the class or to one that reaches it. -/
def InClass (cls : G.TagClass) (tag : G.Tag) : Prop :=
  ∃ c ∈ G.hasType.outgoing tag, Relation.ReflTransGen SubclassOf c cls

theorem leads_subclasses :
    Leads G.isSubclassOf.incoming = Function.swap (SubclassOf (G := G)) := by
  funext a b
  exact propext (G.isSubclassOf.mem_incoming b a)

theorem loop_walkStep (passes : Nat) (st : ClassWalk G) :
    loop (walkStep G) passes st =
      loop (pass G.isSubclassOf.incoming fun tagSet c =>
        markAll tagSet (G.hasType.incoming c)) passes (st.q, st.tagSet) := by
  induction passes generalizing st with
  | zero => rfl
  | succ passes ih =>
    cases st with
    | mk q tagSet =>
      cases q with
      | nil => rfl
      | cons current rest => exact ih _

/-- The walk ends, and marks the tags of the class. -/
theorem collectTagsInClass_spec (acyclic : ∀ c : G.TagClass, ¬ Relation.TransGen SubclassOf c c)
    (cls : G.TagClass) :
    ∃ tagSet : G.Tag → Bool, (∀ tag, tagSet tag = true ↔ InClass cls tag) ∧
      ∃ enough, ∀ passes ≥ enough, collectTagsInClass G passes cls = some tagSet := by
  have finite : Acyclic G.isSubclassOf.incoming := by
    intro c hc
    rw [leads_subclasses, Relation.transGen_swap] at hc
    exact acyclic c hc
  obtain ⟨met, hmet, enough, hloop⟩ := exists_passes
    (fun tagSet c => markAll tagSet (G.hasType.incoming c)) finite [cls]
  refine ⟨markAll (fun _ => false) (met.flatMap G.hasType.incoming), ?_, enough, ?_⟩
  · intro tag
    rw [markAll_eq, Bool.false_or, decide_eq_true_eq, List.mem_flatMap]
    refine exists_congr fun c => ?_
    have reached : c ∈ met ↔ Relation.ReflTransGen SubclassOf c cls := by
      rw [hmet, ← Relation.reflTransGen_swap, ← leads_subclasses]
      simp [Below]
    rw [reached, G.hasType.mem_incoming, and_comm]
  · intro passes hpasses
    rw [collectTagsInClass, loop_walkStep, hloop passes hpasses]
    simp only [markAll, List.foldl_flatMap]

end Walk

section Counting
variable {G : Graph} {tagSet : G.Tag → Bool}

/-- The post that the comment replies to carries the tag. -/
def RepliesUnder (comment : G.Comment) (tag : G.Tag) : Prop :=
  ∃ post, (G.replyOfPost.outgoing comment).head? = some post ∧ tag ∈ G.postHasTag.outgoing post

theorem mem_repliedTags {comment : G.Comment} {tag : G.Tag} :
    tag ∈ repliedTags G comment ↔ RepliesUnder comment tag := by
  unfold repliedTags RepliesUnder getSingleOutNeighbor
  cases (G.replyOfPost.outgoing comment).head? with
  | none => simp
  | some post => simp

theorem foldl_count {α : Type} (test : α → Bool) (xs : List α) (count : Int) :
    xs.foldl (fun count x => if test x then count + 1 else count) count =
      count + xs.countP test := by
  induction xs generalizing count with
  | nil => simp
  | cons x rest ih =>
    cases hx : test x with
    | true =>
      simp [ih, hx]
      omega
    | false => simp [ih, hx]

/-- The comments of a person that count for the class. -/
def repliesOf (cls : G.TagClass) (v : G.Person) : Set G.Comment :=
  {comment | v ∈ G.commentHasCreator.outgoing comment ∧
    ∃ tag, InClass cls tag ∧ RepliesUnder comment tag}

def candidate (tagSet : G.Tag → Bool) (v : G.Person) : PersonResult G :=
  ⟨countReplies G tagSet v, v, G.personId v⟩

/-- What a list of friends offers to the heap. -/
def withReplies (tagSet : G.Tag → Bool) (friends : List G.Person) : List (PersonResult G) :=
  (friends.filter fun v => countReplies G tagSet v ≠ 0).map (candidate tagSet)

/-- A friend with replies is offered to the heap, in spite of the cached count. -/
theorem considerFriend_eq (tagSet : G.Tag → Bool) {st : Scan G}
    (caches : (byCount G).Caches kTopN st.pq st.minCount)
    (v : G.Person) :
    (considerFriend G tagSet st v).pq =
        (if countReplies G tagSet v = 0 then st.pq
          else st.pq.offer kTopN personBefore (candidate tagSet v)) ∧
      (byCount G).Caches kTopN (considerFriend G tagSet st v).pq
        (considerFriend G tagSet st v).minCount := by
  unfold considerFriend
  by_cases hzero : countReplies G tagSet v = 0
  · simp only [hzero, if_true]
    exact ⟨trivial, caches⟩
  · by_cases room : st.pq.size < kTopN
    · simp only [hzero, room, if_true, if_false, PriorityQueue.offer_of_lt room]
      split
      · exact ⟨rfl, (byCount G).caches_top⟩
      · have hsize : (st.pq.push (candidate tagSet v)).size < kTopN :=
          lt_of_le_of_ne ((PriorityQueue.size_push _ _).trans_le room) ‹_›
        exact ⟨rfl, (byCount G).caches_of_room hsize⟩
    · simp only [hzero, room, if_false]
      refine caches.consider (by decide) room ?_ ?_ ?_
      · intro older
        have hcount : countReplies G tagSet v < st.minCount := older
        simp only [hcount.not_gt, hcount.ne, if_false]
        exact ⟨trivial, trivial⟩
      · intro worst htop tie
        have hcount : countReplies G tagSet v = st.minCount := tie
        rw [if_neg hcount.not_gt, if_pos hcount, htop]
        exact Dated.ite_scan Scan.pq Scan.minCount rfl rfl
      · intro newer
        have hcount : countReplies G tagSet v > st.minCount := newer
        simp only [hcount, if_true]
        exact ⟨rfl, rfl⟩

theorem foldl_considerFriend (tagSet : G.Tag → Bool) (friends : List G.Person) (st : Scan G)
    (caches : (byCount G).Caches kTopN st.pq st.minCount) :
    (friends.foldl (considerFriend G tagSet) st).pq =
      (withReplies tagSet friends).foldl (PriorityQueue.offer kTopN personBefore) st.pq := by
  induction friends generalizing st with
  | nil => rfl
  | cons v rest ih =>
    obtain ⟨hpq, hcaches⟩ := considerFriend_eq tagSet caches v
    refine (ih _ hcaches).trans ?_
    rw [hpq]
    by_cases hzero : countReplies G tagSet v = 0
    · simp [withReplies, hzero]
    · simp [withReplies, hzero]

theorem mem_foldl_insert (tags : List G.Tag) (start : Finset G.Tag) (tag : G.Tag) :
    tag ∈ tags.foldl (fun set t => if tagSet t then insert t set else set) start ↔
      tag ∈ start ∨ tag ∈ tags ∧ tagSet tag = true := by
  induction tags generalizing start with
  | nil => simp
  | cons t rest ih =>
    simp only [List.foldl_cons, ih, List.mem_cons]
    cases ht : tagSet t with
    | true =>
      simp only [if_true, Finset.mem_insert]
      constructor
      · rintro ((rfl | h) | h)
        · exact Or.inr ⟨Or.inl rfl, ht⟩
        · exact Or.inl h
        · exact Or.inr ⟨Or.inr h.1, h.2⟩
      · rintro (h | ⟨rfl | h, hmark⟩)
        · exact Or.inl (Or.inr h)
        · exact Or.inl (Or.inl rfl)
        · exact Or.inr ⟨h, hmark⟩
    | false =>
      refine or_congr_right (and_congr_left fun hmark => (or_iff_right ?_).symm)
      rintro rfl
      exact absurd (hmark.symm.trans ht) (by decide)

theorem mem_distinctTags {v : G.Person} {tag : G.Tag} :
    tag ∈ distinctTags G tagSet v ↔ tagSet tag = true ∧
      ∃ comment, v ∈ G.commentHasCreator.outgoing comment ∧ RepliesUnder comment tag := by
  have flat : distinctTags G tagSet v = ((G.commentHasCreator.incoming v).flatMap
      (repliedTags G)).foldl (fun set t => if tagSet t then insert t set else set) ∅ :=
    List.foldl_flatMap.symm
  rw [flat, mem_foldl_insert]
  simp [mem_repliedTags, G.commentHasCreator.mem_incoming, and_comm]

end Counting

section Result
variable {G : Graph}

/-- The rows for a root and a class, once the class is collected. -/
theorem exec_eq {passes : Nat} {name : String} {cls : G.TagClass} {tagSet : G.Tag → Bool}
    (found : findVertexByStringProp G.tagClassName name = some cls)
    (collected : collectTagsInClass G passes cls = some tagSet) (root : G.Person) :
    exec G passes (G.personId root) name =
      some (((personResultComparer G).firstN kTopN (withReplies tagSet
        (G.knows.outgoing root ++ G.knows.incoming root))).map (row G tagSet)) := by
  have caches : (byCount G).Caches kTopN (.empty : Queue G) 0 :=
    (byCount G).caches_of_room (Nat.zero_lt_succ _)
  have held := foldl_considerFriend tagSet (G.knows.outgoing root ++ G.knows.incoming root)
    ⟨.empty, 0⟩ caches
  simp only [exec, getVertexIndex_self G.personKey, found, collected, foreachKnowsNeighbor,
    ← List.foldl_append, Option.bind_eq_bind, Option.bind_some, held]
  exact congrArg (fun rs => some (rs.map (row G tagSet)))
    (PriorityQueue.drain_foldl_offer (fun _ _ => rfl) _)

theorem lessons_small : 3 ≤ kInvalidVid := by decide

/-- Three classes in a row, and a tag of the lowest one on a post with one reply. -/
def lessons : Graph :=
  { Graph.numbered 3 1 2 lessons_small (.ofNumbers [(0, 1, ()), (2, 0, ())]) with
    tagNum := 2
    tagName := fun v => if v.val = 0 then "Plato" else "Rome"
    tagClassNum := 3
    tagClassName := fun v => if v.val = 0 then "Thing" else if v.val = 1 then "Person" else "Writer"
    postHasTag := .ofNumbers [(0, 0, ()), (0, 1, ())]
    hasInterest := .ofNumbers []
    hasType := .ofNumbers [(0, 2, ()), (1, 0, ())]
    isSubclassOf := .ofNumbers [(1, 0, ()), (2, 1, ()), (2, 0, ())]
    commentHasCreator := .ofNumbers [(0, 1, 5), (1, 2, 6)]
    replyOfPost := .ofNumbers [(0, 0, ())] }

example : (exec lessons 10 0 "Person").map (List.map fun r => (r.personId, r.tagNames)) =
    some [(1, ["Plato"])] := by decide +kernel

end Result

end IC12

end LdbcInteractive
