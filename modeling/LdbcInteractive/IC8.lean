import LdbcInteractive.Common
import LdbcInteractive.TieEvictions

/-!
# IC8: the most recent replies to a person's messages

The replies to the posts and then to the comments of the root are offered to a
priority queue of 20. The comparison of the queue and the test against its top
disagree on replies of one date, so that the result depends on the order of arrival.
-/

namespace LdbcInteractive

open EdgeTables PriorityQueues DatedOrders

namespace IC8

def kTopN : Nat := 20

structure CommentResult (G : Graph) where
  commentVid : G.Comment
  authorVid : G.Person
  creationDateMs : Int
  commentId : Int
  deriving DecidableEq

section Queue
variable {G : Graph}

/-- The comparison of `CommentResultComparer`. -/
def commentBefore (lhs rhs : CommentResult G) : Bool :=
  if lhs.creationDateMs > rhs.creationDateMs then true
  else if lhs.creationDateMs < rhs.creationDateMs then false
  else lhs.commentId > rhs.commentId

theorem commentBefore_iff (a b : CommentResult G) :
    commentBefore a b = true ↔ b.creationDateMs < a.creationDateMs ∨
      a.creationDateMs = b.creationDateMs ∧ b.commentId < a.commentId := dateTest_iff

def commentResultComparer (G : Graph) : Comparer (CommentResult G) :=
  datedComparer commentBefore CommentResult.creationDateMs CommentResult.commentId
    commentBefore_iff

def byDate (G : Graph) : Dated (commentResultComparer G) Int Int :=
  .ofComparer commentBefore CommentResult.creationDateMs CommentResult.commentId
    commentBefore_iff

abbrev Queue (G : Graph) := PriorityQueue (commentResultComparer G)

def considerComment (pq : Queue G) (candidate : CommentResult G) : Queue G :=
  if pq.size < kTopN then pq.push candidate
  else match pq.top? with
    | none => pq
    | some worst =>
      if candidate.creationDateMs > worst.creationDateMs then pq.pop.push candidate
      else if candidate.creationDateMs = worst.creationDateMs ∧
          candidate.commentId < worst.commentId then pq.pop.push candidate
      else pq

theorem considerComment_eq :
    considerComment (G := G) = PriorityQueue.offer kTopN (byDate G).reversed := by
  funext pq candidate
  refine PriorityQueue.eq_offer (by decide) ?_ ?_
  · intro room
    exact if_pos room
  · intro worst full top
    rw [considerComment, if_neg full, top]
    exact (byDate G).if_reversed candidate worst _ _

end Queue

section Query
variable (G : Graph)

/-- A reply with its author and the date of its HASCREATOR edge. -/
def commentInfo (commentVid : G.Comment) (author : G.Person × DateTime) : CommentResult G where
  commentVid := commentVid
  authorVid := author.1
  creationDateMs := author.2
  commentId := G.commentId commentVid

/-- The iterator to the author is dereferenced without a test for the end. -/
def scanReplies {M : Type} (replyIn : CsrView M G.Comment) (messageVid : M) (pq : Queue G) :
    Option (Queue G) :=
  (replyIn messageVid).foldlM (fun pq commentVid => do
    let author ← (G.commentHasCreator.outEdges commentVid).head?
    return considerComment pq (commentInfo G commentVid author)) pq

/-- The heap after both loops of `exec`. -/
def scanRoot (root : G.Person) : Option (Queue G) := do
  let pq ← (G.postHasCreator.incoming root).foldlM
    (fun pq post => scanReplies G G.replyOfPost.incoming post pq) .empty
  (G.commentHasCreator.incoming root).foldlM
    (fun pq comment => scanReplies G G.replyOfComment.incoming comment pq) pq

structure Row where
  personId : Int
  personFirstName : String
  personLastName : String
  commentCreationDate : DateTime
  commentId : Int
  commentContent : String
  deriving DecidableEq

def row (result : CommentResult G) : Row where
  personId := G.personId result.authorVid
  personFirstName := G.firstName result.authorVid
  personLastName := G.lastName result.authorVid
  commentCreationDate := result.creationDateMs
  commentId := result.commentId
  commentContent := G.commentContent result.commentVid

def exec (personId : Int) : Option (List Row) :=
  match getVertexIndex G.personId personId with
  | none => some []
  | some root => do
    let pq ← scanRoot G root
    return pq.drain.reverse.map (row G)

end Query

end IC8

section Replies
open IC8
variable (G : Graph)

/-- The replies among the given comments that have an author. -/
def repliesOf (comments : List G.Comment) : List (CommentResult G) :=
  comments.filterMap fun comment =>
    (G.commentHasCreator.outEdges comment).head?.map (commentInfo G comment)

/-- The comments that reply to a message of the root, in the order of the scan. -/
def directReplies (root : G.Person) : List G.Comment :=
  (G.postHasCreator.incoming root).flatMap G.replyOfPost.incoming ++
    (G.commentHasCreator.incoming root).flatMap G.replyOfComment.incoming

def feed (replies : List (CommentResult G)) : Queue G := replies.foldl considerComment .empty

variable {G}

theorem scanReplies_eq {M : Type} (replyIn : CsrView M G.Comment) (messageVid : M) (pq : Queue G)
    (authored : ∀ c ∈ replyIn messageVid, G.commentHasCreator.outEdges c ≠ []) :
    scanReplies G replyIn messageVid pq =
      some ((repliesOf G (replyIn messageVid)).foldl considerComment pq) := by
  unfold scanReplies
  generalize replyIn messageVid = comments at authored ⊢
  induction comments generalizing pq with
  | nil => rfl
  | cons comment rest ih =>
    obtain ⟨author, hauthor⟩ : ∃ a, (G.commentHasCreator.outEdges comment).head? = some a :=
      ⟨_, List.head?_eq_some_head (authored comment List.mem_cons_self)⟩
    simp only [List.foldlM_cons, hauthor, repliesOf, List.filterMap_cons, Option.map_some]
    exact ih _ fun c hc => authored c (List.mem_cons_of_mem _ hc)

theorem scanAll_eq {M : Type} (replyIn : CsrView M G.Comment) (messages : List M) (pq : Queue G)
    (authored : ∀ c ∈ messages.flatMap replyIn, G.commentHasCreator.outEdges c ≠ []) :
    messages.foldlM (fun pq m => scanReplies G replyIn m pq) pq =
      some ((repliesOf G (messages.flatMap replyIn)).foldl considerComment pq) := by
  induction messages generalizing pq with
  | nil => rfl
  | cons m rest ih =>
    rw [List.flatMap_cons] at authored
    rw [List.foldlM_cons, scanReplies_eq replyIn m pq fun c hc =>
      authored c (List.mem_append_left _ hc)]
    refine (ih _ fun c hc => authored c (List.mem_append_right _ hc)).trans ?_
    rw [List.flatMap_cons, repliesOf, repliesOf, repliesOf, List.filterMap_append,
      List.foldl_append]

/-- Both loops feed the heap with the replies to the root's messages, one after the other. -/
theorem scanRoot_eq {root : G.Person}
    (authored : ∀ c ∈ directReplies G root, G.commentHasCreator.outEdges c ≠ []) :
    scanRoot G root = some (feed G (repliesOf G (directReplies G root))) := by
  rw [scanRoot, scanAll_eq G.replyOfPost.incoming _ _ fun c hc =>
    authored c (List.mem_append_left _ hc)]
  refine (scanAll_eq G.replyOfComment.incoming _ _ fun c hc =>
    authored c (List.mem_append_right _ hc)).trans ?_
  rw [feed, directReplies, repliesOf, repliesOf, repliesOf, List.filterMap_append,
    List.foldl_append]

/-- One reply list, fed in any order: the drained and reversed heap is the selection exactly
if the ties of that order are settled, and no order fails exactly if no tie is cut apart. -/
theorem first_replies_iff (G : Graph) (root : G.Person)
    (authored : ∀ c ∈ directReplies G root, G.commentHasCreator.outEdges c ≠ [])
    (distinct : ((repliesOf G (directReplies G root)).map CommentResult.commentId).Nodup) :
    let replies := repliesOf G (directReplies G root)
    let selection := (commentResultComparer G).firstN kTopN replies
    scanRoot G root = some (feed G replies) ∧
      (∀ arrival : List (CommentResult G), arrival.Perm replies →
        ((feed G arrival).drain.reverse = selection ↔ (byDate G).Settled kTopN arrival)) ∧
      ((∀ arrival : List (CommentResult G), arrival.Perm replies →
          (feed G arrival).drain.reverse = selection) ↔
        ∀ date, (byDate G).Cutoff kTopN replies date →
          replies.countP (fun r => date ≤ r.creationDateMs) = kTopN) := by
  have drained : ∀ arrival : List (CommentResult G), (feed G arrival).drain.reverse =
      (arrival.foldl (PriorityQueue.offer kTopN (byDate G).reversed)
        (PriorityQueue.empty : Queue G)).items := by
    intro arrival
    rw [PriorityQueue.drain, List.reverse_reverse, feed, considerComment_eq]
  have separates := (byDate G).separates distinct
  refine ⟨scanRoot_eq authored, fun arrival perm => ?_, ?_⟩
  · have hdistinct := (perm.map CommentResult.commentId).nodup_iff.mpr distinct
    rw [drained, ← (commentResultComparer G).firstN_congr ((byDate G).separates hdistinct) perm]
    exact Dated.foldl_reversed_iff (by decide) hdistinct
  · simp only [drained]
    exact Dated.every_order_iff (by decide) distinct

theorem sameDayReplies_small : 1 ≤ kInvalidVid := by decide

/-- One person, one post of theirs, and `n` replies of theirs to it, all of one date. -/
def sameDayReplies (n : Nat) : Graph :=
  { Graph.numbered 1 1 n sameDayReplies_small (.ofNumbers []) with
    postHasCreator := .ofNumbers [(0, 0, 0)]
    commentHasCreator := .ofNumbers ((List.range n).map fun c => (c, 0, 0))
    replyOfPost := .ofNumbers ((List.range n).map fun c => (c, 0, ())) }

/-- With 21 replies of one date the order of the scan is not a settled one, and there is no room
for the date at the cut. -/
theorem first_replies_iff_same_day :
    let replies := repliesOf (sameDayReplies 21) (directReplies (sameDayReplies 21) (0 : Fin 1))
    let selection := (commentResultComparer (sameDayReplies 21)).firstN kTopN replies
    scanRoot (sameDayReplies 21) (0 : Fin 1) = some (feed _ replies) ∧
      ((feed _ replies).drain.reverse = selection ↔ (byDate _).Settled kTopN replies) ∧
      ¬ (byDate _).Settled kTopN replies ∧
      ((∀ arrival : List (CommentResult (sameDayReplies 21)), arrival.Perm replies →
          (feed _ arrival).drain.reverse = selection) ↔
        ∀ date, (byDate _).Cutoff kTopN replies date →
          replies.countP (fun r => date ≤ r.creationDateMs) = kTopN) ∧
      (byDate _).Cutoff kTopN replies 0 ∧
      replies.countP (fun r => 0 ≤ r.creationDateMs) ≠ kTopN := by
  intro replies selection
  obtain ⟨scan, each, every⟩ :=
    first_replies_iff (sameDayReplies 21) (0 : Fin 1) (by decide +kernel) (by decide +kernel)
  have scanned := each replies (List.Perm.refl _)
  have missed : (feed _ replies).drain.reverse ≠ selection := by decide +kernel
  have cutoff : (byDate _).Cutoff kTopN replies 0 := by
    unfold Dated.Cutoff
    decide +kernel
  exact ⟨scan, scanned, mt scanned.mpr missed, every, cutoff, by decide +kernel⟩

/-- Of 21 replies of one date with rising ids the heap keeps the ids 0 to 19, while the
comparison puts the ids 20 to 1 first. -/
theorem first_replies_reversed_tie :
    (∀ c ∈ directReplies (sameDayReplies 21) (0 : Fin 1),
      (sameDayReplies 21).commentHasCreator.outEdges c ≠ []) ∧
    ((repliesOf _ (directReplies (sameDayReplies 21) (0 : Fin 1))).map
      CommentResult.commentId).Nodup ∧
    (scanRoot (sameDayReplies 21) (0 : Fin 1)).map (fun pq => pq.drain.reverse) ≠
      some ((commentResultComparer _).firstN kTopN
        (repliesOf _ (directReplies (sameDayReplies 21) (0 : Fin 1)))) := by
  decide +kernel

end Replies

end LdbcInteractive
