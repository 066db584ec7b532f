import LdbcInteractive.Messages
import LdbcInteractive.SortedRuns

/-!
# IC7: the latest likes of a person's messages

The likes are sorted by person, date and message; the first like of each person is
offered to a priority queue of another order. A liker is new when no KNOWS edge leads to
the root or back.
-/

namespace LdbcInteractive

open EdgeTables PriorityQueues DatedOrders

namespace IC7

def kTopN : Nat := 20

def kMillisPerMinute : Int := 60 * 1000

/-- The vertex number of the message and the flag `is_post` are one message. -/
@[ext]
structure LikeResult (G : Graph) where
  personVid : G.Person
  messageVid : G.Message
  likeDateMs : Int
  personId : Int
  messageId : Int
  deriving DecidableEq

section Orders
variable {G : Graph}

/-- The comparison of `LikeResultComparer`. -/
def likeBefore (lhs rhs : LikeResult G) : Bool :=
  if lhs.likeDateMs > rhs.likeDateMs then true
  else if lhs.likeDateMs < rhs.likeDateMs then false
  else lhs.personId < rhs.personId

theorem likeBefore_iff (a b : LikeResult G) :
    likeBefore a b = true ↔ b.likeDateMs < a.likeDateMs ∨
      a.likeDateMs = b.likeDateMs ∧
        OrderDual.toDual b.personId < OrderDual.toDual a.personId := dateTest_iff

def likeResultComparer (G : Graph) : Comparer (LikeResult G) :=
  datedComparer likeBefore LikeResult.likeDateMs (fun l => OrderDual.toDual l.personId)
    likeBefore_iff

def likesByDate (G : Graph) : Dated (likeResultComparer G) Int Intᵒᵈ :=
  .ofComparer likeBefore LikeResult.likeDateMs (fun l => OrderDual.toDual l.personId)
    likeBefore_iff

/-- The function that the likes are sorted with. -/
def personBefore (lhs rhs : LikeResult G) : Bool :=
  if lhs.personId ≠ rhs.personId then lhs.personId < rhs.personId
  else if lhs.likeDateMs ≠ rhs.likeDateMs then lhs.likeDateMs > rhs.likeDateMs
  else lhs.messageId < rhs.messageId

def personKey (l : LikeResult G) : Int ×ₗ Intᵒᵈ ×ₗ Int :=
  toLex (l.personId, toLex (OrderDual.toDual l.likeDateMs, l.messageId))

theorem personBefore_iff (a b : LikeResult G) :
    personBefore a b = true ↔ personKey a < personKey b := by
  unfold personKey
  rw [Prod.Lex.toLex_lt_toLex, Prod.Lex.toLex_lt_toLex]
  unfold personBefore
  by_cases hp : a.personId = b.personId
  · by_cases hd : a.likeDateMs = b.likeDateMs
    · simp [hp, hd]
    · simp [hp, hd]
  · simp [hp]

def likeOrder (G : Graph) : Comparer (LikeResult G) :=
  Comparer.ofKey personBefore personKey personBefore_iff

abbrev Queue (G : Graph) := PriorityQueue (likeResultComparer G)

/-- The end of the loop body. -/
def offerLike (pq : Queue G) (like : LikeResult G) : Queue G :=
  if pq.size < kTopN then pq.push like
  else match pq.top? with
    | none => pq
    | some top => if likeBefore like top then pq.pop.push like else pq

theorem offerLike_eq : offerLike (G := G) = PriorityQueue.offer kTopN likeBefore := by
  funext pq like
  refine PriorityQueue.eq_offer (by decide) ?_ ?_
  · intro hsize
    rw [offerLike, if_pos hsize]
  · intro top hsize htop
    rw [offerLike, if_neg hsize, htop]

end Orders

section Query
variable (G : Graph)

/-- The entry for a LIKES edge of a message. -/
def likeInfo {P : Type} (vertex : P → G.Message) (messageIdCol : P → Int) (messageVid : P)
    (like : G.Person × DateTime) : LikeResult G where
  personVid := like.1
  messageVid := vertex messageVid
  likeDateMs := like.2
  personId := G.personId like.1
  messageId := messageIdCol messageVid

/-- `collect_likes` for one kind of message. -/
def collectLikes {P : Type} (hasCreatorIn : G.Person → List P)
    (likesIn : P → List (G.Person × DateTime)) (vertex : P → G.Message) (messageIdCol : P → Int)
    (root : G.Person) (messages : List (LikeResult G)) : List (LikeResult G) :=
  (hasCreatorIn root).foldl (fun messages messageVid =>
    (likesIn messageVid).foldl (fun messages like =>
      messages ++ [likeInfo G vertex messageIdCol messageVid like]) messages) messages

/-- Posts first, then comments. -/
def likesOf (root : G.Person) : List (LikeResult G) :=
  let messages := collectLikes G G.postHasCreator.incoming G.likesPost.inEdges .post G.postId
    root []
  collectLikes G G.commentHasCreator.incoming G.likesComment.inEdges .comment G.commentId root
    messages

/-- One turn of the loop over the sorted likes, with the like of the turn before. -/
def considerLike (st : Option (LikeResult G) × Queue G) (like : LikeResult G) :
    Option (LikeResult G) × Queue G :=
  let (previous, pq) := st
  let pq :=
    if previous.map LikeResult.personId = some like.personId then pq else offerLike pq like
  (some like, pq)

def friends (root : G.Person) : G.Person → Bool :=
  markAll (markAll (fun _ => false) (G.knows.incoming root)) (G.knows.outgoing root)

def messageCreationMs : G.Message → Int
  | .post v => G.postCreationDate v
  | .comment v => G.commentCreationDate v

structure Row where
  personId : Int
  personFirstName : String
  personLastName : String
  likeCreationDate : DateTime
  messageId : Int
  messageContent : String
  minutesLatency : Int32
  isNew : Bool
  deriving DecidableEq

/-- The minutes are cut towards zero and narrowed to 32 bits. -/
def row (root : G.Person) (like : LikeResult G) : Row where
  personId := like.personId
  personFirstName := G.firstName like.personVid
  personLastName := G.lastName like.personVid
  likeCreationDate := like.likeDateMs
  messageId := like.messageId
  messageContent := messageContent G like.messageVid
  minutesLatency := Int32.ofInt
    ((like.likeDateMs - messageCreationMs G like.messageVid).tdiv kMillisPerMinute)
  isNew := !friends G root like.personVid

def exec (sort : StdSort) (personId : Int) : List Row :=
  match getVertexIndex G.personId personId with
  | none => []
  | some root =>
    let messages := sort.sort (likeOrder G) (likesOf G root)
    (messages.foldl (considerLike G) (none, .empty)).2.drain.reverse.map (row G root)

end Query

section Result
variable {G : Graph}

/-- The LIKES edges of a message. -/
def likeEdges (G : Graph) : G.Message → List (G.Person × DateTime)
  | .post v => G.likesPost.inEdges v
  | .comment v => G.likesComment.inEdges v

/-- A like of one of the root's messages, with the ids of the liker and of the message. -/
structure IsLike (root : G.Person) (l : LikeResult G) : Prop where
  creator : ∃ date, (root, date) ∈ creatorEdges G l.messageVid
  edge : (l.personVid, l.likeDateMs) ∈ likeEdges G l.messageVid
  personId : l.personId = G.personId l.personVid
  messageId : l.messageId = G.messageId l.messageVid

theorem collectLikes_eq {P : Type} (hasCreatorIn : G.Person → List P)
    (likesIn : P → List (G.Person × DateTime)) (vertex : P → G.Message) (messageIdCol : P → Int)
    (root : G.Person) (messages : List (LikeResult G)) :
    collectLikes G hasCreatorIn likesIn vertex messageIdCol root messages =
      messages ++ (hasCreatorIn root).flatMap fun v =>
        (likesIn v).map (likeInfo G vertex messageIdCol v) := by
  simp only [collectLikes, List.foldl_append_eq_append, ← List.flatMap_def]
  simp only [List.map_eq_flatMap]

/-- The likes that are collected are those of the root's messages. -/
theorem mem_likesOf {root : G.Person} {l : LikeResult G} :
    l ∈ likesOf G root ↔ IsLike root l := by
  simp only [likesOf, collectLikes_eq, List.nil_append, List.mem_append, List.mem_flatMap,
    List.mem_map]
  constructor
  · rintro (⟨v, hv, like, hlike, rfl⟩ | ⟨v, hv, like, hlike, rfl⟩)
    · obtain ⟨e, he, rfl⟩ := List.mem_map.mp hv
      exact ⟨⟨e.2, (G.postHasCreator.mem_edges_iff e.1 root e.2).mp he⟩, hlike, rfl, rfl⟩
    · obtain ⟨e, he, rfl⟩ := List.mem_map.mp hv
      exact ⟨⟨e.2, (G.commentHasCreator.mem_edges_iff e.1 root e.2).mp he⟩, hlike, rfl, rfl⟩
  · rintro ⟨⟨date, hcreator⟩, hedge, hperson, hmessage⟩
    cases hvid : l.messageVid with
    | post v =>
      rw [hvid] at hcreator hedge hmessage
      refine Or.inl ⟨v, List.mem_map.mpr ⟨(v, date), ?_, rfl⟩, _, hedge, ?_⟩
      · exact (G.postHasCreator.mem_edges_iff v root date).mpr hcreator
      · exact LikeResult.ext rfl hvid.symm rfl hperson.symm hmessage.symm
    | comment v =>
      rw [hvid] at hcreator hedge hmessage
      refine Or.inr ⟨v, List.mem_map.mpr ⟨(v, date), ?_, rfl⟩, _, hedge, ?_⟩
      · exact (G.commentHasCreator.mem_edges_iff v root date).mpr hcreator
      · exact LikeResult.ext rfl hvid.symm rfl hperson.symm hmessage.symm

/-- The loop over the sorted likes offers the first like of each person. -/
theorem foldl_considerLike (likes : List (LikeResult G)) (previous : Option (LikeResult G))
    (pq : Queue G) :
    (likes.foldl (considerLike G) (previous, pq)).2 =
      (runHeads LikeResult.personId (previous.map LikeResult.personId) likes).foldl
        (PriorityQueue.offer kTopN likeBefore) pq := by
  induction likes generalizing previous pq with
  | nil => rfl
  | cons like rest ih =>
    by_cases hperson : previous.map LikeResult.personId = some like.personId
    · have hstep : considerLike G (previous, pq) like = (some like, pq) := by
        simp [considerLike, hperson]
      rw [List.foldl_cons, hstep, ih, runHeads, if_pos hperson, hperson, Option.map_some]
    · have hstep : considerLike G (previous, pq) like =
          (some like, pq.offer kTopN likeBefore like) := by
        simp [considerLike, hperson, offerLike_eq]
      rw [List.foldl_cons, hstep, ih, runHeads, if_neg hperson, List.foldl_cons,
        Option.map_some]

theorem exec_eq (sort : StdSort) (root : G.Person) :
    exec G sort (G.personId root) = ((likeResultComparer G).firstN kTopN
      (runHeads LikeResult.personId none (sort.sort (likeOrder G) (likesOf G root)))).map
        (row G root) := by
  rw [exec, getVertexIndex_self G.personKey]
  simp only [foldl_considerLike]
  exact congrArg _ (PriorityQueue.drain_foldl_offer (fun _ _ => rfl) _)

theorem friends_iff (root v : G.Person) :
    friends G root v = true ↔ Joined G.knows root v := by
  simp [friends, markAll_eq, Joined, or_comm]

theorem personId_mono (l l' : LikeResult G) (h : (likeOrder G).Le l l') :
    l.personId ≤ l'.personId := by
  have hkey := (Comparer.ofKey_le_iff personBefore_iff).mp h
  unfold personKey at hkey
  rcases Prod.Lex.toLex_le_toLex.mp hkey with hlt | ⟨heq, -⟩
  · exact le_of_lt hlt
  · exact le_of_eq heq

section Unique
variable (unique : Function.Injective G.messageId) {root : G.Person}
include unique

/-- Two likes of equal keys are one. -/
theorem IsLike.eq_of_key {l l' : LikeResult G} (h : IsLike root l) (h' : IsLike root l')
    (same : personKey l = personKey l') : l = l' := by
  obtain ⟨hperson, hrest⟩ := Prod.mk.inj same
  obtain ⟨hdate, hmessage⟩ := Prod.mk.inj hrest
  refine LikeResult.ext ?_ ?_ hdate hperson hmessage
  · apply G.personKey
    rw [← h.personId, ← h'.personId, hperson]
  · apply unique
    rw [← h.messageId, ← h'.messageId, hmessage]

theorem separates_likes {likes : List (LikeResult G)} (sub : ∀ l ∈ likes, IsLike root l) :
    (likeOrder G).Separates likes :=
  Comparer.ofKey_separates _ fun l hl l' hl' => (sub l hl).eq_of_key unique (sub l' hl')

end Unique

theorem likedMessages_small : 3 ≤ kInvalidVid := by decide

/-- A post and a comment of one person; a friend likes both at one instant, a stranger the
comment. -/
def likedMessages : Graph :=
  { Graph.numbered 3 1 1 likedMessages_small (.ofNumbers [(1, 0, ())]) with
    postHasCreator := .ofNumbers [(0, 0, 5)]
    commentHasCreator := .ofNumbers [(0, 0, 6)]
    likesPost := .ofNumbers [(1, 0, 60000)]
    likesComment := .ofNumbers [(1, 0, 60000), (2, 0, 70000)] }

example : (exec likedMessages stableSort 0).map
    (fun r => (r.personId, r.messageId, r.minutesLatency, r.isNew)) =
      [(2, 0, 1, true), (1, 0, 1, false)] := by decide +kernel

end Result

end IC7

end LdbcInteractive
