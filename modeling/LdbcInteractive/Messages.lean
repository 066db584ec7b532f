import LdbcInteractive.Common
import LdbcInteractive.DatedOrders
import LdbcInteractive.Selections

/-!
# Messages in a date window

What IC2 and IC9 have in common, under the same names in both: the entries of their
heaps, the comparison, the rows, and the messages of one friend that a scan offers.
-/

namespace LdbcInteractive

open EdgeTables PriorityQueues DatedOrders

@[ext]
structure MessageInfo (M V : Type) where
  messageVid : M
  personVid : V
  messageId : Int
  creationDateMs : Int
  deriving DecidableEq

section Comparison
variable {M V : Type}

/-- The comparison of `MessageInfoComparer`. -/
def messageBefore (lhs rhs : MessageInfo M V) : Bool :=
  if lhs.creationDateMs > rhs.creationDateMs then true
  else if lhs.creationDateMs < rhs.creationDateMs then false
  else lhs.messageId < rhs.messageId

theorem messageBefore_iff (a b : MessageInfo M V) :
    messageBefore a b = true ↔ b.creationDateMs < a.creationDateMs ∨
      a.creationDateMs = b.creationDateMs ∧
        OrderDual.toDual b.messageId < OrderDual.toDual a.messageId := dateTest_iff

def messageInfoComparer (M V : Type) : Comparer (MessageInfo M V) :=
  datedComparer messageBefore MessageInfo.creationDateMs
    (fun m => OrderDual.toDual m.messageId) messageBefore_iff

def messagesByDate (M V : Type) : Dated (messageInfoComparer M V) Int Intᵒᵈ :=
  .ofComparer messageBefore MessageInfo.creationDateMs
    (fun m => OrderDual.toDual m.messageId) messageBefore_iff

theorem separates_of_ids {ms : List (MessageInfo M V)}
    (distinct : (ms.map MessageInfo.messageId).Nodup) : (messageInfoComparer M V).Separates ms :=
  (messagesByDate M V).separates distinct

end Comparison

section Rows
variable (G : Graph)

abbrev Graph.Info := MessageInfo G.Message G.Person

structure MessageRow where
  personId : Int
  personFirstName : String
  personLastName : String
  messageId : Int
  messageContent : String
  messageCreationDate : DateTime
  deriving DecidableEq

/-- The content of a post of length 0 is its image file. -/
def messageContent : G.Message → String
  | .post v => if G.postLength v = 0 then G.imageFile v else G.postContent v
  | .comment v => G.commentContent v

def messageRow (m : G.Info) : MessageRow where
  personId := G.personId m.personVid
  personFirstName := G.firstName m.personVid
  personLastName := G.lastName m.personVid
  messageId := m.messageId
  messageContent := messageContent G m.messageVid
  messageCreationDate := m.creationDateMs

end Rows

section Windows
variable {G : Graph} {P : Type}

/-- The entry for an edge that a scan hands out. -/
def edgeInfo (vertex : P → G.Message) (messageIdCol : P → Int) (friendVid : G.Person)
    (e : P × DateTime) : G.Info :=
  ⟨vertex e.1, friendVid, messageIdCol e.1, e.2⟩

/-- The messages of one friend dated from 0 up to the threshold, on one of the two views. -/
def windowOf (lt : NbrLt) (view : G.Person → List (P × DateTime)) (vertex : P → G.Message)
    (messageIdCol : P → Int) (threshold : DateTime) (friendVid : G.Person) : List G.Info :=
  ((lt.order view friendVid threshold).filter fun e => 0 ≤ e.2).map
    (edgeInfo vertex messageIdCol friendVid)

def friendMessages (lt : NbrLt) (G : Graph) (threshold : DateTime) (friendVid : G.Person) :
    List G.Info :=
  windowOf lt G.postHasCreator.inEdges .post G.postId threshold friendVid ++
    windowOf lt G.commentHasCreator.inEdges .comment G.commentId threshold friendVid

theorem windowOf_perm (lt lt' : NbrLt) (view : G.Person → List (P × DateTime))
    (vertex : P → G.Message) (messageIdCol : P → Int) (threshold : DateTime)
    (friendVid : G.Person) :
    (windowOf lt view vertex messageIdCol threshold friendVid).Perm
      (windowOf lt' view vertex messageIdCol threshold friendVid) :=
  (((lt.perm view friendVid threshold).trans
    (lt'.perm view friendVid threshold).symm).filter _).map _

theorem friendMessages_perm (lt lt' : NbrLt) (threshold : DateTime) (friendVid : G.Person) :
    (friendMessages lt G threshold friendVid).Perm (friendMessages lt' G threshold friendVid) :=
  (windowOf_perm lt lt' _ _ _ _ _).append (windowOf_perm lt lt' _ _ _ _ _)

theorem windows_nodup [DecidableEq P] {T : EdgeTable P G.Person DateTime} (one : T.AtMostOne)
    {messageIdCol : P → Int} (key : Function.Injective messageIdCol) (lt : NbrLt)
    (vertex : P → G.Message) (threshold : DateTime) {friends : List G.Person}
    (distinct : friends.Nodup) :
    ((friends.flatMap (windowOf lt T.inEdges vertex messageIdCol threshold)).map
      MessageInfo.messageId).Nodup := by
  let select : G.Person → List P := fun f =>
    ((lt.order T.inEdges f threshold).filter fun e => 0 ≤ e.2).map Prod.fst
  have ids : (friends.flatMap (windowOf lt T.inEdges vertex messageIdCol threshold)).map
      MessageInfo.messageId = (friends.flatMap select).map messageIdCol := by
    rw [List.map_flatMap, List.map_flatMap]
    refine List.flatMap_congr fun f _ => ?_
    rw [windowOf, List.map_map, List.map_map]
    rfl
  rw [ids]
  refine List.Nodup.map key (one.flatMap_nodup (fun f => ?_) distinct)
  have perm := ((lt.perm T.inEdges f threshold).filter fun e => 0 ≤ e.2).map Prod.fst
  exact perm.subperm.trans
    ((List.filter_sublist.trans List.filter_sublist).map Prod.fst).subperm

theorem friendMessages_ids_nodup (posts : G.postHasCreator.AtMostOne)
    (comments : G.commentHasCreator.AtMostOne) (unique : Function.Injective G.messageId)
    (lt : NbrLt) (threshold : DateTime) {friends : List G.Person} (distinct : friends.Nodup) :
    ((friends.flatMap (friendMessages lt G threshold)).map MessageInfo.messageId).Nodup := by
  have split := (List.flatMap_append_perm friends
    (windowOf lt G.postHasCreator.inEdges .post G.postId threshold)
    (windowOf lt G.commentHasCreator.inEdges .comment G.commentId threshold)).map
      MessageInfo.messageId
  refine split.nodup_iff.mp ?_
  rw [List.map_append]
  refine List.nodup_append.mpr ⟨windows_nodup posts G.postKey lt _ threshold distinct,
    windows_nodup comments G.commentKey lt _ threshold distinct, ?_⟩
  intro i hi j hj hij
  simp only [windowOf, edgeInfo, List.mem_map, List.mem_flatMap] at hi hj
  obtain ⟨_, ⟨_, -, e, -, rfl⟩, rfl⟩ := hi
  obtain ⟨_, ⟨_, -, e', -, rfl⟩, rfl⟩ := hj
  have same : (MessageVertex.post e.1 : G.Message) = .comment e'.1 := unique hij
  cases same

/-- The HASCREATOR edges of a message. -/
def creatorEdges (G : Graph) : G.Message → List (G.Person × DateTime)
  | .post v => G.postHasCreator.outEdges v
  | .comment v => G.commentHasCreator.outEdges v

/-- The entry is made of a message, its id, one of its creators and the date of that edge. -/
structure IsCreated (m : G.Info) : Prop where
  creator : (m.personVid, m.creationDateMs) ∈ creatorEdges G m.messageVid
  ident : m.messageId = G.messageId m.messageVid

theorem creatorEdges_unique (posts : G.postHasCreator.AtMostOne)
    (comments : G.commentHasCreator.AtMostOne) {m : G.Message} {e f : G.Person × DateTime}
    (he : e ∈ creatorEdges G m) (hf : f ∈ creatorEdges G m) : e = f := by
  cases m with
  | post v => exact posts.eq_of_mem he hf
  | comment v => exact comments.eq_of_mem he hf

/-- With one creator for each message there is one entry for each message. -/
theorem IsCreated.unique (posts : G.postHasCreator.AtMostOne)
    (comments : G.commentHasCreator.AtMostOne) {m m' : G.Info} (h : IsCreated m)
    (h' : IsCreated m') (same : m.messageVid = m'.messageVid) : m = m' := by
  have edge := creatorEdges_unique posts comments h.creator (same ▸ h'.creator)
  refine MessageInfo.ext same (congrArg Prod.fst edge) ?_ (congrArg Prod.snd edge)
  rw [h.ident, h'.ident, same]

theorem mem_windowOf [DecidableEq P] {T : EdgeTable P G.Person DateTime} {lt : NbrLt}
    {vertex : P → G.Message} {messageIdCol : P → Int} {threshold : DateTime}
    {friendVid : G.Person} {m : G.Info} :
    m ∈ windowOf lt T.inEdges vertex messageIdCol threshold friendVid ↔
      ∃ v, (friendVid, m.creationDateMs) ∈ T.outEdges v ∧
        (0 ≤ m.creationDateMs ∧ m.creationDateMs < threshold) ∧
        edgeInfo vertex messageIdCol friendVid (v, m.creationDateMs) = m := by
  have handed : ∀ e, e ∈ lt.order T.inEdges friendVid threshold ↔
      (friendVid, e.2) ∈ T.outEdges e.1 ∧ e.2 < threshold := by
    intro e
    rw [(lt.perm T.inEdges friendVid threshold).mem_iff, List.mem_filter, decide_eq_true_eq,
      ← T.mem_edges_iff]
  simp only [windowOf, List.mem_map, List.mem_filter, decide_eq_true_eq, handed]
  constructor
  · rintro ⟨e, ⟨⟨hedge, hlt⟩, hle⟩, rfl⟩
    exact ⟨e.1, hedge, ⟨hle, hlt⟩, rfl⟩
  · rintro ⟨v, hedge, ⟨hle, hlt⟩, hm⟩
    exact ⟨(v, m.creationDateMs), ⟨⟨hedge, hlt⟩, hle⟩, hm⟩

/-- The messages that a scan offers for a friend are the friend's messages in the window. -/
theorem mem_friendMessages {lt : NbrLt} {threshold : DateTime} {friendVid : G.Person}
    {m : G.Info} :
    m ∈ friendMessages lt G threshold friendVid ↔
      m.personVid = friendVid ∧ IsCreated m ∧ 0 ≤ m.creationDateMs ∧
        m.creationDateMs < threshold := by
  rw [friendMessages, List.mem_append, mem_windowOf, mem_windowOf]
  constructor
  · rintro (⟨v, hedge, hwindow, hm⟩ | ⟨v, hedge, hwindow, hm⟩)
    · rw [← hm]
      exact ⟨rfl, ⟨hedge, rfl⟩, hwindow⟩
    · rw [← hm]
      exact ⟨rfl, ⟨hedge, rfl⟩, hwindow⟩
  · rintro ⟨rfl, ⟨hedge, hident⟩, hwindow⟩
    cases hvid : m.messageVid with
    | post v =>
      rw [hvid] at hedge hident
      exact Or.inl ⟨v, hedge, hwindow, MessageInfo.ext hvid.symm rfl hident.symm rfl⟩
    | comment v =>
      rw [hvid] at hedge hident
      exact Or.inr ⟨v, hedge, hwindow, MessageInfo.ext hvid.symm rfl hident.symm rfl⟩

/-- The selection depends neither on the order of the edges nor on that of the friends. -/
theorem firstN_friendMessages_congr (posts : G.postHasCreator.AtMostOne)
    (comments : G.commentHasCreator.AtMostOne) (unique : Function.Injective G.messageId)
    (lt lt' : NbrLt) (threshold : DateTime) {friends friends' : List G.Person}
    (distinct : friends.Nodup) (perm : friends.Perm friends') (n : Nat) :
    (messageInfoComparer G.Message G.Person).firstN n
        (friends.flatMap (friendMessages lt G threshold)) =
      (messageInfoComparer G.Message G.Person).firstN n
        (friends'.flatMap (friendMessages lt' G threshold)) := by
  refine Comparer.firstN_congr _ (separates_of_ids
    (friendMessages_ids_nodup posts comments unique lt threshold distinct)) ?_ n
  exact (List.Perm.flatMap_left _ fun f _ => friendMessages_perm lt lt' threshold f).trans
    (perm.flatMap_right _)

end Windows

end LdbcInteractive
