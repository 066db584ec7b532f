import LdbcInteractive.Common
import LdbcInteractive.DatedOrders
import LdbcInteractive.Messages

/-!
# IS1, IS3, IS4, IS5 and IS6: one person or one message

The short reads look at what the complex queries leave alone: the ids of the places, the
moderators of the forums and the dates of the KNOWS edges. An id that is not found and a
link that is missing give no row; only the city of IS1 has a default.
-/

namespace LdbcInteractive

open EdgeTables PriorityQueues DatedOrders

/-- The graph with the columns and tables of the short reads. The KNOWS edges with their dates
are those of the graph, in the same order. -/
structure Store extends Graph where
  placeId : Fin placeNum → Int := fun v => v.val
  hasModerator : EdgeTable (Fin forumNum) (Fin personNum) Unit := .ofList []
  friendship : EdgeTable (Fin personNum) (Fin personNum) DateTime
  friendship_out : ∀ v, friendship.outgoing v = knows.outgoing v
  friendship_in : ∀ v, friendship.incoming v = knows.incoming v

namespace IS1

structure Row where
  firstName : String
  lastName : String
  birthday : Date
  locationIp : String
  browserUsed : String
  cityId : Int
  gender : String
  creationDate : DateTime
  deriving DecidableEq

/-- The id of the city, 0 where there is none. -/
def cityId (S : Store) (personVid : S.Person) : Int :=
  match getSingleOutNeighbor S.personIsLocatedIn.outgoing personVid with
  | some placeVid => S.placeId placeVid
  | none => 0

def row (S : Store) (personVid : S.Person) : Row where
  firstName := S.firstName personVid
  lastName := S.lastName personVid
  birthday := S.birthday personVid
  locationIp := S.locationIP personVid
  browserUsed := S.browserUsed personVid
  cityId := cityId S personVid
  gender := S.gender personVid
  creationDate := S.personCreationDate personVid

def exec (S : Store) (personId : Int) : List Row :=
  match getVertexIndex S.personId personId with
  | none => []
  | some personVid => [row S personVid]

end IS1

namespace IS3

structure FriendInfo (S : Store) where
  personVid : S.Person
  personId : Int
  friendshipCreationMs : Int
  deriving DecidableEq

section Order
variable {S : Store}

/-- The comparison that the friends are sorted with. -/
def friendBefore (lhs rhs : FriendInfo S) : Bool :=
  if lhs.friendshipCreationMs ≠ rhs.friendshipCreationMs then
    lhs.friendshipCreationMs > rhs.friendshipCreationMs
  else lhs.personId < rhs.personId

theorem friendBefore_iff (a b : FriendInfo S) :
    friendBefore a b = true ↔ b.friendshipCreationMs < a.friendshipCreationMs ∨
      a.friendshipCreationMs = b.friendshipCreationMs ∧
        OrderDual.toDual b.personId < OrderDual.toDual a.personId := by
  by_cases h : a.friendshipCreationMs = b.friendshipCreationMs <;> simp [friendBefore, h]

def friendOrder (S : Store) : Comparer (FriendInfo S) :=
  datedComparer friendBefore FriendInfo.friendshipCreationMs
    (fun info => OrderDual.toDual info.personId) friendBefore_iff

def byDate (S : Store) : Dated (friendOrder S) Int Intᵒᵈ :=
  .ofComparer friendBefore FriendInfo.friendshipCreationMs
    (fun info => OrderDual.toDual info.personId) friendBefore_iff

end Order

section Query
variable (S : Store)

def friendInfo (e : S.Person × DateTime) : FriendInfo S where
  personVid := e.1
  personId := S.personId e.1
  friendshipCreationMs := e.2

def collect (view : S.Person → List (S.Person × DateTime)) (root : S.Person)
    (friends : List (FriendInfo S)) : List (FriendInfo S) :=
  (view root).foldl (fun friends e => friends ++ [friendInfo S e]) friends

structure Row where
  personId : Int
  firstName : String
  lastName : String
  friendshipCreationDate : DateTime
  deriving DecidableEq

def row (info : FriendInfo S) : Row where
  personId := info.personId
  firstName := S.firstName info.personVid
  lastName := S.lastName info.personVid
  friendshipCreationDate := info.friendshipCreationMs

/-- No row limit, and a friend with two edges is listed twice. -/
def exec (sort : StdSort) (personId : Int) : List Row :=
  match getVertexIndex S.personId personId with
  | none => []
  | some personVid =>
    let friends := collect S S.friendship.outEdges personVid []
    let friends := collect S S.friendship.inEdges personVid friends
    (sort.sort (friendOrder S) friends).map (row S)

end Query

section Friends
variable {S : Store}

theorem collect_eq (view : S.Person → List (S.Person × DateTime)) (root : S.Person)
    (friends : List (FriendInfo S)) :
    collect S view root friends = friends ++ (view root).map (friendInfo S) := by
  unfold collect
  generalize view root = es
  induction es generalizing friends with
  | nil => exact (List.append_nil _).symm
  | cons e rest ih => simp only [List.foldl_cons, ih, List.map_cons, List.append_assoc,
      List.singleton_append]

/-- The friendships of a person, the outgoing edges first. -/
def friendships (S : Store) (root : S.Person) : List (FriendInfo S) :=
  (S.friendship.outEdges root ++ S.friendship.inEdges root).map (friendInfo S)

theorem exec_known (sort : StdSort) (root : S.Person) :
    exec S sort (S.personId root) =
      (sort.sort (friendOrder S) (friendships S root)).map (row S) := by
  simp only [exec, getVertexIndex_self S.personKey, collect_eq, friendships, List.map_append,
    List.nil_append]

theorem friendships_separates (root : S.Person) :
    (friendOrder S).Separates (friendships S root) := by
  refine (byDate S).separates_of_key fun a ha b hb dates ids => ?_
  obtain ⟨e, -, rfl⟩ := List.mem_map.mp ha
  obtain ⟨f, -, rfl⟩ := List.mem_map.mp hb
  have vids : e.1 = f.1 := S.personKey (OrderDual.toDual_inj.mp ids)
  have both : e = f := Prod.ext vids dates
  rw [both]

end Friends

end IS3

namespace IS4

structure Row where
  messageContent : String
  messageCreationDate : DateTime
  deriving DecidableEq

/-- The date of the vertex, not that of the edge to the author. -/
def creationDate (G : Graph) : G.Message → DateTime
  | .post v => G.postCreationDate v
  | .comment v => G.commentCreationDate v

/-- The content of a post of length 0 is its image file. -/
def content (G : Graph) : G.Message → String
  | .post v => if G.postLength v = 0 then G.imageFile v else G.postContent v
  | .comment v => G.commentContent v

def exec (G : Graph) (messageId : Int) : List Row :=
  match findMessageVertex G messageId with
  | none => []
  | some messageVid => [⟨content G messageVid, creationDate G messageVid⟩]

end IS4

namespace IS5

structure Row where
  personId : Int
  firstName : String
  lastName : String
  deriving DecidableEq

def hasCreatorOut (G : Graph) : G.Message → List G.Person
  | .post v => G.postHasCreator.outgoing v
  | .comment v => G.commentHasCreator.outgoing v

def row (G : Graph) (authorVid : G.Person) : Row where
  personId := G.personId authorVid
  firstName := G.firstName authorVid
  lastName := G.lastName authorVid

def exec (G : Graph) (messageId : Int) : List Row :=
  match findMessageVertex G messageId with
  | none => []
  | some messageVid =>
    match getSingleOutNeighbor (hasCreatorOut G) messageVid with
    | none => []
    | some authorVid => [row G authorVid]

end IS5

namespace IS6

structure Row where
  forumId : Int
  forumTitle : String
  moderatorId : Int
  moderatorFirstName : String
  moderatorLastName : String
  deriving DecidableEq

def row (S : Store) (forumVid : S.Forum) (moderatorVid : S.Person) : Row where
  forumId := S.forumId forumVid
  forumTitle := S.forumTitle forumVid
  moderatorId := S.personId moderatorVid
  moderatorFirstName := S.firstName moderatorVid
  moderatorLastName := S.lastName moderatorVid

/-- The forum of a post and its moderator. -/
def forumRows (S : Store) (postVid : S.Post) : List Row :=
  match getSingleOutNeighbor S.containerOf.incoming postVid with
  | none => []
  | some forumVid =>
    match getSingleOutNeighbor S.hasModerator.outgoing forumVid with
    | none => []
    | some moderatorVid => [row S forumVid moderatorVid]

/-- `none` stands for a walk to the root post that has not ended after `passes` passes. -/
def exec (S : Store) (passes : Nat) (messageId : Int) : Option (List Row) :=
  match findMessageVertex S.toGraph messageId with
  | none => some []
  | some messageVid =>
    match resolveRootPost S.replyOfPost.outgoing S.replyOfComment.outgoing passes messageVid with
    | none => none
    | some none => some []
    | some (some postVid) => some (forumRows S postVid)

end IS6

theorem seminar_small : 3 ≤ kInvalidVid := by decide

def seminarKnows : EdgeTable (Fin 3) (Fin 3) Unit := .ofNumbers [(0, 1, ()), (1, 2, ())]

def seminarDates : EdgeTable (Fin 3) (Fin 3) DateTime := .ofNumbers [(0, 1, 100), (1, 2, 200)]

theorem seminar_out : ∀ v, seminarDates.outgoing v = seminarKnows.outgoing v := by decide

theorem seminar_in : ∀ v, seminarDates.incoming v = seminarKnows.incoming v := by decide

/-- A post in a forum, answered by a friend of its author; two more comments follow, the last
by the moderator. -/
def seminarGraph : Graph :=
  { Graph.numbered 3 1 3 seminar_small seminarKnows with
    forumNum := 1
    forumId := fun v => v.val
    forumTitle := fun _ => "Logic"
    postHasCreator := .ofNumbers [(0, 0, 10)]
    commentHasCreator := .ofNumbers [(0, 1, 20), (1, 0, 30), (2, 2, 40)]
    replyOfPost := .ofNumbers [(0, 0, ())]
    replyOfComment := .ofNumbers [(1, 0, ()), (2, 1, ())]
    likesPost := .ofNumbers [(1, 0, 50)]
    hasMember := .ofNumbers []
    containerOf := .ofNumbers [(0, 0, ())] }

def seminar : Store where
  toGraph := seminarGraph
  hasModerator := .ofNumbers [(0, 2, ())]
  friendship := seminarDates
  friendship_out := seminar_out
  friendship_in := seminar_in

example : IS6.exec seminar 3 2 = some [⟨0, "Logic", 2, "", ""⟩] := by decide +kernel

end LdbcInteractive
