import LdbcInteractive.EdgeTables

/-!
# The property graph read by the queries

Vertices of a label are numbered from 0; a vertex number is a `Fin` of the size of
the vertex set, so that a number in range is all there is. `kInvalidVid`, the mark
of an absent vertex, is `none`. A property column is a function of the vertex
number and an edge table keeps both adjacency directions. Primary keys are unique.
-/

namespace LdbcInteractive

open EdgeTables

/-- The largest 32-bit vertex number, reserved for "no vertex". -/
def kInvalidVid : Nat := 2 ^ 32 - 1

/-- Milliseconds since the epoch. -/
abbrev DateTime := Int

structure Date where
  year : Int
  month : Nat
  day : Nat
  deriving DecidableEq, Repr

/-- The vertex sets with their property columns, then the edge tables of the schema. -/
structure Graph where
  personNum : Nat
  postNum : Nat := 0
  commentNum : Nat := 0
  tagNum : Nat := 0
  tagClassNum : Nat := 0
  placeNum : Nat := 0
  organisationNum : Nat := 0
  forumNum : Nat := 0
  personNum_le : personNum ≤ kInvalidVid
  personId : Fin personNum → Int
  firstName : Fin personNum → String := fun _ => ""
  lastName : Fin personNum → String := fun _ => ""
  gender : Fin personNum → String := fun _ => ""
  birthday : Fin personNum → Date := fun _ => ⟨1970, 1, 1⟩
  personCreationDate : Fin personNum → DateTime := fun _ => 0
  browserUsed : Fin personNum → String := fun _ => ""
  locationIP : Fin personNum → String := fun _ => ""
  email : Fin personNum → String := fun _ => ""
  language : Fin personNum → String := fun _ => ""
  personKey : Function.Injective personId
  postId : Fin postNum → Int := fun v => v.val
  imageFile : Fin postNum → String := fun _ => ""
  postContent : Fin postNum → String := fun _ => ""
  postLength : Fin postNum → Int := fun _ => 0
  postCreationDate : Fin postNum → DateTime := fun _ => 0
  postKey : Function.Injective postId
  commentId : Fin commentNum → Int := fun v => v.val
  commentContent : Fin commentNum → String := fun _ => ""
  commentCreationDate : Fin commentNum → DateTime := fun _ => 0
  commentKey : Function.Injective commentId
  tagName : Fin tagNum → String := fun _ => ""
  tagClassName : Fin tagClassNum → String := fun _ => ""
  placeName : Fin placeNum → String := fun _ => ""
  organisationName : Fin organisationNum → String := fun _ => ""
  forumId : Fin forumNum → Int := fun v => v.val
  forumTitle : Fin forumNum → String := fun _ => ""
  knows : EdgeTable (Fin personNum) (Fin personNum) Unit
  postHasCreator : EdgeTable (Fin postNum) (Fin personNum) DateTime := .ofList []
  commentHasCreator : EdgeTable (Fin commentNum) (Fin personNum) DateTime := .ofList []
  replyOfPost : EdgeTable (Fin commentNum) (Fin postNum) Unit := .ofList []
  replyOfComment : EdgeTable (Fin commentNum) (Fin commentNum) Unit := .ofList []
  postHasTag : EdgeTable (Fin postNum) (Fin tagNum) Unit := .ofList []
  hasType : EdgeTable (Fin tagNum) (Fin tagClassNum) Unit := .ofList []
  isSubclassOf : EdgeTable (Fin tagClassNum) (Fin tagClassNum) Unit := .ofList []
  personIsLocatedIn : EdgeTable (Fin personNum) (Fin placeNum) Unit := .ofList []
  organisationIsLocatedIn : EdgeTable (Fin organisationNum) (Fin placeNum) Unit := .ofList []
  studyAt : EdgeTable (Fin personNum) (Fin organisationNum) Int := .ofList []
  workAt : EdgeTable (Fin personNum) (Fin organisationNum) Int := .ofList []
  hasInterest : EdgeTable (Fin personNum) (Fin tagNum) Unit := .ofList []
  isPartOf : EdgeTable (Fin placeNum) (Fin placeNum) Unit := .ofList []
  postIsLocatedIn : EdgeTable (Fin postNum) (Fin placeNum) Unit := .ofList []
  commentIsLocatedIn : EdgeTable (Fin commentNum) (Fin placeNum) Unit := .ofList []
  likesPost : EdgeTable (Fin personNum) (Fin postNum) DateTime := .ofList []
  likesComment : EdgeTable (Fin personNum) (Fin commentNum) DateTime := .ofList []
  hasMember : EdgeTable (Fin forumNum) (Fin personNum) DateTime := .ofList []
  containerOf : EdgeTable (Fin forumNum) (Fin postNum) Unit := .ofList []

namespace Graph
variable (G : Graph)

abbrev Person := Fin G.personNum
abbrev Post := Fin G.postNum
abbrev Comment := Fin G.commentNum
abbrev Tag := Fin G.tagNum
abbrev TagClass := Fin G.tagClassNum
abbrev Place := Fin G.placeNum
abbrev Organisation := Fin G.organisationNum
abbrev Forum := Fin G.forumNum

/-- The same persons and messages with another KNOWS table. -/
abbrev withKnows (knows : EdgeTable G.Person G.Person Unit) : Graph := { G with knows := knows }

/-- Persons numbered by their ids, the given KNOWS edges, and nothing else. -/
def ofKnows (n : Nat) (small : n ≤ kInvalidVid) (edges : List (Fin n × Fin n)) : Graph where
  personNum := n
  personNum_le := small
  personId v := v.val
  personKey v w h := by
    have h' : (v.val : Int) = w.val := h
    exact Fin.ext (by exact_mod_cast h')
  postKey v _ _ := v.elim0
  commentKey v _ _ := v.elim0
  knows := .ofList (edges.map (fun e => (e.1, e.2, ())))

/-- Persons, posts and comments numbered by their ids, the posts after the comments. -/
def numbered (n posts comments : Nat) (small : n ≤ kInvalidVid)
    (knows : EdgeTable (Fin n) (Fin n) Unit) : Graph where
  personNum := n
  postNum := posts
  commentNum := comments
  personNum_le := small
  personId v := v.val
  personKey v w h := by
    have h' : (v.val : Int) = w.val := h
    exact Fin.ext (by exact_mod_cast h')
  postId v := comments + v.val
  postKey v w h := by
    have h' : (comments + v.val : Int) = comments + w.val := h
    exact Fin.ext (by omega)
  commentKey v w h := by
    have h' : (v.val : Int) = w.val := h
    exact Fin.ext (by exact_mod_cast h')
  knows := knows

/-- The KNOWS edges 0 → 1 → … → n and nothing else. -/
def chain (n : Nat) (small : n + 1 ≤ kInvalidVid) : Graph :=
  ofKnows (n + 1) small ((List.finRange n).map fun v => (v.castSucc, v.succ))

end Graph

/-- At most one creator for each message and one parent for each comment, post or comment. -/
structure ReplyContract (G : Graph) : Prop where
  postCreator : G.postHasCreator.AtMostOne
  commentCreator : G.commentHasCreator.AtMostOne
  oneParent : ∀ comment,
    (G.replyOfPost.outEdges comment).length + (G.replyOfComment.outEdges comment).length ≤ 1

theorem ReplyContract.replyOfPost {G : Graph} (contract : ReplyContract G) :
    G.replyOfPost.AtMostOne :=
  fun comment => (Nat.le_add_right _ _).trans (contract.oneParent comment)

theorem ReplyContract.replyOfComment {G : Graph} (contract : ReplyContract G) :
    G.replyOfComment.AtMostOne :=
  fun comment => (Nat.le_add_left _ _).trans (contract.oneParent comment)

/-- Lookup of a vertex by its primary key. -/
def getVertexIndex {n : Nat} (idCol : Fin n → Int) (id : Int) : Option (Fin n) :=
  (List.finRange n).find? (fun v => idCol v = id)

theorem getVertexIndex_self {n : Nat} {idCol : Fin n → Int} (key : Function.Injective idCol)
    (v : Fin n) : getVertexIndex idCol (idCol v) = some v := by
  cases h : getVertexIndex idCol (idCol v) with
  | none =>
    have hv := List.find?_eq_none.mp h v (List.mem_finRange v)
    simp at hv
  | some w =>
    have hw : idCol w = idCol v := by simpa using List.find?_some h
    rw [key hw]

theorem getVertexIndex_id {n : Nat} {idCol : Fin n → Int} {id : Int} {v : Fin n}
    (h : getVertexIndex idCol id = some v) : idCol v = id :=
  of_decide_eq_true (List.find?_some (p := fun v => decide (idCol v = id)) h)

theorem getVertexIndex_eq_none {n : Nat} {idCol : Fin n → Int} {id : Int}
    (absent : ∀ v, idCol v ≠ id) : getVertexIndex idCol id = none :=
  List.find?_eq_none.mpr fun v _ => by simpa using absent v

end LdbcInteractive
