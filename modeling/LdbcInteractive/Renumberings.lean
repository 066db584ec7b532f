import LdbcInteractive.FriendCircles
import LdbcInteractive.Messages
import LdbcInteractive.Relabellings

/-!
# One property graph under two numberings

The number of a vertex and the order of an adjacency list come from the way a graph
was loaded; a query is asked with ids and names. A `Renumbering` relates two stores of
the same vertices, columns and edges. What follows are the shared parts of the queries:
lookups by id, the circles of a person and the rows of a message.
-/

namespace LdbcInteractive

open EdgeTables PriorityQueues GraphDistance

/-- The columns and the edges of `H` are those of `G` under other vertex numbers, each
adjacency list in any order. -/
structure Renumbering (G H : Graph) where
  person : G.Person ≃ H.Person
  post : G.Post ≃ H.Post
  comment : G.Comment ≃ H.Comment
  tag : G.Tag ≃ H.Tag
  tagClass : G.TagClass ≃ H.TagClass
  place : G.Place ≃ H.Place
  organisation : G.Organisation ≃ H.Organisation
  forum : G.Forum ≃ H.Forum
  personId : ∀ v, H.personId (person v) = G.personId v
  firstName : ∀ v, H.firstName (person v) = G.firstName v
  lastName : ∀ v, H.lastName (person v) = G.lastName v
  gender : ∀ v, H.gender (person v) = G.gender v
  birthday : ∀ v, H.birthday (person v) = G.birthday v
  personCreationDate : ∀ v, H.personCreationDate (person v) = G.personCreationDate v
  browserUsed : ∀ v, H.browserUsed (person v) = G.browserUsed v
  locationIP : ∀ v, H.locationIP (person v) = G.locationIP v
  email : ∀ v, H.email (person v) = G.email v
  language : ∀ v, H.language (person v) = G.language v
  postId : ∀ v, H.postId (post v) = G.postId v
  imageFile : ∀ v, H.imageFile (post v) = G.imageFile v
  postContent : ∀ v, H.postContent (post v) = G.postContent v
  postLength : ∀ v, H.postLength (post v) = G.postLength v
  postCreationDate : ∀ v, H.postCreationDate (post v) = G.postCreationDate v
  commentId : ∀ v, H.commentId (comment v) = G.commentId v
  commentContent : ∀ v, H.commentContent (comment v) = G.commentContent v
  commentCreationDate : ∀ v, H.commentCreationDate (comment v) = G.commentCreationDate v
  tagName : ∀ v, H.tagName (tag v) = G.tagName v
  tagClassName : ∀ v, H.tagClassName (tagClass v) = G.tagClassName v
  placeName : ∀ v, H.placeName (place v) = G.placeName v
  organisationName : ∀ v, H.organisationName (organisation v) = G.organisationName v
  forumId : ∀ v, H.forumId (forum v) = G.forumId v
  forumTitle : ∀ v, H.forumTitle (forum v) = G.forumTitle v
  knows : G.knows.Renamed H.knows person person
  postHasCreator : G.postHasCreator.Renamed H.postHasCreator post person
  commentHasCreator : G.commentHasCreator.Renamed H.commentHasCreator comment person
  replyOfPost : G.replyOfPost.Renamed H.replyOfPost comment post
  replyOfComment : G.replyOfComment.Renamed H.replyOfComment comment comment
  postHasTag : G.postHasTag.Renamed H.postHasTag post tag
  hasType : G.hasType.Renamed H.hasType tag tagClass
  isSubclassOf : G.isSubclassOf.Renamed H.isSubclassOf tagClass tagClass
  personIsLocatedIn : G.personIsLocatedIn.Renamed H.personIsLocatedIn person place
  organisationIsLocatedIn :
    G.organisationIsLocatedIn.Renamed H.organisationIsLocatedIn organisation place
  studyAt : G.studyAt.Renamed H.studyAt person organisation
  workAt : G.workAt.Renamed H.workAt person organisation
  hasInterest : G.hasInterest.Renamed H.hasInterest person tag
  isPartOf : G.isPartOf.Renamed H.isPartOf place place
  postIsLocatedIn : G.postIsLocatedIn.Renamed H.postIsLocatedIn post place
  commentIsLocatedIn : G.commentIsLocatedIn.Renamed H.commentIsLocatedIn comment place
  likesPost : G.likesPost.Renamed H.likesPost person post
  likesComment : G.likesComment.Renamed H.likesComment person comment
  hasMember : G.hasMember.Renamed H.hasMember forum person
  containerOf : G.containerOf.Renamed H.containerOf forum post

/-- The store loaded with the vertices of every label, and all edges, in the opposite order. -/
def Graph.reloaded (G : Graph) : Graph where
  personNum := G.personNum
  postNum := G.postNum
  commentNum := G.commentNum
  tagNum := G.tagNum
  tagClassNum := G.tagClassNum
  placeNum := G.placeNum
  organisationNum := G.organisationNum
  forumNum := G.forumNum
  personNum_le := G.personNum_le
  personId v := G.personId v.rev
  firstName v := G.firstName v.rev
  lastName v := G.lastName v.rev
  gender v := G.gender v.rev
  birthday v := G.birthday v.rev
  personCreationDate v := G.personCreationDate v.rev
  browserUsed v := G.browserUsed v.rev
  locationIP v := G.locationIP v.rev
  email v := G.email v.rev
  language v := G.language v.rev
  postId v := G.postId v.rev
  imageFile v := G.imageFile v.rev
  postContent v := G.postContent v.rev
  postLength v := G.postLength v.rev
  postCreationDate v := G.postCreationDate v.rev
  commentId v := G.commentId v.rev
  commentContent v := G.commentContent v.rev
  commentCreationDate v := G.commentCreationDate v.rev
  tagName v := G.tagName v.rev
  tagClassName v := G.tagClassName v.rev
  placeName v := G.placeName v.rev
  organisationName v := G.organisationName v.rev
  forumId v := G.forumId v.rev
  forumTitle v := G.forumTitle v.rev
  personKey := G.personKey.comp Fin.rev_injective
  postKey := G.postKey.comp Fin.rev_injective
  commentKey := G.commentKey.comp Fin.rev_injective
  knows := G.knows.reload Fin.revPerm Fin.revPerm
  postHasCreator := G.postHasCreator.reload Fin.revPerm Fin.revPerm
  commentHasCreator := G.commentHasCreator.reload Fin.revPerm Fin.revPerm
  replyOfPost := G.replyOfPost.reload Fin.revPerm Fin.revPerm
  replyOfComment := G.replyOfComment.reload Fin.revPerm Fin.revPerm
  postHasTag := G.postHasTag.reload Fin.revPerm Fin.revPerm
  hasType := G.hasType.reload Fin.revPerm Fin.revPerm
  isSubclassOf := G.isSubclassOf.reload Fin.revPerm Fin.revPerm
  personIsLocatedIn := G.personIsLocatedIn.reload Fin.revPerm Fin.revPerm
  organisationIsLocatedIn := G.organisationIsLocatedIn.reload Fin.revPerm Fin.revPerm
  studyAt := G.studyAt.reload Fin.revPerm Fin.revPerm
  workAt := G.workAt.reload Fin.revPerm Fin.revPerm
  hasInterest := G.hasInterest.reload Fin.revPerm Fin.revPerm
  isPartOf := G.isPartOf.reload Fin.revPerm Fin.revPerm
  postIsLocatedIn := G.postIsLocatedIn.reload Fin.revPerm Fin.revPerm
  commentIsLocatedIn := G.commentIsLocatedIn.reload Fin.revPerm Fin.revPerm
  likesPost := G.likesPost.reload Fin.revPerm Fin.revPerm
  likesComment := G.likesComment.reload Fin.revPerm Fin.revPerm
  hasMember := G.hasMember.reload Fin.revPerm Fin.revPerm
  containerOf := G.containerOf.reload Fin.revPerm Fin.revPerm

def Renumbering.reloaded (G : Graph) : Renumbering G G.reloaded where
  person := Fin.revPerm
  post := Fin.revPerm
  comment := Fin.revPerm
  tag := Fin.revPerm
  tagClass := Fin.revPerm
  place := Fin.revPerm
  organisation := Fin.revPerm
  forum := Fin.revPerm
  personId v := congrArg G.personId (Fin.rev_rev v)
  firstName v := congrArg G.firstName (Fin.rev_rev v)
  lastName v := congrArg G.lastName (Fin.rev_rev v)
  gender v := congrArg G.gender (Fin.rev_rev v)
  birthday v := congrArg G.birthday (Fin.rev_rev v)
  personCreationDate v := congrArg G.personCreationDate (Fin.rev_rev v)
  browserUsed v := congrArg G.browserUsed (Fin.rev_rev v)
  locationIP v := congrArg G.locationIP (Fin.rev_rev v)
  email v := congrArg G.email (Fin.rev_rev v)
  language v := congrArg G.language (Fin.rev_rev v)
  postId v := congrArg G.postId (Fin.rev_rev v)
  imageFile v := congrArg G.imageFile (Fin.rev_rev v)
  postContent v := congrArg G.postContent (Fin.rev_rev v)
  postLength v := congrArg G.postLength (Fin.rev_rev v)
  postCreationDate v := congrArg G.postCreationDate (Fin.rev_rev v)
  commentId v := congrArg G.commentId (Fin.rev_rev v)
  commentContent v := congrArg G.commentContent (Fin.rev_rev v)
  commentCreationDate v := congrArg G.commentCreationDate (Fin.rev_rev v)
  tagName v := congrArg G.tagName (Fin.rev_rev v)
  tagClassName v := congrArg G.tagClassName (Fin.rev_rev v)
  placeName v := congrArg G.placeName (Fin.rev_rev v)
  organisationName v := congrArg G.organisationName (Fin.rev_rev v)
  forumId v := congrArg G.forumId (Fin.rev_rev v)
  forumTitle v := congrArg G.forumTitle (Fin.rev_rev v)
  knows := G.knows.renamed_reload Fin.revPerm Fin.revPerm
  postHasCreator := G.postHasCreator.renamed_reload Fin.revPerm Fin.revPerm
  commentHasCreator := G.commentHasCreator.renamed_reload Fin.revPerm Fin.revPerm
  replyOfPost := G.replyOfPost.renamed_reload Fin.revPerm Fin.revPerm
  replyOfComment := G.replyOfComment.renamed_reload Fin.revPerm Fin.revPerm
  postHasTag := G.postHasTag.renamed_reload Fin.revPerm Fin.revPerm
  hasType := G.hasType.renamed_reload Fin.revPerm Fin.revPerm
  isSubclassOf := G.isSubclassOf.renamed_reload Fin.revPerm Fin.revPerm
  personIsLocatedIn := G.personIsLocatedIn.renamed_reload Fin.revPerm Fin.revPerm
  organisationIsLocatedIn := G.organisationIsLocatedIn.renamed_reload Fin.revPerm Fin.revPerm
  studyAt := G.studyAt.renamed_reload Fin.revPerm Fin.revPerm
  workAt := G.workAt.renamed_reload Fin.revPerm Fin.revPerm
  hasInterest := G.hasInterest.renamed_reload Fin.revPerm Fin.revPerm
  isPartOf := G.isPartOf.renamed_reload Fin.revPerm Fin.revPerm
  postIsLocatedIn := G.postIsLocatedIn.renamed_reload Fin.revPerm Fin.revPerm
  commentIsLocatedIn := G.commentIsLocatedIn.renamed_reload Fin.revPerm Fin.revPerm
  likesPost := G.likesPost.renamed_reload Fin.revPerm Fin.revPerm
  likesComment := G.likesComment.renamed_reload Fin.revPerm Fin.revPerm
  hasMember := G.hasMember.renamed_reload Fin.revPerm Fin.revPerm
  containerOf := G.containerOf.renamed_reload Fin.revPerm Fin.revPerm

section Lookups

/-- One vertex at most carries the value that is looked up. -/
def OnlyOne {n : Nat} {α : Type} (col : Fin n → α) (value : α) : Prop :=
  ∀ v w, col v = value → col w = value → v = w

instance {n : Nat} {α : Type} [DecidableEq α] (col : Fin n → α) (value : α) :
    Decidable (OnlyOne col value) :=
  inferInstanceAs (Decidable (∀ v w, col v = value → col w = value → v = w))

theorem find_eq_some_iff_only {n : Nat} {α : Type} [DecidableEq α] {col : Fin n → α} {value : α}
    (only : OnlyOne col value) (v : Fin n) :
    (List.finRange n).find? (fun v => col v = value) = some v ↔ col v = value := by
  constructor
  · intro h
    simpa using List.find?_some h
  · intro hv
    cases h : (List.finRange n).find? (fun v => col v = value) with
    | none => simpa [hv] using List.find?_eq_none.mp h v (List.mem_finRange v)
    | some w =>
      have hw : col w = value := by simpa using List.find?_some h
      rw [only w v hw hv]

theorem OnlyOne.renamed {n m : Nat} {α : Type} {col : Fin n → α} {col' : Fin m → α}
    (e : Fin n ≃ Fin m) (same : ∀ v, col' (e v) = col v) {value : α} (only : OnlyOne col value) :
    OnlyOne col' value := by
  intro v' w' hv hw
  obtain ⟨v, rfl⟩ := e.surjective v'
  obtain ⟨w, rfl⟩ := e.surjective w'
  rw [only v w ((same v).symm.trans hv) ((same w).symm.trans hw)]

theorem find_renamed {n m : Nat} {α : Type} [DecidableEq α] {col : Fin n → α} {col' : Fin m → α}
    (e : Fin n ≃ Fin m) (same : ∀ v, col' (e v) = col v) {value : α} (only : OnlyOne col value) :
    (List.finRange m).find? (fun v => col' v = value) =
      ((List.finRange n).find? fun v => col v = value).map e := by
  ext w'
  obtain ⟨w, rfl⟩ := e.surjective w'
  rw [find_eq_some_iff_only (only.renamed e same), same, Option.map_eq_some_iff]
  constructor
  · intro h
    exact ⟨w, (find_eq_some_iff_only only w).mpr h, rfl⟩
  · rintro ⟨v, hv, hvw⟩
    rw [← e.injective hvw]
    exact (find_eq_some_iff_only only v).mp hv

end Lookups

/-- Elements that the comparison tells apart leave `std::sort` no choice. -/
theorem StdSort.sort_renamed (sort sort' : StdSort) {α β : Type} {c : Comparer α}
    {c' : Comparer β} {f : α → β} {xs : List α} {ys : List β} (sep : c.Separates xs)
    (same : ∀ a b, c'.before (f a) (f b) = c.before a b) (perm : ys.Perm (xs.map f)) :
    sort'.sort c' ys = (sort.sort c xs).map f := by
  rw [Comparer.eq_ranked ((sep.map same).perm perm) (sort'.perm c' ys) (sort'.sorted c' ys),
    Comparer.ranked_renamed sep same perm,
    ← Comparer.eq_ranked sep (sort.perm c xs) (sort.sorted c xs)]

section Windows
variable {α β α' β' : Type} {view : α → List (β × DateTime)} {view' : α' → List (β' × DateTime)}
  {e : α ≃ α'} {f : β ≃ β'}
  (same : ∀ a, (view' (e a)).Perm ((view a).map (Prod.map f id)))
include same

theorem NbrLt.order_renamed (lt lt' : NbrLt) (dst : α) (threshold : DateTime) :
    (lt'.order view' (e dst) threshold).Perm
      ((lt.order view dst threshold).map (Prod.map f id)) := by
  refine (lt'.perm view' (e dst) threshold).trans (((same dst).filter _).trans ?_)
  rw [List.filter_map]
  exact (lt.perm view dst threshold).symm.map _

theorem NbrGt.order_renamed (gt gt' : NbrGt) (dst : α) (threshold : DateTime) :
    (gt'.order view' (e dst) threshold).Perm
      ((gt.order view dst threshold).map (Prod.map f id)) := by
  refine (gt'.perm view' (e dst) threshold).trans (((same dst).filter _).trans ?_)
  rw [List.filter_map]
  exact (gt.perm view dst threshold).symm.map _

end Windows

namespace Renumbering
variable {G H : Graph} (r : Renumbering G H)

/-- A root that is found in one store is found in the other, under its other number. -/
theorem rootOf (id : Int) :
    getVertexIndex H.personId id = (getVertexIndex G.personId id).map r.person :=
  find_renamed r.person r.personId fun _ _ hv hw => G.personKey (hv.trans hw.symm)

theorem root_found (root : G.Person) :
    getVertexIndex H.personId (G.personId root) = some (r.person root) := by
  rw [r.rootOf, getVertexIndex_self G.personKey, Option.map_some]

/-- An id belongs to a person of both stores or of neither. -/
theorem byRoot (r : Renumbering G H) {holds : Int → Prop}
    (unknown : ∀ id, getVertexIndex G.personId id = none → getVertexIndex H.personId id = none →
      holds id)
    (known : ∀ root, holds (G.personId root)) (id : Int) : holds id := by
  cases found : getVertexIndex G.personId id with
  | none =>
    refine unknown id found ?_
    rw [r.rootOf, found, Option.map_none]
  | some root =>
    have named : G.personId root = id := by simpa using List.find?_some found
    exact named ▸ known root

def message : G.Message → H.Message
  | .post v => .post (r.post v)
  | .comment v => .comment (r.comment v)

theorem message_surjective : Function.Surjective r.message := by
  rintro (v' | v')
  · obtain ⟨v, rfl⟩ := r.post.surjective v'
    exact ⟨.post v, rfl⟩
  · obtain ⟨v, rfl⟩ := r.comment.surjective v'
    exact ⟨.comment v, rfl⟩

theorem messageId (m : G.Message) : H.messageId (r.message m) = G.messageId m := by
  cases m with
  | post v => exact r.postId v
  | comment v => exact r.commentId v

theorem findMessageVertex (id : Int) :
    LdbcInteractive.findMessageVertex H id =
      (LdbcInteractive.findMessageVertex G id).map r.message := by
  have posts : getVertexIndex H.postId id = (getVertexIndex G.postId id).map r.post :=
    find_renamed r.post r.postId fun _ _ hv hw => G.postKey (hv.trans hw.symm)
  have comments : getVertexIndex H.commentId id = (getVertexIndex G.commentId id).map r.comment :=
    find_renamed r.comment r.commentId fun _ _ hv hw => G.commentKey (hv.trans hw.symm)
  rw [LdbcInteractive.findMessageVertex, LdbcInteractive.findMessageVertex, posts, comments]
  cases getVertexIndex G.postId id with
  | some v => rfl
  | none => cases getVertexIndex G.commentId id <;> rfl

theorem messageContent (m : G.Message) :
    LdbcInteractive.messageContent H (r.message m) = LdbcInteractive.messageContent G m := by
  cases m with
  | post v =>
    simp only [LdbcInteractive.messageContent, message, r.postLength, r.imageFile, r.postContent]
  | comment v => exact r.commentContent v

section Circles

theorem neighbors (root : G.Person) :
    (H.knows.outgoing (r.person root) ++ H.knows.incoming (r.person root)).Perm
      ((G.knows.outgoing root ++ G.knows.incoming root).map r.person) := by
  rw [List.map_append]
  exact (r.knows.outgoing root).append (r.knows.incoming root)

theorem joined {u v : G.Person} :
    Joined H.knows (r.person u) (r.person v) ↔ Joined G.knows u v :=
  or_congr r.knows.mem_outgoing_iff r.knows.mem_incoming_iff

def undirectedIso : undirected G.knows ≃g undirected H.knows where
  toEquiv := r.person
  map_rel_iff' {u v} := by
    rw [adj_iff, adj_iff, r.joined, r.person.injective.ne_iff]

theorem adj {u v : G.Person} :
    (undirected H.knows).Adj (r.person u) (r.person v) ↔ (undirected G.knows).Adj u v :=
  r.undirectedIso.map_rel_iff

theorem layer {u v : G.Person} {k : ℕ} :
    Layer (undirected H.knows) (r.person u) k (r.person v) ↔ Layer (undirected G.knows) u k v :=
  layer_iso r.undirectedIso

theorem inCircle {u v : G.Person} :
    InCircle H.knows (r.person u) (r.person v) ↔ InCircle G.knows u v :=
  or_congr r.layer r.layer

theorem oneTwoCalls (root : G.Person) :
    (LdbcInteractive.oneTwoCalls H.knows (r.person root)).Perm
      ((LdbcInteractive.oneTwoCalls G.knows root).map r.person) :=
  perm_map_of_mem r.person (oneTwoCalls_nodup _ _) (oneTwoCalls_nodup _ _) fun v => by
    rw [mem_oneTwoCalls, mem_oneTwoCalls, r.inCircle]

theorem twoCalls (root : G.Person) :
    (LdbcInteractive.twoCalls H.knows (r.person root)).Perm
      ((LdbcInteractive.twoCalls G.knows root).map r.person) :=
  perm_map_of_mem r.person (FirstVisits.fresh_nodup _ _) (FirstVisits.fresh_nodup _ _) fun v => by
    rw [mem_twoCalls, mem_twoCalls, r.layer]

end Circles

end Renumbering

end LdbcInteractive
