import LdbcInteractive.Hops
import LdbcInteractive.MissingLinks
import LdbcInteractive.PathRows
import LdbcInteractive.Renumberings

/-!
# Searches of the KNOWS graph do not see the load order

IC1, IC13 and IC14 walk the KNOWS graph layer by layer, in the order of the adjacency
lists. What they return is a matter of distances and shortest paths alone, up to the
order of equal weights in IC14 and of the lists inside a row of IC1.
-/

namespace LdbcInteractive

open EdgeTables GraphDistance PartialLoops PriorityQueues

variable {G H : Graph}

section Lengths

theorem IC13.Answer.unique {knows : EdgeTable G.Person G.Person Unit} {a b : G.Person}
    {len len' : Int32} (h : IC13.Answer knows a b len) (h' : IC13.Answer knows a b len') :
    len' = len := by
  by_cases reach : (undirected knows).Reachable a b
  · obtain ⟨d, hd⟩ := exists_layer_of_reachable reach
    exact Int32.toInt_inj.mp ((h'.1 d hd).trans (h.1 d hd).symm)
  · exact (h'.2 reach).trans (h.2 reach).symm

theorem Renumbering.answer (r : Renumbering G H) {a b : G.Person} {len : Int32}
    (h : IC13.Answer H.knows (r.person a) (r.person b) len) : IC13.Answer G.knows a b len := by
  refine ⟨fun d hd => h.1 d (r.layer.mpr hd), fun far => h.2 fun reach => far ?_⟩
  obtain ⟨d, hd⟩ := exists_layer_of_reachable reach
  exact (r.layer.mp hd).reachable

/-- The length of a shortest path, or -1 (IC13). -/
theorem lengths_renumbered (r : Renumbering G H) (small : G.personNum < 2 ^ 31)
    (person1Id person2Id : Int) :
    IC13.exec H person1Id person2Id = IC13.exec G person1Id person2Id := by
  have smallH : H.personNum < 2 ^ 31 := by
    rw [← Fin.equiv_iff_eq.mp ⟨r.person⟩]
    exact small
  induction person1Id using r.byRoot with
  | unknown id absent absent' =>
    rw [IC13.exec_absent (Or.inl absent), IC13.exec_absent (Or.inl absent')]
  | known a =>
    induction person2Id using r.byRoot with
    | unknown id absent absent' =>
      rw [IC13.exec_absent (Or.inr absent), IC13.exec_absent (Or.inr absent')]
    | known b =>
      obtain ⟨len, hlen, answer⟩ := IC14.exec13_some
        (IC13.labelsFit_of_card (by rwa [Fintype.card_fin]) G.knows a b)
      obtain ⟨len', hlen', answer'⟩ := IC14.exec13_some
        (IC13.labelsFit_of_card (by rwa [Fintype.card_fin]) H.knows (r.person a) (r.person b))
      rw [r.personId, r.personId] at hlen'
      rw [hlen, hlen', answer.unique (r.answer answer')]

theorem lengths_renumbered_reloaded :
    IC13.exec square.reloaded 0 3 = IC13.exec square 0 3 :=
  lengths_renumbered (.reloaded square) (by decide) 0 3

end Lengths

section Paths
open IC14
variable (r : Renumbering G H)

theorem Renumbering.stepCount (u v : G.Person) :
    (H.knows.outgoing (r.person u)).count (r.person v) = (G.knows.outgoing u).count v := by
  rw [(r.knows.outgoing u).count_eq, List.count_map_of_injective _ _ r.person.injective]

theorem Renumbering.bareChain {c : G.Person} {m : ℕ} :
    BareChain H.knows (r.person c) m ↔ BareChain G.knows c m := by
  have single : ∀ k, (∃! v, Layer (undirected H.knows) (r.person c) k v) ↔
      ∃! v, Layer (undirected G.knows) c k v :=
    fun k => (r.person.existsUnique_congr fun _ => r.layer.symm).symm
  constructor
  · intro h
    refine ⟨fun k hk => (single k).mp (h.single k hk), fun v hv => h.last _ (r.layer.mpr hv),
      fun long u v hu hv => ?_, fun long v hv loop => ?_⟩
    · rw [← r.stepCount, ← r.stepCount]
      exact h.once long _ _ (r.layer.mpr hu) (r.layer.mpr hv)
    · exact h.loopless long _ (r.layer.mpr hv) (r.knows.mem_outgoing_iff.mpr loop)
  · intro h
    constructor
    · exact fun k hk => (single k).mpr (h.single k hk)
    · exact r.person.forall_congr_right.mp fun v hv => h.last v (r.layer.mp hv)
    · refine fun long => r.person.forall_congr_right.mp fun u =>
        r.person.forall_congr_right.mp fun v hu hv => ?_
      rw [r.stepCount, r.stepCount]
      exact h.once long u v (r.layer.mp hu) (r.layer.mp hv)
    · exact fun long => r.person.forall_congr_right.mp fun v hv loop =>
        h.loopless long v (r.layer.mp hv) (r.knows.mem_outgoing_iff.mp loop)

theorem Renumbering.shortChain {c : G.Person} :
    ShortChain H.knows (r.person c) ↔ ShortChain G.knows c :=
  exists_congr fun _ => and_congr_right fun _ => r.bareChain

theorem Renumbering.enumerated {src dst : G.Person} {p : List G.Person} :
    Enumerated H (r.person src) (r.person dst) (p.map r.person) ↔ Enumerated G src dst p := by
  have alone : p.map r.person = [r.person src] ↔ p = [src] :=
    (List.map_injective_iff.mpr r.person.injective).eq_iff (b := [src])
  simp only [Enumerated, r.person.injective.ne_iff, r.person.injective.eq_iff, r.shortChain,
    r.layer, alone]
  exact or_congr_right (and_congr_right fun _ => exists_congr fun d => and_congr_right fun _ =>
    and_congr_right fun _ => walk_iso r.undirectedIso)

theorem Renumbering.pathList {src dst : G.Person} {paths : List (List G.Person)}
    {paths' : List (List H.Person)} (list : PathList G src dst paths)
    (list' : PathList H (r.person src) (r.person dst) paths') :
    paths'.Perm (paths.map (List.map r.person)) := by
  refine perm_map_of_mem (Equiv.listEquivOfEquiv r.person) list.nodup list'.nodup fun p => ?_
  rw [list.mem]
  exact (list'.mem _).trans r.enumerated

theorem Renumbering.simpleKnows (r : Renumbering G H) (simple : SimpleKnows G.knows) :
    SimpleKnows H.knows := by
  refine r.person.forall_congr_right.mp fun u => r.person.forall_congr_right.mp fun v => ?_
  rw [r.stepCount, r.stepCount]
  exact simple u v

theorem Renumbering.replyContract (r : Renumbering G H) (contract : ReplyContract G) :
    ReplyContract H where
  postCreator := r.postHasCreator.atMostOne contract.postCreator
  commentCreator := r.commentHasCreator.atMostOne contract.commentCreator
  oneParent := r.comment.forall_congr_right.mp fun comment => by
    rw [(r.replyOfPost comment).length_eq, (r.replyOfComment comment).length_eq,
      List.length_map, List.length_map]
    exact contract.oneParent comment

theorem Renumbering.replyTarget (contract : ReplyContract G) (comment : G.Comment) :
    IC14.replyTarget H (r.comment comment) =
      Prod.map (Option.map r.person) id (IC14.replyTarget G comment) := by
  have post := r.replyOfPost.head_outgoing contract.replyOfPost comment
  have parent := r.replyOfComment.head_outgoing contract.replyOfComment comment
  simp only [IC14.replyTarget, getSingleOutNeighbor, post, parent]
  cases (G.replyOfPost.outgoing comment).head? with
  | some post =>
    exact congrArg (·, 2) (r.postHasCreator.head_outgoing contract.postCreator post)
  | none =>
    cases (G.replyOfComment.outgoing comment).head? with
    | some parent =>
      exact congrArg (·, 1) (r.commentHasCreator.head_outgoing contract.commentCreator parent)
    | none => rfl

theorem Renumbering.replies (contract : ReplyContract G) (x y : G.Person) :
    IC14.replies H (r.person x) (r.person y) = IC14.replies G x y := by
  rw [IC14.replies, IC14.replies, weight, weight,
    (((r.commentHasCreator.incoming x).map _).map _).sum_eq]
  simp only [List.map_map]
  refine congrArg List.sum (List.map_congr_left fun comment _ => ?_)
  simp only [Function.comp_apply, r.replyTarget contract, Prod.map_fst, Prod.map_snd, id]
  refine if_congr ?_ rfl rfl
  rw [← Option.map_some]
  exact (Option.map_injective r.person.injective).eq_iff

theorem hops_map {V W : Type} (f : V → W) (path : List V) :
    IC14.hops (path.map f) = (IC14.hops path).map (Prod.map f f) := by
  rw [IC14.hops, IC14.hops, ← List.map_tail, List.zip_map]

theorem Renumbering.pathScore (contract : ReplyContract G) (path : List G.Person) :
    IC14.pathScore H (path.map r.person) = IC14.pathScore G path := by
  rw [IC14.pathScore, IC14.pathScore, hops_map, List.map_map]
  refine congrArg List.sum (List.map_congr_left fun e _ => ?_)
  simp only [Function.comp_apply, pairScore_eq, Prod.map_fst, Prod.map_snd, r.replies contract]

/-- The weighted shortest paths (IC14): the same rows with their weights in the same order. -/
theorem paths_renumbered (r : Renumbering G H) (simple : SimpleKnows G.knows)
    (contract : ReplyContract G) (sort sort' : StdSort) (person1Id person2Id : Int) :
    ∃ rows rows', IC14.exec sort G person1Id person2Id = some rows ∧
      IC14.exec sort' H person1Id person2Id = some rows' ∧
      rows'.Perm rows ∧ rows'.map Row.pathWeight = rows.map Row.pathWeight := by
  induction person1Id using r.byRoot with
  | unknown id absent absent' =>
    exact ⟨[], [], exec_absent sort (Or.inl absent), exec_absent sort' (Or.inl absent'),
      List.Perm.refl _, rfl⟩
  | known src =>
    induction person2Id using r.byRoot with
    | unknown id absent absent' =>
      exact ⟨[], [], exec_absent sort (Or.inr absent), exec_absent sort' (Or.inr absent'),
        List.Perm.refl _, rfl⟩
    | known dst =>
      obtain ⟨paths, list⟩ := exists_pathList simple src dst
      obtain ⟨paths', list'⟩ :=
        exists_pathList (r.simpleKnows simple) (r.person src) (r.person dst)
      obtain ⟨rows, result, perm, sorted⟩ := list.exec_scored contract sort
      obtain ⟨rows', result', perm', sorted'⟩ :=
        list'.exec_scored (r.replyContract contract) sort'
      rw [r.personId, r.personId] at result'
      have same : rows'.Perm rows := by
        refine perm'.trans (((r.pathList list list').map _).trans
          (List.Perm.trans (List.Perm.of_eq ?_) perm.symm))
        rw [List.map_map]
        refine List.map_congr_left fun path _ => ?_
        simp only [Function.comp_apply, pathRow, r.pathScore contract, List.map_map]
        exact congrArg (Row.mk · _) (List.map_congr_left fun v _ => r.personId v)
      exact ⟨rows, rows', result, result', same,
        weights_eq_of_perm (same.map _) sorted sorted'⟩

theorem paths_renumbered_reloaded :
    ∃ rows rows', IC14.exec stableSort answeredSquare 0 3 = some rows ∧
      IC14.exec stableSort answeredSquare.reloaded 0 3 = some rows' ∧
      rows'.Perm rows ∧ rows'.map Row.pathWeight = rows.map Row.pathWeight :=
  paths_renumbered (.reloaded answeredSquare) answeredSquare_simple answeredSquare_contract
    stableSort stableSort 0 3

end Paths

section Namesakes
open IC1
variable (r : Renumbering G H)

/-- Two rows that may list their universities and their companies in different orders. -/
structure SameNamesake (a b : IC1.Row) : Prop where
  rest : a = { b with
    friendUniversities := a.friendUniversities, friendCompanies := a.friendCompanies }
  friendUniversities : a.friendUniversities.Perm b.friendUniversities
  friendCompanies : a.friendCompanies.Perm b.friendCompanies

def Renumbering.namesake (result : IC1.PersonResult G) : IC1.PersonResult H where
  distance := result.distance
  lastName := result.lastName
  id := result.id
  vid := r.person result.vid

theorem Renumbering.namesakes (firstName : String) (dist : Nat) {vs : List G.Person}
    {vs' : List H.Person} (perm : vs'.Perm (vs.map r.person)) :
    (IC1.namesakes firstName dist vs').Perm
      ((IC1.namesakes firstName dist vs).map r.namesake) := by
  have tests : ∀ v, decide (H.firstName (r.person v) = firstName) =
      decide (G.firstName v = firstName) := fun v => by rw [r.firstName]
  refine ((filter_renamed perm tests).map _).trans (List.Perm.of_eq ?_)
  rw [IC1.namesakes, List.map_map, List.map_map]
  refine List.map_congr_left fun v _ => ?_
  exact IC1.PersonResult.ext rfl (r.lastName v) (r.personId v) rfl

theorem Renumbering.atDistance (root : G.Person) (k : Nat) :
    (LdbcInteractive.atDistance H (r.person root) k).Perm
      ((LdbcInteractive.atDistance G root k).map r.person) :=
  filter_renamed (finRange_renamed r.person) fun v => by rw [r.layer]

theorem Renumbering.offeredFriends (root : G.Person) (firstName : String) :
    (LdbcInteractive.offeredFriends H (r.person root) firstName).Perm
      ((LdbcInteractive.offeredFriends G root firstName).map r.namesake) := by
  have friends : (H.knows.incoming (r.person root) ++ H.knows.outgoing (r.person root)).Perm
      ((G.knows.incoming root ++ G.knows.outgoing root).map r.person) := by
    rw [List.map_append]
    exact (r.knows.incoming root).append (r.knows.outgoing root)
  rw [LdbcInteractive.offeredFriends, LdbcInteractive.offeredFriends, List.map_append,
    List.map_append]
  exact ((r.namesakes firstName 1 friends).append
    (r.namesakes firstName 2 (r.atDistance root 2))).append
      (r.namesakes firstName 3 (r.atDistance root 3))

theorem Renumbering.collectFriends (root : G.Person) (firstName : String) :
    (IC1.collectFriends H (r.person root) firstName).reverse =
      (IC1.collectFriends G root firstName).reverse.map r.namesake := by
  have before_namesake : ∀ a b, (IC1.personResultComparer H).before (r.namesake a)
      (r.namesake b) = (IC1.personResultComparer G).before a b := fun _ _ => rfl
  rw [collectFriends_reverse, collectFriends_reverse]
  exact Comparer.firstN_renamed (offeredFriends_separates root firstName) before_namesake
    (r.offeredFriends root firstName) IC1.kTopN

theorem Renumbering.orgPlaces (places : G.organisationIsLocatedIn.AtMostOne)
    {edges : List (G.Organisation × Int)} {edges' : List (H.Organisation × Int)}
    (perm : edges'.Perm (edges.map (Prod.map r.organisation id))) :
    Option.Rel List.Perm (IC1.orgPlaces H edges') (IC1.orgPlaces G edges) := by
  have same : (edges.map (Prod.map r.organisation id)).mapM (fun e => do
        let place ← getSingleOutNeighbor H.organisationIsLocatedIn.outgoing e.1
        return ⟨H.organisationName e.1, e.2, H.placeName place⟩) =
      IC1.orgPlaces G edges := by
    rw [IC1.orgPlaces, List.mapM_map]
    refine congrArg (edges.mapM ·) (funext fun e => ?_)
    simp only [Function.comp_apply, Prod.map_fst, Prod.map_snd, id, getSingleOutNeighbor,
      r.organisationIsLocatedIn.head_outgoing places, r.organisationName]
    cases (G.organisationIsLocatedIn.outgoing e.1).head? with
    | none => rfl
    | some place => simp [r.placeName]
  exact same ▸ mapM_perm perm _

theorem Renumbering.namesakeRow (homes : G.personIsLocatedIn.AtMostOne)
    (places : G.organisationIsLocatedIn.AtMostOne) (result : IC1.PersonResult G) :
    Option.Rel SameNamesake (IC1.row H (r.namesake result)) (IC1.row G result) := by
  have city : getSingleOutNeighbor H.personIsLocatedIn.outgoing (r.person result.vid) =
      (getSingleOutNeighbor G.personIsLocatedIn.outgoing result.vid).map r.place :=
    r.personIsLocatedIn.head_outgoing homes result.vid
  have cities : Option.Rel (fun a b => a = r.place b)
      (getSingleOutNeighbor H.personIsLocatedIn.outgoing (r.person result.vid))
      (getSingleOutNeighbor G.personIsLocatedIn.outgoing result.vid) := by
    rw [city]
    cases getSingleOutNeighbor G.personIsLocatedIn.outgoing result.vid with
    | none => exact .none
    | some place => exact .some rfl
  unfold IC1.row
  refine rel_bind cities ?_
  rintro _ place rfl
  refine rel_bind (r.orgPlaces places (r.studyAt result.vid)) fun _ _ universities => ?_
  refine rel_bind (r.orgPlaces places (r.workAt result.vid)) fun _ _ companies => ?_
  refine .some ⟨?_, universities, companies⟩
  simp only [Renumbering.namesake, r.birthday, r.personCreationDate, r.gender, r.browserUsed,
    r.locationIP, r.placeName, r.email, r.language]

/-- The friends of a first name (IC1), for any KNOWS table: the run ends in the same way with the
same rows, up to the order of the organisations in a row. -/
theorem namesakes_renumbered (r : Renumbering G H) (homes : G.personIsLocatedIn.AtMostOne)
    (places : G.organisationIsLocatedIn.AtMostOne) (personId : Int) (firstName : String) :
    Option.Rel (List.Forall₂ SameNamesake) (IC1.exec H personId firstName)
      (IC1.exec G personId firstName) := by
  induction personId using r.byRoot with
  | unknown id absent absent' =>
    simp only [IC1.exec, absent, absent']
    exact .some .nil
  | known root =>
    have rootH := r.root_found root
    simp only [IC1.exec, rootH, getVertexIndex_self G.personKey, r.collectFriends]
    exact mapM_rel (r.namesakeRow homes places) _

theorem alumni_small : 3 ≤ kInvalidVid := by decide

/-- Two friends of one name, one with two universities, the other one with two companies. -/
def alumni : Graph :=
  { Graph.numbered 3 0 0 alumni_small (.ofNumbers [(0, 1, ()), (2, 0, ())]) with
    firstName := fun _ => "Ann"
    placeNum := 1
    placeName := fun _ => "Athens"
    organisationNum := 2
    organisationName := fun v => if v.val = 0 then "Lyceum" else "Academy"
    personIsLocatedIn := .ofNumbers [(0, 0, ()), (1, 0, ()), (2, 0, ())]
    organisationIsLocatedIn := .ofNumbers [(0, 0, ()), (1, 0, ())]
    studyAt := .ofNumbers [(1, 0, 1999), (1, 1, 2003)]
    workAt := .ofNumbers [(2, 1, 2005), (2, 0, 2007)]
    isPartOf := .ofNumbers []
    postIsLocatedIn := .ofNumbers []
    commentIsLocatedIn := .ofNumbers [] }

/-- The two lists of organisations come in the other order. -/
theorem namesakes_renumbered_reloaded :
    Option.Rel (List.Forall₂ SameNamesake) (IC1.exec alumni.reloaded 0 "Ann")
        (IC1.exec alumni 0 "Ann") ∧
      IC1.exec alumni.reloaded 0 "Ann" ≠ IC1.exec alumni 0 "Ann" :=
  ⟨namesakes_renumbered (.reloaded alumni) (by decide) (by decide) 0 "Ann", by decide +kernel⟩

end Namesakes

end LdbcInteractive
