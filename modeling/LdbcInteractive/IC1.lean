import LdbcInteractive.FriendCircles
import LdbcInteractive.Selections
import Mathlib.Data.Prod.Lex
import Mathlib.Data.String.Basic

/-!
# IC1: friends of the same first name, up to distance 3

A layered search with a bitmap of the persons reached and one heap across the layers.
The first layer sets the bitmap without testing it; the other two test it. The search
stops after a layer that leaves the heap full.
-/

namespace LdbcInteractive

open EdgeTables FirstVisits GraphDistance PriorityQueues

namespace IC1

def kTopN : Nat := 20

/-- The distance is an 8-bit number, of which only 1, 2 and 3 occur. -/
@[ext]
structure PersonResult (G : Graph) where
  distance : Nat
  lastName : String
  id : Int
  vid : G.Person
  deriving DecidableEq

section Queue
variable {G : Graph}

/-- The comparison of `PersonResultComparer`. -/
def personBefore (lhs rhs : PersonResult G) : Bool :=
  if lhs.distance < rhs.distance then true
  else if lhs.distance > rhs.distance then false
  else if lhs.lastName < rhs.lastName then true
  else if lhs.lastName > rhs.lastName then false
  else lhs.id < rhs.id

theorem personBefore_iff (a b : PersonResult G) :
    personBefore a b = true ↔
      toLex (a.distance, toLex (a.lastName, a.id)) <
        toLex (b.distance, toLex (b.lastName, b.id)) := by
  rw [Prod.Lex.toLex_lt_toLex, Prod.Lex.toLex_lt_toLex]
  unfold personBefore
  rcases lt_trichotomy a.distance b.distance with hd | hd | hd
  · simp [hd]
  · rcases lt_trichotomy a.lastName b.lastName with hn | hn | hn
    · simp [hd, hn]
    · simp [hd, hn]
    · simp [hd, hn, hn.not_gt, hn.ne']
  · simp [hd, hd.not_gt, hd.ne']

def personResultComparer (G : Graph) : Comparer (PersonResult G) :=
  Comparer.ofKey personBefore (fun r => toLex (r.distance, toLex (r.lastName, r.id)))
    personBefore_iff

abbrev Queue (G : Graph) := PriorityQueue (personResultComparer G)

def tryEnqueueFriend (pq : Queue G) (dist : Nat) (lastName : String) (id : Int)
    (vid : G.Person) : Queue G :=
  if pq.size < kTopN then pq.push ⟨dist, lastName, id, vid⟩
  else match pq.top? with
    | none => pq
    | some top =>
      if dist ≠ top.distance then pq
      else if lastName < top.lastName then pq.pop.push ⟨dist, lastName, id, vid⟩
      else if lastName = top.lastName ∧ id < top.id then
        pq.pop.push ⟨dist, lastName, id, vid⟩
      else pq

end Queue

section Query
variable (G : Graph)

/-- The bitmap `accessed`, the list of the layer in work and the heap. -/
structure Search where
  accessed : G.Person → Bool
  friends : List G.Person
  pq : Queue G

/-- What every loop body does with a person: list, mark, and offer under the first name. -/
def visit (firstName : String) (dist : Nat) (st : Search G) (v : G.Person) : Search G where
  accessed := Function.update st.accessed v true
  friends := st.friends ++ [v]
  pq := if G.firstName v = firstName then
      tryEnqueueFriend st.pq dist (G.lastName v) (G.personId v) v
    else st.pq

/-- The bodies of the second and third layer, behind the test of the bitmap. -/
def visitNew (firstName : String) (dist : Nat) (st : Search G) (v : G.Person) : Search G :=
  if st.accessed v then st else visit G firstName dist st v

/-- Everything around the friends of the previous layer; the list starts anew. -/
def nextLayer (firstName : String) (dist : Nat) (st : Search G) : Search G :=
  st.friends.foldl (fun st u =>
    let st := (G.knows.incoming u).foldl (visitNew G firstName dist) st
    (G.knows.outgoing u).foldl (visitNew G firstName dist) st) { st with friends := [] }

def firstLayer (root : G.Person) (firstName : String) : Search G :=
  let st : Search G := ⟨Function.update (fun _ => false) root true, [], .empty⟩
  let st := (G.knows.incoming root).foldl (visit G firstName 1) st
  (G.knows.outgoing root).foldl (visit G firstName 1) st

/-- The list of the third layer, which the code does not keep, is not used. -/
def collectFriends (root : G.Person) (firstName : String) : List (PersonResult G) :=
  let first := firstLayer G root firstName
  if first.pq.size = kTopN then first.pq.drain
  else
    let second := nextLayer G firstName 2 first
    if second.pq.size = kTopN then second.pq.drain
    else (nextLayer G firstName 3 second).pq.drain

structure OrgPlace where
  orgName : String
  orgYear : Int
  orgPlaceName : String
  deriving DecidableEq

structure Row where
  friendId : Int
  distanceFromPerson : Nat
  friendLastName : String
  friendBirthday : Date
  friendCreationDate : DateTime
  friendGender : String
  friendBrowserUsed : String
  friendLocationIp : String
  friendCityName : String
  friendEmail : String
  friendLanguage : String
  friendUniversities : List OrgPlace
  friendCompanies : List OrgPlace
  deriving DecidableEq

/-- Organisations with the year of the edge and the name of their place, which is read
without a test whether there is one. -/
def orgPlaces (edges : List (G.Organisation × Int)) : Option (List OrgPlace) :=
  edges.mapM fun e => do
    let place ← getSingleOutNeighbor G.organisationIsLocatedIn.outgoing e.1
    return ⟨G.organisationName e.1, e.2, G.placeName place⟩

/-- A row, or `none` where the name of an absent place would be read. -/
def row (result : PersonResult G) : Option Row := do
  let v := result.vid
  let city ← getSingleOutNeighbor G.personIsLocatedIn.outgoing v
  let universities ← orgPlaces G (G.studyAt.outEdges v)
  let companies ← orgPlaces G (G.workAt.outEdges v)
  return {
    friendId := result.id
    distanceFromPerson := result.distance
    friendLastName := result.lastName
    friendBirthday := G.birthday v
    friendCreationDate := G.personCreationDate v
    friendGender := G.gender v
    friendBrowserUsed := G.browserUsed v
    friendLocationIp := G.locationIP v
    friendCityName := G.placeName city
    friendEmail := G.email v
    friendLanguage := G.language v
    friendUniversities := universities
    friendCompanies := companies }

def exec (personId : Int) (firstName : String) : Option (List Row) :=
  match getVertexIndex G.personId personId with
  | none => some []
  | some root => (collectFriends G root firstName).reverse.mapM (row G)

end Query

section Layers
variable {G : Graph} {root : G.Person} {firstName : String} {k : Nat} {st : Search G}

def candidate (dist : Nat) (v : G.Person) : PersonResult G :=
  ⟨dist, G.lastName v, G.personId v, v⟩

/-- What a list of persons offers to the heap. -/
def namesakes (firstName : String) (dist : Nat) (vs : List G.Person) : List (PersonResult G) :=
  (vs.filter fun v => G.firstName v = firstName).map (candidate dist)

/-- A comparison of distances for equality does where no person in the heap is further away. -/
theorem tryEnqueueFriend_eq {pq : Queue G} {dist : Nat} (near : ∀ r ∈ pq.items, r.distance ≤ dist)
    (v : G.Person) :
    tryEnqueueFriend pq dist (G.lastName v) (G.personId v) v =
      pq.offer kTopN personBefore (candidate dist v) := by
  refine PriorityQueue.eq_offer (by decide) ?_ ?_
  · intro room
    exact if_pos room
  · intro worst full top
    have hworst : worst.distance ≤ dist := near worst (List.mem_of_getLast? top)
    simp only [tryEnqueueFriend, if_neg full, top]
    by_cases hd : dist = worst.distance
    · have hkey : personBefore (candidate dist v) worst = true ↔
          G.lastName v < worst.lastName ∨
            G.lastName v = worst.lastName ∧ G.personId v < worst.id := by
        simp [personBefore_iff, Prod.Lex.toLex_lt_toLex, candidate, hd]
      rw [if_neg (not_not.mpr hd)]
      by_cases hname : G.lastName v < worst.lastName
      · rw [if_pos hname, if_pos (hkey.mpr (Or.inl hname))]
        rfl
      · simp only [hname, if_false, false_or] at hkey ⊢
        simp only [hkey]
        rfl
    · have hbehind : ¬ personBefore (candidate dist v) worst = true := by
        rw [personBefore_iff, Prod.Lex.toLex_lt_toLex]
        change ¬ (dist < worst.distance ∨ dist = worst.distance ∧ _)
        omega
      rw [if_pos hd, if_neg hbehind]

theorem foldl_visit (st : Search G) (dist : Nat) (vs : List G.Person)
    (near : ∀ r ∈ st.pq.items, r.distance ≤ dist) :
    vs.foldl (visit G firstName dist) st =
      ⟨markAll st.accessed vs, st.friends ++ vs,
        (namesakes firstName dist vs).foldl (PriorityQueue.offer kTopN personBefore) st.pq⟩ := by
  induction vs generalizing st with
  | nil => simp [markAll, namesakes]
  | cons v rest ih =>
    by_cases hname : G.firstName v = firstName
    · have hpq : (visit G firstName dist st v).pq =
          st.pq.offer kTopN personBefore (candidate dist v) :=
        (if_pos hname).trans (tryEnqueueFriend_eq near v)
      have hnear : ∀ r ∈ (visit G firstName dist st v).pq.items, r.distance ≤ dist := by
        intro r hr
        rw [hpq] at hr
        rcases (PriorityQueue.offer_mem _ _ _ _).2 r hr with rfl | hr
        · exact le_rfl
        · exact near r hr
      rw [List.foldl_cons, ih _ hnear, hpq]
      simp [visit, markAll, namesakes, hname]
    · have hpq : (visit G firstName dist st v).pq = st.pq := if_neg hname
      rw [List.foldl_cons, ih _ (hpq ▸ near), hpq]
      simp [visit, markAll, namesakes, hname]

theorem foldl_visitNew (dist : Nat) (vs : List G.Person) :
    vs.foldl (visitNew G firstName dist) st =
      (fresh st.accessed vs).foldl (visit G firstName dist) st := by
  induction vs generalizing st with
  | nil => rfl
  | cons v rest ih =>
    rw [List.foldl_cons, ih, fresh]
    by_cases hv : st.accessed v = true
    · rw [if_pos hv, visitNew, if_pos hv]
    · have hmarks : (visit G firstName dist st v).accessed =
          fun u => decide (u = v) || st.accessed u := by
        funext u
        exact bitmap.has_add st.accessed v u
      rw [if_neg hv, visitNew, if_neg hv, hmarks, List.foldl_cons]

/-- The persons that the layer behind the friends listed so far adds. -/
def layerBehind (st : Search G) : List G.Person :=
  fresh st.accessed (st.friends.flatMap fun u => G.knows.incoming u ++ G.knows.outgoing u)

theorem nextLayer_eq (dist : Nat) (near : ∀ r ∈ st.pq.items, r.distance ≤ dist) :
    nextLayer G firstName dist st =
      ⟨markAll st.accessed (layerBehind st), layerBehind st,
        (namesakes firstName dist (layerBehind st)).foldl
          (PriorityQueue.offer kTopN personBefore) st.pq⟩ := by
  have flat : nextLayer G firstName dist st =
      (st.friends.flatMap fun u => G.knows.incoming u ++ G.knows.outgoing u).foldl
        (visitNew G firstName dist) { st with friends := [] } := by
    simp only [nextLayer, List.foldl_flatMap, List.foldl_append]
  rw [flat, foldl_visitNew]
  exact foldl_visit { st with friends := [] } dist (layerBehind st) near

/-- The state after layer `k` on any KNOWS table; `stream` is what the heap was offered. Self
and parallel edges may put a person on the first list more than once, and the root as well. -/
structure Scanned (root : G.Person) (k : Nat) (st : Search G) (stream : List (PersonResult G)) :
    Prop where
  accessed : ∀ v, st.accessed v = true ↔ Ball (undirected G.knows) root k v
  reached : ∀ v ∈ st.friends, Ball (undirected G.knows) root k v
  layer : ∀ v, Layer (undirected G.knows) root k v → v ∈ st.friends
  offered : st.pq = stream.foldl (PriorityQueue.offer kTopN personBefore) .empty
  near : ∀ r ∈ stream, r.distance ≤ k

theorem mem_namesakes {dist : Nat} {vs : List G.Person} {r : PersonResult G} :
    r ∈ namesakes firstName dist vs ↔ ∃ v ∈ vs, G.firstName v = firstName ∧
      r = candidate dist v := by
  simp only [namesakes, List.mem_map, List.mem_filter, decide_eq_true_eq, and_assoc]
  exact exists_congr fun v => and_congr_right fun _ => and_congr_right fun _ => eq_comm

theorem distance_of_mem_namesakes {dist : Nat} {vs : List G.Person} {r : PersonResult G}
    (hr : r ∈ namesakes firstName dist vs) : r.distance = dist := by
  obtain ⟨v, -, -, rfl⟩ := mem_namesakes.mp hr
  rfl

theorem firstLayer_eq (root : G.Person) (firstName : String) :
    firstLayer G root firstName =
      ⟨markAll (Function.update (fun _ => false) root true)
          (G.knows.incoming root ++ G.knows.outgoing root),
        G.knows.incoming root ++ G.knows.outgoing root,
        (namesakes firstName 1 (G.knows.incoming root ++ G.knows.outgoing root)).foldl
          (PriorityQueue.offer kTopN personBefore) .empty⟩ := by
  have flat : firstLayer G root firstName =
      (G.knows.incoming root ++ G.knows.outgoing root).foldl (visit G firstName 1)
        ⟨Function.update (fun _ => false) root true, [], .empty⟩ := by
    rw [List.foldl_append]
    rfl
  rw [flat]
  refine foldl_visit _ 1 _ ?_
  intro r hr
  cases hr

theorem firstLayer_scanned (root : G.Person) (firstName : String) :
    Scanned root 1 (firstLayer G root firstName)
      (namesakes firstName 1 (G.knows.incoming root ++ G.knows.outgoing root)) := by
  have met : ∀ v, v ∈ G.knows.incoming root ++ G.knows.outgoing root ↔ Joined G.knows root v :=
    fun v => List.mem_append.trans or_comm
  have ball : ∀ v, Ball (undirected G.knows) root 1 v ↔ v = root ∨ Joined G.knows root v := by
    intro v
    rw [ball_succ_iff, ball_zero_iff, layer_one_joined]
    by_cases hv : v = root
    · simp [hv]
    · simp [hv]
  rw [firstLayer_eq]
  constructor
  · intro v
    rw [ball, ← met]
    simp [markAll_eq, Function.update_apply]
  · intro v hv
    exact (ball v).mpr (Or.inr ((met v).mp hv))
  · intro v hv
    exact (met v).mpr (layer_one_joined.mp hv).2
  · rfl
  · intro r hr
    exact (distance_of_mem_namesakes hr).le

section Scan
variable {stream : List (PersonResult G)}

theorem Scanned.near_pq (h : Scanned root k st stream) : ∀ r ∈ st.pq.items, r.distance ≤ k := by
  intro r hr
  rw [h.offered] at hr
  exact h.near r (PriorityQueue.mem_of_mem_foldl_offer hr)

theorem Scanned.mem_layerBehind (h : Scanned root k st stream) (v : G.Person) :
    v ∈ layerBehind st ↔ Layer (undirected G.knows) root (k + 1) v := by
  rw [layerBehind, mem_fresh, ← Bool.not_eq_true, h.accessed, List.mem_flatMap]
  have adjacent : ∀ u, v ∈ G.knows.incoming u ++ G.knows.outgoing u ↔ Joined G.knows u v :=
    fun u => List.mem_append.trans or_comm
  simp only [adjacent]
  constructor
  · rintro ⟨far, u, hu, huv⟩
    obtain ⟨i, hi, layer⟩ := (huv.ball_succ (h.reached u hu)).layer
    have hk : i = k + 1 := by
      by_contra hne
      exact far (layer.ball (by omega))
    exact hk ▸ layer
  · intro layer
    obtain ⟨far, u, hu, huv⟩ := layer_succ_joined.mp layer
    exact ⟨far, u, h.layer u hu, huv⟩

/-- Each layer is scanned by the same step. -/
theorem Scanned.nextLayer (h : Scanned root k st stream) (firstName : String) :
    Scanned root (k + 1) (nextLayer G firstName (k + 1) st)
      (stream ++ namesakes firstName (k + 1) (layerBehind st)) := by
  rw [nextLayer_eq _ fun r hr => (h.near_pq r hr).trans (Nat.le_succ k)]
  constructor
  · intro v
    rw [ball_succ_iff, ← h.accessed, ← h.mem_layerBehind]
    simp [markAll_eq]
  · intro v hv
    exact ((h.mem_layerBehind v).mp hv).ball le_rfl
  · intro v hv
    exact (h.mem_layerBehind v).mpr hv
  · rw [h.offered, List.foldl_append]
  · intro r hr
    rcases List.mem_append.mp hr with hr | hr
    · exact (h.near r hr).trans (Nat.le_succ k)
    · exact (distance_of_mem_namesakes hr).le

/-- A heap that a layer leaves full is not changed by the next one. -/
theorem Scanned.nextLayer_idle (h : Scanned root k st stream) (firstName : String)
    (full : st.pq.size = kTopN) : (IC1.nextLayer G firstName (k + 1) st).pq = st.pq := by
  have hpos : 0 < st.pq.size := by
    rw [full]
    decide
  obtain ⟨worst, top⟩ := PriorityQueue.exists_top hpos
  have hworst : worst.distance ≤ k := h.near_pq worst (List.mem_of_getLast? top)
  rw [nextLayer_eq _ fun r hr => (h.near_pq r hr).trans (Nat.le_succ k)]
  refine PriorityQueue.foldl_offer_idle full.not_lt top ?_
  intro r hr
  have hdist := distance_of_mem_namesakes hr
  rw [← Bool.not_eq_true, personBefore_iff, Prod.Lex.toLex_lt_toLex]
  change ¬ (r.distance < worst.distance ∨ r.distance = worst.distance ∧ _)
  omega

/-- The early ends of the search leave nothing out. -/
theorem collectFriends_eq (root : G.Person) (firstName : String) :
    collectFriends G root firstName = (IC1.nextLayer G firstName 3
      (IC1.nextLayer G firstName 2 (firstLayer G root firstName))).pq.drain := by
  have first := firstLayer_scanned root firstName
  have second := first.nextLayer firstName
  simp only [collectFriends]
  by_cases hfirst : (firstLayer G root firstName).pq.size = kTopN
  · have hsame := first.nextLayer_idle firstName hfirst
    have hsecond : (IC1.nextLayer G firstName 2 (firstLayer G root firstName)).pq.size = kTopN := by
      rw [hsame, hfirst]
    rw [if_pos hfirst, second.nextLayer_idle firstName hsecond, hsame]
  · rw [if_neg hfirst]
    by_cases hsecond :
        (IC1.nextLayer G firstName 2 (firstLayer G root firstName)).pq.size = kTopN
    · rw [if_pos hsecond, second.nextLayer_idle firstName hsecond]
    · rw [if_neg hsecond]

end Scan

/-- A person of the name whose distance from the root is true and from 1 to `k`. -/
structure Namesake (root : G.Person) (firstName : String) (k : Nat) (r : PersonResult G) :
    Prop where
  layer : Layer (undirected G.knows) root r.distance r.vid
  positive : 1 ≤ r.distance
  within : r.distance ≤ k
  firstName : G.firstName r.vid = firstName
  lastName : r.lastName = G.lastName r.vid
  id : r.id = G.personId r.vid

/-- The state after layer `k`; `stream` is what the heap was offered. -/
structure Explored (root : G.Person) (firstName : String) (k : Nat) (st : Search G)
    (stream : List (PersonResult G)) : Prop where
  accessed : ∀ v, st.accessed v = true ↔ Ball (undirected G.knows) root k v
  distinct : st.friends.Nodup
  friends : ∀ v, v ∈ st.friends ↔ Layer (undirected G.knows) root k v
  offered : st.pq = stream.foldl (PriorityQueue.offer kTopN personBefore) .empty
  nodup : stream.Nodup
  mem : ∀ r, r ∈ stream ↔ Namesake root firstName k r

theorem namesakes_nodup {vs : List G.Person} (distinct : vs.Nodup) (dist : Nat) :
    (namesakes firstName dist vs).Nodup := by
  refine (distinct.filter _).map ?_
  intro v w h
  exact congrArg PersonResult.vid h

theorem mem_namesakes_layer (firstName : String) {dist : Nat} (pos : 1 ≤ dist)
    {vs : List G.Person} (layer : ∀ v, v ∈ vs ↔ Layer (undirected G.knows) root dist v)
    (r : PersonResult G) :
    r ∈ namesakes firstName dist vs ↔ r.distance = dist ∧ Namesake root firstName dist r := by
  simp only [mem_namesakes, layer]
  constructor
  · rintro ⟨v, hv, hname, rfl⟩
    exact ⟨rfl, hv, pos, le_rfl, hname, rfl, rfl⟩
  · rintro ⟨rfl, h⟩
    exact ⟨r.vid, h.layer, h.firstName, PersonResult.ext rfl h.lastName h.id rfl⟩

variable {stream : List (PersonResult G)}

theorem Explored.scanned (h : Explored root firstName k st stream) : Scanned root k st stream where
  accessed := h.accessed
  reached v hv := ((h.friends v).mp hv).ball le_rfl
  layer v hv := (h.friends v).mpr hv
  offered := h.offered
  near r hr := ((h.mem r).mp hr).within

/-- Only at distance 1 does the search rely on KNOWS being simple: it does not test the bitmap. -/
theorem firstLayer_explored (simple : SimpleKnows G.knows) (root : G.Person)
    (firstName : String) :
    ∃ stream, Explored root firstName 1 (firstLayer G root firstName) stream := by
  let friends := G.knows.incoming root ++ G.knows.outgoing root
  have scanned := firstLayer_scanned root firstName
  have distinct : friends.Nodup :=
    List.perm_append_comm.nodup_iff.mp (simple.neighbors_nodup root)
  have layer : ∀ v, v ∈ friends ↔ Layer (undirected G.knows) root 1 v := by
    intro v
    rw [layer_one_iff, simple.adj_iff]
    exact List.perm_append_comm.mem_iff
  have listed : (firstLayer G root firstName).friends = friends := by rw [firstLayer_eq]
  refine ⟨_, scanned.accessed, listed ▸ distinct, listed ▸ layer, scanned.offered,
    namesakes_nodup distinct 1, ?_⟩
  intro r
  rw [mem_namesakes_layer firstName le_rfl layer]
  refine and_iff_right_of_imp ?_
  intro h
  exact le_antisymm h.within h.positive

/-- Each layer is explored by the same step. -/
theorem Explored.nextLayer (h : Explored root firstName k st stream) :
    Explored root firstName (k + 1) (nextLayer G firstName (k + 1) st)
      (stream ++ namesakes firstName (k + 1) (IC1.layerBehind st)) := by
  have scanned := h.scanned.nextLayer firstName
  have distinct : (IC1.layerBehind st).Nodup := fresh_nodup _ _
  have new := mem_namesakes_layer firstName (Nat.le_add_left 1 k) h.scanned.mem_layerBehind
  have listed : (IC1.nextLayer G firstName (k + 1) st).friends = IC1.layerBehind st := by
    rw [nextLayer_eq _ fun r hr => (h.scanned.near_pq r hr).trans (Nat.le_succ k)]
  refine ⟨scanned.accessed, listed ▸ distinct, listed ▸ h.scanned.mem_layerBehind,
    scanned.offered, ?_, ?_⟩
  · refine h.nodup.append (namesakes_nodup distinct _) ?_
    intro r hr hnew
    have hold := ((h.mem r).mp hr).within
    have hdist := ((new r).mp hnew).1
    omega
  · intro r
    rw [List.mem_append, h.mem, new]
    constructor
    · rintro (hr | ⟨-, hr⟩)
      · exact { hr with within := hr.within.trans (Nat.le_succ k) }
      · exact hr
    · intro hr
      rcases Nat.lt_or_ge k r.distance with hlt | hle
      · exact Or.inr ⟨le_antisymm hr.within hlt, hr⟩
      · exact Or.inl { hr with within := hle }

theorem Namesake.eq_of_vid {r s : PersonResult G} (hr : Namesake root firstName k r)
    (hs : Namesake root firstName k s) (h : r.vid = s.vid) : r = s := by
  have hdist : r.distance = s.distance := by
    refine hr.layer.unique ?_
    rw [h]
    exact hs.layer
  have hname : r.lastName = s.lastName := by rw [hr.lastName, hs.lastName, h]
  have hid : r.id = s.id := by rw [hr.id, hs.id, h]
  exact PersonResult.ext hdist hname hid h

theorem Explored.separates (h : Explored root firstName k st stream) :
    (personResultComparer G).Separates stream := by
  refine Comparer.ofKey_separates _ fun r hr s hs hkey => ?_
  have hr' := (h.mem r).mp hr
  have hs' := (h.mem s).mp hs
  have hid : r.id = s.id := congrArg (fun key => (ofLex (ofLex key).2).2) hkey
  rw [hr'.id, hs'.id] at hid
  exact hr'.eq_of_vid hs' (G.personKey hid)

/-- The rows come from the first 20 persons of the name at distance 1, 2 or 3, once each and with
the true distance. -/
theorem first_namesakes (G : Graph) (simple : SimpleKnows G.knows) (root : G.Person)
    (firstName : String) :
    ∃ selected,
      (personResultComparer G).Selects kTopN (Namesake root firstName 3) selected ∧
      (selected.map PersonResult.vid).Nodup ∧
      (collectFriends G root firstName).reverse = selected ∧
      exec G (G.personId root) firstName = selected.mapM (row G) := by
  obtain ⟨stream, first⟩ := firstLayer_explored simple root firstName
  have third := first.nextLayer.nextLayer
  have selects := Comparer.firstN_selects third.separates third.nodup kTopN third.mem
  have result : (collectFriends G root firstName).reverse = _ :=
    (congrArg List.reverse (collectFriends_eq root firstName)).trans
      ((congrArg (fun pq => pq.drain.reverse) third.offered).trans
        (PriorityQueue.drain_foldl_offer (fun _ _ => rfl) _))
  refine ⟨_, selects, ?_, result, ?_⟩
  · refine selects.nodup.map_on ?_
    intro r hr s hs h
    exact (selects.sound r hr).eq_of_vid (selects.sound s hs) h
  · rw [exec, getVertexIndex_self G.personKey, ← result]

theorem chain_small : 6 ≤ kInvalidVid := by decide

/-- Two ways to person 3, and a namesake beyond distance 3. -/
def chain : Graph :=
  { Graph.numbered 6 0 0 chain_small
      (.ofNumbers [(0, 1, ()), (2, 0, ()), (1, 3, ()), (2, 3, ()), (4, 3, ()), (4, 5, ())]) with
    firstName := fun v => if v.val = 1 then "Bob" else "Ann"
    placeNum := 1
    placeName := fun _ => "Athens"
    personIsLocatedIn := .ofNumbers ((List.range 6).map fun v => (v, 0, ()))
    isPartOf := .ofNumbers []
    organisationIsLocatedIn := .ofNumbers []
    postIsLocatedIn := .ofNumbers []
    commentIsLocatedIn := .ofNumbers [] }

theorem first_namesakes_chain :
    ∃ selected,
      (personResultComparer chain).Selects kTopN (Namesake (0 : Fin 6) "Ann" 3) selected ∧
      (selected.map PersonResult.vid).Nodup ∧
      (collectFriends chain (0 : Fin 6) "Ann").reverse = selected ∧
      exec chain 0 "Ann" = selected.mapM (row chain) :=
  first_namesakes chain (by decide +kernel) (0 : Fin 6) "Ann"

example : (exec chain 0 "Ann").map (List.map fun r => (r.friendId, r.distanceFromPerson)) =
    some [(2, 1), (3, 2), (4, 3)] := by decide +kernel

end Layers

end IC1

end LdbcInteractive
