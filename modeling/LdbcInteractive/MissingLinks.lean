import LdbcInteractive.IC1
import LdbcInteractive.IC8
import LdbcInteractive.IC10
import LdbcInteractive.IS2
import LdbcInteractive.PartialLoops
import LdbcInteractive.RootPosts

/-!
# Links that are read without a test

The row loops of IC1, IC10 and IS2 and the scan of IC8 follow a link to a city, a place, a
post or a creator and use what they get. Where the link is missing they read at
`kInvalidVid` or behind the end of an edge range, which the models show as `none`. For each
query the links are named on which that depends; which rows are built decides it, too.
-/

namespace LdbcInteractive

open Chains DatedOrders EdgeTables GraphDistance Loops PartialLoops PriorityQueues

section Roots
variable {G : Graph}

/-- A query is looked at for the person with the id, if there is one. -/
theorem forall_root_iff {P : Int → Prop} {Q : G.Person → Prop}
    (known : ∀ root, P (G.personId root) ↔ Q root)
    (unknown : ∀ personId, (∀ v, G.personId v ≠ personId) → P personId) (personId : Int) :
    P personId ↔ ∀ root, G.personId root = personId → Q root := by
  by_cases h : ∃ root, G.personId root = personId
  · obtain ⟨root, rfl⟩ := h
    rw [known]
    constructor
    · intro hroot root' same
      exact G.personKey same ▸ hroot
    · intro all
      exact all root rfl
  · have absent : ∀ v, G.personId v ≠ personId := fun v hv => h ⟨v, hv⟩
    exact iff_of_true (unknown personId absent) fun root hroot => absurd hroot (absent root)

open scoped Classical in
/-- The persons at a distance from the root, each once. -/
noncomputable def atDistance (G : Graph) (root : G.Person) (k : Nat) : List G.Person :=
  (List.finRange G.personNum).filter fun v => Layer (undirected G.knows) root k v

theorem perm_atDistance {root : G.Person} {k : Nat} {vs : List G.Person} (distinct : vs.Nodup)
    (layer : ∀ v, v ∈ vs ↔ Layer (undirected G.knows) root k v) :
    vs.Perm (atDistance G root k) := by
  refine (List.perm_ext_iff_of_nodup distinct ((List.nodup_finRange _).filter _)).mpr fun v => ?_
  rw [layer v]
  simp

theorem mem_atDistance {root v : G.Person} {k : Nat} :
    v ∈ atDistance G root k ↔ Layer (undirected G.knows) root k v := by
  classical
  simp [atDistance]

end Roots

section IC1
open IC1
variable {G : Graph}

/-- The person has a city and each of its universities and companies a place. -/
def Located (G : Graph) (v : G.Person) : Prop :=
  getSingleOutNeighbor G.personIsLocatedIn.outgoing v ≠ none ∧
    ∀ e ∈ G.studyAt.outEdges v ++ G.workAt.outEdges v,
      getSingleOutNeighbor G.organisationIsLocatedIn.outgoing e.1 ≠ none

/-- What the search offers: direct friends once for each KNOWS edge, the others once. -/
noncomputable def offeredFriends (G : Graph) (root : G.Person) (firstName : String) :
    List (IC1.PersonResult G) :=
  namesakes firstName 1 (G.knows.incoming root ++ G.knows.outgoing root) ++
    namesakes firstName 2 (atDistance G root 2) ++ namesakes firstName 3 (atDistance G root 3)

/-- The place of a friend in the search of IC1: over an edge, or at distance 2 or 3. -/
def IC1.Stands (root : G.Person) (dist : Nat) (v : G.Person) : Prop :=
  dist = 1 ∧ Joined G.knows root v ∨
    (dist = 2 ∨ dist = 3) ∧ Layer (undirected G.knows) root dist v

/-- The friends offered that fewer than 20 others precede are located. -/
def IC1.LinksPresent (G : Graph) (root : G.Person) (firstName : String) : Prop :=
  ∀ r ∈ offeredFriends G root firstName,
    (offeredFriends G root firstName).countP (fun other => personBefore other r) < IC1.kTopN →
      Located G r.vid

theorem orgPlaces_isSome (edges : List (G.Organisation × Int)) :
    (orgPlaces G edges).isSome = true ↔
      ∀ e ∈ edges, getSingleOutNeighbor G.organisationIsLocatedIn.outgoing e.1 ≠ none := by
  rw [orgPlaces, mapM_isSome]
  refine forall_congr' fun e => imp_congr_right fun _ => ?_
  cases getSingleOutNeighbor G.organisationIsLocatedIn.outgoing e.1 <;> simp

theorem IC1.row_isSome (r : IC1.PersonResult G) :
    (IC1.row G r).isSome = true ↔ Located G r.vid := by
  rw [Located, List.forall_mem_append, ← orgPlaces_isSome, ← orgPlaces_isSome, IC1.row]
  cases getSingleOutNeighbor G.personIsLocatedIn.outgoing r.vid with
  | none => simp
  | some city =>
    cases orgPlaces G (G.studyAt.outEdges r.vid) with
    | none => simp
    | some universities => cases orgPlaces G (G.workAt.outEdges r.vid) <;> simp

theorem mem_offeredFriends_iff {root : G.Person} {firstName : String}
    {result : IC1.PersonResult G} :
    result ∈ offeredFriends G root firstName ↔
      ∃ dist v, IC1.Stands root dist v ∧ G.firstName v = firstName ∧
        result = IC1.candidate dist v := by
  have near : ∀ v, v ∈ G.knows.incoming root ++ G.knows.outgoing root ↔
      Joined G.knows root v := fun v => List.mem_append.trans or_comm
  constructor
  · intro offered
    rcases List.mem_append.mp offered with offered | third
    · rcases List.mem_append.mp offered with first | second
      · obtain ⟨v, hv, named, rfl⟩ := mem_namesakes.mp first
        exact ⟨1, v, Or.inl ⟨rfl, (near v).mp hv⟩, named, rfl⟩
      · obtain ⟨v, hv, named, rfl⟩ := mem_namesakes.mp second
        exact ⟨2, v, Or.inr ⟨Or.inl rfl, mem_atDistance.mp hv⟩, named, rfl⟩
    · obtain ⟨v, hv, named, rfl⟩ := mem_namesakes.mp third
      exact ⟨3, v, Or.inr ⟨Or.inr rfl, mem_atDistance.mp hv⟩, named, rfl⟩
  · rintro ⟨dist, v, ⟨rfl, joined⟩ | ⟨rfl | rfl, layer⟩, named, rfl⟩
    · exact List.mem_append_left _ (List.mem_append_left _
        (mem_namesakes.mpr ⟨v, (near v).mpr joined, named, rfl⟩))
    · exact List.mem_append_left _ (List.mem_append_right _
        (mem_namesakes.mpr ⟨v, mem_atDistance.mpr layer, named, rfl⟩))
    · exact List.mem_append_right _
        (mem_namesakes.mpr ⟨v, mem_atDistance.mpr layer, named, rfl⟩)

theorem mem_offeredFriends {root : G.Person} {firstName : String} {r : IC1.PersonResult G}
    (hr : r ∈ offeredFriends G root firstName) :
    r.lastName = G.lastName r.vid ∧ r.id = G.personId r.vid := by
  obtain ⟨dist, v, -, -, rfl⟩ := mem_offeredFriends_iff.mp hr
  exact ⟨rfl, rfl⟩

theorem offeredFriends_separates (root : G.Person) (firstName : String) :
    (IC1.personResultComparer G).Separates (offeredFriends G root firstName) := by
  refine Comparer.ofKey_separates IC1.personBefore_iff fun r hr s hs hkey => ?_
  have hdist : r.distance = s.distance := congrArg (fun key => (ofLex key).1) hkey
  have hname : r.lastName = s.lastName := congrArg (fun key => (ofLex (ofLex key).2).1) hkey
  have hid : r.id = s.id := congrArg (fun key => (ofLex (ofLex key).2).2) hkey
  have hvid : r.vid = s.vid := by
    refine G.personKey ?_
    rw [← (mem_offeredFriends hr).2, hid, (mem_offeredFriends hs).2]
  exact IC1.PersonResult.ext hdist hname hid hvid

theorem collectFriends_reverse (root : G.Person) (firstName : String) :
    (collectFriends G root firstName).reverse =
      (IC1.personResultComparer G).firstN IC1.kTopN (offeredFriends G root firstName) := by
  have first := firstLayer_scanned root firstName
  have second := first.nextLayer firstName
  have third := second.nextLayer firstName
  have perm : ∀ {k st stream}, Scanned root k st stream →
      (namesakes firstName (k + 1) (layerBehind st)).Perm
        (namesakes firstName (k + 1) (atDistance G root (k + 1))) := fun scanned =>
    ((perm_atDistance (FirstVisits.fresh_nodup _ _) scanned.mem_layerBehind).filter _).map _
  have same := ((List.Perm.refl (namesakes firstName 1
    (G.knows.incoming root ++ G.knows.outgoing root))).append (perm first)).append (perm second)
  rw [collectFriends_eq, third.offered]
  exact PriorityQueue.drain_foldl_offer_perm (fun _ _ => rfl)
    (offeredFriends_separates root firstName) same

theorem IC1.exec_isSome (root : G.Person) (firstName : String) :
    (IC1.exec G (G.personId root) firstName).isSome = true ↔
      IC1.LinksPresent G root firstName := by
  rw [IC1.exec, getVertexIndex_self G.personKey]
  simp only [mapM_isSome, IC1.row_isSome, collectFriends_reverse]
  exact Comparer.forall_mem_firstN _ (offeredFriends_separates root firstName)

end IC1

section IC8
open IC8
variable {G : Graph}

/-- Every comment that replies to a message of the root has a creator. -/
def IC8.LinksPresent (G : Graph) (root : G.Person) : Prop :=
  ∀ comment ∈ directReplies G root, G.commentHasCreator.outEdges comment ≠ []

theorem scanReplies_isSome {M : Type} (replyIn : CsrView M G.Comment) (messageVid : M)
    (pq : IC8.Queue G) :
    (scanReplies G replyIn messageVid pq).isSome = true ↔
      ∀ comment ∈ replyIn messageVid, G.commentHasCreator.outEdges comment ≠ [] := by
  refine foldlM_isSome (fun pq comment => ?_) _ pq
  cases G.commentHasCreator.outEdges comment <;> simp

theorem scanAll_isSome {M : Type} (replyIn : CsrView M G.Comment) (messages : List M)
    (pq : IC8.Queue G) :
    (messages.foldlM (fun pq m => scanReplies G replyIn m pq) pq).isSome = true ↔
      ∀ comment ∈ messages.flatMap replyIn, G.commentHasCreator.outEdges comment ≠ [] := by
  rw [foldlM_isSome fun pq m => scanReplies_isSome replyIn m pq]
  simp only [List.mem_flatMap]
  constructor
  · rintro all comment ⟨m, hm, hcomment⟩
    exact all m hm comment hcomment
  · intro all m hm comment hcomment
    exact all comment ⟨m, hm, hcomment⟩

theorem IC8.exec_isSome (root : G.Person) :
    (IC8.exec G (G.personId root)).isSome = true ↔ IC8.LinksPresent G root := by
  have scanned : (IC8.exec G (G.personId root)).isSome = (scanRoot G root).isSome := by
    rw [IC8.exec, getVertexIndex_self G.personKey]
    simp only [Option.bind_eq_bind]
    cases scanRoot G root <;> rfl
  rw [scanned, IC8.LinksPresent, directReplies, List.forall_mem_append,
    ← scanAll_isSome G.replyOfPost.incoming _ (.empty : IC8.Queue G), scanRoot]
  cases (G.postHasCreator.incoming root).foldlM
      (fun pq post => scanReplies G G.replyOfPost.incoming post pq) .empty with
  | none => simp
  | some pq =>
    rw [← scanAll_isSome G.replyOfComment.incoming _ pq]
    simp

end IC8

section IC10
open IC10
variable {G : Graph}

/-- The entries of the persons at distance 2 born in the month of the sign. -/
noncomputable def signFriends (G : Graph) (root : G.Person) (month : Int) :
    List (IC10.PersonResult G) :=
  ((atDistance G root 2).filter fun v => matchesZodiacMonth (G.birthday v) month).map
    (IC10.candidate (interestsOf G root))

/-- Those of them that fewer than 10 others precede have a city. -/
def IC10.LinksPresent (G : Graph) (root : G.Person) (month : Int) : Prop :=
  ∀ r ∈ signFriends G root month,
    (signFriends G root month).countP (fun other => personBefore other r) < IC10.kTopN →
      getSingleOutNeighbor G.personIsLocatedIn.outgoing r.personVid ≠ none

theorem signFriends_separates (root : G.Person) (month : Int) :
    (IC10.personResultComparer G).Separates (signFriends G root month) := by
  refine (byScore G).separates ?_
  rw [signFriends, List.map_map]
  exact (((List.nodup_finRange _).filter _).filter _).map G.personKey

theorem IC10.exec_isSome (root : G.Person) (month : Int) :
    (IC10.exec G (G.personId root) month).isSome = true ↔ IC10.LinksPresent G root month := by
  have perm : (((twoCalls G.knows root).filter fun v =>
      matchesZodiacMonth (G.birthday v) month).map (IC10.candidate (interestsOf G root))).Perm
        (signFriends G root month) :=
    ((perm_atDistance (FirstVisits.fresh_nodup _ _) fun _ => mem_twoCalls).filter _).map _
  have first := (IC10.personResultComparer G).firstN_congr (signFriends_separates root month)
    perm.symm IC10.kTopN
  rw [IC10.exec_eq, IC10.results_eq, ← first, mapM_isSome]
  simp only [IC10.row_isSome]
  exact Comparer.forall_mem_firstN _ (signFriends_separates root month)

end IC10

section IS2
open IS2
variable {G : Graph}

/-- A comment whose thread ends without a post, or whose first post has no creator. -/
def Lost (G : Graph) (message : G.Message) : Prop :=
  ∃ comment, message = .comment comment ∧
    (Exhausted (getSingleOutNeighbor G.replyOfPost.outgoing)
        (getSingleOutNeighbor G.replyOfComment.outgoing) comment ∨
      ∃ postVid, FirstFound (getSingleOutNeighbor G.replyOfPost.outgoing)
          (getSingleOutNeighbor G.replyOfComment.outgoing) comment postVid ∧
        getSingleOutNeighbor G.postHasCreator.outgoing postVid = none)

/-- A post, or a comment whose first post has a creator. -/
def Traced (G : Graph) (message : G.Message) : Prop :=
  ∀ comment, message = .comment comment →
    ∃ postVid, FirstFound (getSingleOutNeighbor G.replyOfPost.outgoing)
        (getSingleOutNeighbor G.replyOfComment.outgoing) comment postVid ∧
      getSingleOutNeighbor G.postHasCreator.outgoing postVid ≠ none

/-- What a list of 10 places keeps of the messages in their order of delivery. One that comes
when it is full takes the last place if it is newer, or as old and of a smaller id. -/
def keptMessages (gt : NbrGt) (G : Graph) (personVid : G.Person) : List (IS2.MessageInfo G) :=
  ((deliveredMessages gt G personVid).foldl
    (PriorityQueue.offer IS2.kTopN (IS2.byDate G).reversed) (.empty : IS2.Queue G)).items

/-- No lost comment stands where all messages before it are traced. -/
def IS2.LinksPresent (gt : NbrGt) (G : Graph) (personVid : G.Person) : Prop :=
  ∀ front message back, keptMessages gt G personVid = front ++ message :: back →
    (∀ m ∈ front, Traced G m.messageVid) → ¬ Lost G message.messageVid

section Message
variable {passes : Nat} {personId : Int} {personVid : G.Person} {message : IS2.MessageInfo G}
  {comment : G.Comment}

theorem run_originalPost (h : message.messageVid = .comment comment) :
    (originalPost G passes personId personVid message).run =
      (resolveRootPost G.replyOfPost.outgoing G.replyOfComment.outgoing passes
        (.comment comment)).map fun r => r.bind fun postVid =>
          (getSingleOutNeighbor G.postHasCreator.outgoing postVid).map fun authorVid =>
            ⟨G.postId postVid, G.personId authorVid, G.firstName authorVid,
              G.lastName authorVid⟩ := by
  rw [originalPost, h]
  cases resolveRootPost G.replyOfPost.outgoing G.replyOfComment.outgoing passes
      (.comment comment) with
  | none => rfl
  | some r =>
    cases r with
    | none => rfl
    | some postVid => cases hauthor : getSingleOutNeighbor G.postHasCreator.outgoing postVid <;>
        simp [Option.elimM, hauthor]

theorem originalPost_absent :
    (originalPost G passes personId personVid message).run = some none ↔
      ∃ comment, message.messageVid = .comment comment ∧
        ∃ r, resolveRootPost G.replyOfPost.outgoing G.replyOfComment.outgoing passes
          (.comment comment) = some r ∧
          r.bind (getSingleOutNeighbor G.postHasCreator.outgoing) = none := by
  cases h : message.messageVid with
  | post v => simp [originalPost, h]
  | comment comment => simp [run_originalPost h]

theorem originalPost_present :
    (∃ original, (originalPost G passes personId personVid message).run =
        some (some original)) ↔
      ∀ comment, message.messageVid = .comment comment →
        ∃ postVid, resolveRootPost G.replyOfPost.outgoing G.replyOfComment.outgoing passes
          (.comment comment) = some (some postVid) ∧
          getSingleOutNeighbor G.postHasCreator.outgoing postVid ≠ none := by
  cases h : message.messageVid with
  | post v => simp [originalPost, h]
  | comment comment =>
    rw [run_originalPost h]
    cases hres : resolveRootPost G.replyOfPost.outgoing G.replyOfComment.outgoing passes
        (.comment comment) with
    | none => simp [hres]
    | some r =>
      cases r with
      | none => simp [hres]
      | some postVid =>
        cases hauthor : getSingleOutNeighbor G.postHasCreator.outgoing postVid <;>
          simp [hres, hauthor]

end Message

theorem Lost.exists_passes {message : IS2.MessageInfo G} (lost : Lost G message.messageVid)
    (personId : Int) (personVid : G.Person) :
    ∃ enough, ∀ passes ≥ enough,
      (originalPost G passes personId personVid message).run = some none := by
  obtain ⟨comment, hcomment, ending⟩ := lost
  rcases ending with exhausted | ⟨postVid, first, noCreator⟩
  · obtain ⟨enough, h⟩ := resolves_none_iff.mpr exhausted
    exact ⟨enough, fun passes hpasses =>
      originalPost_absent.mpr ⟨comment, hcomment, none, h passes hpasses, rfl⟩⟩
  · obtain ⟨enough, h⟩ := resolves_some_iff.mpr first
    exact ⟨enough, fun passes hpasses =>
      originalPost_absent.mpr ⟨comment, hcomment, some postVid, h passes hpasses, noCreator⟩⟩

theorem lost_of_absent {passes : Nat} {personId : Int} {personVid : G.Person}
    {message : IS2.MessageInfo G}
    (h : (originalPost G passes personId personVid message).run = some none) :
    Lost G message.messageVid := by
  obtain ⟨comment, hcomment, r, hr, absent⟩ := originalPost_absent.mp h
  refine ⟨comment, hcomment, ?_⟩
  cases r with
  | none => exact Or.inl (loop_seek_exhausted.mp ⟨passes, hr⟩)
  | some postVid => exact Or.inr ⟨postVid, loop_seek_found.mp ⟨passes, hr⟩, absent⟩

theorem Traced.exists_passes {message : IS2.MessageInfo G} (traced : Traced G message.messageVid)
    (personId : Int) (personVid : G.Person) :
    ∃ enough, ∀ passes ≥ enough, ∃ original,
      (originalPost G passes personId personVid message).run = some (some original) := by
  cases hmessage : message.messageVid with
  | post v =>
    refine ⟨0, fun passes _ => originalPost_present.mpr ?_⟩
    intro comment hcomment
    rw [hmessage] at hcomment
    cases hcomment
  | comment comment =>
    obtain ⟨postVid, first, creator⟩ := traced comment hmessage
    obtain ⟨enough, h⟩ := resolves_some_iff.mpr first
    refine ⟨enough, fun passes hpasses => originalPost_present.mpr ?_⟩
    intro other hother
    obtain rfl : comment = other := by simpa [hmessage] using hother
    exact ⟨postVid, h passes hpasses, creator⟩

theorem traced_of_present {passes : Nat} {personId : Int} {personVid : G.Person}
    {message : IS2.MessageInfo G}
    (h : ∃ original, (originalPost G passes personId personVid message).run =
      some (some original)) : Traced G message.messageVid := by
  intro comment hcomment
  obtain ⟨postVid, hpost, creator⟩ := originalPost_present.mp h comment hcomment
  exact ⟨postVid, loop_seek_found.mp ⟨passes, hpost⟩, creator⟩

/-- Finitely many rows that each come through with enough passes do so with one budget. -/
theorem exists_common {α : Type} {P : α → Nat → Prop} {xs : List α}
    (each : ∀ x ∈ xs, ∃ enough, ∀ n ≥ enough, P x n) :
    ∃ enough, ∀ n ≥ enough, ∀ x ∈ xs, P x n := by
  induction xs with
  | nil => exact ⟨0, by simp⟩
  | cons x rest ih =>
    obtain ⟨⟨n, hn⟩, each⟩ := List.forall_mem_cons.mp each
    obtain ⟨m, hm⟩ := ih each
    refine ⟨max n m, fun k hk => List.forall_mem_cons.mpr ⟨hn k ?_, hm k ?_⟩⟩
    · exact (Nat.le_max_left n m).trans hk
    · exact (Nat.le_max_right n m).trans hk

theorem run_exec (passes : Nat) (gt : NbrGt) (root : G.Person) :
    IS2.exec G passes gt (G.personId root) =
      (keptMessages gt G root).mapM fun message => do
        let original ← originalPost G passes (G.personId root) root message
        return IS2.row G message original := by
  rw [IS2.exec, getVertexIndex_self G.personKey]
  simp only [PriorityQueue.drain, List.reverse_reverse, scanPerson_eq]
  rfl

theorem IS2.exec_absent_iff (gt : NbrGt) (root : G.Person) :
    (∃ passes, (IS2.exec G passes gt (G.personId root)).run = some none) ↔
      ∃ front message back, keptMessages gt G root = front ++ message :: back ∧
        (∀ m ∈ front, Traced G m.messageVid) ∧ Lost G message.messageVid := by
  have body : ∀ passes (message : IS2.MessageInfo G),
      (do
        let original ← originalPost G passes (G.personId root) root message
        return IS2.row G message original : OptionT Option IS2.Row).run =
      (originalPost G passes (G.personId root) root message).run.map
        (Option.map (IS2.row G message)) := by
    intro passes message
    simp
  simp only [run_exec, mapM_eq_absent, body, Option.map_eq_some_iff, Option.map_eq_none_iff,
    exists_eq_right]
  constructor
  · rintro ⟨passes, front, message, back, split, through, absent⟩
    refine ⟨front, message, back, split, fun m hm => ?_, lost_of_absent absent⟩
    obtain ⟨row, original, horiginal, hrow⟩ := through m hm
    obtain ⟨o, rfl, -⟩ := hrow
    exact traced_of_present ⟨o, horiginal⟩
  · rintro ⟨front, message, back, split, traced, lost⟩
    obtain ⟨n, hn⟩ := exists_common fun m hm =>
      (traced m hm).exists_passes (G.personId root) root
    obtain ⟨k, hk⟩ := lost.exists_passes (G.personId root) root
    refine ⟨max n k, front, message, back, split, fun m hm => ?_, hk _ (Nat.le_max_right n k)⟩
    obtain ⟨original, h⟩ := hn _ (Nat.le_max_left n k) m hm
    exact ⟨IS2.row G m original, some original, h, original, rfl, rfl⟩

theorem IS2.exec_present (gt : NbrGt) (root : G.Person) :
    (∀ passes, (IS2.exec G passes gt (G.personId root)).run ≠ some none) ↔
      IS2.LinksPresent gt G root := by
  have absent := not_congr (IS2.exec_absent_iff gt root)
  push Not at absent
  exact absent

end IS2

/-- Each query reads only what is there if and only if the links it depends on are present. -/
theorem missing_links_iff (G : Graph) (gt : NbrGt) (personId : Int) (firstName : String)
    (month : Int) :
    (IC1.exec G personId firstName ≠ none ↔
      ∀ root, G.personId root = personId → IC1.LinksPresent G root firstName) ∧
    (IC8.exec G personId ≠ none ↔
      ∀ root, G.personId root = personId → IC8.LinksPresent G root) ∧
    (IC10.exec G personId month ≠ none ↔
      ∀ root, G.personId root = personId → IC10.LinksPresent G root month) ∧
    ((∀ passes, (IS2.exec G passes gt personId).run ≠ some none) ↔
      ∀ root, G.personId root = personId → IS2.LinksPresent gt G root) := by
  refine ⟨?_, ?_, ?_, ?_⟩
  · refine forall_root_iff (P := fun id => IC1.exec G id firstName ≠ none) ?_ ?_ personId
    · intro root
      rw [← IC1.exec_isSome, Option.isSome_iff_ne_none]
    · intro id absent
      simp [IC1.exec, getVertexIndex_eq_none absent]
  · refine forall_root_iff (P := fun id => IC8.exec G id ≠ none) ?_ ?_ personId
    · intro root
      rw [← IC8.exec_isSome, Option.isSome_iff_ne_none]
    · intro id absent
      simp [IC8.exec, getVertexIndex_eq_none absent]
  · refine forall_root_iff (P := fun id => IC10.exec G id month ≠ none) ?_ ?_ personId
    · intro root
      rw [← IC10.exec_isSome, Option.isSome_iff_ne_none]
    · intro id absent
      simp [IC10.exec, getVertexIndex_eq_none absent]
  · refine forall_root_iff (P := fun id => ∀ passes, (IS2.exec G passes gt id).run ≠ some none)
      (IS2.exec_present gt) ?_ personId
    intro id absent passes
    simp [IS2.exec, getVertexIndex_eq_none absent]

theorem unlinked_small : 3 ≤ kInvalidVid := by decide

/-- No person has a city; a post of person 0 has a reply without a creator, and a comment of
person 0 replies to nothing. -/
def unlinked : Graph :=
  { Graph.numbered 3 1 2 unlinked_small (.ofNumbers [(0, 1, ()), (1, 2, ())]) with
    postHasCreator := .ofNumbers [(0, 0, 0)]
    commentHasCreator := .ofNumbers [(1, 0, 0)]
    replyOfPost := .ofNumbers [(0, 0, ())] }

theorem missing_links_read :
    IC1.exec unlinked 0 "" = none ∧ IC8.exec unlinked 0 = none ∧
      IC10.exec unlinked 0 12 = none ∧ (IS2.exec unlinked 1 .stored 0).run = some none := by
  refine ⟨?_, ?_, ?_, ?_⟩ <;> decide +kernel

end LdbcInteractive
