import LdbcInteractive.IC2
import LdbcInteractive.IC7
import LdbcInteractive.IC9
import LdbcInteractive.IC11
import LdbcInteractive.IS7
import LdbcInteractive.LoadOrderFriends
import LdbcInteractive.LoadOrderLatest

/-!
# Where the rows come from

For each query with persons or messages in its rows: every row is read off a person at
a known place in the KNOWS graph, or off a message with its author. No promise about the
stored edges is needed.
-/

namespace LdbcInteractive

open EdgeTables GraphDistance PartialLoops PriorityQueues

section Lists
variable {α β : Type}

theorem mem_of_mem_firstN {c : Comparer α} {n : Nat} {xs : List α} {x : α}
    (h : x ∈ c.firstN n xs) : x ∈ xs :=
  (c.ranked_perm xs).mem_iff.mp (List.mem_of_mem_take h)

theorem runHeads_sublist {κ : Type} [LinearOrder κ] (key : α → κ) (prev : Option κ)
    (xs : List α) : (runHeads key prev xs).Sublist xs := by
  induction xs generalizing prev with
  | nil => exact List.Sublist.refl _
  | cons x rest ih =>
    rw [runHeads]
    split
    · exact (ih prev).cons x
    · exact (ih _).cons_cons x

/-- What is drained from a bounded heap was offered to it. -/
theorem exists_of_drained {c : Comparer α} {n : Nat} {admits : α → α → Bool} {xs : List α}
    {row : α → β} {y : β}
    (hy : y ∈ (xs.foldl (PriorityQueue.offer n admits)
      (.empty : PriorityQueue c)).drain.reverse.map row) : ∃ x ∈ xs, row x = y := by
  obtain ⟨x, hx, rfl⟩ := List.mem_map.mp hy
  rw [PriorityQueue.drain, List.reverse_reverse] at hx
  exact ⟨x, PriorityQueue.mem_of_mem_foldl_offer hx, rfl⟩

end Lists

variable {G : Graph} {root : G.Person}

theorem IC1.row_read {result : IC1.PersonResult G} {row : IC1.Row}
    (read : IC1.row G result = some row) :
    row.friendId = result.id ∧ row.distanceFromPerson = result.distance := by
  simp only [IC1.row, Option.bind_eq_bind, Option.bind_eq_some_iff] at read
  obtain ⟨_, -, _, -, _, -, read⟩ := read
  obtain rfl := Option.some.inj read
  exact ⟨rfl, rfl⟩

theorem IC1.row_source {firstName : String} {rows : List IC1.Row}
    (h : IC1.exec G (G.personId root) firstName = some rows) {row : IC1.Row} (hrow : row ∈ rows) :
    ∃ v, IC1.Stands root row.distanceFromPerson v ∧ G.firstName v = firstName ∧
      row.friendId = G.personId v := by
  rw [IC1.exec, getVertexIndex_self G.personKey] at h
  obtain ⟨result, hresult, read⟩ := exists_of_mapM h hrow
  rw [collectFriends_reverse] at hresult
  obtain ⟨dist, v, stands, named, rfl⟩ := mem_offeredFriends_iff.mp (mem_of_mem_firstN hresult)
  obtain ⟨ident, far⟩ := IC1.row_read read
  rw [far]
  exact ⟨v, stands, named, ident⟩

/-- A row of IC2 or IC9: a message of one of the persons who are looked through. -/
theorem exists_of_friendMessages {lt : NbrLt} {threshold : DateTime} {friends : List G.Person}
    {n : Nat} {row : MessageRow}
    (hrow : row ∈ ((messageInfoComparer G.Message G.Person).firstN n
      (friends.flatMap (friendMessages lt G threshold))).map (messageRow G)) :
    ∃ m : G.Info, row = messageRow G m ∧ IsCreated m ∧ m.personVid ∈ friends := by
  obtain ⟨m, hm, rfl⟩ := List.mem_map.mp hrow
  obtain ⟨v, hv, hm⟩ := List.mem_flatMap.mp (mem_of_mem_firstN hm)
  obtain ⟨rfl, created, -⟩ := mem_friendMessages.mp hm
  exact ⟨m, rfl, created, hv⟩

theorem IC2.row_source {lt : NbrLt} {maxDateMs : Int64} {row : MessageRow}
    (hrow : row ∈ IC2.exec lt G (G.personId root) maxDateMs) :
    ∃ m : G.Info, row = messageRow G m ∧ IsCreated m ∧ Joined G.knows root m.personVid := by
  rw [IC2.exec_eq] at hrow
  obtain ⟨m, read, created, friend⟩ := exists_of_friendMessages hrow
  exact ⟨m, read, created, List.mem_append.mp friend⟩

theorem IC9.row_source {lt : NbrLt} {maxDateMs : Int64} {row : MessageRow}
    (hrow : row ∈ IC9.exec lt G (G.personId root) maxDateMs) :
    ∃ m : G.Info, row = messageRow G m ∧ IsCreated m ∧ InCircle G.knows root m.personVid := by
  rw [IC9.exec_eq] at hrow
  obtain ⟨m, read, created, friend⟩ := exists_of_friendMessages hrow
  exact ⟨m, read, created, mem_oneTwoCalls.mp friend⟩

theorem IC3.row_source {lt : NbrLt} {countryXName countryYName : String}
    {startDateMs durationDays : Int64} {rows : List IC3.Row}
    (h : IC3.exec G lt (G.personId root) countryXName countryYName startDateMs durationDays =
      some rows) {row : IC3.Row} (hrow : row ∈ rows) :
    ∃ v, row.personId = G.personId v ∧ InCircle G.knows root v := by
  rw [IC3.exec, getVertexIndex_self G.personKey] at h
  simp only [Option.bind_eq_bind] at h
  obtain ⟨countryX, -, h⟩ := Option.bind_eq_some_iff.mp h
  obtain ⟨countryY, -, h⟩ := Option.bind_eq_some_iff.mp h
  obtain rfl := Option.some.inj h
  rw [foreachKnows1d2dNeighbor_eq, IC3.foldl_collectFriend, List.nil_append,
    IC3.foldl_considerFriend_eq] at hrow
  obtain ⟨result, hresult, rfl⟩ := exists_of_drained hrow
  obtain ⟨v, hv, rfl⟩ := List.mem_map.mp hresult
  have friend := List.mem_of_mem_filter (List.mem_of_mem_filter hv)
  exact ⟨v, rfl, mem_oneTwoCalls.mp friend⟩

theorem IC10.row_source {month : Int} {rows : List IC10.Row}
    (h : IC10.exec G (G.personId root) month = some rows) {row : IC10.Row} (hrow : row ∈ rows) :
    ∃ v, row.personId = G.personId v ∧ Layer (undirected G.knows) root 2 v := by
  rw [IC10.exec_eq, IC10.results_eq] at h
  obtain ⟨result, hresult, read⟩ := exists_of_mapM h hrow
  obtain ⟨v, hv, rfl⟩ := List.mem_map.mp (mem_of_mem_firstN hresult)
  have shown := Prod.mk.inj (IC10.row_reads _ row read)
  exact ⟨v, shown.1, mem_twoCalls.mp (List.mem_filter.mp hv).1⟩

theorem IC11.row_source {countryName : String} {workFromYear : Int} {row : IC11.Row}
    (hrow : row ∈ IC11.exec G (G.personId root) countryName workFromYear) :
    ∃ v, row.personId = G.personId v ∧ InCircle G.knows root v := by
  simp only [IC11.exec, getVertexIndex_self G.personKey] at hrow
  cases found : findVertexByStringProp G.placeName countryName with
  | none =>
    rw [found] at hrow
    cases hrow
  | some countryVid =>
    simp only [found, IC11.scanCompanies_eq] at hrow
    obtain ⟨result, hresult, rfl⟩ := exists_of_drained hrow
    obtain ⟨companyVid, -, hresult⟩ := List.mem_flatMap.mp hresult
    obtain ⟨e, he, rfl⟩ := List.mem_map.mp hresult
    exact ⟨e.1, rfl, (of_decide_eq_true (List.mem_filter.mp he).2).2⟩

theorem IC12.row_source {passes : Nat} {tagClassName : String} {rows : List IC12.Row}
    (h : IC12.exec G passes (G.personId root) tagClassName = some rows) {row : IC12.Row}
    (hrow : row ∈ rows) :
    ∃ v, row.personId = G.personId v ∧ Joined G.knows root v := by
  cases found : findVertexByStringProp G.tagClassName tagClassName with
  | none =>
    simp only [IC12.exec, getVertexIndex_self G.personKey, found, Option.some.injEq] at h
    subst h
    cases hrow
  | some cls =>
    cases collected : IC12.collectTagsInClass G passes cls with
    | none =>
      simp only [IC12.exec, getVertexIndex_self G.personKey, found, collected,
        Option.bind_eq_bind, Option.bind_none] at h
      cases h
    | some tagSet =>
      rw [IC12.exec_eq found collected] at h
      obtain rfl := Option.some.inj h
      obtain ⟨result, hresult, rfl⟩ := List.mem_map.mp hrow
      obtain ⟨v, hv, rfl⟩ := List.mem_map.mp (mem_of_mem_firstN hresult)
      exact ⟨v, rfl, List.mem_append.mp (List.mem_filter.mp hv).1⟩

theorem IC7.row_source {sort : StdSort} {row : IC7.Row}
    (hrow : row ∈ IC7.exec G sort (G.personId root)) :
    ∃ like, row = IC7.row G root like ∧ IC7.IsLike root like := by
  rw [IC7.exec_eq] at hrow
  obtain ⟨like, hlike, rfl⟩ := List.mem_map.mp hrow
  have sorted := (runHeads_sublist _ _ _).subset (mem_of_mem_firstN hlike)
  exact ⟨like, rfl, IC7.mem_likesOf.mp ((sort.perm (IC7.likeOrder G) _).mem_iff.mp sorted)⟩

theorem mem_repliesOf {comments : List G.Comment} {reply : IC8.CommentResult G}
    (hreply : reply ∈ LdbcInteractive.repliesOf G comments) :
    ∃ comment author, comment ∈ comments ∧
      author ∈ G.commentHasCreator.outEdges comment ∧ reply = IC8.commentInfo G comment author := by
  obtain ⟨comment, hcomment, read⟩ := List.mem_filterMap.mp hreply
  obtain ⟨author, hauthor, rfl⟩ := Option.map_eq_some_iff.mp read
  exact ⟨comment, author, hcomment, List.mem_of_mem_head? hauthor, rfl⟩

theorem IC8.row_source {rows : List IC8.Row} (h : IC8.exec G (G.personId root) = some rows)
    {row : IC8.Row} (hrow : row ∈ rows) :
    ∃ comment author, comment ∈ directReplies G root ∧
      author ∈ G.commentHasCreator.outEdges comment ∧
      row = IC8.row G (IC8.commentInfo G comment author) := by
  have authored : IC8.LinksPresent G root :=
    (IC8.exec_isSome root).mp (Option.isSome_iff_exists.mpr ⟨rows, h⟩)
  rw [IC8.exec_feed authored] at h
  obtain rfl := Option.some.inj h
  obtain ⟨reply, hreply, rfl⟩ := List.mem_map.mp hrow
  obtain ⟨comment, author, hcomment, hauthor, rfl⟩ :=
    mem_repliesOf (PriorityQueue.mem_of_mem_foldl_offer hreply)
  exact ⟨comment, author, hcomment, hauthor, rfl⟩

theorem IS7.row_source {sort : StdSort} {messageId : Int} {row : IS7.Row}
    (hrow : row ∈ IS7.exec G sort messageId) :
    ∃ message writer comment author, findMessageVertex G messageId = some message ∧
      getSingleOutNeighbor (IS7.hasCreatorOut G) message = some writer ∧
      comment ∈ IS7.replyIn G message ∧ author ∈ G.commentHasCreator.outEdges comment ∧
      row = IS7.row G writer (IS7.replyInfo G comment author) := by
  unfold IS7.exec at hrow
  cases found : findMessageVertex G messageId with
  | none =>
    rw [found] at hrow
    cases hrow
  | some message =>
    cases written : (IS7.hasCreatorOut G message).head? with
    | none =>
      simp only [found, written] at hrow
      cases hrow
    | some writer =>
      simp only [found, written, IS7.collectReplies_eq] at hrow
      obtain ⟨reply, hreply, rfl⟩ := List.mem_map.mp hrow
      obtain ⟨comment, hcomment, read⟩ :=
        List.mem_filterMap.mp ((sort.perm (IS7.replyOrder G) _).mem_iff.mp hreply)
      obtain ⟨author, hauthor, rfl⟩ := Option.map_eq_some_iff.mp read
      exact ⟨message, writer, comment, author, rfl, written, hcomment,
        List.mem_of_mem_head? hauthor, rfl⟩

theorem IS2.mem_deliveredMessages {gt : NbrGt} {message : IS2.MessageInfo G}
    (hmessage : message ∈ IS2.deliveredMessages gt G root) :
    (root, message.creationDateMs) ∈ creatorEdges G message.messageVid ∧
      message.messageId = G.messageId message.messageVid := by
  rcases List.mem_append.mp hmessage with hmessage | hmessage
  · obtain ⟨e, he, rfl⟩ := List.mem_map.mp hmessage
    have stored := List.mem_of_mem_filter ((gt.perm _ _ _).mem_iff.mp he)
    exact ⟨(G.postHasCreator.mem_edges_iff _ _ _).mp stored, rfl⟩
  · obtain ⟨e, he, rfl⟩ := List.mem_map.mp hmessage
    have stored := List.mem_of_mem_filter ((gt.perm _ _ _).mem_iff.mp he)
    exact ⟨(G.commentHasCreator.mem_edges_iff _ _ _).mp stored, rfl⟩

theorem IS2.row_source {passes : Nat} {gt : NbrGt} {rows : List IS2.Row}
    (h : (IS2.exec G passes gt (G.personId root)).run = some (some rows)) {row : IS2.Row}
    (hrow : row ∈ rows) :
    ∃ message original, message ∈ IS2.deliveredMessages gt G root ∧
      (IS2.originalPost G passes (G.personId root) root message).run = some (some original) ∧
      row = IS2.row G message original := by
  rw [run_exec] at h
  obtain ⟨message, hmessage, read⟩ := exists_of_run_mapM h hrow
  rw [OptionT.run_bind] at read
  obtain ⟨r, horiginal, read⟩ := Option.bind_eq_some_iff.mp read
  cases r with
  | none => cases read
  | some original =>
    obtain rfl := Option.some.inj (Option.some.inj read)
    exact ⟨message, original, PriorityQueue.mem_of_mem_foldl_offer hmessage, horiginal, rfl⟩

end LdbcInteractive
