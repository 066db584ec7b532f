import LdbcInteractive.EdgeTables
import LdbcInteractive.GraphDistance
import LdbcInteractive.PriorityQueues
import LdbcInteractive.SortedRuns

/-!
# Tables, selections and distances under other names

Two edge tables that hold the same edges under a renaming of the vertices on both
sides. The order of an adjacency list is free, so the relation is stated with
permutations; it is stated for the outgoing lists only, because the storage
invariant carries it over to the incoming ones. Then what a renaming does to a
selection in order, which only sees the keys, and to the distance in a graph.
-/

universe u v

namespace EdgeTables

/-- Two readings without repetition of one set under two names. -/
theorem perm_map_of_mem {α β : Type} (e : α ≃ β) {xs : List α} {ys : List β} (hx : xs.Nodup)
    (hy : ys.Nodup) (mem : ∀ a, e a ∈ ys ↔ a ∈ xs) : ys.Perm (xs.map e) := by
  refine (List.perm_ext_iff_of_nodup hy (hx.map e.injective)).mpr fun b => ?_
  obtain ⟨a, rfl⟩ := e.surjective b
  rw [mem, List.mem_map_of_injective e.injective]

section Chains
variable {α β : Type} {R : α → α → Prop} {S : β → β → Prop} (e : α ≃ β)
  (same : ∀ a b, S (e a) (e b) ↔ R a b)
include same

theorem rel_symm_renamed (x y : β) (h : S x y) : R (e.symm x) (e.symm y) := by
  rwa [← same, e.apply_symm_apply, e.apply_symm_apply]

theorem transGen_renamed {a b : α} : Relation.TransGen S (e a) (e b) ↔ Relation.TransGen R a b := by
  constructor
  · intro h
    have back := Relation.TransGen.lift e.symm (rel_symm_renamed e same) _ _ h
    simpa [Function.onFun] using back
  · exact Relation.TransGen.lift e (fun a b => (same a b).mpr) a b

theorem reflTransGen_renamed {a b : α} :
    Relation.ReflTransGen S (e a) (e b) ↔ Relation.ReflTransGen R a b := by
  constructor
  · intro h
    have back := Relation.ReflTransGen.lift e.symm (rel_symm_renamed e same) _ _ h
    simpa [Function.onFun] using back
  · exact Relation.ReflTransGen.lift e (fun a b => (same a b).mpr) a b

end Chains

theorem finRange_renamed {n m : Nat} (e : Fin n ≃ Fin m) :
    (List.finRange m).Perm ((List.finRange n).map e) :=
  perm_map_of_mem e (List.nodup_finRange n) (List.nodup_finRange m) fun _ => by
    simp only [List.mem_finRange]

theorem filter_renamed {α : Type u} {β : Type v} {f : α → β} {xs : List α} {ys : List β}
    (perm : ys.Perm (xs.map f)) {p : α → Bool} {p' : β → Bool} (tests : ∀ x, p' (f x) = p x) :
    (ys.filter p').Perm ((xs.filter p).map f) := by
  refine (perm.filter p').trans (List.Perm.of_eq ?_)
  rw [List.filter_map, funext (f := p' ∘ f) tests]

/-- One list for each vertex, all after each other. -/
theorem flatMap_renamed {α β γ δ : Type} {f : α → β} {g : γ → δ} {xs : List α} {ys : List β}
    (perm : ys.Perm (xs.map f)) {next : α → List γ} {next' : β → List δ}
    (each : ∀ x, (next' (f x)).Perm ((next x).map g)) :
    (ys.flatMap next').Perm ((xs.flatMap next).map g) := by
  refine (perm.flatMap_right next').trans ?_
  rw [List.flatMap_map, List.map_flatMap]
  exact List.Perm.flatMap_left xs fun x _ => each x

/-- What is filtered and read off a list of vertices, where test and reading go by their
contents. -/
theorem filter_map_renamed {α β γ : Type} {f : α → β} {xs : List α} {ys : List β}
    (perm : ys.Perm (xs.map f)) {p : α → Bool} {p' : β → Bool} (tests : ∀ x, p' (f x) = p x)
    {g : α → γ} {g' : β → γ} (reads : ∀ x, g' (f x) = g x) :
    ((ys.filter p').map g').Perm ((xs.filter p).map g) := by
  refine ((filter_renamed perm tests).map g').trans (List.Perm.of_eq ?_)
  rw [List.map_map]
  exact List.map_congr_left fun x _ => reads x

section Rows
variable {α δ : Type} [DecidableEq α]

theorem count_row [DecidableEq δ] (es : List (α × δ)) (e : α × δ) :
    es.count e = ((es.filter fun x => x.1 = e.1).map Prod.snd).count e.2 := by
  rw [List.count_eq_countP, List.count_eq_countP, List.countP_map, List.countP_filter]
  refine List.countP_congr fun x _ => ?_
  simp [Prod.ext_iff, and_comm]

/-- A list of edges is given up to order by its rows, one for each vertex. -/
theorem perm_of_rows {es es' : List (α × δ)}
    (rows : ∀ a, ((es.filter fun e => e.1 = a).map Prod.snd).Perm
      ((es'.filter fun e => e.1 = a).map Prod.snd)) : es.Perm es' := by
  classical
  refine List.perm_iff_count.mpr fun e => ?_
  rw [count_row, count_row]
  exact (rows e.1).count_eq e.2

end Rows

namespace EdgeTable

variable {α β δ α' β' : Type} [DecidableEq α] [DecidableEq β] [DecidableEq α'] [DecidableEq β']

/-- `T'` holds the edges of `T` under the names that `e` and `f` give to the vertices. -/
def Renamed (T : EdgeTable α β δ) (T' : EdgeTable α' β' δ) (e : α ≃ α') (f : β ≃ β') : Prop :=
  ∀ a, (T'.outEdges (e a)).Perm ((T.outEdges a).map (Prod.map f id))

theorem row_map {ι ι' : Type} [DecidableEq ι] [DecidableEq ι'] (f : ι ≃ ι') (es : List (ι × δ))
    (i : ι) : (((es.map (Prod.map f id)).filter fun e => e.1 = f i).map Prod.snd) =
      (es.filter fun e => e.1 = i).map Prod.snd := by
  rw [List.filter_map, List.map_map]
  simp only [Function.comp_def, Prod.map_fst, Prod.map_snd, id, f.apply_eq_iff_eq]

variable {T : EdgeTable α β δ} {T' : EdgeTable α' β' δ} {e : α ≃ α'} {f : β ≃ β'}

namespace Renamed

/-- The incoming lists follow: a row of one side is a row of the other. -/
theorem inEdges (h : T.Renamed T' e f) (b : β) :
    (T'.inEdges (f b)).Perm ((T.inEdges b).map (Prod.map e id)) := by
  refine perm_of_rows fun a' => ?_
  obtain ⟨a, rfl⟩ := e.surjective a'
  rw [row_map]
  refine (T'.converse (e a) (f b)).symm.trans (List.Perm.trans ?_ (T.converse a b))
  have row := ((h a).filter fun x => decide (x.1 = f b)).map Prod.snd
  rwa [row_map] at row

theorem outgoing (h : T.Renamed T' e f) (a : α) :
    (T'.outgoing (e a)).Perm ((T.outgoing a).map f) := by
  have names := (h a).map Prod.fst
  rw [List.map_map] at names
  rw [EdgeTable.outgoing, EdgeTable.outgoing, List.map_map]
  exact names

theorem incoming (h : T.Renamed T' e f) (b : β) :
    (T'.incoming (f b)).Perm ((T.incoming b).map e) := by
  have names := (h.inEdges b).map Prod.fst
  rw [List.map_map] at names
  rw [EdgeTable.incoming, EdgeTable.incoming, List.map_map]
  exact names

theorem mem_outgoing_iff (h : T.Renamed T' e f) {a : α} {b : β} :
    f b ∈ T'.outgoing (e a) ↔ b ∈ T.outgoing a :=
  (h.outgoing a).mem_iff.trans (List.mem_map_of_injective f.injective)

theorem mem_incoming_iff (h : T.Renamed T' e f) {a : α} {b : β} :
    e a ∈ T'.incoming (f b) ↔ a ∈ T.incoming b :=
  (h.incoming b).mem_iff.trans (List.mem_map_of_injective e.injective)

theorem atMostOne (h : T.Renamed T' e f) (one : T.AtMostOne) : T'.AtMostOne := by
  intro a'
  obtain ⟨a, rfl⟩ := e.surjective a'
  rw [(h a).length_eq, List.length_map]
  exact one a

/-- Where there is one edge at most, there is no order to depend on. -/
theorem outEdges_eq (h : T.Renamed T' e f) (one : T.AtMostOne) (a : α) :
    T'.outEdges (e a) = (T.outEdges a).map (Prod.map f id) := by
  cases hes : T.outEdges a with
  | nil =>
    have perm := h a
    rw [hes] at perm
    exact perm.eq_nil
  | cons x rest =>
    have perm := h a
    rw [one.outEdges_eq (hes ▸ List.mem_cons_self)] at perm
    rw [← hes, one.outEdges_eq (hes ▸ List.mem_cons_self)]
    exact List.perm_singleton.mp perm

theorem outgoing_eq (h : T.Renamed T' e f) (one : T.AtMostOne) (a : α) :
    T'.outgoing (e a) = (T.outgoing a).map f := by
  rw [EdgeTable.outgoing, EdgeTable.outgoing, h.outEdges_eq one, List.map_map, List.map_map]
  rfl

theorem head_outgoing (h : T.Renamed T' e f) (one : T.AtMostOne) (a : α) :
    (T'.outgoing (e a)).head? = (T.outgoing a).head?.map f := by
  rw [h.outgoing_eq one, List.head?_map]

end Renamed

/-- The table under new names on both sides, every list read from its end. -/
def reload (T : EdgeTable α β δ) (e : α ≃ α') (f : β ≃ β') : EdgeTable α' β' δ where
  outEdges a := ((T.outEdges (e.symm a)).map (Prod.map f id)).reverse
  inEdges b := ((T.inEdges (f.symm b)).map (Prod.map e id)).reverse
  converse a b := by
    obtain ⟨a, rfl⟩ := e.surjective a
    obtain ⟨b, rfl⟩ := f.surjective b
    rw [e.symm_apply_apply, f.symm_apply_apply, List.filter_reverse, List.filter_reverse,
      List.map_reverse, List.map_reverse, row_map, row_map]
    exact (List.reverse_perm _).trans ((T.converse a b).trans (List.reverse_perm _).symm)

theorem outgoing_reload (T : EdgeTable α β δ) (e : α ≃ α') (f : β ≃ β') (a : α') :
    (T.reload e f).outgoing a = ((T.outgoing (e.symm a)).map f).reverse := by
  rw [outgoing, reload, List.map_reverse, List.map_map, outgoing, List.map_map]
  rfl

theorem incoming_reload (T : EdgeTable α β δ) (e : α ≃ α') (f : β ≃ β') (b : β') :
    (T.reload e f).incoming b = ((T.incoming (f.symm b)).map e).reverse := by
  rw [incoming, reload, List.map_reverse, List.map_map, incoming, List.map_map]
  rfl

theorem renamed_reload (T : EdgeTable α β δ) (e : α ≃ α') (f : β ≃ β') :
    T.Renamed (T.reload e f) e f := by
  intro a
  have list : (T.reload e f).outEdges (e a) = ((T.outEdges a).map (Prod.map f id)).reverse :=
    congrArg (fun x => ((T.outEdges x).map (Prod.map f id)).reverse) (e.symm_apply_apply a)
  exact list ▸ List.reverse_perm _

end EdgeTable

end EdgeTables

namespace PriorityQueues

variable {α : Type u} {β : Type v} {c : Comparer α} {c' : Comparer β} {f : α → β}

namespace Comparer

theorem ranked_map (same : ∀ a b, c'.before (f a) (f b) = c.before a b) (xs : List α) :
    c'.ranked (xs.map f) = (c.ranked xs).map f :=
  (List.map_insertionSort c.Le c'.Le f xs fun a _ b _ => by rw [Le, Le, same]).symm

theorem Separates.map {xs : List α} (sep : c.Separates xs)
    (same : ∀ a b, c'.before (f a) (f b) = c.before a b) : c'.Separates (xs.map f) := by
  intro x hx y hy hxy hyx
  obtain ⟨a, ha, rfl⟩ := List.mem_map.mp hx
  obtain ⟨b, hb, rfl⟩ := List.mem_map.mp hy
  rw [Le, same] at hxy hyx
  rw [sep a ha b hb hxy hyx]

theorem Separates.perm {xs ys : List α} (sep : c.Separates xs) (h : ys.Perm xs) :
    c.Separates ys :=
  fun a ha b hb => sep a (h.mem_iff.mp ha) b (h.mem_iff.mp hb)

/-- One sorted reading of a set of distinguishable elements. -/
theorem eq_ranked {xs ys : List α} (sep : c.Separates xs) (perm : ys.Perm xs)
    (sorted : ys.Pairwise c.Le) : ys = c.ranked xs := by
  have hp := perm.trans (c.ranked_perm xs).symm
  refine hp.eq_of_pairwise (fun a b ha hb => ?_) sorted (c.ranked_pairwise xs)
  exact sep a (perm.mem_iff.mp ha) b ((c.ranked_perm xs).mem_iff.mp hb)

section Renamed
variable {xs : List α} {ys : List β} (sep : c.Separates xs)
  (same : ∀ a b, c'.before (f a) (f b) = c.before a b) (perm : ys.Perm (xs.map f))
include sep same perm

theorem ranked_renamed : c'.ranked ys = (c.ranked xs).map f := by
  rw [c'.ranked_congr ((sep.map same).perm perm) perm, ranked_map same]

/-- The first `n` of a renamed stream, in any order of arrival, are the renamed first `n`. -/
theorem firstN_renamed (n : Nat) : c'.firstN n ys = (c.firstN n xs).map f := by
  rw [firstN, ranked_renamed sep same perm, firstN, List.map_take]

/-- The rows read off the first `n`, where a row goes by the contents of an element. -/
theorem firstN_rows_renamed {γ : Type*} (n : Nat) {row : α → γ} {row' : β → γ}
    (reads : ∀ x, row' (f x) = row x) : (c'.firstN n ys).map row' = (c.firstN n xs).map row := by
  rw [firstN_renamed sep same perm, List.map_map]
  exact List.map_congr_left fun x _ => reads x

end Renamed

end Comparer

namespace PriorityQueue

section Drained
variable {n : Nat} {admits : α → α → Bool} {admits' : β → β → Bool}
  (tests : ∀ x worst, admits x worst = c.before x worst)
  (tests' : ∀ x worst, admits' x worst = c'.before x worst) {xs : List α} {ys : List β}
  (sep : c.Separates xs) (same : ∀ a b, c'.before (f a) (f b) = c.before a b)
  (perm : ys.Perm (xs.map f))
include tests tests' sep same perm

/-- What is left of two queues that were offered one stream under two names. -/
theorem drain_renamed : (ys.foldl (offer n admits') (empty : PriorityQueue c')).drain.reverse =
    (xs.foldl (offer n admits) (empty : PriorityQueue c)).drain.reverse.map f := by
  rw [drain_foldl_offer tests, drain_foldl_offer tests']
  exact Comparer.firstN_renamed sep same perm n

theorem drain_rows_renamed {γ : Type*} {row : α → γ} {row' : β → γ}
    (reads : ∀ x, row' (f x) = row x) :
    (ys.foldl (offer n admits') (empty : PriorityQueue c')).drain.reverse.map row' =
      (xs.foldl (offer n admits) (empty : PriorityQueue c)).drain.reverse.map row := by
  rw [drain_renamed tests tests' sep same perm, List.map_map]
  exact List.map_congr_left fun x _ => reads x

end Drained

end PriorityQueue

theorem runHeads_map {κ : Type*} [LinearOrder κ] {key : α → κ} {key' : β → κ}
    (same : ∀ a, key' (f a) = key a) (prev : Option κ) (xs : List α) :
    runHeads key' prev (xs.map f) = (runHeads key prev xs).map f := by
  induction xs generalizing prev with
  | nil => rfl
  | cons a rest ih =>
    by_cases h : prev = some (key a)
    · simp only [List.map_cons, runHeads, same, h, if_true, ih]
    · simp only [List.map_cons, runHeads, same, if_neg h, ih]

end PriorityQueues

namespace GraphDistance

variable {V : Type u} {W : Type v} {G : SimpleGraph V} {G' : SimpleGraph W}

theorem edist_iso (φ : G ≃g G') (s v : V) : G'.edist (φ s) (φ v) = G.edist s v := by
  refine le_antisymm (edist_map_le φ.toHom s v) ?_
  have back := edist_map_le φ.symm.toHom (φ s) (φ v)
  simpa using back

theorem layer_iso (φ : G ≃g G') {s v : V} {k : ℕ} : Layer G' (φ s) k (φ v) ↔ Layer G s k v := by
  rw [Layer, Layer, edist_iso]

/-- The walks of one graph, read off their supports, are those of the other. -/
theorem walk_iso (φ : G ≃g G') {s t : V} {d : ℕ} {p : List V} :
    (∃ w : G'.Walk (φ s) (φ t), w.length = d ∧ w.support = p.map φ) ↔
      ∃ w : G.Walk s t, w.length = d ∧ w.support = p := by
  constructor
  · rintro ⟨w, rfl, support⟩
    refine ⟨(w.map φ.symm.toHom).copy (φ.symm_apply_apply s) (φ.symm_apply_apply t), ?_, ?_⟩
    · rw [SimpleGraph.Walk.length_copy, SimpleGraph.Walk.length_map]
    · rw [SimpleGraph.Walk.support_copy, SimpleGraph.Walk.support_map, support, List.map_map]
      refine List.map_id'' (fun v => ?_) p
      exact φ.symm_apply_apply v
  · rintro ⟨w, rfl, rfl⟩
    exact ⟨w.map φ.toHom, w.length_map _, w.support_map _⟩

end GraphDistance
