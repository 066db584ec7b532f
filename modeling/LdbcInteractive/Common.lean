import LdbcInteractive.Graph
import LdbcInteractive.FirstVisits
import LdbcInteractive.GraphDistance
import LdbcInteractive.Loops
import LdbcInteractive.PriorityQueues

/-!
# Shared traversal helpers

The helpers of `ldbc_common.h`, each a fold over adjacency lists that threads the
state of the function it is given. The three friend-circle helpers keep their
visit marks in three ways: a hash set, a bitmap that is tested at each visit, and
a bitmap that is set blindly and repaired at the root.
-/

namespace LdbcInteractive

open EdgeTables FirstVisits GraphDistance Loops PriorityQueues

variable {V σ : Type} [DecidableEq V]

def getSingleOutNeighbor {α β : Type} (view : CsrView α β) (vertex : α) : Option β :=
  (view vertex).head?

def countEdges {α β : Type} (view : CsrView α β) (vertex : α) : Nat := (view vertex).length

def foreachKnowsNeighbor (knows : EdgeTable V V Unit) (root : V) (func : σ → V → σ)
    (s : σ) : σ :=
  let s := (knows.outgoing root).foldl func s
  (knows.incoming root).foldl func s

/-- The test, the mark and the call that three of the four loops below repeat. -/
def callUnseen (func : σ → V → σ) (st : (V → Bool) × σ) (v : V) : (V → Bool) × σ :=
  if st.1 v then st else (Function.update st.1 v true, func st.2 v)

def foreachKnows2dNeighbor (knows : EdgeTable V V Unit) (root : V) (func : σ → V → σ)
    (s : σ) : σ :=
  let seen : V → Bool := Function.update (fun _ => false) root true
  let fromIn := (knows.incoming root).foldl
    (fun st v => (Function.update st.1 v true, st.2 ++ [v])) (seen, ([] : List V))
  let fromOut := (knows.outgoing root).foldl (callUnseen (fun hop v => hop ++ [v])) fromIn
  let hop1 := fromOut.2
  (hop1.foldl (fun st v =>
    let st := (knows.incoming v).foldl (callUnseen func) st
    (knows.outgoing v).foldl (callUnseen func) st) (fromOut.1, s)).2

/-- As `callUnseen`, with the marks in a hash set. -/
def callUnvisited (func : σ → V → σ) (st : Finset V × σ) (v : V) : Finset V × σ :=
  if v ∈ st.1 then st else (insert v st.1, func st.2 v)

def foreachKnows1d2dNeighbor (knows : EdgeTable V V Unit) (root : V) (func : σ → V → σ)
    (s : σ) : σ :=
  let neighbors := knows.incoming root ++ knows.outgoing root
  (neighbors.foldl (fun st neighbor =>
    let st := callUnvisited func st neighbor
    let st := (knows.incoming neighbor).foldl (callUnvisited func) st
    (knows.outgoing neighbor).foldl (callUnvisited func) st) (({root} : Finset V), s)).2

def markAll (friends : V → Bool) (vs : List V) : V → Bool :=
  vs.foldl (fun b v => Function.update b v true) friends

theorem markAll_eq (b : V → Bool) (vs : List V) (v : V) :
    markAll b vs v = (b v || decide (v ∈ vs)) := by
  induction vs generalizing b with
  | nil => simp [markAll]
  | cons w rest ih =>
    have hstep : markAll b (w :: rest) = markAll (Function.update b w true) rest := rfl
    rw [hstep, ih]
    by_cases hvw : v = w
    · simp [hvw]
    · simp [hvw]

def markKnows1d2dNeighbors (knows : EdgeTable V V Unit) (root : V) : V → Bool :=
  let friends : V → Bool := Function.update (fun _ => false) root true
  let friends := markAll friends (knows.incoming root)
  let friends := markAll friends (knows.outgoing root)
  let neighbors := knows.incoming root ++ knows.outgoing root
  let friends := neighbors.foldl (fun b neighbor =>
    markAll (markAll b (knows.incoming neighbor)) (knows.outgoing neighbor)) friends
  Function.update friends root false

/-- A vertex number with the flag `is_post`. -/
inductive MessageVertex (P C : Type) where
  | post (v : P)
  | comment (v : C)
  deriving DecidableEq

abbrev Graph.Message (G : Graph) := MessageVertex G.Post G.Comment

/-- The id is looked up among the posts first, then among the comments. -/
def findMessageVertex (G : Graph) (messageId : Int) : Option G.Message :=
  match getVertexIndex G.postId messageId with
  | some v => some (.post v)
  | none =>
    match getVertexIndex G.commentId messageId with
    | some v => some (.comment v)
    | none => none

/-- The id that a message is looked up by. -/
def Graph.messageId (G : Graph) : G.Message → Int
  | .post v => G.postId v
  | .comment v => G.commentId v

theorem messageId_injective {G : Graph} (apart : ∀ p c, G.postId p ≠ G.commentId c) :
    Function.Injective G.messageId := by
  rintro (p | c) (q | d) h
  · rw [G.postKey h]
  · exact absurd h (apart p d)
  · exact absurd h.symm (apart q c)
  · rw [G.commentKey h]

theorem findMessageVertex_messageId {G : Graph} (apart : ∀ p c, G.postId p ≠ G.commentId c)
    (m : G.Message) : findMessageVertex G (G.messageId m) = some m := by
  cases m with
  | post v => simp [findMessageVertex, Graph.messageId, getVertexIndex_self G.postKey]
  | comment v =>
    simp [findMessageVertex, Graph.messageId, getVertexIndex_self G.commentKey,
      getVertexIndex_eq_none fun p => apart p v]

section RootPost
variable {P C : Type} (commentToPost : CsrView C P) (commentToComment : CsrView C C)

/-- One pass through the loop of `resolve_root_post`: a post before a parent. -/
def rootPostStep (current : C) : Control C (Option P) :=
  match getSingleOutNeighbor commentToPost current with
  | some postVid => .done (some postVid)
  | none =>
    match getSingleOutNeighbor commentToComment current with
    | some parent => .next parent
    | none => .done none

/-- The outer `none` stands for a loop that has not ended after `passes` passes. -/
def resolveRootPost (passes : Nat) : MessageVertex P C → Option (Option P)
  | .post v => some (some v)
  | .comment v => loop (rootPostStep commentToPost commentToComment) passes v

end RootPost

def findVertexByStringProp {n : Nat} (col : Fin n → String) (value : String) :
    Option (Fin n) :=
  (List.finRange n).find? (fun v => col v = value)

/-- The first vertex with the value is found. -/
theorem findVertexByStringProp_eq_some {n : Nat} {col : Fin n → String} {value : String}
    {v : Fin n} (named : col v = value) (first : ∀ u < v, col u ≠ value) :
    findVertexByStringProp col value = some v := by
  refine List.find?_eq_some_iff_getElem.mpr ⟨decide_eq_true named, v.val, by simp, by simp, ?_⟩
  intro j hj
  have hu : (⟨j, hj.trans v.isLt⟩ : Fin n) < v := hj
  simpa using first _ hu

/-- The members of a `std::set` in iteration order. -/
def inOrder {n : Nat} (s : Finset (Fin n)) : List (Fin n) := (List.finRange n).filter (· ∈ s)

theorem mem_inOrder {n : Nat} {s : Finset (Fin n)} {v : Fin n} : v ∈ inOrder s ↔ v ∈ s := by
  simp [inOrder]

theorem inOrder_nodup {n : Nat} (s : Finset (Fin n)) : (inOrder s).Nodup :=
  (List.nodup_finRange n).filter _

/-- `std::sort`: a sorted permutation, with no promise about equivalent elements. -/
structure StdSort where
  sort : {α : Type} → Comparer α → List α → List α
  perm : ∀ {α : Type} (c : Comparer α) (xs : List α), (sort c xs).Perm xs
  sorted : ∀ {α : Type} (c : Comparer α) (xs : List α), (sort c xs).Pairwise c.Le

/-- A stable sort is one of the sorts that `std::sort` may be. -/
def stableSort : StdSort where
  sort c xs := c.ranked xs
  perm c xs := c.ranked_perm xs
  sorted c xs := c.ranked_pairwise xs

/-- The order in which the typed view hands out the edges dated before a threshold is
not specified; that each of them is handed out once is. -/
structure NbrLt where
  order : {α β : Type} → (α → List (β × DateTime)) → α → DateTime → List (β × DateTime)
  perm : ∀ {α β : Type} (view : α → List (β × DateTime)) (dst : α) (threshold : DateTime),
    (order view dst threshold).Perm ((view dst).filter (fun e => e.2 < threshold))

def NbrLt.stored : NbrLt where
  order view dst threshold := (view dst).filter fun e => e.2 < threshold
  perm _ _ _ := List.Perm.refl _

def NbrLt.reversed : NbrLt where
  order view dst threshold := ((view dst).filter fun e => e.2 < threshold).reverse
  perm _ _ _ := List.reverse_perm _

def foreachIncomingNbrLt {α β : Type} (lt : NbrLt) (view : α → List (β × DateTime)) (dst : α)
    (threshold : DateTime) (func : σ → β × DateTime → σ) (s : σ) : σ :=
  (lt.order view dst threshold).foldl func s

/-- As `NbrLt`, for the edges dated after a threshold. -/
structure NbrGt where
  order : {α β : Type} → (α → List (β × DateTime)) → α → DateTime → List (β × DateTime)
  perm : ∀ {α β : Type} (view : α → List (β × DateTime)) (dst : α) (threshold : DateTime),
    (order view dst threshold).Perm ((view dst).filter (fun e => threshold < e.2))

def NbrGt.stored : NbrGt where
  order view dst threshold := (view dst).filter fun e => threshold < e.2
  perm _ _ _ := List.Perm.refl _

def foreachIncomingNbrGt {α β : Type} (gt : NbrGt) (view : α → List (β × DateTime)) (dst : α)
    (threshold : DateTime) (func : σ → β × DateTime → σ) (s : σ) : σ :=
  (gt.order view dst threshold).foldl func s

/-- The strict end of a closed window, where the addition does not wrap. -/
theorem toInt_add_one {maxDate : Int64} (below : maxDate < Int64.maxValue) :
    (maxDate + 1).toInt = maxDate.toInt + 1 := by
  have hlow := maxDate.le_toInt
  have hhigh : maxDate.toInt < 2 ^ 63 - 1 := Int64.lt_iff_toInt_lt.mp below
  rw [Int64.toInt_add, Int64.toInt_one, Int.bmod_eq_of_le (by omega) (by omega)]

/-- The value of a 64-bit expression is the exact one. -/
def FitsInt64 (x : Int) : Prop := -2 ^ 63 ≤ x ∧ x < 2 ^ 63

instance (x : Int) : Decidable (FitsInt64 x) := inferInstanceAs (Decidable (_ ∧ _))

/-- The end of a window, where it fits: the product alone may still wrap. -/
theorem toInt_add_mul {a b k : Int64} (fits : FitsInt64 (a.toInt + b.toInt * k.toInt)) :
    (a + b * k).toInt = a.toInt + b.toInt * k.toInt := by
  rw [Int64.toInt_add, Int64.toInt_mul, Int.add_bmod_bmod]
  exact Int.bmod_eq_of_le (by have := fits.1; omega) (by have := fits.2; omega)

/-- The closed window `[minDate, maxDate]`; the upper end is made strict by adding 1. -/
def foreachIncomingNbrBetween {α β : Type} (lt : NbrLt) (view : α → List (β × DateTime))
    (dst : α) (minDate maxDate : Int64) (func : σ → β × DateTime → σ) (s : σ) : σ :=
  foreachIncomingNbrLt lt view dst (maxDate + 1).toInt
    (fun s e => if e.2 < minDate.toInt then s else func s e) s

/-- The half-open window `[minDate, maxDate)`. -/
def foreachIncomingNbrBetweenHalfOpen {α β : Type} (lt : NbrLt)
    (view : α → List (β × DateTime)) (dst : α) (minDate maxDate : Int64)
    (func : σ → β × DateTime → σ) (s : σ) : σ :=
  foreachIncomingNbrLt lt view dst maxDate.toInt
    (fun s e => if e.2 < minDate.toInt then s else func s e) s

theorem foreachIncomingNbrBetweenHalfOpen_eq {α β : Type} (lt : NbrLt)
    (view : α → List (β × DateTime)) (dst : α) (minDate maxDate : Int64)
    (func : σ → β × DateTime → σ) (s : σ) :
    foreachIncomingNbrBetweenHalfOpen lt view dst minDate maxDate func s =
      ((lt.order view dst maxDate.toInt).filter fun e => minDate.toInt ≤ e.2).foldl func s := by
  rw [foreachIncomingNbrBetweenHalfOpen, foreachIncomingNbrLt, List.foldl_filter]
  congr 1
  funext s e
  by_cases he : minDate.toInt ≤ e.2
  · simp [he, not_lt.mpr he]
  · simp [he, not_le.mp he]

/-- KNOWS as an undirected simple graph. -/
def undirected (knows : EdgeTable V V Unit) : SimpleGraph V :=
  SimpleGraph.fromRel (fun u v => v ∈ knows.outgoing u)

/-- `v` is met on one of the two adjacency lists of `u`. -/
def Joined (knows : EdgeTable V V Unit) (u v : V) : Prop :=
  v ∈ knows.outgoing u ∨ v ∈ knows.incoming u

instance (knows : EdgeTable V V Unit) : DecidableRel (Joined knows) := fun u v =>
  inferInstanceAs (Decidable (v ∈ knows.outgoing u ∨ v ∈ knows.incoming u))

theorem adj_iff (knows : EdgeTable V V Unit) (u v : V) :
    (undirected knows).Adj u v ↔ u ≠ v ∧ Joined knows u v := by
  rw [undirected, SimpleGraph.fromRel_adj, Joined, knows.mem_incoming]

instance (knows : EdgeTable V V Unit) : DecidableRel (undirected knows).Adj := fun u v =>
  decidable_of_iff _ (adj_iff knows u v).symm

theorem Joined.symm {knows : EdgeTable V V Unit} {u v : V} (h : Joined knows u v) :
    Joined knows v u := by
  rcases h with h | h
  · exact Or.inr ((knows.mem_incoming u v).mpr h)
  · exact Or.inl ((knows.mem_incoming v u).mp h)

/-- At most one KNOWS edge for each unordered pair, and no self-edge. -/
def SimpleKnows (knows : EdgeTable V V Unit) : Prop :=
  ∀ u v, (knows.outgoing u).count v + (knows.outgoing v).count u ≤ 1

instance [Fintype V] (knows : EdgeTable V V Unit) : Decidable (SimpleKnows knows) :=
  inferInstanceAs (Decidable
    (∀ u v, (knows.outgoing u).count v + (knows.outgoing v).count u ≤ 1))

theorem SimpleKnows.neighbors_nodup {knows : EdgeTable V V Unit} (simple : SimpleKnows knows)
    (u : V) : (knows.outgoing u ++ knows.incoming u).Nodup := by
  rw [List.nodup_iff_count_le_one]
  intro v
  rw [List.count_append, knows.count_incoming]
  exact simple u v

theorem SimpleKnows.adj_iff {knows : EdgeTable V V Unit} (simple : SimpleKnows knows) {u v : V} :
    (undirected knows).Adj u v ↔ v ∈ knows.outgoing u ++ knows.incoming u := by
  rw [LdbcInteractive.adj_iff, List.mem_append]
  refine and_iff_right_of_imp ?_
  rintro h rfl
  have hself : u ∉ knows.outgoing u := by
    have := simple u u
    rw [← List.count_eq_zero]
    omega
  exact h.elim hself fun hin => hself ((knows.mem_incoming u u).mp hin)

/-- The next layer, read off the adjacency lists with their self and parallel edges. -/
theorem layer_succ_joined {knows : EdgeTable V V Unit} {s v : V} {k : ℕ} :
    Layer (undirected knows) s (k + 1) v ↔
      ¬ Ball (undirected knows) s k v ∧
        ∃ u, Layer (undirected knows) s k u ∧ Joined knows u v := by
  rw [layer_succ_iff]
  constructor
  · rintro ⟨hb, u, hu, huv⟩
    exact ⟨hb, u, hu, ((adj_iff knows u v).mp huv).2⟩
  · rintro ⟨hb, u, hu, huv⟩
    refine ⟨hb, u, hu, (adj_iff knows u v).mpr ⟨?_, huv⟩⟩
    rintro rfl
    exact hb (hu.ball le_rfl)

theorem Joined.ball_succ {knows : EdgeTable V V Unit} {s u v : V} {k : ℕ}
    (h : Joined knows u v) (hu : Ball (undirected knows) s k u) :
    Ball (undirected knows) s (k + 1) v := by
  by_cases huv : u = v
  · exact (huv ▸ hu).mono (Nat.le_succ k)
  · exact hu.adj ((adj_iff knows u v).mpr ⟨huv, h⟩)

end LdbcInteractive
