import LdbcInteractive.Common

/-!
# The friend circles at distance 1 and 2

Each of the three circle helpers is reduced to the list of persons it calls its
function on (or marks), and that list is compared with the undirected distance.
Self edges may put the root into its own neighbour list, and parallel or mutual
edges may put a person there twice; neither is visible in the result.
-/

namespace LdbcInteractive

open EdgeTables FirstVisits GraphDistance

variable {V σ : Type} [DecidableEq V]

/-- The calls of a traversal, in order. -/
def callsOf (traversal : (List V → V → List V) → List V → List V) : List V :=
  traversal (fun calls v => calls ++ [v]) []

omit [DecidableEq V] in
theorem foldl_append_singleton (vs acc : List V) :
    vs.foldl (fun calls v => calls ++ [v]) acc = acc ++ vs := by
  induction vs generalizing acc with
  | nil => simp
  | cons v rest ih => simp [ih]

omit [DecidableEq V] in
theorem foldl_append_filter (p : V → Bool) (vs acc : List V) :
    vs.foldl (fun calls v => if p v then calls ++ [v] else calls) acc = acc ++ vs.filter p := by
  rw [← List.foldl_filter, foldl_append_singleton]

theorem callUnseen_eq (func : σ → V → σ) : callUnseen func = visitFirst bitmap func := rfl

theorem callUnvisited_eq (func : σ → V → σ) :
    callUnvisited func = visitFirst hashSet func := by
  funext st v
  by_cases h : v ∈ st.1 <;> simp [callUnvisited, visitFirst, hashSet, h]

/-- Everything that the 1-2 hop enumeration looks at, in its order. -/
def oneTwoScan (knows : EdgeTable V V Unit) (root : V) : List V :=
  (knows.incoming root ++ knows.outgoing root).flatMap
    (fun n => n :: (knows.incoming n ++ knows.outgoing n))

def oneTwoCalls (knows : EdgeTable V V Unit) (root : V) : List V :=
  fresh (fun v => decide (v ∈ ({root} : Finset V))) (oneTwoScan knows root)

theorem foreachKnows1d2dNeighbor_eq (knows : EdgeTable V V Unit) (root : V)
    (func : σ → V → σ) (s : σ) :
    foreachKnows1d2dNeighbor knows root func s = (oneTwoCalls knows root).foldl func s := by
  have flat : foreachKnows1d2dNeighbor knows root func s =
      ((oneTwoScan knows root).foldl (visitFirst hashSet func) (({root} : Finset V), s)).2 := by
    rw [oneTwoScan, List.foldl_flatMap, foreachKnows1d2dNeighbor, callUnvisited_eq]
    simp only [List.foldl_cons, List.foldl_append]
  rw [flat, visitFirst_foldl_state]
  rfl

theorem mem_oneTwoScan {knows : EdgeTable V V Unit} {root v : V} :
    v ∈ oneTwoScan knows root ↔
      Joined knows root v ∨ ∃ n, Joined knows root n ∧ Joined knows n v := by
  simp only [oneTwoScan, List.mem_flatMap, List.mem_append, List.mem_cons, Joined]
  constructor
  · rintro ⟨n, hn, rfl | hv⟩
    · exact Or.inl hn.symm
    · exact Or.inr ⟨n, hn.symm, hv.symm⟩
  · rintro (hv | ⟨n, hn, hv⟩)
    · exact ⟨v, hv.symm, Or.inl rfl⟩
    · exact ⟨n, hn.symm, Or.inr hv.symm⟩

theorem layer_one_joined {knows : EdgeTable V V Unit} {root v : V} :
    Layer (undirected knows) root 1 v ↔ v ≠ root ∧ Joined knows root v := by
  rw [layer_one_iff, adj_iff]
  exact and_congr_left fun _ => ne_comm

theorem layer_two_joined {knows : EdgeTable V V Unit} {root v : V} :
    Layer (undirected knows) root 2 v ↔
      v ≠ root ∧ ¬ Joined knows root v ∧ ∃ n, Joined knows root n ∧ Joined knows n v := by
  rw [layer_succ_joined, ball_succ_iff, ball_zero_iff, layer_one_joined]
  constructor
  · rintro ⟨hfar, n, hn, hnv⟩
    have hv : v ≠ root := fun h => hfar (Or.inl h)
    exact ⟨hv, fun h => hfar (Or.inr ⟨hv, h⟩), n, (layer_one_joined.mp hn).2, hnv⟩
  · rintro ⟨hv, hfar, n, hn, hnv⟩
    refine ⟨?_, n, layer_one_joined.mpr ⟨?_, hn⟩, hnv⟩
    · rintro (h | h)
      · exact hv h
      · exact hfar h.2
    · rintro rfl
      exact hfar hnv

/-- At undirected distance 1 or 2. -/
def InCircle (knows : EdgeTable V V Unit) (root v : V) : Prop :=
  Layer (undirected knows) root 1 v ∨ Layer (undirected knows) root 2 v

theorem inCircle_iff {knows : EdgeTable V V Unit} {root v : V} :
    InCircle knows root v ↔
      v ≠ root ∧ (Joined knows root v ∨ ∃ n, Joined knows root n ∧ Joined knows n v) := by
  rw [InCircle, layer_one_joined, layer_two_joined]
  by_cases h : Joined knows root v
  · simp [h]
  · simp [h]

instance [Fintype V] (knows : EdgeTable V V Unit) (root : V) :
    DecidablePred (InCircle knows root) := fun _ => decidable_of_iff _ inCircle_iff.symm

theorem mem_oneTwoCalls {knows : EdgeTable V V Unit} {root v : V} :
    v ∈ oneTwoCalls knows root ↔ InCircle knows root v := by
  rw [oneTwoCalls, mem_fresh, mem_oneTwoScan, inCircle_iff]
  simp

theorem oneTwoCalls_nodup (knows : EdgeTable V V Unit) (root : V) :
    (oneTwoCalls knows root).Nodup := fresh_nodup _ _

theorem markKnows1d2dNeighbors_iff (knows : EdgeTable V V Unit) (root v : V) :
    markKnows1d2dNeighbors knows root v = true ↔ InCircle knows root v := by
  have twice : ∀ (ns : List V) (b : V → Bool),
      ns.foldl (fun b n => markAll (markAll b (knows.incoming n)) (knows.outgoing n)) b =
        markAll b (ns.flatMap (fun n => knows.incoming n ++ knows.outgoing n)) := by
    intro ns b
    simp only [markAll, List.foldl_flatMap, List.foldl_append]
  rw [inCircle_iff]
  by_cases hv : v = root
  · simp [markKnows1d2dNeighbors, hv]
  · simp only [markKnows1d2dNeighbors, twice, Function.update_of_ne hv, markAll_eq,
      Bool.or_eq_true, decide_eq_true_eq, List.mem_flatMap, List.mem_append, Joined]
    constructor
    · rintro (((h | h) | h) | ⟨n, hn, hnv⟩)
      · cases h
      · exact ⟨hv, Or.inl (Or.inr h)⟩
      · exact ⟨hv, Or.inl (Or.inl h)⟩
      · exact ⟨hv, Or.inr ⟨n, hn.symm, hnv.symm⟩⟩
    · rintro ⟨_, (h | h) | ⟨n, hn, hnv⟩⟩
      · exact Or.inl (Or.inr h)
      · exact Or.inl (Or.inl (Or.inr h))
      · exact Or.inr ⟨n, hn.symm, hnv.symm⟩

/-- The hop-1 list of the 2-hop enumeration: the incoming half is taken unchecked. -/
def hopOne (knows : EdgeTable V V Unit) (root : V) : List V :=
  knows.incoming root ++
    fresh (markAll (Function.update (fun _ => false) root true) (knows.incoming root))
      (knows.outgoing root)

/-- The marks set before the second hop starts. -/
def seenOne (knows : EdgeTable V V Unit) (root v : V) : Bool :=
  decide (v = root ∨ Joined knows root v)

def twoCalls (knows : EdgeTable V V Unit) (root : V) : List V :=
  fresh (seenOne knows root)
    ((hopOne knows root).flatMap (fun n => knows.incoming n ++ knows.outgoing n))

theorem foldl_mark_push (vs : List V) (b : V → Bool) (acc : List V) :
    vs.foldl (fun st v => (Function.update st.1 v true, st.2 ++ [v])) (b, acc) =
      (markAll b vs, acc ++ vs) := by
  induction vs generalizing b acc with
  | nil => simp [markAll]
  | cons w rest ih =>
    rw [List.foldl_cons, ih]
    simp [markAll]

theorem foreachKnows2dNeighbor_eq (knows : EdgeTable V V Unit) (root : V)
    (func : σ → V → σ) (s : σ) :
    foreachKnows2dNeighbor knows root func s = (twoCalls knows root).foldl func s := by
  let start := markAll (Function.update (fun _ => false) root true) (knows.incoming root)
  let push : List V → V → List V := fun hop v => hop ++ [v]
  let half := (knows.outgoing root).foldl (visitFirst bitmap push) (start, knows.incoming root)
  have flat : foreachKnows2dNeighbor knows root func s =
      ((half.2.flatMap (fun n => knows.incoming n ++ knows.outgoing n)).foldl
        (visitFirst bitmap func) (half.1, s)).2 := by
    simp only [foreachKnows2dNeighbor, foldl_mark_push, callUnseen_eq, List.nil_append,
      List.foldl_flatMap, List.foldl_append]
    rfl
  have hop : half.2 = hopOne knows root := by
    have h := visitFirst_foldl_state bitmap push (start, knows.incoming root)
      (knows.outgoing root)
    exact h.trans (foldl_append_singleton _ _)
  have marks : half.1 = seenOne knows root := by
    funext v
    have h := visitFirst_foldl_marks bitmap push (start, knows.incoming root)
      (knows.outgoing root) v
    refine h.trans ?_
    simp only [bitmap, start, markAll_eq, Function.update_apply, seenOne, Joined]
    by_cases hv : v = root
    · simp [hv]
    · simp [hv, or_comm]
  rw [flat, visitFirst_foldl_state, hop, marks]
  rfl

theorem mem_twoCalls {knows : EdgeTable V V Unit} {root v : V} :
    v ∈ twoCalls knows root ↔ Layer (undirected knows) root 2 v := by
  rw [twoCalls, mem_fresh, layer_two_joined, List.mem_flatMap, seenOne, decide_eq_false_iff_not,
    not_or]
  constructor
  · rintro ⟨⟨hv, hfar⟩, n, hn, hnv⟩
    refine ⟨hv, hfar, n, ?_, (List.mem_append.mp hnv).symm⟩
    rcases List.mem_append.mp hn with hn | hn
    · exact Or.inr hn
    · exact Or.inl (mem_fresh.mp hn).2
  · rintro ⟨hv, hfar, n, hn, hnv⟩
    refine ⟨⟨hv, hfar⟩, n, ?_, List.mem_append.mpr (Or.symm hnv)⟩
    by_cases hin : n ∈ knows.incoming root
    · exact List.mem_append_left _ hin
    · have hroot : n ≠ root := by
        rintro rfl
        exact hfar hnv
      have hout : n ∈ knows.outgoing root := hn.resolve_right hin
      refine List.mem_append_right _ (mem_fresh.mpr ⟨?_, hout⟩)
      simp [markAll_eq, hroot, hin]

/-- The distinct direct neighbours of the root, the root itself left out. -/
def directNeighbors (knows : EdgeTable V V Unit) (root : V) : List V :=
  fresh (fun v => decide (v = root)) (knows.incoming root ++ knows.outgoing root)

theorem mem_directNeighbors {knows : EdgeTable V V Unit} {root v : V} :
    v ∈ directNeighbors knows root ↔ Layer (undirected knows) root 1 v := by
  rw [directNeighbors, mem_fresh, layer_one_joined, List.mem_append, Joined, or_comm]
  simp

/-- The three helpers agree with the undirected distance, and so with each other. -/
theorem friend_circles_agree (knows : EdgeTable V V Unit) (root : V) :
    let near := callsOf (foreachKnows1d2dNeighbor knows root)
    let far := callsOf (foreachKnows2dNeighbor knows root)
    (∀ (σ : Type) (func : σ → V → σ) (s : σ),
      foreachKnows1d2dNeighbor knows root func s = near.foldl func s ∧
      foreachKnows2dNeighbor knows root func s = far.foldl func s) ∧
    near.Nodup ∧ (∀ v, v ∈ near ↔ InCircle knows root v) ∧ root ∉ near ∧
    (∀ v, markKnows1d2dNeighbors knows root v = true ↔ InCircle knows root v) ∧
    far.Nodup ∧ (∀ v, v ∈ far ↔ Layer (undirected knows) root 2 v) ∧
    near.Perm (directNeighbors knows root ++ far) ∧
    List.Disjoint (directNeighbors knows root) far := by
  have hnear : callsOf (foreachKnows1d2dNeighbor knows root) = oneTwoCalls knows root := by
    rw [callsOf, foreachKnows1d2dNeighbor_eq, foldl_append_singleton, List.nil_append]
  have hfar : callsOf (foreachKnows2dNeighbor knows root) = twoCalls knows root := by
    rw [callsOf, foreachKnows2dNeighbor_eq, foldl_append_singleton, List.nil_append]
  have apart : List.Disjoint (directNeighbors knows root) (twoCalls knows root) := by
    intro v hdirect htwo
    have h := (mem_directNeighbors.mp hdirect).unique (mem_twoCalls.mp htwo)
    omega
  have union : (directNeighbors knows root ++ twoCalls knows root).Nodup :=
    (fresh_nodup _ _).append (fresh_nodup _ _) apart
  dsimp only
  rw [hnear, hfar]
  refine ⟨?_, oneTwoCalls_nodup knows root, fun v => mem_oneTwoCalls, ?_,
    markKnows1d2dNeighbors_iff knows root, fresh_nodup _ _, fun v => mem_twoCalls, ?_, apart⟩
  · intro σ func s
    exact ⟨foreachKnows1d2dNeighbor_eq knows root func s,
      foreachKnows2dNeighbor_eq knows root func s⟩
  · intro h
    exact (inCircle_iff.mp (mem_oneTwoCalls.mp h)).1 rfl
  · apply (List.perm_ext_iff_of_nodup (oneTwoCalls_nodup knows root) union).mpr
    intro v
    rw [mem_oneTwoCalls, List.mem_append, mem_directNeighbors, mem_twoCalls, InCircle]

end LdbcInteractive
