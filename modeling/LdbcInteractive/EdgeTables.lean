import Mathlib.Algebra.BigOperators.Fin
import Mathlib.Data.Fintype.BigOperators
import Mathlib.Data.List.Perm.Basic
import Mathlib.Data.List.Nodup

/-!
# Edge tables stored in both directions

A table of edges from `α` to `β` with data in `δ` keeps two adjacency lists, one
for each direction. The field `converse` is the storage invariant: between any two
vertices both sides hold the same edges. The order inside a list is not fixed, and
parallel edges are allowed.
-/

namespace EdgeTables

abbrev CsrView (α β : Type) := α → List β

structure EdgeTable (α β δ : Type) [DecidableEq α] [DecidableEq β] where
  outEdges : α → List (β × δ)
  inEdges : β → List (α × δ)
  converse : ∀ a b,
    (((outEdges a).filter (fun e => e.1 = b)).map Prod.snd).Perm
      (((inEdges b).filter (fun e => e.1 = a)).map Prod.snd)

namespace EdgeTable
variable {α β δ : Type} [DecidableEq α] [DecidableEq β]

/-- The neighbours of the outgoing view, in edge order. -/
def outgoing (T : EdgeTable α β δ) : CsrView α β := fun a => (T.outEdges a).map Prod.fst

def incoming (T : EdgeTable α β δ) : CsrView β α := fun b => (T.inEdges b).map Prod.fst

instance (T : EdgeTable α β δ) (a : α) (b : β) : Decidable (b ∈ T.outgoing a) :=
  List.instDecidableMemOfLawfulBEq b (T.outgoing a)

instance (T : EdgeTable α β δ) (a : α) (b : β) : Decidable (a ∈ T.incoming b) :=
  List.instDecidableMemOfLawfulBEq a (T.incoming b)

theorem mem_edges_iff (T : EdgeTable α β δ) (a : α) (b : β) (d : δ) :
    (a, d) ∈ T.inEdges b ↔ (b, d) ∈ T.outEdges a := by
  have h := (T.converse a b).mem_iff (a := d)
  simpa [and_comm] using h.symm

theorem mem_incoming (T : EdgeTable α β δ) (a : α) (b : β) :
    a ∈ T.incoming b ↔ b ∈ T.outgoing a := by
  simp only [incoming, outgoing, List.mem_map, Prod.exists, exists_and_right, exists_eq_right]
  exact exists_congr fun d => T.mem_edges_iff a b d

theorem count_map_fst {γ : Type} [DecidableEq γ] (es : List (γ × δ)) (c : γ) :
    (es.map Prod.fst).count c = ((es.filter (fun e => e.1 = c)).map Prod.snd).length := by
  rw [List.length_map, List.count_eq_countP, List.countP_map, List.countP_eq_length_filter]
  congr 1

theorem count_incoming (T : EdgeTable α β δ) (a : α) (b : β) :
    (T.incoming b).count a = (T.outgoing a).count b := by
  rw [incoming, outgoing, count_map_fst, count_map_fst]
  exact (T.converse a b).length_eq.symm

/-- The incoming view is a reading of the sources, each repeated as often as it has an edge
to `b`. -/
theorem incoming_perm (T : EdgeTable α β δ) (b : β) {as : List α} (distinct : as.Nodup)
    (all : ∀ a, a ∈ as) :
    (T.incoming b).Perm (as.flatMap fun a => List.replicate ((T.outgoing a).count b) a) := by
  refine List.perm_iff_count.mpr fun a => ?_
  rw [count_incoming, List.count_flatMap, ← List.sum_toFinset _ distinct]
  simp [List.count_replicate, all]

/-- The table holding the edges of one list. -/
def ofList (edges : List (α × β × δ)) : EdgeTable α β δ where
  outEdges a := (edges.filter (fun e => e.1 = a)).map Prod.snd
  inEdges b := (edges.filter (fun e => e.2.1 = b)).map (fun e => (e.1, e.2.2))
  converse a b := by
    apply List.Perm.of_eq
    simp only [List.filter_map, List.map_map, List.filter_filter]
    rw [List.filter_congr (q := fun e : α × β × δ => decide (e.1 = a) && decide (e.2.1 = b))]
    · rfl
    · intro e _
      exact Bool.and_comm _ _

theorem mem_outgoing_ofList (edges : List (α × β × δ)) (a : α) (b : β) :
    b ∈ (ofList edges).outgoing a ↔ ∃ d, (a, b, d) ∈ edges := by
  simp only [outgoing, ofList, List.map_map, List.mem_map, List.mem_filter, decide_eq_true_eq]
  constructor
  · rintro ⟨⟨x, y, d⟩, ⟨he, rfl⟩, rfl⟩
    exact ⟨d, he⟩
  · rintro ⟨d, he⟩
    exact ⟨_, ⟨he, rfl⟩, rfl⟩

/-- Edges given by vertex numbers; an edge with a number out of range is left out. -/
def ofNumbers {n m : Nat} (edges : List (Nat × Nat × δ)) : EdgeTable (Fin n) (Fin m) δ :=
  ofList (edges.filterMap fun e =>
    if h : e.1 < n ∧ e.2.1 < m then some (⟨e.1, h.1⟩, ⟨e.2.1, h.2⟩, e.2.2) else none)

/-- One more edge, appended on both sides. -/
def insert (T : EdgeTable α β δ) (a : α) (b : β) (d : δ) : EdgeTable α β δ where
  outEdges x := T.outEdges x ++ if x = a then [(b, d)] else []
  inEdges y := T.inEdges y ++ if y = b then [(a, d)] else []
  converse x y := by
    simp only [List.filter_append, List.map_append]
    apply (T.converse x y).append
    by_cases hx : x = a
    · by_cases hy : y = b
      · simp [hx, hy]
      · simp [hx, hy, Ne.symm hy]
    · by_cases hy : y = b
      · simp [hx, hy, Ne.symm hx]
      · simp [hx, hy]

theorem outgoing_insert (T : EdgeTable α β δ) (a x : α) (b : β) (d : δ) :
    (T.insert a b d).outgoing x = T.outgoing x ++ if x = a then [b] else [] := by
  by_cases hx : x = a <;> simp [outgoing, insert, hx]

/-- Every source vertex has at most one edge in the table. -/
def AtMostOne (T : EdgeTable α β δ) : Prop := ∀ a, (T.outEdges a).length ≤ 1

/-- Every source vertex has exactly one edge in the table. -/
def ExactlyOne (T : EdgeTable α β δ) : Prop := ∀ a, (T.outEdges a).length = 1

instance [Fintype α] (T : EdgeTable α β δ) : Decidable T.AtMostOne :=
  inferInstanceAs (Decidable (∀ a, (T.outEdges a).length ≤ 1))

theorem ExactlyOne.atMostOne {T : EdgeTable α β δ} (one : T.ExactlyOne) : T.AtMostOne :=
  fun a => (one a).le

theorem AtMostOne.outEdges_eq {T : EdgeTable α β δ} (one : T.AtMostOne) {a : α}
    {e : β × δ} (h : e ∈ T.outEdges a) : T.outEdges a = [e] := by
  have hle := one a
  match hes : T.outEdges a with
  | [] => simp [hes] at h
  | [f] =>
    rw [hes, List.mem_singleton] at h
    rw [h]
  | f :: g :: rest => simp [hes] at hle

theorem AtMostOne.eq_of_mem {T : EdgeTable α β δ} (one : T.AtMostOne) {a : α}
    {e f : β × δ} (he : e ∈ T.outEdges a) (hf : f ∈ T.outEdges a) : e = f := by
  rw [one.outEdges_eq hf, List.mem_singleton] at he
  exact he

theorem AtMostOne.mem_outgoing_iff {T : EdgeTable α β δ} (one : T.AtMostOne) (a : α) (b : β) :
    b ∈ T.outgoing a ↔ (T.outgoing a).head? = some b := by
  constructor
  · intro h
    obtain ⟨e, he, rfl⟩ := List.mem_map.mp h
    simp [outgoing, one.outEdges_eq he]
  · exact List.mem_of_mem_head?

theorem AtMostOne.outgoing_nodup {T : EdgeTable α β δ} (one : T.AtMostOne) (a : α) :
    (T.outgoing a).Nodup := by
  have hle : (T.outgoing a).length ≤ 1 := by simpa [outgoing] using one a
  exact List.nodup_iff_count_le_one.mpr fun b => List.count_le_length.trans hle

/-- Without parallel edges neither direction repeats a neighbour. -/
theorem incoming_nodup {T : EdgeTable α β δ} (single : ∀ a, (T.outgoing a).Nodup) (b : β) :
    (T.incoming b).Nodup := by
  apply List.nodup_iff_count_le_one.mpr
  intro a
  rw [count_incoming]
  exact List.nodup_iff_count_le_one.mp (single a) b

theorem AtMostOne.incoming_nodup {T : EdgeTable α β δ} (one : T.AtMostOne) (b : β) :
    (T.incoming b).Nodup := EdgeTable.incoming_nodup one.outgoing_nodup b

theorem AtMostOne.mem_incoming_iff {T : EdgeTable α β δ} (one : T.AtMostOne) (a : α) (b : β) :
    a ∈ T.incoming b ↔ (T.outgoing a).head? = some b :=
  (T.mem_incoming a b).trans (one.mem_outgoing_iff a b)

/-- The incoming view is a reading of the sources whose edge leads to `b`. -/
theorem AtMostOne.incoming_perm {T : EdgeTable α β δ} (one : T.AtMostOne) (b : β) {as : List α}
    (distinct : as.Nodup) (all : ∀ a, a ∈ as) :
    (T.incoming b).Perm (as.filter fun a => b ∈ T.outgoing a) := by
  refine (List.perm_ext_iff_of_nodup (one.incoming_nodup b) (distinct.filter _)).mpr fun a => ?_
  simp [T.mem_incoming, all a]

/-- The sources met from different target vertices are different. -/
theorem AtMostOne.flatMap_nodup {T : EdgeTable α β δ} (one : T.AtMostOne) {select : β → List α}
    (sub : ∀ b, (select b).Subperm (T.incoming b)) {bs : List β} (distinct : bs.Nodup) :
    (bs.flatMap select).Nodup := by
  refine List.nodup_flatMap.mpr ⟨fun b _ => ?_, distinct.imp ?_⟩
  · obtain ⟨l, hperm, hsub⟩ := sub b
    exact hperm.nodup_iff.mp ((one.incoming_nodup b).sublist hsub)
  · intro b c hbc a hb hc
    have hb' := (one.mem_incoming_iff a b).mp ((sub b).subset hb)
    have hc' := (one.mem_incoming_iff a c).mp ((sub c).subset hc)
    exact hbc (Option.some_inj.mp (hb'.symm.trans hc'))

theorem AtMostOne.flatMap_incoming_nodup {T : EdgeTable α β δ} (one : T.AtMostOne)
    {bs : List β} (distinct : bs.Nodup) : (bs.flatMap T.incoming).Nodup :=
  one.flatMap_nodup (fun _ => List.Subperm.refl _) distinct

/-- Counting neighbours on the incoming view is counting the sources that lead to `b`. -/
theorem countP_incoming [Fintype α] {T : EdgeTable α β δ} (single : ∀ a, (T.outgoing a).Nodup)
    (b : β) (p : α → Bool) : (T.incoming b).countP p =
      (Finset.univ.filter fun a => b ∈ T.outgoing a ∧ p a = true).card := by
  rw [List.countP_eq_length_filter,
    ← List.toFinset_card_of_nodup ((incoming_nodup single b).filter _)]
  congr 1
  ext a
  simp [T.mem_incoming]

theorem AtMostOne.countP_incoming [Fintype α] {T : EdgeTable α β δ} (one : T.AtMostOne) (b : β)
    (p : α → Bool) : (T.incoming b).countP p =
      (Finset.univ.filter fun a => b ∈ T.outgoing a ∧ p a = true).card :=
  EdgeTable.countP_incoming one.outgoing_nodup b p

/-- A sum over the incoming view ranges over the sources whose only edge leads to `b`. -/
theorem AtMostOne.sum_incoming [Fintype α] {T : EdgeTable α β δ} (one : T.AtMostOne)
    (b : β) (f : α → Int) :
    ((T.incoming b).map f).sum = ∑ a, if (T.outgoing a).head? = some b then f a else 0 := by
  rw [← List.sum_toFinset f (one.incoming_nodup b), ← Finset.sum_filter]
  apply Finset.sum_congr
  · ext a
    simp [one.mem_incoming_iff]
  · exact fun _ _ => rfl

/-- A sum over two incoming views in a row ranges over the sources whose chain of two
edges leads to `b`. -/
theorem AtMostOne.sum_incoming_incoming {γ ε : Type} [DecidableEq γ] [Fintype α] [Fintype γ]
    {T : EdgeTable α β δ} {S : EdgeTable γ α ε} (one : T.AtMostOne) (one' : S.AtMostOne)
    (b : β) (f : γ → Int) :
    ((T.incoming b).map (fun a => ((S.incoming a).map f).sum)).sum =
      ∑ c, if ((S.outgoing c).head?.bind fun a => (T.outgoing a).head?) = some b
        then f c else 0 := by
  have nested : ∀ a c, (if (T.outgoing a).head? = some b then
      (if (S.outgoing c).head? = some a then f c else 0) else 0) =
      if (S.outgoing c).head? = some a then
        (if (T.outgoing a).head? = some b then f c else 0) else 0 := by
    intro a c
    split_ifs <;> rfl
  rw [one.sum_incoming]
  simp only [one'.sum_incoming, Finset.ite_sum_zero, nested]
  rw [Finset.sum_comm]
  apply Finset.sum_congr rfl
  intro c _
  cases (S.outgoing c).head? with
  | none => simp
  | some a => simp

end EdgeTable

end EdgeTables
