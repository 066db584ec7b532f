import LdbcInteractive.PriorityQueues

/-!
# What a bounded selection has to satisfy

The first `n` elements with a property, in the order of a comparison function: nothing
else is in the list, the list is ordered strictly, and where it leaves an element out it
is full and stands before that element. There is only one such list, and the stream
that a bounded queue is offered yields it.
-/

namespace PriorityQueues

universe u
variable {α : Type u}

namespace Comparer

/-- `out` is the list of the first `n` elements with the property `P`, of all if there are
fewer. -/
structure Selects (c : Comparer α) (n : Nat) (P : α → Prop) (out : List α) : Prop where
  ordered : out.Pairwise fun a b => c.before a b = true
  sound : ∀ x ∈ out, P x
  atMost : out.length ≤ n
  complete : ∀ x, P x → x ∉ out → out.length = n ∧ ∀ y ∈ out, c.before y x = true

variable {c : Comparer α} {n : Nat} {P : α → Prop} {out : List α}

theorem not_before_self (c : Comparer α) (a : α) : ¬ c.before a a = true := by
  intro h
  have h' := c.asymm a a h
  rw [h] at h'
  cases h'

theorem Selects.nodup (h : c.Selects n P out) : out.Nodup := by
  refine h.ordered.imp ?_
  rintro a _ hab rfl
  exact c.not_before_self a hab

/-- An element of one selection is in the other: else both would be full, each ahead of an
element of the other. -/
theorem Selects.subset {out' : List α} (h : c.Selects n P out) (h' : c.Selects n P out')
    {x : α} (hx : x ∈ out) : x ∈ out' := by
  by_contra hout
  obtain ⟨hlen, ahead⟩ := h'.complete x (h.sound x hx) hout
  have fewer : ¬ out' ⊆ out := by
    intro hsub
    have hperm := (h'.nodup.subperm hsub).perm_of_length_le (h.atMost.trans_eq hlen.symm)
    exact hout (hperm.mem_iff.mpr hx)
  obtain ⟨y, hy, hyout⟩ : ∃ y ∈ out', y ∉ out := by
    by_contra none
    push Not at none
    exact fewer none
  have hxy := (h.complete y (h'.sound y hy) hyout).2 x hx
  exact c.not_before_self x (c.before_trans hxy (ahead y hy))

/-- There is only one selection. -/
theorem Selects.unique {out' : List α} (h : c.Selects n P out) (h' : c.Selects n P out') :
    out = out' := by
  have perm : out.Perm out' := (List.perm_ext_iff_of_nodup h.nodup h'.nodup).mpr fun x =>
    ⟨h.subset h', h'.subset h⟩
  refine perm.eq_of_pairwise ?_ h.ordered h'.ordered
  intro a b _ _ hab hba
  exact False.elim (c.not_before_self a (c.before_trans hab hba))

/-- Without repetitions and indistinguishable elements the ranking is strict. -/
theorem ranked_strict {xs : List α} (sep : c.Separates xs) (distinct : xs.Nodup) :
    (c.ranked xs).Pairwise fun a b => c.before a b = true := by
  have perm := c.ranked_perm xs
  have nodup : (c.ranked xs).Nodup := perm.nodup_iff.mpr distinct
  refine ((c.ranked_pairwise xs).and nodup).imp_of_mem ?_
  rintro a b ha hb ⟨hab, ne⟩
  by_contra hbefore
  exact ne (sep a (perm.mem_iff.mp ha) b (perm.mem_iff.mp hb) hab
    (Bool.eq_false_of_not_eq_true hbefore))

theorem firstN_selects {xs : List α} (sep : c.Separates xs) (distinct : xs.Nodup) (n : Nat)
    (mem : ∀ x, x ∈ xs ↔ P x) : c.Selects n P (c.firstN n xs) where
  ordered := (ranked_strict sep distinct).sublist (List.take_sublist _ _)
  sound x hx := (mem x).mp ((c.ranked_perm xs).mem_iff.mp (List.mem_of_mem_take hx))
  atMost := List.length_take_le _ _
  complete x hx hout := by
    have hranked : x ∈ c.ranked xs := (c.ranked_perm xs).mem_iff.mpr ((mem x).mpr hx)
    have strict := ranked_strict sep distinct
    rw [← List.take_append_drop n (c.ranked xs)] at hranked strict
    have hdrop : x ∈ (c.ranked xs).drop n := (List.mem_append.mp hranked).resolve_left hout
    have hlong : 0 < ((c.ranked xs).drop n).length := List.length_pos_of_mem hdrop
    rw [List.length_drop] at hlong
    refine ⟨?_, fun y hy => (List.pairwise_append.mp strict).2.2 y hy x hdrop⟩
    rw [firstN, List.length_take, Nat.min_eq_left (by omega)]

end Comparer

end PriorityQueues
