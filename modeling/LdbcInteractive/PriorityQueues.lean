import Mathlib.Data.List.Induction
import Mathlib.Data.List.Perm.Subperm
import Mathlib.Data.List.Sort
import Mathlib.Order.Lattice

/-!
# Priority queues and bounded selection

A comparison function in the sense of a C++ priority queue says that one element
comes before another; the top of the queue is an element that comes last. A queue
of bounded size that replaces its top by a better candidate selects the first `n`
elements of the stream it is offered. Ties keep the order of arrival.
-/

namespace PriorityQueues

universe u
variable {α : Type u}

/-- The strict weak order that a priority queue asks of its comparison function. -/
structure Comparer (α : Type u) where
  before : α → α → Bool
  asymm : ∀ a b, before a b = true → before b a = false
  neg_trans : ∀ a b c, before a b = false → before b c = false → before a c = false

namespace Comparer

/-- A comparison function that compares keys in a linear order. -/
def ofKey {κ : Type*} [LinearOrder κ] (before : α → α → Bool) (key : α → κ)
    (spec : ∀ a b, before a b = true ↔ key a < key b) : Comparer α where
  before := before
  asymm a b h := by
    rw [← Bool.not_eq_true, spec]
    exact lt_asymm ((spec a b).mp h)
  neg_trans a b c hab hbc := by
    rw [← Bool.not_eq_true, spec] at hab hbc ⊢
    exact fun h => hab (lt_of_lt_of_le h (le_of_not_gt hbc))

variable (c : Comparer α)

/-- `a` may stand in front of `b` in the order of the comparison. -/
def Le (a b : α) : Prop := c.before b a = false

instance : DecidableRel c.Le := fun a b => inferInstanceAs (Decidable (c.before b a = false))

theorem le_total (a b : α) : c.Le a b ∨ c.Le b a := by
  cases h : c.before b a with
  | false => exact Or.inl h
  | true => exact Or.inr (c.asymm b a h)

theorem le_trans {a b d : α} (hab : c.Le a b) (hbd : c.Le b d) : c.Le a d :=
  c.neg_trans d b a hbd hab

theorem before_trans {a b d : α} (hab : c.before a b = true) (hbd : c.before b d = true) :
    c.before a d = true := by
  by_contra had
  have hba := c.neg_trans a d b (Bool.eq_false_of_not_eq_true had) (c.asymm b d hbd)
  exact absurd hab (by simp [hba])

instance : Std.Total c.Le := ⟨c.le_total⟩

instance : IsTrans α c.Le := ⟨fun _ _ _ => c.le_trans⟩

/-- Insert behind everything that does not have to stand behind `x`. -/
def place (x : α) (xs : List α) : List α := xs.orderedInsert (fun a b => c.before a b = true) x

theorem place_nil (x : α) : c.place x [] = [x] := rfl

theorem place_cons (x y : α) (ys : List α) :
    c.place x (y :: ys) = if c.before x y then x :: y :: ys else y :: c.place x ys := rfl

theorem place_perm (x : α) (xs : List α) : (c.place x xs).Perm (x :: xs) :=
  List.perm_orderedInsert _ x xs

@[simp] theorem length_place (x : α) (xs : List α) :
    (c.place x xs).length = xs.length + 1 := by
  simpa using (c.place_perm x xs).length_eq

theorem place_append_of_before {x w : α} (h : c.before x w = true) (front back : List α) :
    c.place x (front ++ w :: back) = c.place x front ++ w :: back := by
  induction front with
  | nil => simp [place_nil, place_cons, h]
  | cons y front ih => by_cases hy : c.before x y <;> simp [place_cons, hy, ih]

theorem place_append_of_not_before {x : α} {front : List α}
    (h : ∀ y ∈ front, c.before x y = false) (back : List α) :
    c.place x (front ++ back) = front ++ c.place x back := by
  induction front with
  | nil => rfl
  | cons y front ih =>
    rw [List.cons_append, place_cons, h y List.mem_cons_self]
    simp [ih (fun z hz => h z (List.mem_cons_of_mem y hz))]

theorem place_pairwise {x : α} {xs : List α} (sorted : xs.Pairwise c.Le) :
    (c.place x xs).Pairwise c.Le := by
  induction xs with
  | nil => exact List.pairwise_singleton _ _
  | cons y ys ih =>
    obtain ⟨hy, hys⟩ := List.pairwise_cons.mp sorted
    rw [place_cons]
    by_cases h : c.before x y = true
    · rw [if_pos h]
      have hxy : c.Le x y := c.asymm x y h
      refine List.pairwise_cons.mpr ⟨?_, sorted⟩
      rintro z (_ | ⟨_, hz⟩)
      · exact hxy
      · exact c.le_trans hxy (hy z hz)
    · rw [if_neg h]
      refine List.pairwise_cons.mpr ⟨?_, ih hys⟩
      intro z hz
      rcases List.mem_cons.mp ((c.place_perm x ys).mem_iff.mp hz) with rfl | hz
      · exact Bool.eq_false_of_not_eq_true h
      · exact hy z hz

theorem place_of_before {x : α} {xs : List α} (h : ∀ y ∈ xs, c.before x y = true) :
    c.place x xs = x :: xs := by
  cases xs with
  | nil => rfl
  | cons y ys => rw [place_cons, if_pos (h y List.mem_cons_self)]

theorem filter_place_of_pos {p : α → Bool} {x : α} (hx : p x = true) {xs : List α}
    (sorted : xs.Pairwise c.Le) : (c.place x xs).filter p = c.place x (xs.filter p) := by
  induction xs with
  | nil => simp [place_nil, hx]
  | cons y ys ih =>
    obtain ⟨hy, hys⟩ := List.pairwise_cons.mp sorted
    cases hxy : c.before x y with
    | false => by_cases hpy : p y <;> simp [place_cons, hxy, hpy, ih hys]
    | true =>
      -- Everything behind `y` stands behind `x` as well.
      have behind : ∀ z ∈ (y :: ys).filter p, c.before x z = true := by
        intro z hz
        by_contra hxz
        have hyz : c.Le y z := by
          rcases List.mem_cons.mp (List.mem_filter.mp hz).1 with rfl | hz
          · exact (c.le_total z z).elim id id
          · exact hy z hz
        have hxy' : c.Le y x := c.le_trans hyz (Bool.eq_false_of_not_eq_true hxz)
        exact absurd hxy (by simp [show c.before x y = false from hxy'])
      rw [c.place_of_before behind, place_cons, if_pos hxy, List.filter_cons_of_pos hx]

theorem filter_place_of_neg {p : α → Bool} {x : α} (hx : p x = false) (xs : List α) :
    (c.place x xs).filter p = xs.filter p := by
  induction xs with
  | nil => simp [place_nil, hx]
  | cons y ys ih => by_cases hxy : c.before x y <;> simp [place_cons, hxy, List.filter_cons, hx, ih]

/-- The stream in the order of the comparison, ties in order of arrival. -/
def ranked (xs : List α) : List α := xs.insertionSort c.Le

theorem ranked_perm (xs : List α) : (c.ranked xs).Perm xs := List.perm_insertionSort _ xs

theorem ranked_pairwise (xs : List α) : (c.ranked xs).Pairwise c.Le :=
  List.pairwise_insertionSort c.Le xs

/-- Placing a late arrival commutes with inserting an early one. -/
theorem place_orderedInsert (a x : α) (xs : List α) :
    c.place x (xs.orderedInsert c.Le a) = (c.place x xs).orderedInsert c.Le a := by
  induction xs with
  | nil =>
    cases h : c.before x a <;> simp [place, Le, h]
  | cons y ys ih =>
    cases hxy : c.before x y with
    | true =>
      cases hxa : c.before x a with
      | true => by_cases hay : c.before y a = false <;> simp [place_cons, hxy, hxa, Le, hay]
      | false =>
        have hay : c.Le a y := c.le_trans hxa (c.asymm x y hxy)
        simp [place_cons, hxy, hxa, Le, show c.before y a = false from hay]
    | false =>
      cases hya : c.before y a with
      | false =>
        have hxa : c.before x a = false := c.neg_trans x y a hxy hya
        simp [place_cons, hxy, hxa, Le, hya]
      | true => simp [place_cons, hxy, Le, hya, ih]

theorem ranked_snoc (xs : List α) (x : α) : c.ranked (xs ++ [x]) = c.place x (c.ranked xs) := by
  induction xs with
  | nil => rfl
  | cons a xs ih =>
    change (c.ranked (xs ++ [x])).orderedInsert c.Le a = _
    rw [ih, ← place_orderedInsert]
    rfl

/-- The first `n` elements of the stream in the order of the comparison. -/
def firstN (n : Nat) (xs : List α) : List α := (c.ranked xs).take n

theorem firstN_of_length_le {n : Nat} {xs : List α} (h : xs.length ≤ n) :
    c.firstN n xs = c.ranked xs :=
  List.take_of_length_le ((c.ranked_perm xs).length_eq.trans_le h)

/-- Elements that the comparison does not tell apart are equal. -/
def Separates (xs : List α) : Prop :=
  ∀ a ∈ xs, ∀ b ∈ xs, c.Le a b → c.Le b a → a = b

theorem ofKey_le_iff {κ : Type*} [LinearOrder κ] {before : α → α → Bool} {key : α → κ}
    (spec : ∀ a b, before a b = true ↔ key a < key b) {a b : α} :
    (ofKey before key spec).Le a b ↔ key a ≤ key b := by
  rw [← not_lt, ← spec, Bool.not_eq_true]
  rfl

/-- Elements of different keys are told apart. -/
theorem ofKey_separates {κ : Type*} [LinearOrder κ] {before : α → α → Bool} {key : α → κ}
    (spec : ∀ a b, before a b = true ↔ key a < key b) {xs : List α}
    (inj : ∀ a ∈ xs, ∀ b ∈ xs, key a = key b → a = b) :
    (ofKey before key spec).Separates xs := fun a ha b hb hab hba =>
  inj a ha b hb (le_antisymm ((ofKey_le_iff spec).mp hab) ((ofKey_le_iff spec).mp hba))

theorem ranked_congr {xs ys : List α} (sep : c.Separates xs) (h : xs.Perm ys) :
    c.ranked xs = c.ranked ys := by
  have hp : (c.ranked xs).Perm (c.ranked ys) :=
    (c.ranked_perm xs).trans (h.trans (c.ranked_perm ys).symm)
  have same : ∀ a b, a ∈ c.ranked xs → b ∈ c.ranked ys → c.Le a b → c.Le b a → a = b := by
    intro a b ha hb
    exact sep a ((c.ranked_perm xs).mem_iff.mp ha) b
      (h.mem_iff.mpr ((c.ranked_perm ys).mem_iff.mp hb))
  exact hp.eq_of_pairwise same (c.ranked_pairwise xs) (c.ranked_pairwise ys)

/-- The selection does not depend on the order of arrival. -/
theorem firstN_congr {xs ys : List α} (sep : c.Separates xs) (h : xs.Perm ys) (n : Nat) :
    c.firstN n xs = c.firstN n ys := by
  rw [firstN, firstN, c.ranked_congr sep h]

/-- An element is selected exactly if fewer than `n` elements of the stream precede it. -/
theorem mem_firstN_iff {xs : List α} (sep : c.Separates xs) {n : Nat} {x : α} (hx : x ∈ xs) :
    x ∈ c.firstN n xs ↔ xs.countP (fun y => c.before y x) < n := by
  have perm := c.ranked_perm xs
  obtain ⟨front, back, split, first⟩ := List.eq_append_cons_of_mem (perm.mem_iff.mpr hx)
  have ord := c.ranked_pairwise xs
  rw [split, List.pairwise_append] at ord
  obtain ⟨-, ordBack, ordFront⟩ := ord
  have mem : ∀ y ∈ front, y ∈ xs := fun y hy => perm.mem_iff.mp (by simp [split, hy])
  have hfront : ∀ y ∈ front, c.before y x = true := by
    intro y hy
    by_contra hyx
    have hxy : c.Le x y := Bool.eq_false_of_not_eq_true hyx
    have same := sep y (mem y hy) x hx (ordFront y hy x List.mem_cons_self) hxy
    exact first (same ▸ hy)
  have hback : ∀ y ∈ x :: back, ¬ c.before y x = true := by
    intro y hy
    rcases List.mem_cons.mp hy with rfl | hy
    · exact fun h => absurd h (by simp [c.asymm y y h])
    · exact Bool.eq_false_iff.mp ((List.pairwise_cons.mp ordBack).1 y hy)
  have count : xs.countP (fun y => c.before y x) = front.length := by
    rw [← perm.countP_eq, split, List.countP_append, List.countP_eq_length.mpr hfront,
      List.countP_eq_zero.mpr hback, Nat.add_zero]
  rw [count, firstN, split, List.take_append]
  constructor
  · intro h
    rcases List.mem_append.mp h with h | h
    · exact absurd (List.mem_of_mem_take h) first
    · by_contra hn
      rw [Nat.sub_eq_zero_of_le (Nat.not_lt.mp hn)] at h
      exact List.not_mem_nil h
  · intro h
    obtain ⟨k, hk⟩ := Nat.exists_eq_add_of_lt h
    exact List.mem_append_right _ (by simp [hk, Nat.add_assoc])

theorem forall_mem_firstN {xs : List α} (sep : c.Separates xs) {n : Nat} {P : α → Prop} :
    (∀ x ∈ c.firstN n xs, P x) ↔
      ∀ x ∈ xs, xs.countP (fun y => c.before y x) < n → P x := by
  constructor
  · intro all x hx few
    exact all x ((c.mem_firstN_iff sep hx).mpr few)
  · intro all x hx
    have mem : x ∈ xs := (c.ranked_perm xs).mem_iff.mp (List.mem_of_mem_take hx)
    exact all x mem ((c.mem_firstN_iff sep mem).mp hx)

/-- A sorted list of enough elements that has the whole selection is the selection. -/
theorem eq_firstN {xs ts : List α} (sep : c.Separates xs) (distinct : xs.Nodup) {n : Nat}
    (enough : n ≤ xs.length) (sorted : ts.Pairwise c.Le) (length : ts.length = n)
    (mem : ∀ t ∈ ts, t ∈ xs) (whole : ∀ x ∈ c.firstN n xs, x ∈ ts) :
    ts = c.firstN n xs := by
  have hnodup : (c.firstN n xs).Nodup :=
    ((c.ranked_perm xs).nodup_iff.mpr distinct).sublist (List.take_sublist _ _)
  have hlen : (c.firstN n xs).length = n := by
    rw [firstN, List.length_take, (c.ranked_perm xs).length_eq, Nat.min_eq_left enough]
  have hperm : (c.firstN n xs).Perm ts :=
    (hnodup.subperm whole).perm_of_length_le (by rw [length, hlen])
  refine hperm.symm.eq_of_pairwise ?_ sorted ?_
  · intro a b ha hb
    exact sep a (mem a ha) b (mem b (hperm.mem_iff.mp hb))
  · exact (c.ranked_pairwise xs).sublist (List.take_sublist _ _)

end Comparer

/-- A queue keeps its elements in the order of the comparison; the top is the last. -/
structure PriorityQueue (c : Comparer α) where
  items : List α
  ordered : items.Pairwise c.Le

namespace PriorityQueue
variable {c : Comparer α}

def empty : PriorityQueue c := ⟨[], List.Pairwise.nil⟩

def size (q : PriorityQueue c) : Nat := q.items.length

def top? (q : PriorityQueue c) : Option α := q.items.getLast?

def push (q : PriorityQueue c) (x : α) : PriorityQueue c :=
  ⟨c.place x q.items, c.place_pairwise q.ordered⟩

def pop (q : PriorityQueue c) : PriorityQueue c :=
  ⟨q.items.dropLast, q.ordered.sublist (List.dropLast_sublist _)⟩

/-- Take the top until the queue is empty. -/
def drain (q : PriorityQueue c) : List α := q.items.reverse

@[simp] theorem items_push (q : PriorityQueue c) (x : α) :
    (q.push x).items = c.place x q.items := rfl

@[simp] theorem items_pop (q : PriorityQueue c) : q.pop.items = q.items.dropLast := rfl

@[simp] theorem size_push (q : PriorityQueue c) (x : α) : (q.push x).size = q.size + 1 :=
  c.length_place x q.items

theorem exists_top {q : PriorityQueue c} (h : 0 < q.size) : ∃ t, q.top? = some t :=
  Option.ne_none_iff_exists'.mp fun hnone => by
    have hnil : q.items = [] := List.getLast?_eq_none_iff.mp hnone
    simp [size, hnil] at h

section Split
variable {q : PriorityQueue c} {front : List α} {t : α}

theorem top_of_items (hf : q.items = front ++ [t]) : q.top? = some t := by
  rw [top?, hf, List.getLast?_concat]

theorem items_pop_push (hf : q.items = front ++ [t]) (x : α) :
    (q.pop.push x).items = c.place x front := by
  rw [items_push, items_pop, hf, List.dropLast_concat]

theorem mem_pop_push (hf : q.items = front ++ [t]) {x y : α} :
    y ∈ (q.pop.push x).items ↔ y = x ∨ y ∈ front := by
  rw [items_pop_push hf, (c.place_perm x front).mem_iff, List.mem_cons]

theorem front_ordered (hf : q.items = front ++ [t]) : front.Pairwise c.Le :=
  (List.pairwise_append.mp (hf ▸ q.ordered)).1

theorem front_le (hf : q.items = front ++ [t]) {y : α} (hy : y ∈ front) : c.Le y t :=
  (List.pairwise_append.mp (hf ▸ q.ordered)).2.2 y hy t List.mem_cons_self

theorem size_pop_push (hf : q.items = front ++ [t]) (x : α) : (q.pop.push x).size = q.size := by
  rw [size, items_pop_push hf, Comparer.length_place, size, hf, List.length_append,
    List.length_singleton]

end Split

theorem exists_items {q : PriorityQueue c} (h : 0 < q.size) :
    ∃ front t, q.items = front ++ [t] := by
  obtain ⟨t, top⟩ := exists_top h
  obtain ⟨front, hf⟩ := List.getLast?_eq_some_iff.mp top
  exact ⟨front, t, hf⟩

/-- No element of the queue has to stand behind the top. -/
theorem le_top {q : PriorityQueue c} {t x : α} (h : q.top? = some t) (hx : x ∈ q.items) :
    c.Le x t := by
  obtain ⟨front, hf⟩ := List.getLast?_eq_some_iff.mp h
  rw [hf] at hx
  rcases List.mem_append.mp hx with hx | hx
  · exact front_le hf hx
  · rw [List.mem_singleton.mp hx]
    exact (c.le_total t t).elim id id

/-- Admission to a queue of at most `n` elements, with the given test against the top. -/
def offer (n : Nat) (admits : α → α → Bool) (q : PriorityQueue c) (x : α) :
    PriorityQueue c :=
  if q.size < n then q.push x
  else match q.top? with
    | none => q
    | some worst => if admits x worst then q.pop.push x else q

theorem offer_of_lt {n : Nat} {admits : α → α → Bool} {q : PriorityQueue c} (h : q.size < n)
    (x : α) : q.offer n admits x = q.push x := if_pos h

theorem offer_full {n : Nat} {admits : α → α → Bool} {q : PriorityQueue c} (h : ¬ q.size < n)
    {worst : α} (top : q.top? = some worst) (x : α) :
    q.offer n admits x = if admits x worst then q.pop.push x else q := by
  rw [offer, if_neg h, top]

theorem offer_no_room {n : Nat} {admits : α → α → Bool} {q : PriorityQueue c}
    (h : ¬ q.size < n) (top : q.top? = none) (x : α) : q.offer n admits x = q := by
  rw [offer, if_neg h, top]

/-- To push while there is room and to test against the top afterwards is an admission. -/
theorem eq_offer {n : Nat} (pos : 0 < n) {admits : α → α → Bool} {q r : PriorityQueue c} {x : α}
    (room : q.size < n → r = q.push x)
    (full : ∀ worst, ¬ q.size < n → q.top? = some worst →
      r = if admits x worst then q.pop.push x else q) : r = q.offer n admits x := by
  by_cases hsize : q.size < n
  · rw [room hsize, offer_of_lt hsize]
  · obtain ⟨worst, htop⟩ := exists_top (pos.trans_le (not_lt.mp hsize))
    rw [full worst hsize htop, offer_full hsize htop]

/-- What is offered is in the queue afterwards, or nothing has changed; nothing else comes in. -/
theorem offer_mem (n : Nat) (admits : α → α → Bool) (q : PriorityQueue c) (x : α) :
    (x ∈ (q.offer n admits x).items ∨ ¬ q.size < n ∧ q.offer n admits x = q) ∧
      ∀ y ∈ (q.offer n admits x).items, y = x ∨ y ∈ q.items := by
  by_cases hsize : q.size < n
  · have hmem : ∀ y, y ∈ (q.push x).items ↔ y = x ∨ y ∈ q.items := fun y =>
      (c.place_perm x q.items).mem_iff.trans List.mem_cons
    rw [offer_of_lt hsize]
    exact ⟨Or.inl ((hmem x).mpr (Or.inl rfl)), fun y => (hmem y).mp⟩
  · cases htop : q.top? with
    | none =>
      rw [offer_no_room hsize htop]
      exact ⟨Or.inr ⟨hsize, rfl⟩, fun y => Or.inr⟩
    | some worst =>
      obtain ⟨front, hf⟩ := List.getLast?_eq_some_iff.mp htop
      rw [offer_full hsize htop]
      split
      · refine ⟨Or.inl ((mem_pop_push hf).mpr (Or.inl rfl)), fun y hy => ?_⟩
        refine ((mem_pop_push hf).mp hy).imp_right fun h => ?_
        rw [hf]
        exact List.mem_append_left _ h
      · exact ⟨Or.inr ⟨hsize, rfl⟩, fun y => Or.inr⟩

theorem mem_foldl_offer {n : Nat} {admits : α → α → Bool} {xs : List α} {q : PriorityQueue c}
    {y : α} (h : y ∈ (xs.foldl (offer n admits) q).items) : y ∈ xs ∨ y ∈ q.items := by
  induction xs generalizing q with
  | nil => exact Or.inr h
  | cons x rest ih =>
    rcases ih h with hrest | hq
    · exact Or.inl (List.mem_cons_of_mem x hrest)
    · rcases (offer_mem n admits q x).2 y hq with rfl | hold
      · exact Or.inl List.mem_cons_self
      · exact Or.inr hold

theorem mem_of_mem_foldl_offer {n : Nat} {admits : α → α → Bool} {xs : List α} {y : α}
    (h : y ∈ (xs.foldl (offer n admits) (empty : PriorityQueue c)).items) : y ∈ xs := by
  rcases mem_foldl_offer h with hmem | hnone
  · exact hmem
  · cases hnone

section Selects
variable {n : Nat} {q : PriorityQueue c} {xs : List α} (selected : q.items = c.firstN n xs)
include selected

/-- While there is room the queue holds the whole stream. -/
theorem push_selects (room : q.size < n) (x : α) :
    (q.push x).items = c.firstN n (xs ++ [x]) := by
  have hlen : q.size = min n (c.ranked xs).length := by
    rw [size, selected, Comparer.firstN, List.length_take]
  have hall : q.items = c.ranked xs := by
    rw [selected, Comparer.firstN, List.take_of_length_le (by omega)]
  rw [Comparer.firstN, c.ranked_snoc, items_push, hall, List.take_of_length_le]
  rw [Comparer.length_place, ← hall]
  exact room

theorem ranked_split : c.ranked xs = q.items ++ (c.ranked xs).drop n := by
  rw [selected, Comparer.firstN, List.take_append_drop]

theorem length_of_full (full : ¬ q.size < n) : q.items.length = n := by
  refine le_antisymm ?_ (not_lt.mp full)
  rw [selected, Comparer.firstN, List.length_take]
  exact Nat.min_le_left _ _

/-- An element before the top takes the place of the top. -/
theorem replace_selects (full : ¬ q.size < n) {front : List α} {worst x : α}
    (hf : q.items = front ++ [worst]) (hbefore : c.before x worst = true) :
    (q.pop.push x).items = c.firstN n (xs ++ [x]) := by
  have hlen : front.length + 1 = n := by
    rw [← length_of_full selected full, hf, List.length_append, List.length_singleton]
  have hplace : (c.place x front).length = n := by rw [Comparer.length_place, hlen]
  rw [Comparer.firstN, c.ranked_snoc, ranked_split selected, hf, List.append_assoc,
    List.singleton_append, c.place_append_of_before hbefore,
    List.take_append_of_le_length hplace.ge, List.take_of_length_le hplace.le,
    items_pop_push hf]

/-- An element that does not stand before the top is not selected. -/
theorem reject_selects (full : ¬ q.size < n) {worst x : α} (top : q.top? = some worst)
    (hbefore : c.before x worst = false) : q.items = c.firstN n (xs ++ [x]) := by
  have hlen := length_of_full selected full
  have hall : ∀ y ∈ q.items, c.before x y = false := fun y hy =>
    c.neg_trans x worst y hbefore (le_top top hy)
  rw [Comparer.firstN, c.ranked_snoc, ranked_split selected, c.place_append_of_not_before hall,
    List.take_append_of_le_length hlen.ge, List.take_of_length_le hlen.le]

/-- One admission keeps the queue equal to the selection from the stream so far. -/
theorem offer_selects (admits : α → α → Bool) (x : α)
    (same : ∀ worst, q.top? = some worst → admits x worst = c.before x worst) :
    (q.offer n admits x).items = c.firstN n (xs ++ [x]) := by
  by_cases hsize : q.size < n
  · rw [offer_of_lt hsize]
    exact push_selects selected hsize x
  · cases htop : q.top? with
    | none =>
      have hnil : q.items = [] := List.getLast?_eq_none_iff.mp htop
      obtain rfl : n = 0 := by simpa [hnil] using (length_of_full selected hsize).symm
      rw [offer_no_room hsize htop, hnil]
      rfl
    | some worst =>
      rw [offer_full hsize htop, same worst htop]
      cases hbefore : c.before x worst with
      | true =>
        obtain ⟨front, hf⟩ := List.getLast?_eq_some_iff.mp htop
        exact replace_selects selected hsize hf hbefore
      | false => exact reject_selects selected hsize htop hbefore

end Selects

theorem size_offer_le {n : Nat} (admits : α → α → Bool) {q : PriorityQueue c} (h : q.size ≤ n)
    (x : α) : (q.offer n admits x).size ≤ n := by
  by_cases hsize : q.size < n
  · rw [offer_of_lt hsize, size_push]
    exact hsize
  · cases htop : q.top? with
    | none => rwa [offer_no_room hsize htop]
    | some worst =>
      obtain ⟨front, hf⟩ := List.getLast?_eq_some_iff.mp htop
      rw [offer_full hsize htop]
      split
      · rwa [size_pop_push hf]
      · exact h

theorem size_offer_full {n : Nat} (admits : α → α → Bool) {q : PriorityQueue c}
    (full : ¬ q.size < n) (x : α) : (q.offer n admits x).size = q.size := by
  cases htop : q.top? with
  | none => rw [offer_no_room full htop]
  | some worst =>
    obtain ⟨front, hf⟩ := List.getLast?_eq_some_iff.mp htop
    rw [offer_full full htop]
    split
    · exact size_pop_push hf x
    · rfl

theorem size_foldl_offer_le {n : Nat} (admits : α → α → Bool) (xs : List α) :
    (xs.foldl (offer n admits) (empty : PriorityQueue c)).size ≤ n := by
  induction xs using List.reverseRecOn with
  | nil => exact Nat.zero_le n
  | append_singleton xs x ih =>
    rw [List.foldl_append]
    exact size_offer_le admits ih x

/-- Elements that there is room for may as well be pushed. -/
theorem foldl_push {n : Nat} (admits : α → α → Bool) {xs : List α} {q : PriorityQueue c}
    (room : q.size + xs.length ≤ n) : xs.foldl push q = xs.foldl (offer n admits) q := by
  induction xs generalizing q with
  | nil => rfl
  | cons x rest ih =>
    rw [List.length_cons] at room
    have hsize : q.size < n := by omega
    rw [List.foldl_cons, List.foldl_cons, offer_of_lt hsize]
    refine ih ?_
    rw [size_push]
    omega

/-- While the queue has room no test is made. -/
theorem foldl_offer_of_length_le {n : Nat} (admits : α → α → Bool) {xs : List α}
    (room : xs.length ≤ n) :
    (xs.foldl (offer n admits) (empty : PriorityQueue c)).items = c.ranked xs := by
  induction xs using List.reverseRecOn with
  | nil => rfl
  | append_singleton xs x ih =>
    rw [List.length_append, List.length_singleton] at room
    have items := ih (Nat.le_of_succ_le room)
    have hsize : (xs.foldl (offer n admits) (empty : PriorityQueue c)).size < n := by
      rw [size, items, (c.ranked_perm xs).length_eq]
      exact room
    rw [List.foldl_append, List.foldl_cons, List.foldl_nil, offer_of_lt hsize, items_push, items,
      c.ranked_snoc]

/-- Offering a stream to an empty queue selects its first `n` elements. -/
theorem foldl_offer_selects {n : Nat} {admits : α → α → Bool}
    (same : ∀ x worst, admits x worst = c.before x worst) (xs : List α) :
    (xs.foldl (offer n admits) (empty : PriorityQueue c)).items = c.firstN n xs := by
  induction xs using List.reverseRecOn with
  | nil => simp [empty, Comparer.firstN, Comparer.ranked]
  | append_singleton xs x ih =>
    rw [List.foldl_append, List.foldl_cons, List.foldl_nil]
    exact offer_selects ih admits x fun worst _ => same x worst

/-- A full queue is not changed by elements that do not stand before its top. -/
theorem foldl_offer_idle {n : Nat} {admits : α → α → Bool} {q : PriorityQueue c}
    (full : ¬ q.size < n) {worst : α} (top : q.top? = some worst) {xs : List α}
    (behind : ∀ x ∈ xs, admits x worst = false) : xs.foldl (offer n admits) q = q := by
  induction xs with
  | nil => rfl
  | cons x rest ih =>
    have hx := behind x List.mem_cons_self
    rw [List.foldl_cons, offer_full full top, hx]
    exact ih fun y hy => behind y (List.mem_cons_of_mem x hy)

theorem drain_foldl_offer {n : Nat} {admits : α → α → Bool}
    (same : ∀ x worst, admits x worst = c.before x worst) (xs : List α) :
    (xs.foldl (offer n admits) (empty : PriorityQueue c)).drain.reverse = c.firstN n xs := by
  rw [drain, List.reverse_reverse, foldl_offer_selects same]

/-- What is drained does not depend on the order of arrival either. -/
theorem drain_foldl_offer_perm {n : Nat} {admits : α → α → Bool}
    (same : ∀ x worst, admits x worst = c.before x worst) {xs ys : List α}
    (sep : c.Separates ys) (perm : xs.Perm ys) :
    (xs.foldl (offer n admits) (empty : PriorityQueue c)).drain.reverse = c.firstN n ys := by
  rw [drain_foldl_offer same, c.firstN_congr sep perm.symm]

end PriorityQueue

end PriorityQueues
