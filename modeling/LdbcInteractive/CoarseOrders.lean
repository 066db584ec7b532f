import LdbcInteractive.Relabellings
import LdbcInteractive.TieEvictions

/-!
# Heaps whose admission test is only right up to ties

A bounded heap orders its entries by one comparison and admits newcomers by another
test. Where both go by one key wherever it differs, the keys that stay do not depend
on the order of arrival: only entries with the worst of these keys may be different ones.
-/

universe u v

namespace PriorityQueues

open EdgeTables

variable {α : Type u} {β : Type v} {κ : Type*} [LinearOrder κ]

/-- The comparison and the admission test both go by the key, the least one first. -/
structure Coarse (c : Comparer α) (admits : α → α → Bool) (key : α → κ) : Prop where
  le : ∀ a b, c.Le a b → key a ≤ key b
  better : ∀ x worst, key x < key worst → admits x worst = true
  worse : ∀ x worst, key worst < key x → admits x worst = false

/-- Of a stream `n` entries are kept in order, and none that was left out has a better key. -/
structure Keeps (c : Comparer α) (key : α → κ) (n : Nat) (xs out : List α) : Prop where
  sorted : out.Pairwise c.Le
  length : out.length = min n xs.length
  split : ∃ dropped : List α, xs.Perm (out ++ dropped) ∧ ∀ x ∈ dropped, ∀ y ∈ out, key y ≤ key x

variable {c : Comparer α} {admits : α → α → Bool} {key : α → κ} {n : Nat} {xs out : List α}

section Offers
variable {q : PriorityQueue c}

theorem Keeps.push (kept : Keeps c key n xs q.items) (room : q.size < n) (x : α) :
    Keeps c key n (xs ++ [x]) (q.push x).items := by
  obtain ⟨dropped, perm, -⟩ := kept.split
  have count : q.items.length + dropped.length = xs.length := by
    rw [perm.length_eq, List.length_append]
  have length := kept.length
  have room' : q.items.length < n := room
  obtain rfl : dropped = [] := List.length_eq_zero_iff.mp (by omega)
  rw [List.append_nil] at perm
  refine ⟨(q.push x).ordered, ?_, [], ?_, by simp⟩
  · rw [PriorityQueue.items_push, c.length_place, List.length_append, List.length_singleton]
    omega
  · rw [List.append_nil]
    exact ((perm.append_right [x]).trans (List.perm_append_singleton x _)).trans
      (c.place_perm x q.items).symm

theorem Keeps.replace (coarse : Coarse c admits key) (kept : Keeps c key n xs q.items)
    (full : ¬ q.size < n) {front : List α} {worst x : α} (hf : q.items = front ++ [worst])
    (admitted : admits x worst = true) :
    Keeps c key n (xs ++ [x]) (q.pop.push x).items := by
  obtain ⟨dropped, perm, bound⟩ := kept.split
  have reached : key x ≤ key worst := by
    by_contra h
    rw [coarse.worse x worst (not_le.mp h)] at admitted
    cases admitted
  have before_worst : ∀ y ∈ (q.pop.push x).items, key y ≤ key worst := by
    intro y hy
    rcases (PriorityQueue.mem_pop_push hf).mp hy with rfl | hy
    · exact reached
    · exact coarse.le y worst (PriorityQueue.front_le hf hy)
  refine ⟨(q.pop.push x).ordered, ?_, worst :: dropped, ?_, ?_⟩
  · have size := PriorityQueue.size_pop_push hf x
    have length := kept.length
    have enough : ¬ q.items.length < n := full
    rw [PriorityQueue.size, PriorityQueue.size] at size
    rw [size, List.length_append, List.length_singleton]
    omega
  · rw [hf, List.append_assoc] at perm
    rw [PriorityQueue.items_pop_push hf]
    calc (xs ++ [x]).Perm (x :: (front ++ (worst :: dropped))) :=
          (perm.append_right [x]).trans (List.perm_append_singleton x _)
      _ = (x :: front) ++ (worst :: dropped) := rfl
      _ |>.Perm (c.place x front ++ (worst :: dropped)) :=
          (c.place_perm x front).symm.append_right _
  · refine List.forall_mem_cons.mpr ⟨before_worst, fun d hd y hy => ?_⟩
    exact (before_worst y hy).trans (bound d hd worst (hf ▸ by simp))

theorem Keeps.reject (kept : Keeps c key n xs q.items) (full : ¬ q.size < n) {x : α}
    (behind : ∀ y ∈ q.items, key y ≤ key x) : Keeps c key n (xs ++ [x]) q.items := by
  obtain ⟨dropped, perm, bound⟩ := kept.split
  refine ⟨q.ordered, ?_, x :: dropped, ?_, List.forall_mem_cons.mpr ⟨behind, bound⟩⟩
  · have length := kept.length
    have enough : ¬ q.items.length < n := full
    rw [List.length_append]
    omega
  · exact (perm.append_right [x]).trans
      ((List.perm_append_singleton x _).trans List.perm_middle.symm)

theorem Keeps.offer (coarse : Coarse c admits key) (kept : Keeps c key n xs q.items) (x : α) :
    Keeps c key n (xs ++ [x]) (q.offer n admits x).items := by
  by_cases room : q.size < n
  · rw [PriorityQueue.offer_of_lt room]
    exact kept.push room x
  · cases top : q.top? with
    | none =>
      rw [PriorityQueue.offer_no_room room top]
      have nothing : q.items = [] := List.getLast?_eq_none_iff.mp top
      exact kept.reject room (by simp [nothing])
    | some worst =>
      rw [PriorityQueue.offer_full room top]
      cases test : admits x worst with
      | false =>
        refine kept.reject room fun y hy => ?_
        refine (coarse.le y worst (PriorityQueue.le_top top hy)).trans (not_lt.mp fun h => ?_)
        rw [coarse.better x worst h] at test
        cases test
      | true =>
        obtain ⟨front, hf⟩ := List.getLast?_eq_some_iff.mp top
        exact kept.replace coarse room hf test

end Offers

theorem keeps_foldl (coarse : Coarse c admits key) (n : Nat) (xs : List α) :
    Keeps c key n xs
      (xs.foldl (PriorityQueue.offer n admits) (.empty : PriorityQueue c)).items := by
  induction xs using List.reverseRecOn with
  | nil => exact ⟨List.Pairwise.nil, (Nat.min_zero n).symm, [], List.Perm.refl _, by simp⟩
  | append_singleton xs x ih =>
    rw [List.foldl_append]
    exact ih.offer coarse x

section Kept
variable (kept : Keeps c key n xs out)
include kept

/-- The keys are the best ones, whatever the order of arrival and the treatment of ties. -/
theorem Keeps.keys (le : ∀ a b, c.Le a b → key a ≤ key b) :
    out.map key = ((xs.map key).insertionSort (· ≤ ·)).take n := by
  obtain ⟨dropped, perm, bound⟩ := kept.split
  have sorted : (out.map key ++ (dropped.map key).insertionSort (· ≤ ·)).Pairwise (· ≤ ·) := by
    refine List.pairwise_append.mpr ⟨List.pairwise_map.mpr (kept.sorted.imp (le _ _)),
      List.pairwise_insertionSort _ _, ?_⟩
    intro a ha b hb
    obtain ⟨y, hy, rfl⟩ := List.mem_map.mp ha
    obtain ⟨x, hx, rfl⟩ := List.mem_map.mp ((List.perm_insertionSort _ _).mem_iff.mp hb)
    exact bound x hx y hy
  have whole : (xs.map key).insertionSort (· ≤ ·) =
      out.map key ++ (dropped.map key).insertionSort (· ≤ ·) := by
    refine List.Perm.eq_of_pairwise' (List.pairwise_insertionSort _ _) sorted ?_
    refine (List.perm_insertionSort _ _).trans ((perm.map key).trans ?_)
    rw [List.map_append]
    exact (List.perm_insertionSort _ _).symm.append_left _
  have length := kept.length
  have total := perm.length_eq
  rw [List.length_append] at total
  by_cases few : n ≤ xs.length
  · rw [whole, List.take_left' (by rw [List.length_map]; omega)]
  · have nothing : dropped = [] := List.length_eq_zero_iff.mp (by omega)
    rw [whole, nothing, List.take_of_length_le (by simp; omega)]
    simp

/-- Entries better than a kept one are all kept. -/
theorem Keeps.better_perm {y : α} (hy : y ∈ out) :
    (out.filter fun x => key x < key y).Perm (xs.filter fun x => key x < key y) := by
  obtain ⟨dropped, perm, bound⟩ := kept.split
  have none : dropped.filter (fun x => key x < key y) = [] :=
    List.filter_eq_nil_iff.mpr fun x hx => by simpa using bound x hx y hy
  have filtered := perm.filter fun x => key x < key y
  rw [List.filter_append, none, List.append_nil] at filtered
  exact filtered.symm

end Kept

section Renamed
variable {c' : Comparer β} {key' : β → κ} {f : α → β} {ys out' : List β}
  (kept : Keeps c key n xs out) (kept' : Keeps c' key' n ys out') (sep : c.Separates xs)
  (same : ∀ a b, c'.before (f a) (f b) = c.before a b) (perm : ys.Perm (xs.map f))
include kept kept' perm

theorem Keeps.keys_renamed (keys : ∀ a, key' (f a) = key a)
    (le : ∀ a b, c.Le a b → key a ≤ key b) (le' : ∀ a b, c'.Le a b → key' a ≤ key' b) :
    out'.map key' = out.map key := by
  have sorted : (ys.map key').insertionSort (· ≤ ·) = (xs.map key).insertionSort (· ≤ ·) := by
    refine List.Perm.eq_of_pairwise' (List.pairwise_insertionSort _ _)
      (List.pairwise_insertionSort _ _) ?_
    refine (List.perm_insertionSort _ _).trans (List.Perm.trans ?_
      (List.perm_insertionSort _ _).symm)
    refine (perm.map key').trans (List.Perm.of_eq ?_)
    rw [List.map_map]
    exact List.map_congr_left fun x _ => keys x
  rw [kept'.keys le', kept.keys le, sorted]

include sep same

theorem Keeps.better_renamed (keys : ∀ a, key' (f a) = key a)
    (le : ∀ a b, c.Le a b → key a ≤ key b) (le' : ∀ a b, c'.Le a b → key' a ≤ key' b) {y : α}
    (hy : y ∈ out) :
    out'.filter (fun x => key' x < key y) = (out.filter fun x => key x < key y).map f := by
  have reached : ∃ y' ∈ out', key' y' = key y := by
    have hkey : key y ∈ out'.map key' := by
      rw [kept.keys_renamed kept' perm keys le le']
      exact List.mem_map_of_mem hy
    exact List.mem_map.mp hkey
  obtain ⟨y', hy', hkey⟩ := reached
  have tests : ∀ x, decide (key' (f x) < key y) = decide (key x < key y) := fun x => by rw [keys]
  have kept_perm := kept.better_perm hy
  have kept_perm' := kept'.better_perm hy'
  rw [hkey] at kept_perm'
  have all : (out'.filter fun x => key' x < key y).Perm
      ((out.filter fun x => key x < key y).map f) :=
    kept_perm'.trans ((filter_renamed perm tests).trans (kept_perm.symm.map f))
  have some_sep : c.Separates (out.filter fun x => key x < key y) := fun a ha b hb =>
    sep a (List.mem_of_mem_filter (kept_perm.mem_iff.mp ha)) b
      (List.mem_of_mem_filter (kept_perm.mem_iff.mp hb))
  have sorted : ((out.filter fun x => key x < key y).map f).Pairwise c'.Le := by
    refine List.pairwise_map.mpr ((kept.sorted.filter _).imp fun {a b} hab => ?_)
    exact (same b a).trans hab
  exact (Comparer.eq_ranked (some_sep.map same) all (kept'.sorted.filter _)).trans
    (Comparer.eq_ranked (some_sep.map same) (List.Perm.refl _) sorted).symm

end Renamed

section Room
variable {c' : Comparer β} {f : α → β} {ys : List β} (sep : c.Separates xs)
  (same : ∀ a b, c'.before (f a) (f b) = c.before a b) (perm : ys.Perm (xs.map f))
include sep same perm

/-- Where there is room for the whole stream, nothing is left to the order of arrival. -/
theorem items_rows_of_room {γ : Type*} {admits' : β → β → Bool} (room : xs.length ≤ n)
    {row : α → γ} {row' : β → γ} (reads : ∀ a, row' (f a) = row a) :
    (ys.foldl (PriorityQueue.offer n admits') (.empty : PriorityQueue c')).items.map row' =
      (xs.foldl (PriorityQueue.offer n admits) (.empty : PriorityQueue c)).items.map row := by
  have room' : ys.length ≤ n := by
    rw [perm.length_eq, List.length_map]
    exact room
  rw [PriorityQueue.foldl_offer_of_length_le _ room,
    PriorityQueue.foldl_offer_of_length_le _ room', Comparer.ranked_renamed sep same perm,
    List.map_map]
  exact List.map_congr_left fun a _ => reads a

end Room

end PriorityQueues

namespace DatedOrders

open PriorityQueues

variable {α : Type u} {β : Type v} {κ ι ρ : Type*} [LinearOrder κ] [LinearOrder ι]

/-- Two results that agree but for the rows of the oldest date: the same dates in the same
places, and the same rows newer than any row. -/
structure SameButOldest (date : ρ → κ) (rows rows' : List ρ) : Prop where
  dates : rows'.map date = rows.map date
  newer : ∀ row ∈ rows, rows'.filter (fun row' => date row < date row') =
    rows.filter fun row' => date row < date row'

theorem SameButOldest.refl (date : ρ → κ) (rows : List ρ) : SameButOldest date rows rows :=
  ⟨rfl, fun _ _ => rfl⟩

theorem Dated.coarse_reversed {c : Comparer α} (d : Dated c κ ι) :
    Coarse c d.reversed fun x => OrderDual.toDual (d.date x) where
  le _ _ h := d.date_le h
  better _ _ h := d.reversed_of_newer h
  worse _ _ h := d.reversed_of_older h

section Rows
variable {c : Comparer α} {c' : Comparer β} (d : Dated c κ ι) (d' : Dated c' κ ι) {f : α → β}
  {xs : List α} {ys : List β} (sep : c.Separates xs)
  (same : ∀ a b, c'.before (f a) (f b) = c.before a b) (perm : ys.Perm (xs.map f))
  (dates : ∀ a, d'.date (f a) = d.date a)
include sep same perm dates

/-- A heap with the reversed tie test, fed with one stream in two orders and under two names. -/
theorem reversed_renamed (n : Nat) {row : α → ρ} {row' : β → ρ} (reads : ∀ a, row' (f a) = row a)
    {date : ρ → κ} (hdate : ∀ a, date (row a) = d.date a)
    (hdate' : ∀ b, date (row' b) = d'.date b) :
    SameButOldest date
      ((xs.foldl (PriorityQueue.offer n d.reversed) (.empty : PriorityQueue c)).items.map row)
      ((ys.foldl (PriorityQueue.offer n d'.reversed) (.empty : PriorityQueue c')).items.map
        row') := by
  have coarse := d.coarse_reversed
  have coarse' := d'.coarse_reversed
  have kept := keeps_foldl coarse n xs
  have kept' := keeps_foldl coarse' n ys
  have keys : ∀ a, OrderDual.toDual (d'.date (f a)) = OrderDual.toDual (d.date a) :=
    fun a => congrArg _ (dates a)
  generalize (xs.foldl (PriorityQueue.offer n d.reversed) (.empty : PriorityQueue c)).items =
    out at kept ⊢
  generalize (ys.foldl (PriorityQueue.offer n d'.reversed) (.empty : PriorityQueue c')).items =
    out' at kept' ⊢
  constructor
  · have duals := kept.keys_renamed kept' perm keys coarse.le coarse'.le
    have undone := congrArg (List.map OrderDual.ofDual) duals
    simpa only [List.map_map, Function.comp_def, OrderDual.ofDual_toDual, hdate, hdate']
      using undone
  · intro r hr
    obtain ⟨y, hy, rfl⟩ := List.mem_map.mp hr
    have newer := kept.better_renamed kept' sep same perm keys coarse.le coarse'.le hy
    have lists := congrArg (List.map row') newer
    simpa only [List.filter_map, Function.comp_def, hdate, hdate', OrderDual.toDual_lt_toDual,
      List.map_map, reads] using lists

end Rows

end DatedOrders
