import LdbcInteractive.DatedOrders

/-!
# A cached date of the top

A bounded queue whose admission test reads the date of the top from a variable. The
variable is refreshed where a later date pushes the top out. Where an element of the same
date takes the place of the top it is not, and need not be: the new top has that date, too.
-/

namespace DatedOrders

open PriorityQueues PriorityQueue

universe u
variable {α : Type u} {κ ι : Type*} [LinearOrder κ] [LinearOrder ι]

namespace Dated
variable {c : Comparer α} (d : Dated c κ ι) {n : Nat} {q : PriorityQueue c} {cached : κ}

/-- Once the queue is full the variable is the date of its top. -/
def Caches (n : Nat) (q : PriorityQueue c) (cached : κ) : Prop :=
  ∀ top, q.top? = some top → ¬ q.size < n → cached = d.date top

theorem caches_of_room (room : q.size < n) : d.Caches n q cached :=
  fun _ _ full => absurd room full

/-- The variable after `cached = pq.top().date`. -/
theorem caches_top : d.Caches n q ((q.top?.map d.date).getD cached) := by
  intro top htop _
  simp [htop]

/-- A choice between two states of a scan that have the same cached date. -/
theorem ite_scan {σ β γ : Type*} (pq : σ → β) (date : σ → γ) {p : Prop} [Decidable p] {s t : σ}
    {cached : γ} (hs : date s = cached) (ht : date t = cached) :
    pq (if p then s else t) = (if p then pq s else pq t) ∧
      date (if p then s else t) = cached := by
  by_cases h : p
  · simp only [h, if_true]
    exact ⟨trivial, hs⟩
  · simp only [h, if_false]
    exact ⟨trivial, ht⟩

variable {d} (h : d.Caches n q cached) (pos : 0 < n) (full : ¬ q.size < n) {x : α}
include h full

/-- An element of the cached date that takes the place of the top leaves the cache right. -/
theorem Caches.replace_tie {front : List α} {worst : α} (hf : q.items = front ++ [worst])
    (tie : d.date x = cached) : d.Caches n (q.pop.push x) cached := by
  have hworst := h worst (top_of_items hf) full
  intro top hnew _
  have hx : x ∈ (q.pop.push x).items := (mem_pop_push hf).mpr (Or.inl rfl)
  refine le_antisymm ?_ ?_
  · rw [hworst]
    rcases (mem_pop_push hf).mp (List.mem_of_getLast? hnew) with rfl | hold
    · exact (tie.trans hworst).ge
    · exact d.date_le (front_le hf hold)
  · rw [← tie]
    exact d.date_le (le_top hnew hx)

theorem Caches.offer_older (older : d.date x < cached) : q.offer n c.before x = q := by
  cases htop : q.top? with
  | none => exact offer_no_room full htop x
  | some worst =>
    rw [h worst htop full] at older
    rw [offer_full full htop, if_neg]
    rw [d.before_iff]
    rintro (hlt | ⟨heq, -⟩)
    · exact older.not_gt hlt
    · exact older.ne heq

theorem Caches.offer_tie {worst : α} (htop : q.top? = some worst) (tie : d.date x = cached) :
    q.offer n c.before x = if d.ident worst < d.ident x then q.pop.push x else q := by
  rw [offer_full full htop]
  have hworst := h worst htop full
  have test : c.before x worst = true ↔ d.ident worst < d.ident x := by
    rw [d.before_iff, tie, hworst]
    simp
  simp only [test]

include pos

theorem Caches.offer_newer (newer : cached < d.date x) :
    q.offer n c.before x = q.pop.push x := by
  obtain ⟨worst, htop⟩ := exists_top (pos.trans_le (not_lt.mp full))
  rw [h worst htop full] at newer
  rw [offer_full full htop, if_pos ((d.before_iff x worst).mpr (Or.inl newer))]

/-- One element for a full queue, tested against the variable: the queue admits it as a test
against the top would, and the variable stays right. -/
theorem Caches.consider {r : PriorityQueue c} {recached : κ}
    (older : d.date x < cached → r = q ∧ recached = cached)
    (tie : ∀ worst, q.top? = some worst → d.date x = cached →
      r = (if d.ident worst < d.ident x then q.pop.push x else q) ∧ recached = cached)
    (newer : cached < d.date x → r = q.pop.push x ∧
      recached = ((q.pop.push x).top?.map d.date).getD cached) :
    r = q.offer n c.before x ∧ d.Caches n r recached := by
  obtain ⟨worst, htop⟩ := exists_top (pos.trans_le (not_lt.mp full))
  obtain ⟨front, hf⟩ := List.getLast?_eq_some_iff.mp htop
  rcases lt_trichotomy (d.date x) cached with hlt | heq | hgt
  · obtain ⟨rfl, rfl⟩ := older hlt
    exact ⟨(h.offer_older full hlt).symm, h⟩
  · obtain ⟨hr, rfl⟩ := tie worst htop heq
    rw [h.offer_tie full htop heq]
    refine ⟨hr, ?_⟩
    rw [hr]
    split
    · exact h.replace_tie full hf heq
    · exact h
  · obtain ⟨rfl, rfl⟩ := newer hgt
    exact ⟨(h.offer_newer pos full hgt).symm, d.caches_top⟩

end Dated

end DatedOrders
