import LdbcInteractive.IC2
import LdbcInteractive.IC3
import LdbcInteractive.IC4
import LdbcInteractive.IC9

/-!
# The date windows of four queries

IC2 and IC9 ask for the messages up to a date, IC3 and IC4 for those of a number of days
from a start. Both ends are formed in 64-bit arithmetic and handed to the view as a strict
bound. What a query sees of the view is recorded by running the same traversal with a
function that keeps the edges it is called on.
-/

namespace LdbcInteractive

open EdgeTables

section Handed
variable {α β σ : Type}

def record (es : List (β × DateTime)) (e : β × DateTime) : List (β × DateTime) := es ++ [e]

/-- The edges that reach the function of `scan_messages_for_friend`. -/
def IC2.handed (lt : NbrLt) (view : α → List (β × DateTime)) (dst : α) (maxDateMs : Int64) :
    List (β × DateTime) :=
  foreachIncomingNbrLt lt view dst (maxDateMs + 1).toInt record []

def IC9.handed (lt : NbrLt) (view : α → List (β × DateTime)) (dst : α) (maxDateMs : Int64) :
    List (β × DateTime) :=
  foreachIncomingNbrBetween lt view dst 0 maxDateMs record []

def IC3.handed (lt : NbrLt) (view : α → List (β × DateTime)) (dst : α)
    (startDateMs durationDays : Int64) : List (β × DateTime) :=
  foreachIncomingNbrBetweenHalfOpen lt view dst startDateMs
    (startDateMs + durationDays * IC3.kMillisPerDay) record []

/-- The posts whose tags are counted and not struck out. -/
def IC4.handed (lt : NbrLt) (view : α → List (β × DateTime)) (dst : α)
    (startDateMs durationDays : Int64) : List (β × DateTime) :=
  foreachIncomingNbrLt lt view dst (startDateMs + durationDays * IC4.kMillisPerDay).toInt
    (fun es e => if e.2 ≥ startDateMs.toInt then record es e else es) []

theorem foldl_record (es acc : List (β × DateTime)) : es.foldl record acc = acc ++ es := by
  induction es generalizing acc with
  | nil => simp
  | cons e rest ih =>
    rw [List.foldl_cons, ih]
    simp [record]

theorem foldl_since (func : σ → β × DateTime → σ) (minDate : Int) (es : List (β × DateTime))
    (s : σ) :
    es.foldl (fun s e => if e.2 ≥ minDate then func s e else s) s =
      (es.filter fun e => minDate ≤ e.2).foldl func s := by
  rw [List.foldl_filter]
  simp only [ge_iff_le, decide_eq_true_eq]

theorem foldl_unless (func : σ → β × DateTime → σ) (minDate : Int) (es : List (β × DateTime))
    (s : σ) :
    es.foldl (fun s e => if e.2 < minDate then s else func s e) s =
      (es.filter fun e => minDate ≤ e.2).foldl func s := by
  rw [← foldl_since]
  congr 1
  funext s e
  by_cases he : e.2 < minDate
  · simp [he]
  · simp [he, not_lt.mp he]

theorem IC2.handed_eq (lt : NbrLt) (view : α → List (β × DateTime)) (dst : α)
    (maxDateMs : Int64) :
    IC2.handed lt view dst maxDateMs = lt.order view dst (maxDateMs + 1).toInt := by
  rw [IC2.handed, foreachIncomingNbrLt, foldl_record, List.nil_append]

theorem IC9.handed_eq (lt : NbrLt) (view : α → List (β × DateTime)) (dst : α)
    (maxDateMs : Int64) :
    IC9.handed lt view dst maxDateMs =
      (lt.order view dst (maxDateMs + 1).toInt).filter fun e => 0 ≤ e.2 := by
  rw [IC9.handed, foreachIncomingNbrBetween, foreachIncomingNbrLt, foldl_unless, foldl_record,
    List.nil_append]
  rfl

theorem IC3.handed_eq (lt : NbrLt) (view : α → List (β × DateTime)) (dst : α)
    (startDateMs durationDays : Int64) :
    IC3.handed lt view dst startDateMs durationDays =
      (lt.order view dst (startDateMs + durationDays * IC3.kMillisPerDay).toInt).filter
        fun e => startDateMs.toInt ≤ e.2 := by
  rw [IC3.handed, foreachIncomingNbrBetweenHalfOpen_eq, foldl_record, List.nil_append]

theorem IC4.handed_eq (lt : NbrLt) (view : α → List (β × DateTime)) (dst : α)
    (startDateMs durationDays : Int64) :
    IC4.handed lt view dst startDateMs durationDays =
      (lt.order view dst (startDateMs + durationDays * IC4.kMillisPerDay).toInt).filter
        fun e => startDateMs.toInt ≤ e.2 := by
  rw [IC4.handed, foreachIncomingNbrLt, foldl_since, foldl_record, List.nil_append]

end Handed

section Queries
variable {G : Graph} {P : Type}

/-- What is offered to the heap are the edges handed out. -/
theorem IC2.scanMessagesForFriend_handed (lt : NbrLt)
    (hasCreatorIn : G.Person → List (P × DateTime)) (vertex : P → G.Message)
    (messageIdCol : P → Int) (friendVid : G.Person) (maxDateMs : Int64) (st : IC2.Scan G) :
    IC2.scanMessagesForFriend lt hasCreatorIn vertex messageIdCol friendVid maxDateMs st =
      (IC2.handed lt hasCreatorIn friendVid maxDateMs).foldl
        (IC2.considerEdge vertex messageIdCol friendVid) st := by
  rw [IC2.handed_eq]
  rfl

theorem IC9.scanMessages_handed (lt : NbrLt) (hasCreatorIn : G.Person → List (P × DateTime))
    (vertex : P → G.Message) (messageIdCol : P → Int) (friendVid : G.Person)
    (maxDateMs : Int64) (pq : IC9.Queue G) :
    IC9.scanMessages lt hasCreatorIn vertex messageIdCol friendVid maxDateMs pq =
      (IC9.handed lt hasCreatorIn friendVid maxDateMs).foldl
        (IC9.considerEdge vertex messageIdCol friendVid) pq := by
  rw [IC9.handed_eq, IC9.scanMessages, foreachIncomingNbrBetween, foreachIncomingNbrLt,
    foldl_unless]
  rfl

theorem IC3.scanFriendMessages_handed (lt : NbrLt) (locatedIn : CsrView P G.Place)
    (hasCreatorIn : G.Person → List (P × DateTime)) (friendVid : G.Person)
    (countryX countryY : G.Place) (startDateMs durationDays : Int64) (counts : Int × Int) :
    IC3.scanFriendMessages G lt locatedIn hasCreatorIn friendVid countryX countryY startDateMs
        (startDateMs + durationDays * IC3.kMillisPerDay) counts =
      (IC3.handed lt hasCreatorIn friendVid startDateMs durationDays).foldl
        (IC3.countMessage G locatedIn countryX countryY) counts := by
  rw [IC3.handed_eq, IC3.scanFriendMessages, foreachIncomingNbrBetweenHalfOpen_eq]

/-- The counts of the tags that are not struck out, after the scan of one friend. -/
theorem IC4.scanFriend_handed (lt : NbrLt) (startDateMs durationDays : Int64)
    (friendVid : G.Person) (tag : G.Tag) :
    let st := IC4.scanFriend G lt startDateMs (startDateMs + durationDays * IC4.kMillisPerDay)
      ⟨fun _ => false, fun _ => 0⟩ friendVid
    st.tagCount tag = if st.neg tag then 0 else
      ((IC4.handed lt G.postHasCreator.inEdges friendVid startDateMs durationDays).map
        fun post => ((G.postHasTag.outgoing post.1).count tag : Int)).sum := by
  rw [IC4.handed_eq]
  exact (IC4.counted_scan _).tagCount tag

end Queries

section Windows

/-- The exact end of a window of days. -/
def windowEnd (startDateMs durationDays : Int64) : Int :=
  startDateMs.toInt + durationDays.toInt * 86400000

/-- IC2 and IC9 offer a message dated from 0 on exactly if it is not later than the date. -/
def ClosedWindows (maxDateMs : Int64) : Prop :=
  ∀ (α β : Type) (lt : NbrLt) (view : α → List (β × DateTime)) (dst : α), ∀ e ∈ view dst,
    0 ≤ e.2 → FitsInt64 e.2 →
      (e ∈ IC2.handed lt view dst maxDateMs ↔ e.2 ≤ maxDateMs.toInt) ∧
      (e ∈ IC9.handed lt view dst maxDateMs ↔ e.2 ≤ maxDateMs.toInt)

/-- IC3 and IC4 count a message dated from 0 on exactly if it lies in the window. -/
def HalfOpenWindows (startDateMs durationDays : Int64) : Prop :=
  ∀ (α β : Type) (lt : NbrLt) (view : α → List (β × DateTime)) (dst : α), ∀ e ∈ view dst,
    0 ≤ e.2 → FitsInt64 e.2 →
      (e ∈ IC3.handed lt view dst startDateMs durationDays ↔
        startDateMs.toInt ≤ e.2 ∧ e.2 < windowEnd startDateMs durationDays) ∧
      (e ∈ IC4.handed lt view dst startDateMs durationDays ↔
        startDateMs.toInt ≤ e.2 ∧ e.2 < windowEnd startDateMs durationDays)

/-- All four windows are right, and neither bound wraps. -/
structure DateWindows (maxDateMs startDateMs durationDays : Int64) : Prop where
  closed : ClosedWindows maxDateMs
  halfOpen : HalfOpenWindows startDateMs durationDays
  maxDate : (maxDateMs + 1).toInt = maxDateMs.toInt + 1
  endDate : (startDateMs + durationDays * IC3.kMillisPerDay).toInt =
    windowEnd startDateMs durationDays

variable {α β : Type} {lt : NbrLt} {view : α → List (β × DateTime)} {dst : α}
  {maxDateMs startDateMs durationDays : Int64} {e : β × DateTime}

theorem mem_order_iff {threshold : DateTime} :
    e ∈ lt.order view dst threshold ↔ e ∈ view dst ∧ e.2 < threshold := by
  rw [(lt.perm view dst threshold).mem_iff, List.mem_filter, decide_eq_true_eq]

theorem IC2.mem_handed (he : e ∈ view dst) :
    e ∈ IC2.handed lt view dst maxDateMs ↔ e.2 < (maxDateMs + 1).toInt := by
  rw [IC2.handed_eq, mem_order_iff, and_iff_right he]

theorem IC9.mem_handed (he : e ∈ view dst) (nonneg : 0 ≤ e.2) :
    e ∈ IC9.handed lt view dst maxDateMs ↔ e.2 < (maxDateMs + 1).toInt := by
  rw [IC9.handed_eq, List.mem_filter, mem_order_iff, and_iff_right he, decide_eq_true_eq,
    and_iff_left nonneg]

/-- The bound of the half-open windows, wrapped. -/
theorem toInt_windowEnd (startDateMs durationDays : Int64) :
    (startDateMs + durationDays * IC3.kMillisPerDay).toInt =
      (windowEnd startDateMs durationDays).bmod (2 ^ 64) := by
  rw [Int64.toInt_add, Int64.toInt_mul, Int.add_bmod_bmod]
  rfl

theorem IC3.mem_handed (he : e ∈ view dst) :
    e ∈ IC3.handed lt view dst startDateMs durationDays ↔
      startDateMs.toInt ≤ e.2 ∧ e.2 < (windowEnd startDateMs durationDays).bmod (2 ^ 64) := by
  rw [IC3.handed_eq, List.mem_filter, mem_order_iff, and_iff_right he, decide_eq_true_eq,
    toInt_windowEnd, and_comm]

theorem IC4.mem_handed (he : e ∈ view dst) :
    e ∈ IC4.handed lt view dst startDateMs durationDays ↔
      startDateMs.toInt ≤ e.2 ∧ e.2 < (windowEnd startDateMs durationDays).bmod (2 ^ 64) := by
  rw [← IC3.mem_handed he, IC3.handed_eq, IC4.handed_eq]
  rfl

/-- At the largest date the strict end is the smallest one. -/
theorem toInt_add_one_of_not_lt (most : ¬ maxDateMs < Int64.maxValue) :
    (maxDateMs + 1).toInt = -2 ^ 63 := by
  have hmax : maxDateMs = Int64.maxValue := by
    refine Int64.toInt_inj.mp ?_
    have hlt := maxDateMs.toInt_lt
    have hle := mt Int64.lt_iff_toInt_lt.mpr most
    have hmax : Int64.maxValue.toInt = 2 ^ 63 - 1 := rfl
    omega
  rw [hmax]
  rfl

theorem closedWindows_iff : ClosedWindows maxDateMs ↔ maxDateMs < Int64.maxValue := by
  constructor
  · intro windows
    by_contra most
    have wraps := toInt_add_one_of_not_lt most
    have offered := (windows Unit Unit .stored (fun _ => [((), 0)]) () ((), 0) (by simp) le_rfl
      (by decide)).1
    rw [IC2.mem_handed (by simp), wraps] at offered
    have beyond : (0 : Int) < -2 ^ 63 ↔ 0 ≤ maxDateMs.toInt := offered
    have hle := mt Int64.lt_iff_toInt_lt.mpr most
    have hmax : Int64.maxValue.toInt = 2 ^ 63 - 1 := rfl
    omega
  · intro below α β lt view dst e he nonneg _
    rw [IC2.mem_handed he, IC9.mem_handed he nonneg, toInt_add_one below]
    exact ⟨Int.lt_add_one_iff, Int.lt_add_one_iff⟩

/-- A wrapped end: past the largest date it cuts off dates of the window, before the smallest
one it may let dates in. -/
theorem window_wraps_iff {start stop : Int} (fits : FitsInt64 start) :
    (∀ t, 0 ≤ t → FitsInt64 t →
      (start ≤ t ∧ t < stop.bmod (2 ^ 64) ↔ start ≤ t ∧ t < stop)) ↔
      FitsInt64 stop ∨ stop < -2 ^ 63 ∧ stop.bmod (2 ^ 64) ≤ max 0 start := by
  have low : -2 ^ 63 ≤ stop.bmod (2 ^ 64) := Int.le_bmod (by decide)
  have high : stop.bmod (2 ^ 64) < 2 ^ 63 := Int.bmod_lt (by decide)
  unfold FitsInt64 at *
  constructor
  · intro windows
    by_cases large : 2 ^ 63 ≤ stop
    · have last := windows (2 ^ 63 - 1) (by decide) (by decide)
      omega
    · by_cases small : stop < -2 ^ 63
      · refine Or.inr ⟨small, ?_⟩
        have first := windows (max 0 start) (by omega) (by omega)
        omega
      · exact Or.inl ⟨by omega, by omega⟩
  · rintro (fits | ⟨small, early⟩) t nonneg _
    · rw [Int.bmod_eq_of_le (by omega) (by omega)]
    · constructor
      · rintro ⟨hle, hlt⟩
        omega
      · rintro ⟨hle, hlt⟩
        omega

theorem halfOpenWindows_iff :
    HalfOpenWindows startDateMs durationDays ↔
      FitsInt64 (windowEnd startDateMs durationDays) ∨
        windowEnd startDateMs durationDays < -2 ^ 63 ∧
          (windowEnd startDateMs durationDays).bmod (2 ^ 64) ≤ max 0 startDateMs.toInt := by
  rw [← window_wraps_iff ⟨startDateMs.le_toInt, startDateMs.toInt_lt⟩]
  constructor
  · intro windows t nonneg fits
    have counted := (windows Unit Unit .stored (fun _ => [((), t)]) () ((), t) (by simp) nonneg
      fits).1
    rwa [IC3.mem_handed (by simp)] at counted
  · intro windows α β lt view dst e he nonneg fits
    rw [IC3.mem_handed he, IC4.mem_handed he]
    exact ⟨windows e.2 nonneg fits, windows e.2 nonneg fits⟩

theorem toInt_windowEnd_iff :
    (startDateMs + durationDays * IC3.kMillisPerDay).toInt = windowEnd startDateMs durationDays ↔
      FitsInt64 (windowEnd startDateMs durationDays) := by
  constructor
  · intro same
    rw [← same]
    exact ⟨Int64.le_toInt _, Int64.toInt_lt _⟩
  · intro fits
    exact toInt_add_mul fits

/-- The windows are right and their bounds exact if and only if the date is not the largest
one and the end of the days fits; by themselves the windows of days are right as well where
the end lies before the smallest date and wraps to one that admits nothing. -/
theorem date_windows_iff (maxDateMs startDateMs durationDays : Int64) :
    (DateWindows maxDateMs startDateMs durationDays ↔
      maxDateMs < Int64.maxValue ∧ FitsInt64 (windowEnd startDateMs durationDays)) ∧
    (ClosedWindows maxDateMs ↔ maxDateMs < Int64.maxValue) ∧
    (HalfOpenWindows startDateMs durationDays ↔
      FitsInt64 (windowEnd startDateMs durationDays) ∨
        windowEnd startDateMs durationDays < -2 ^ 63 ∧
          (windowEnd startDateMs durationDays).bmod (2 ^ 64) ≤ max 0 startDateMs.toInt) := by
  refine ⟨?_, closedWindows_iff, halfOpenWindows_iff⟩
  constructor
  · intro windows
    exact ⟨closedWindows_iff.mp windows.closed, toInt_windowEnd_iff.mp windows.endDate⟩
  · rintro ⟨below, fits⟩
    exact ⟨closedWindows_iff.mpr below, halfOpenWindows_iff.mpr (Or.inl fits),
      toInt_add_one below, toInt_windowEnd_iff.mpr fits⟩

/-- Without an upper limit no message is found, and a long enough window has no posts. -/
theorem date_windows_wrap :
    ¬ ClosedWindows Int64.maxValue ∧ ¬ HalfOpenWindows 0 106751991168 ∧
      IC2.exec .stored IC2.friendPosts 0 Int64.maxValue = [] ∧
      IC9.exec .stored IC2.friendPosts 0 Int64.maxValue = [] ∧
      IC4.exec IC4.taggedPosts .stored 0 0 106751991168 = [] := by
  refine ⟨?_, ?_, by decide +kernel, by decide +kernel, by decide +kernel⟩
  · rw [closedWindows_iff]
    decide
  · rw [halfOpenWindows_iff]
    decide

end Windows

end LdbcInteractive
