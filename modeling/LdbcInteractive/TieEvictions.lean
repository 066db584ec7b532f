import LdbcInteractive.DatedOrders

/-!
# Bounded selection with the tie test the wrong way round

The comparison puts later dates first and, among equal dates, larger identifiers first.
The admission test of this module agrees with it on dates but admits the smaller
identifier among equal dates. The selection is then right exactly when no tie at the cut
is met after the queue is full, except by elements that a later date throws out again.
-/

namespace DatedOrders

open PriorityQueues PriorityQueue

universe u
variable {α : Type u} {κ ι : Type*} [LinearOrder κ] [LinearOrder ι]

namespace Dated
variable {c : Comparer α} (d : Dated c κ ι)

/-- The test against the top that prefers the smaller identifier among equal dates. -/
def reversed (x worst : α) : Bool :=
  d.date worst < d.date x || (d.date x = d.date worst && decide (d.ident x < d.ident worst))

theorem reversed_of_newer {x worst : α} (h : d.date worst < d.date x) :
    d.reversed x worst = true := by
  simp [reversed, h]

theorem reversed_of_older {x worst : α} (h : d.date x < d.date worst) :
    d.reversed x worst = false := by
  simp [reversed, h.le, h.ne]

theorem reversed_of_tie {x worst : α} (h : d.date x = d.date worst) :
    d.reversed x worst = decide (d.ident x < d.ident worst) := by
  simp [reversed, h]

/-- The test as a chain of two, the way it is written. -/
theorem if_reversed {β : Type*} (x worst : α) (accept keep : β) :
    (if d.date x > d.date worst then accept
      else if d.date x = d.date worst ∧ d.ident x < d.ident worst then accept
      else keep) = if d.reversed x worst then accept else keep := by
  rcases lt_trichotomy (d.date x) (d.date worst) with hlt | heq | hgt
  · simp [d.reversed_of_older hlt, hlt.not_gt, hlt.ne]
  · simp [d.reversed_of_tie heq, heq]
  · simp [d.reversed_of_newer hgt, hgt]

/-- The date of the last place: fewer than `n` elements are newer, `n` are not older. -/
def Cutoff (n : Nat) (xs : List α) (cut : κ) : Prop :=
  xs.countP (fun x => cut < d.date x) < n ∧ n ≤ xs.countP (fun x => cut ≤ d.date x)

/-- What is not older than the cutoff and arrives when `n` such elements are already there. -/
def late (n : Nat) (xs : List α) (cut : κ) : List α :=
  (xs.filter fun x => cut ≤ d.date x).drop n

/-- The late arrivals end with a newer element, and none of those dated at the cutoff has
one of the first `n` places. -/
def Settled (n : Nat) (xs : List α) : Prop :=
  ∀ cut, d.Cutoff n xs cut →
    (∀ x ∈ (d.late n xs cut).getLast?, cut < d.date x) ∧
      ∀ x ∈ d.late n xs cut, d.date x = cut → n ≤ xs.countP (fun y => c.before y x)

theorem exists_cutoff {n : Nat} {xs : List α} (distinct : (xs.map d.ident).Nodup)
    (pos : 0 < n) (enough : n ≤ xs.length) : ∃ cut, d.Cutoff n xs cut := by
  have hlen : (c.firstN n xs).length = n := by
    rw [Comparer.firstN, List.length_take, (c.ranked_perm xs).length_eq, Nat.min_eq_left enough]
  obtain ⟨worst, hworst⟩ : ∃ w, (c.firstN n xs).getLast? = some w := by
    refine Option.ne_none_iff_exists'.mp fun h => ?_
    rw [List.getLast?_eq_none_iff.mp h] at hlen
    exact absurd hlen pos.ne
  obtain ⟨front, hf⟩ := List.getLast?_eq_some_iff.mp hworst
  have hsub : (c.firstN n xs).Subperm xs :=
    (List.take_sublist n _).subperm.trans (c.ranked_perm xs).subperm
  have hmem : worst ∈ c.firstN n xs := by simp [hf]
  refine ⟨d.date worst, ?_, ?_⟩
  · have few := (c.mem_firstN_iff (d.separates distinct) (hsub.subset hmem)).mp hmem
    refine lt_of_le_of_lt (List.countP_mono_left fun x _ hx => ?_) few
    exact (d.before_iff x worst).mpr (Or.inl (by simpa using hx))
  · have ord : (c.firstN n xs).Pairwise c.Le :=
      (c.ranked_pairwise xs).sublist (List.take_sublist _ _)
    have all : ∀ x ∈ c.firstN n xs, decide (d.date worst ≤ d.date x) = true := by
      intro x hx
      rw [hf] at hx ord
      rw [decide_eq_true_eq]
      rcases List.mem_append.mp hx with hx | hx
      · exact d.date_le ((List.pairwise_append.mp ord).2.2 x hx worst List.mem_cons_self)
      · rw [List.mem_singleton.mp hx]
    calc n = (c.firstN n xs).countP (fun x => d.date worst ≤ d.date x) := by
            rw [List.countP_eq_length.mpr all, hlen]
      _ ≤ xs.countP (fun x => d.date worst ≤ d.date x) := hsub.countP_le _

/-! ## Older elements do not matter -/

section Filter
variable {d} {n : Nat} {cut : κ} {q q' : PriorityQueue c} {x : α}

/-- A queue that only holds elements not older than `cut` goes on doing so. -/
theorem offer_filter_recent (hx : cut ≤ d.date x)
    (all : ∀ y ∈ q.items, decide (cut ≤ d.date y) = true) :
    (q.offer n d.reversed x).items.filter (fun y => cut ≤ d.date y) =
      (q.offer n d.reversed x).items := by
  refine List.filter_eq_self.mpr fun y hy => ?_
  have pushed : ∀ {p : PriorityQueue c}, (∀ z ∈ p.items, decide (cut ≤ d.date z) = true) →
      y ∈ (p.push x).items → decide (cut ≤ d.date y) = true := by
    intro p hp hyp
    rw [items_push, (c.place_perm x _).mem_iff, List.mem_cons] at hyp
    rcases hyp with rfl | hyp
    · exact decide_eq_true hx
    · exact hp y hyp
  unfold offer at hy
  split at hy
  · exact pushed all hy
  · split at hy
    · exact all y hy
    · split at hy
      · exact pushed (fun z hz => all z ((List.dropLast_sublist _).subset hz)) hy
      · exact all y hy

/-- An element under an older top takes its place. -/
theorem offer_filter_old_top {front : List α} {worst : α} (hf : q.items = front ++ [worst])
    (full : ¬ q.size < n) (small : q.size ≤ n) (hw : ¬ cut ≤ d.date worst)
    (same : q'.items = q.items.filter fun y => cut ≤ d.date y) :
    (if cut ≤ d.date x then q'.offer n d.reversed x else q').items =
      (q.offer n d.reversed x).items.filter fun y => cut ≤ d.date y := by
  have hfront : q'.items = front.filter fun y => cut ≤ d.date y := by
    simp [same, hf, List.filter_append, hw]
  rw [offer_full full (top_of_items hf)]
  by_cases hx : cut ≤ d.date x
  · have room : q'.size < n := by
      have hpos : q.size = front.length + 1 := by simp [size, hf]
      have hlen : q'.size ≤ front.length := by
        rw [size, hfront]
        exact List.length_filter_le _ _
      omega
    rw [if_pos hx, d.reversed_of_newer ((not_le.mp hw).trans_le hx), if_pos rfl,
      offer_of_lt room, items_push, items_pop_push hf, hfront,
      c.filter_place_of_pos (by simpa using hx) (front_ordered hf)]
  · rw [if_neg hx]
    split
    · rw [items_pop_push hf, c.filter_place_of_neg (by simpa using hx), hfront]
    · exact same

/-- Elements older than `cut` never take the place of one that is not. -/
theorem offer_filter (x : α) (small : q.size ≤ n)
    (same : q'.items = q.items.filter fun y => cut ≤ d.date y) :
    (if cut ≤ d.date x then q'.offer n d.reversed x else q').items =
      (q.offer n d.reversed x).items.filter fun y => cut ≤ d.date y := by
  have recent : (∀ y ∈ q.items, decide (cut ≤ d.date y) = true) → q' = q := by
    intro all
    have items : q'.items = q.items := by rw [same, List.filter_eq_self.mpr all]
    cases q
    cases q'
    simpa using items
  by_cases room : q.size < n
  · rw [offer_of_lt room, items_push]
    by_cases hx : cut ≤ d.date x
    · have room' : q'.size < n := by
        rw [size, same]
        exact (List.length_filter_le _ _).trans_lt room
      rw [if_pos hx, offer_of_lt room', items_push, same,
        c.filter_place_of_pos (by simpa using hx) q.ordered]
    · rw [if_neg hx, same, c.filter_place_of_neg (by simpa using hx)]
  · cases htop : q.top? with
    | none =>
      have hnil : q.items = [] := List.getLast?_eq_none_iff.mp htop
      obtain rfl := recent (by simp [hnil])
      rw [offer_no_room room htop, ite_self]
      exact same
    | some worst =>
      obtain ⟨front, hf⟩ := List.getLast?_eq_some_iff.mp htop
      by_cases hw : cut ≤ d.date worst
      · have all : ∀ y ∈ q.items, decide (cut ≤ d.date y) = true := fun y hy =>
          decide_eq_true (hw.trans (d.date_le (le_top htop hy)))
        obtain rfl := recent all
        by_cases hx : cut ≤ d.date x
        · rw [if_pos hx, offer_filter_recent hx all]
        · rw [if_neg hx, offer_full room htop, d.reversed_of_older ((not_le.mp hx).trans_le hw),
            if_neg (by simp), ← same]
      · exact offer_filter_old_top hf room small hw same

end Filter

theorem foldl_offer_filter {n : Nat} (cut : κ) (xs : List α) :
    ((xs.filter fun y => cut ≤ d.date y).foldl (offer n d.reversed)
        (empty : PriorityQueue c)).items =
      (xs.foldl (offer n d.reversed) (empty : PriorityQueue c)).items.filter
        fun y => cut ≤ d.date y := by
  induction xs using List.reverseRecOn with
  | nil => rfl
  | append_singleton xs x ih =>
    rw [List.foldl_append, List.foldl_cons, List.foldl_nil,
      ← offer_filter x (size_foldl_offer_le d.reversed xs) ih]
    by_cases hx : cut ≤ d.date x <;> simp [hx, List.filter_append]

/-! ## The full queue meets the late arrivals -/

/-- The full queue after the first `n` recent elements `early` and some further ones `late`. -/
structure Holding (n : Nat) (cut : κ) (early late : List α) (q : PriorityQueue c) : Prop where
  full : q.size = n
  nodup : q.items.Nodup
  mem : ∀ x ∈ q.items, x ∈ early ++ late
  recent : ∀ x ∈ early ++ late, cut ≤ d.date x
  newer : ∀ x ∈ early ++ late, cut < d.date x → x ∈ q.items
  lateTie : ∀ x ∈ late, d.date x = cut → x ∈ q.items → q.top? = some x
  earlyKept : ∀ x ∈ early, x ∉ q.items → ∀ y ∈ q.items, y ∈ early → c.before y x = true

section Steps
variable {d} {n : Nat} {cut : κ} {early late : List α} {q : PriorityQueue c}

theorem mem_snoc {x y : α} : y ∈ early ++ (late ++ [x]) ↔ y ∈ early ++ late ∨ y = x := by
  rw [← List.append_assoc, List.mem_append, List.mem_singleton]

theorem ident_ne {x y : α} (distinct : ((early ++ (late ++ [x])).map d.ident).Nodup)
    (hy : y ∈ early ++ late) : d.ident y ≠ d.ident x := by
  rw [← List.append_assoc, List.map_append, List.nodup_append] at distinct
  exact distinct.2.2 _ (List.mem_map_of_mem hy) _ (by simp)

/-- Too few elements are newer than the cutoff for the top to be one of them. -/
theorem Holding.top_tie (h : d.Holding n cut early late q)
    (few : (early ++ late).countP (fun x => cut < d.date x) < n) :
    ∃ front worst, q.items = front ++ [worst] ∧ d.date worst = cut := by
  obtain ⟨front, worst, hf⟩ : ∃ front t, q.items = front ++ [t] :=
    exists_items (h.full ▸ (Nat.zero_le _).trans_lt few)
  refine ⟨front, worst, hf, le_antisymm (le_of_not_gt fun hlt => ?_) ?_⟩
  · have all : ∀ y ∈ q.items, decide (cut < d.date y) = true := fun y hy =>
      decide_eq_true (hlt.trans_le (d.date_le (le_top (top_of_items hf) hy)))
    have many : n ≤ (early ++ late).countP (fun x => cut < d.date x) :=
      calc n = q.items.countP (fun x => cut < d.date x) := by
              rw [List.countP_eq_length.mpr all]
              exact h.full.symm
        _ ≤ _ := (h.nodup.subperm h.mem).countP_le _
    omega
  · exact h.recent worst (h.mem worst (by simp [hf]))

theorem Holding.worst_not_mem (h : d.Holding n cut early late q) {front : List α} {worst : α}
    (hf : q.items = front ++ [worst]) : worst ∉ front := by
  have nodup := h.nodup
  rw [hf, List.nodup_append] at nodup
  exact fun hw => nodup.2.2 worst hw worst List.mem_cons_self rfl

/-- A late tie in the queue is its top. -/
theorem Holding.late_tie_not_mem (h : d.Holding n cut early late q) {front : List α} {worst : α}
    (hf : q.items = front ++ [worst]) {y : α} (hy : y ∈ late) (tie : d.date y = cut) :
    y ∉ front := by
  intro hyf
  have htop := h.lateTie y hy tie (by simp [hf, hyf])
  rw [top_of_items hf, Option.some_inj] at htop
  exact h.worst_not_mem hf (htop ▸ hyf)

/-- The top gives way to a newer element, or to a tie that goes behind everything else. -/
theorem Holding.evict (h : d.Holding n cut early late q) {front : List α} {worst x : α}
    (distinct : ((early ++ (late ++ [x])).map d.ident).Nodup)
    (hf : q.items = front ++ [worst]) (hw : d.date worst = cut) (hx : cut ≤ d.date x)
    (tie : d.date x = cut → c.place x front = front ++ [x]) :
    d.Holding n cut early (late ++ [x]) (q.pop.push x) := by
  have hfresh : x ∉ early ++ late := fun hmem => ident_ne distinct hmem rfl
  have hfront : ∀ y ∈ front, y ∈ q.items := fun y hy => by simp [hf, hy]
  have nodup := h.nodup
  rw [hf, List.nodup_append] at nodup
  have hworst : worst ∉ front := h.worst_not_mem hf
  have hstay : ∀ y ∈ q.items, y ≠ worst → y ∈ (q.pop.push x).items := by
    intro y hy hne
    rw [hf, List.mem_append, List.mem_singleton] at hy
    exact (mem_pop_push hf).mpr (Or.inr (hy.resolve_right hne))
  refine ⟨(size_pop_push hf x).trans h.full, ?_, ?_, ?_, ?_, ?_, ?_⟩
  · rw [items_pop_push hf, (c.place_perm x front).nodup_iff, List.nodup_cons]
    exact ⟨fun hxf => hfresh (h.mem x (hfront x hxf)), nodup.1⟩
  · intro y hy
    exact mem_snoc.mpr
      (((mem_pop_push hf).mp hy).symm.imp_left fun hyf => h.mem y (hfront y hyf))
  · intro y hy
    rcases mem_snoc.mp hy with hy | rfl
    · exact h.recent y hy
    · exact hx
  · intro y hy hlt
    rcases mem_snoc.mp hy with hy | rfl
    · exact hstay y (h.newer y hy hlt) (fun hyw => hlt.ne' (hyw ▸ hw))
    · exact (mem_pop_push hf).mpr (Or.inl rfl)
  · intro y hy htie hyq
    rcases (mem_pop_push hf).mp hyq with rfl | hyf
    · rw [top?, items_pop_push hf, tie htie, List.getLast?_concat]
    · have hlate : y ∈ late := by
        refine (List.mem_append.mp hy).resolve_right fun hyx => hfresh ?_
        rw [← List.mem_singleton.mp hyx]
        exact h.mem y (hfront y hyf)
      exact absurd hyf (h.late_tie_not_mem hf hlate htie)
  · intro a ha hout y hy hye
    have hyf : y ∈ front := ((mem_pop_push hf).mp hy).resolve_left fun hyx =>
      hfresh (List.mem_append_left _ (hyx ▸ hye))
    by_cases haq : a ∈ q.items
    · obtain rfl : a = worst := by
        by_contra hne
        exact hout (hstay a haq hne)
      exact d.before_of_le distinct (List.mem_append_left _ hye) (List.mem_append_left _ ha)
        (front_le hf hyf) (fun hya => hworst (hya ▸ hyf))
    · exact h.earlyKept a ha haq y (hfront y hyf) hye

theorem Holding.offer_full_eq (h : d.Holding n cut early late q) {front : List α} {worst : α}
    (hf : q.items = front ++ [worst]) (x : α) :
    q.offer n d.reversed x = if d.reversed x worst then q.pop.push x else q := by
  refine offer_full ?_ (top_of_items hf) x
  rw [h.full]
  exact lt_irrefl n

theorem Holding.offer_newer (h : d.Holding n cut early late q) {x : α}
    (distinct : ((early ++ (late ++ [x])).map d.ident).Nodup)
    (few : (early ++ late).countP (fun x => cut < d.date x) < n) (hx : cut < d.date x) :
    d.Holding n cut early (late ++ [x]) (q.offer n d.reversed x) ∧
      ∀ y ∈ late ++ [x], d.date y = cut → y ∉ (q.offer n d.reversed x).items := by
  obtain ⟨front, worst, hf, hw⟩ := h.top_tie few
  rw [h.offer_full_eq hf, d.reversed_of_newer (hw ▸ hx), if_pos rfl]
  refine ⟨h.evict distinct hf hw hx.le (fun htie => absurd htie hx.ne'), fun y hy htie hyq => ?_⟩
  have hyx : y ≠ x := fun hyx => hx.ne' (hyx ▸ htie)
  have hyf : y ∈ front := ((mem_pop_push hf).mp hyq).resolve_left hyx
  have hlate : y ∈ late := (List.mem_append.mp hy).resolve_right (by simpa using hyx)
  exact h.late_tie_not_mem hf hlate htie hyf

/-- A tie leaves an element outside that stands before one inside. -/
theorem Holding.offer_tie (h : d.Holding n cut early late q) {x : α}
    (distinct : ((early ++ (late ++ [x])).map d.ident).Nodup)
    (few : (early ++ late).countP (fun x => cut < d.date x) < n) (hx : d.date x = cut) :
    d.Holding n cut early (late ++ [x]) (q.offer n d.reversed x) ∧
      ∃ a ∈ early ++ (late ++ [x]), a ∉ (q.offer n d.reversed x).items ∧
        ∃ b ∈ (q.offer n d.reversed x).items, c.before a b = true := by
  obtain ⟨front, worst, hf, hw⟩ := h.top_tie few
  have tie : d.date x = d.date worst := hx.trans hw.symm
  have hworst : worst ∈ early ++ late := h.mem worst (by simp [hf])
  have hfresh : x ∉ early ++ late := fun hmem => ident_ne distinct hmem rfl
  rw [h.offer_full_eq hf, d.reversed_of_tie tie]
  by_cases hlt : d.ident x < d.ident worst
  · have hbefore : c.before worst x = true := (d.before_iff worst x).mpr (Or.inr ⟨tie.symm, hlt⟩)
    have hplace : c.place x front = front ++ [x] := by
      have behind : ∀ y ∈ front, c.before x y = false := fun y hy =>
        c.neg_trans x worst y (c.asymm worst x hbefore) (front_le hf hy)
      simpa [c.place_nil] using c.place_append_of_not_before behind []
    have hitems : (q.pop.push x).items = front ++ [x] := (items_pop_push hf x).trans hplace
    rw [decide_eq_true hlt, if_pos rfl]
    refine ⟨h.evict distinct hf hw hx.ge (fun _ => hplace), worst, mem_snoc.mpr (Or.inl hworst),
      ?_, x, ?_, hbefore⟩
    · rw [hitems, List.mem_append, List.mem_singleton, not_or]
      exact ⟨h.worst_not_mem hf, fun hwx => hfresh (hwx ▸ hworst)⟩
    · rw [hitems]
      exact List.mem_append_right _ List.mem_cons_self
  · have hbefore : c.before x worst = true := (d.before_iff x worst).mpr
      (Or.inr ⟨tie, lt_of_le_of_ne (not_lt.mp hlt) (ident_ne distinct hworst)⟩)
    have hxq : x ∉ q.items := fun hxq => hfresh (h.mem x hxq)
    rw [decide_eq_false hlt, if_neg (by simp)]
    refine ⟨⟨h.full, h.nodup, ?_, ?_, ?_, ?_, h.earlyKept⟩, x, by simp, hxq, worst, ?_, hbefore⟩
    · exact fun y hy => mem_snoc.mpr (Or.inl (h.mem y hy))
    · intro y hy
      rcases mem_snoc.mp hy with hy | rfl
      · exact h.recent y hy
      · exact hx.ge
    · intro y hy hnew
      rcases mem_snoc.mp hy with hy | rfl
      · exact h.newer y hy hnew
      · exact absurd hx hnew.ne'
    · intro y hy htie hyq
      rcases List.mem_append.mp hy with hy | hy
      · exact h.lateTie y hy htie hyq
      · exact absurd (List.mem_singleton.mp hy ▸ hyq) hxq
    · simp [hf]

/-- Every pass over the late arrivals keeps the invariant. -/
theorem Holding.foldl (h : d.Holding n cut early [] q)
    (distinct : ((early ++ late).map d.ident).Nodup)
    (recent : ∀ x ∈ late, cut ≤ d.date x)
    (few : (early ++ late).countP (fun x => cut < d.date x) < n) :
    d.Holding n cut early late (late.foldl (offer n d.reversed) q) ∧
      (∀ x ∈ late.getLast?, cut < d.date x →
        ∀ y ∈ late, d.date y = cut → y ∉ (late.foldl (offer n d.reversed) q).items) ∧
      ∀ x ∈ late.getLast?, d.date x = cut →
        ∃ a ∈ early ++ late, a ∉ (late.foldl (offer n d.reversed) q).items ∧
          ∃ b ∈ (late.foldl (offer n d.reversed) q).items, c.before a b = true := by
  induction late using List.reverseRecOn with
  | nil => exact ⟨h, by simp, by simp⟩
  | append_singleton late x ih =>
    have hdistinct : ((early ++ late).map d.ident).Nodup := by
      rw [← List.append_assoc, List.map_append] at distinct
      exact (List.nodup_append.mp distinct).1
    have hfew : (early ++ late).countP (fun x => cut < d.date x) < n := by
      rw [← List.append_assoc, List.countP_append] at few
      exact lt_of_le_of_lt (Nat.le_add_right _ _) few
    have held := (ih hdistinct (fun y hy => recent y (List.mem_append_left _ hy)) hfew).1
    have hx : cut ≤ d.date x := recent x (by simp)
    rw [List.foldl_append, List.foldl_cons, List.foldl_nil, List.getLast?_concat]
    rcases hx.lt_or_eq with hlt | htie
    · obtain ⟨held', fresh⟩ := held.offer_newer distinct hfew hlt
      refine ⟨held', fun _ _ _ => fresh, ?_⟩
      rintro _ ⟨⟩ htie
      exact absurd htie hlt.ne'
    · obtain ⟨held', overlooked⟩ := held.offer_tie distinct hfew htie.symm
      refine ⟨held', ?_, fun _ _ _ => overlooked⟩
      rintro _ ⟨⟩ hlt
      exact absurd htie hlt.ne

end Steps

/-- The queue that the first `n` recent elements fill. -/
theorem holding_ranked {n : Nat} {cut : κ} {early : List α} (length : early.length = n)
    (distinct : (early.map d.ident).Nodup) (recent : ∀ x ∈ early, cut ≤ d.date x)
    {q : PriorityQueue c} (items : q.items = c.ranked early) : d.Holding n cut early [] q := by
  have hmem : ∀ x, x ∈ q.items ↔ x ∈ early ++ [] := by
    intro x
    rw [items, (c.ranked_perm early).mem_iff, List.append_nil]
  refine ⟨?_, ?_, fun x hx => (hmem x).mp hx, ?_, fun x hx _ => (hmem x).mpr hx, by simp, ?_⟩
  · rw [size, items, (c.ranked_perm early).length_eq, length]
  · rw [items, (c.ranked_perm early).nodup_iff]
    exact List.Nodup.of_map _ distinct
  · simpa using recent
  · intro x hx hout
    exact absurd ((hmem x).mpr (by simpa using hx)) hout

/-! ## When the selection is right -/

section Selection
variable {d} {n : Nat} {cut : κ} {xs : List α}

theorem exists_last {late : List α} {x : α} (hx : x ∈ late) : ∃ y, y ∈ late.getLast? :=
  ⟨_, List.getLast?_eq_getLast_of_ne_nil (List.ne_nil_of_mem hx)⟩

theorem countP_le_of_before {a b : α} (h : c.before a b = true) :
    xs.countP (fun y => c.before y a) ≤ xs.countP (fun y => c.before y b) := by
  exact List.countP_mono_left fun y _ hya => c.before_trans hya h

section Final
variable {early late : List α} {q : PriorityQueue c}

/-- A queue that holds the selection took in no tie at the end, and no tie is selected. -/
theorem Holding.settled_of_selects (h : d.Holding n cut early late q)
    (distinct : (xs.map d.ident).Nodup)
    (hmem : ∀ x, x ∈ early ++ late ↔ x ∈ xs ∧ cut ≤ d.date x)
    (afterNewer : ∀ x ∈ late.getLast?, cut < d.date x →
      ∀ y ∈ late, d.date y = cut → y ∉ q.items)
    (afterTie : ∀ x ∈ late.getLast?, d.date x = cut →
      ∃ a ∈ early ++ late, a ∉ q.items ∧ ∃ b ∈ q.items, c.before a b = true)
    (hq : q.items = c.firstN n xs) :
    (∀ x ∈ late.getLast?, cut < d.date x) ∧
      ∀ x ∈ late, d.date x = cut → n ≤ xs.countP (fun y => c.before y x) := by
  have selected : ∀ x ∈ xs, x ∈ q.items ↔ xs.countP (fun y => c.before y x) < n := by
    intro x hx
    rw [hq, c.mem_firstN_iff (d.separates distinct) hx]
  have newest : ∀ x ∈ late.getLast?, cut < d.date x := by
    intro x hx
    have hxl : x ∈ early ++ late := List.mem_append_right _ (List.mem_of_getLast? hx)
    refine (h.recent x hxl).lt_of_ne fun htie => ?_
    obtain ⟨a, ha, haq, b, hb, hab⟩ := afterTie x hx htie.symm
    have hbcount := (selected b ((hmem b).mp (h.mem b hb)).1).mp hb
    have hacount := lt_of_le_of_lt (countP_le_of_before hab) hbcount
    exact haq ((selected a ((hmem a).mp ha).1).mpr hacount)
  refine ⟨newest, fun x hx htie => ?_⟩
  obtain ⟨y, hy⟩ := exists_last hx
  have hout := afterNewer y hy (newest y hy) x hx htie
  have hxs : x ∈ xs := ((hmem x).mp (List.mem_append_right _ hx)).1
  exact not_lt.mp fun hcount => hout ((selected x hxs).mpr hcount)

/-- Whatever is missing from the queue has all of the queue before it, unless it is a late
tie, and late ties are not selected. -/
theorem Holding.selects_of_settled (h : d.Holding n cut early late q)
    (distinct : (xs.map d.ident).Nodup)
    (enough : n ≤ xs.countP (fun x => cut ≤ d.date x))
    (hmem : ∀ x, x ∈ early ++ late ↔ x ∈ xs ∧ cut ≤ d.date x)
    (afterNewer : ∀ x ∈ late.getLast?, cut < d.date x →
      ∀ y ∈ late, d.date y = cut → y ∉ q.items)
    (newest : ∀ x ∈ late.getLast?, cut < d.date x)
    (passed : ∀ x ∈ late, d.date x = cut → n ≤ xs.countP (fun y => c.before y x)) :
    q.items = c.firstN n xs := by
  have sep := d.separates distinct
  have nodup : xs.Nodup := List.Nodup.of_map _ distinct
  refine c.eq_firstN sep nodup (enough.trans List.countP_le_length) q.ordered h.full
    (fun x hx => ((hmem x).mp (h.mem x hx)).1) fun u hu => ?_
  have hux : u ∈ xs := (c.ranked_perm xs).mem_iff.mp (List.mem_of_mem_take hu)
  rw [c.mem_firstN_iff sep hux] at hu
  by_contra huq
  -- All `n` elements of the queue would stand before `u`.
  have ahead : ∀ y ∈ q.items, c.before y u = true := by
    intro y hy
    have hycut := h.recent y (h.mem y hy)
    rcases lt_or_ge (d.date u) (d.date y) with hlt | hle
    · exact (d.before_iff y u).mpr (Or.inl hlt)
    · have hul : u ∈ early ++ late := (hmem u).mpr ⟨hux, hycut.trans hle⟩
      have hutie : d.date u = cut := by
        refine le_antisymm (le_of_not_gt fun hnew => huq (h.newer u hul hnew)) ?_
        exact hycut.trans hle
      have hytie : d.date y = cut := le_antisymm (hle.trans hutie.le) hycut
      rcases List.mem_append.mp hul with hue | hul
      · refine h.earlyKept u hue huq y hy ?_
        refine (List.mem_append.mp (h.mem y hy)).resolve_right fun hyl => ?_
        obtain ⟨z, hz⟩ := exists_last hyl
        exact afterNewer z hz (newest z hz) y hyl hytie hy
      · exact absurd hu (not_lt.mpr (passed u hul hutie))
  have many : n ≤ xs.countP (fun y => c.before y u) :=
    calc n = q.items.countP (fun y => c.before y u) := by
            rw [List.countP_eq_length.mpr ahead]
            exact h.full.symm
      _ ≤ _ := (h.nodup.subperm fun x hx => ((hmem x).mp (h.mem x hx)).1).countP_le _
  exact absurd hu (not_lt.mpr many)

end Final

/-- With the cutoff at hand: the queue holds the selection exactly if the late arrivals end
with a newer element and bring no selected tie. -/
theorem selects_iff_of_cutoff (distinct : (xs.map d.ident).Nodup) (hcut : d.Cutoff n xs cut) :
    (xs.foldl (offer n d.reversed) (empty : PriorityQueue c)).items = c.firstN n xs ↔
      (∀ x ∈ (d.late n xs cut).getLast?, cut < d.date x) ∧
        ∀ x ∈ d.late n xs cut, d.date x = cut → n ≤ xs.countP (fun y => c.before y x) := by
  obtain ⟨few, many⟩ := hcut
  let ys := xs.filter fun x => cut ≤ d.date x
  let early := ys.take n
  have hys : ys = early ++ d.late n xs cut := (List.take_append_drop n ys).symm
  have hlenYs : n ≤ ys.length := by rwa [← List.countP_eq_length_filter]
  have hlen : early.length = n := by rw [List.length_take, Nat.min_eq_left hlenYs]
  have hmem : ∀ x, x ∈ early ++ d.late n xs cut ↔ x ∈ xs ∧ cut ≤ d.date x := by
    intro x
    rw [← hys, List.mem_filter, decide_eq_true_eq]
  have hdistinct : ((early ++ d.late n xs cut).map d.ident).Nodup := by
    rw [← hys]
    exact distinct.sublist (List.filter_sublist.map _)
  have hfew : (early ++ d.late n xs cut).countP (fun x => cut < d.date x) < n := by
    rw [← hys]
    exact lt_of_le_of_lt (List.filter_sublist.countP_le) few
  let filled := early.foldl (offer n d.reversed) (empty : PriorityQueue c)
  have start : d.Holding n cut early [] filled := by
    refine d.holding_ranked hlen ?_ ?_ (foldl_offer_of_length_le _ hlen.le)
    · rw [List.map_append] at hdistinct
      exact (List.nodup_append.mp hdistinct).1
    · exact fun x hx => ((hmem x).mp (List.mem_append_left _ hx)).2
  obtain ⟨held, afterNewer, afterTie⟩ := start.foldl hdistinct
    (fun x hx => ((hmem x).mp (List.mem_append_right _ hx)).2) hfew
  have hrun : (xs.foldl (offer n d.reversed) (empty : PriorityQueue c)).items =
      ((d.late n xs cut).foldl (offer n d.reversed) filled).items := by
    have hfilter := d.foldl_offer_filter (n := n) cut xs
    have hsplit : (xs.filter fun y => cut ≤ d.date y) = early ++ d.late n xs cut := hys
    rw [hsplit, List.foldl_append] at hfilter
    rw [hfilter, List.Sublist.eq_of_length_le List.filter_sublist]
    rw [← hfilter]
    exact (size_foldl_offer_le d.reversed xs).trans held.full.ge
  rw [hrun]
  constructor
  · exact held.settled_of_selects distinct hmem afterNewer afterTie
  · rintro ⟨newest, passed⟩
    exact held.selects_of_settled distinct many hmem afterNewer newest passed

/-- The selection with the reversed tie test is right exactly if the ties are settled. -/
theorem foldl_reversed_iff (pos : 0 < n) (distinct : (xs.map d.ident).Nodup) :
    (xs.foldl (offer n d.reversed) (empty : PriorityQueue c)).items = c.firstN n xs ↔
      d.Settled n xs := by
  constructor
  · exact fun hq cut hcut => (selects_iff_of_cutoff distinct hcut).mp hq
  · intro settled
    rcases Nat.lt_or_ge xs.length n with hlt | hge
    · rw [foldl_offer_of_length_le _ hlt.le, c.firstN_of_length_le hlt.le]
    · obtain ⟨cut, hcut⟩ := d.exists_cutoff distinct pos hge
      exact (selects_iff_of_cutoff distinct hcut).mpr (settled cut hcut)

theorem Cutoff.perm {ys : List α} (h : d.Cutoff n xs cut) (perm : ys.Perm xs) :
    d.Cutoff n ys cut := by
  rw [Cutoff, perm.countP_eq, perm.countP_eq]
  exact h

/-- No order of arrival spoils the selection exactly if the dates at the cut have room. -/
theorem every_order_iff (pos : 0 < n) (distinct : (xs.map d.ident).Nodup) :
    (∀ ys : List α, ys.Perm xs →
      (ys.foldl (offer n d.reversed) (empty : PriorityQueue c)).items = c.firstN n xs) ↔
      ∀ cut, d.Cutoff n xs cut → xs.countP (fun x => cut ≤ d.date x) = n := by
  have settled_iff : ∀ ys, ys.Perm xs →
      ((ys.foldl (offer n d.reversed) (empty : PriorityQueue c)).items = c.firstN n xs ↔
        d.Settled n ys) := by
    intro ys perm
    rw [← c.firstN_congr (d.separates ((perm.map d.ident).nodup_iff.mpr distinct)) perm n]
    exact foldl_reversed_iff pos ((perm.map d.ident).nodup_iff.mpr distinct)
  constructor
  · intro right cut hcut
    refine le_antisymm (not_lt.mp fun crowded => ?_) hcut.2
    -- One of the dates at the cut arrives last.
    obtain ⟨x, hx, hold, hnew⟩ : ∃ x ∈ xs, cut ≤ d.date x ∧ ¬ cut < d.date x := by
      by_contra none
      push Not at none
      refine absurd (hcut.2.trans (List.countP_mono_left fun x hx h => ?_)) (not_le.mpr hcut.1)
      simpa using none x hx (by simpa using h)
    obtain ⟨front, back, rfl⟩ := List.append_of_mem hx
    have perm : (front ++ back ++ [x]).Perm (front ++ x :: back) := by
      rw [List.append_assoc]
      exact List.Perm.append_left front (List.perm_append_singleton x back)
    have hlate : d.late n (front ++ back ++ [x]) cut =
        ((front ++ back).filter fun x => cut ≤ d.date x).drop n ++ [x] := by
      rw [← perm.countP_eq, List.countP_append, List.countP_singleton,
        List.countP_eq_length_filter] at crowded
      simp only [hold, decide_true, if_true] at crowded
      rw [late, List.filter_append, List.drop_append_of_le_length (Nat.le_of_lt_succ crowded)]
      simp [hold]
    have settled := (settled_iff _ perm).mp (right _ perm) cut (hcut.perm perm)
    rw [hlate, List.getLast?_concat] at settled
    exact hnew (settled.1 x rfl)
  · intro room ys perm
    refine (settled_iff ys perm).mpr fun cut hcut => ?_
    have hlen := room cut (hcut.perm perm.symm)
    have hlate : d.late n ys cut = [] := by
      rw [← perm.countP_eq, List.countP_eq_length_filter] at hlen
      exact List.drop_eq_nil_of_le hlen.le
    rw [hlate]
    exact ⟨by simp, by simp⟩

end Selection

end Dated

end DatedOrders
