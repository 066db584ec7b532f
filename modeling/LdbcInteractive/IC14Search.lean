import LdbcInteractive.IC14

/-!
# IC14: the layered search

What one call of `bfs_layer` adds, whatever the depth label, and the ball of
persons that one side of the search has labelled. A label is faithful as long as
the 8-bit counter has not passed 127. The layers themselves stay right up to the
label 254, and the label 255 is the mark of an unvisited person.
-/

namespace LdbcInteractive

open EdgeTables FirstVisits GraphDistance Loops

namespace IC14

section Int8Labels

theorem toInt_ofNat_eq_bmod (k : Nat) : (Int8.ofNat k).toInt = (k : Int).bmod 256 :=
  Int8.toInt_ofNat'

theorem ofNat_ne_blank {k : Nat} (h : k < 255) : Int8.ofNat k ≠ -1 := by
  intro hk
  have hlabel := congrArg Int8.toInt hk
  rw [toInt_ofNat_eq_bmod, show (-1 : Int8).toInt = -1 from rfl, Int.bmod_def] at hlabel
  split at hlabel <;> omega

theorem toInt_ofNat_of_le {k : Nat} (h : k ≤ 127) : (Int8.ofNat k).toInt = k :=
  Int8.toInt_ofNat_of_lt (by omega)

theorem ofNat_succ (k : Nat) : Int8.ofNat k + 1 = Int8.ofNat (k + 1) :=
  (Int8.ofNat_add k 1).symm

end Int8Labels

section Layers
variable {V : Type} [DecidableEq V]

/-- The edge ends looked at while a queue is expanded, in order. -/
def ends (knows : EdgeTable V V Unit) (q : List V) : List V :=
  q.flatMap (fun x => knows.outgoing x ++ knows.incoming x)

theorem mem_ends {knows : EdgeTable V V Unit} {q : List V} {v : V} :
    v ∈ ends knows q ↔ ∃ x ∈ q, Joined knows x v := by
  simp [ends, Joined]

theorem bfsLayer_eq (knows : EdgeTable V V Unit) (depth : Int8) (curr next : List V)
    (dist0 dist1 : V → Int8) (meetPoints : List V) :
    bfsLayer knows depth curr next dist0 dist1 meetPoints =
      (ends knows curr).foldl (discover depth dist1) ⟨dist0, next, meetPoints⟩ := by
  simp only [bfsLayer, ends, List.foldl_flatMap, List.foldl_append]

/-- The persons a layer reaches for the first time. -/
def newcomers (dist0 : V → Int8) (vs : List V) : List V :=
  fresh (fun v => decide (dist0 v ≠ -1)) vs

theorem mem_newcomers {dist0 : V → Int8} {vs : List V} {v : V} :
    v ∈ newcomers dist0 vs ↔ dist0 v = -1 ∧ v ∈ vs := by
  simp [newcomers, mem_fresh]

/-- What a newcomer adds to the next queue and to the meeting points. -/
def enqueue (dist1 : V → Int8) (st : List V × List V) (v : V) : List V × List V :=
  (st.1 ++ [v], if dist1 v ≠ -1 then st.2 ++ [v] else st.2)

omit [DecidableEq V] in
theorem foldl_enqueue (dist1 : V → Int8) (vs : List V) (st : List V × List V) :
    vs.foldl (enqueue dist1) st =
      (st.1 ++ vs, st.2 ++ vs.filter (fun v => dist1 v ≠ -1)) := by
  induction vs generalizing st with
  | nil => simp
  | cons v rest ih =>
    rw [List.foldl_cons, ih, enqueue]
    by_cases hv : dist1 v = -1 <;> simp [hv]

/-- With a depth other than -1, `discover` is a scan that acts at first visits. -/
theorem foldl_discover {depth : Int8} (labelled : depth ≠ -1) (dist1 : V → Int8)
    (vs : List V) (st : LayerState V) :
    let out := vs.foldl (visitFirst (labels (-1) depth labelled) (enqueue dist1))
      (st.dist0, (st.next, st.meetPoints))
    vs.foldl (discover depth dist1) st = ⟨out.1, out.2.1, out.2.2⟩ := by
  induction vs generalizing st with
  | nil => rfl
  | cons v rest ih =>
    simp only [List.foldl_cons]
    rw [ih]
    by_cases hv : st.dist0 v = -1
    · simp [discover, visitFirst, labels, enqueue, hv]
    · simp [discover, visitFirst, labels, hv]

theorem discover_layer {depth : Int8} (labelled : depth ≠ -1) (dist1 : V → Int8)
    (vs : List V) (st : LayerState V) :
    vs.foldl (discover depth dist1) st =
      { dist0 := fun v => if st.dist0 v = -1 ∧ v ∈ vs then depth else st.dist0 v
        next := st.next ++ newcomers st.dist0 vs
        meetPoints := st.meetPoints ++
          (newcomers st.dist0 vs).filter (fun v => dist1 v ≠ -1) } := by
  have hstate := visitFirst_foldl_state (labels (-1) depth labelled) (enqueue dist1)
    (st.dist0, (st.next, st.meetPoints)) vs
  rw [foldl_enqueue] at hstate
  rw [foldl_discover labelled, hstate]
  congr 1
  funext v
  exact labels_foldl labelled _ _ vs v

/-- With the depth -1 nobody is labelled, and every unvisited end is queued each time. -/
theorem discover_blank (dist1 : V → Int8) (vs : List V) (st : LayerState V) :
    vs.foldl (discover (-1) dist1) st =
      { dist0 := st.dist0
        next := st.next ++ vs.filter (fun v => st.dist0 v = -1)
        meetPoints := st.meetPoints ++
          vs.filter (fun v => st.dist0 v = -1 ∧ dist1 v ≠ -1) } := by
  induction vs generalizing st with
  | nil => simp
  | cons v rest ih =>
    rw [List.foldl_cons, ih, discover]
    by_cases hv : st.dist0 v = -1
    · have same : Function.update st.dist0 v (-1) = st.dist0 := by
        rw [← hv, Function.update_eq_self]
      by_cases hmet : dist1 v = -1 <;> simp [hv, hmet, same]
    · simp [hv]

/-- One side of the search around `c` after `r` layers. -/
structure Grown (knows : EdgeTable V V Unit) (c : V) (r : ℕ) (side : Side V) : Prop where
  depth : side.depth = Int8.ofNat r
  inside : ∀ v k, k ≤ r → Layer (undirected knows) c k v → side.dist v = Int8.ofNat k
  outside : ∀ v, ¬ Ball (undirected knows) c r v → side.dist v = -1
  queue : ∀ v, v ∈ side.queue ↔ Layer (undirected knows) c r v
  nodup : side.queue.Nodup

theorem startSide_grown (knows : EdgeTable V V Unit) (c : V) :
    Grown knows c 0 (startSide c) := by
  refine ⟨rfl, ?_, ?_, ?_, List.nodup_singleton c⟩
  · intro v k hk hv
    obtain rfl : k = 0 := by omega
    rw [layer_zero_iff.mp hv]
    simp [startSide]
  · intro v hv
    rw [ball_zero_iff] at hv
    simp [startSide, hv]
  · intro v
    rw [layer_zero_iff]
    simp [startSide]

section Growth
variable {knows : EdgeTable V V Unit} {c c' : V} {r r' d : ℕ} {own other : Side V}

theorem Grown.blank_iff (grown : Grown knows c r own) (hr : r < 255) (v : V) :
    own.dist v = -1 ↔ ¬ Ball (undirected knows) c r v := by
  constructor
  · intro hblank hball
    obtain ⟨k, hk, hv⟩ := hball.layer
    exact ofNat_ne_blank (by omega) ((grown.inside v k hk hv).symm.trans hblank)
  · exact grown.outside v

theorem Grown.mem_newcomers (grown : Grown knows c r own) (hr : r < 255) (v : V) :
    v ∈ newcomers own.dist (ends knows own.queue) ↔ Layer (undirected knows) c (r + 1) v := by
  rw [IC14.mem_newcomers, grown.blank_iff hr, layer_succ_joined, mem_ends]
  simp only [grown.queue]

theorem expand_eq (labelled : own.depth + 1 ≠ -1) (meetPoints : List V) :
    expand knows own other meetPoints =
      (⟨newcomers own.dist (ends knows own.queue),
        fun v => if own.dist v = -1 ∧ v ∈ ends knows own.queue then own.depth + 1
          else own.dist v, own.depth + 1⟩,
        meetPoints ++ (newcomers own.dist (ends knows own.queue)).filter
          (fun v => other.dist v ≠ -1)) := by
  simp only [expand, bfsLayer_eq, discover_layer labelled, List.nil_append]

theorem expand_blank (blank : own.depth + 1 = -1) (meetPoints : List V) :
    expand knows own other meetPoints =
      (⟨(ends knows own.queue).filter (fun v => own.dist v = -1), own.dist, -1⟩,
        meetPoints ++ (ends knows own.queue).filter
          (fun v => own.dist v = -1 ∧ other.dist v ≠ -1)) := by
  simp only [expand, bfsLayer_eq, blank, discover_blank, List.nil_append]

theorem Grown.labelled (grown : Grown knows c r own) (hr : r + 1 < 255) :
    own.depth + 1 ≠ -1 := by
  rw [grown.depth, ofNat_succ]
  exact ofNat_ne_blank hr

/-- The ball grows by one layer, with that layer in the queue. -/
theorem Grown.expand (grown : Grown knows c r own) (hr : r + 1 < 255) (other : Side V)
    (meetPoints : List V) :
    Grown knows c (r + 1) (expand knows own other meetPoints).1 := by
  rw [expand_eq (grown.labelled hr)]
  have new : ∀ v, own.dist v = -1 ∧ v ∈ ends knows own.queue ↔
      Layer (undirected knows) c (r + 1) v := by
    intro v
    rw [← IC14.mem_newcomers]
    exact grown.mem_newcomers (by omega) v
  refine ⟨?_, ?_, ?_, ?_, fresh_nodup _ _⟩
  · rw [grown.depth, ofNat_succ]
  · intro v k hk hv
    by_cases hkr : k = r + 1
    · subst hkr
      simp only [(new v).mpr hv, and_self, if_true]
      rw [grown.depth, ofNat_succ]
    · have old : ¬ (own.dist v = -1 ∧ v ∈ ends knows own.queue) :=
        fun h => hkr (hv.unique ((new v).mp h))
      simp only [old, if_false]
      exact grown.inside v k (by omega) hv
  · intro v hv
    rw [ball_succ_iff, not_or] at hv
    simp only [(new v).not.mpr hv.2, if_false]
    exact grown.outside v hv.1
  · exact grown.mem_newcomers (by omega)

theorem Grown.mem_meetPoints (grown : Grown knows c r own) (hr : r + 1 < 255)
    (far : Grown knows c' r' other) (hr' : r' < 255) (v : V) :
    v ∈ (IC14.expand knows own other []).2 ↔
      Layer (undirected knows) c (r + 1) v ∧ Ball (undirected knows) c' r' v := by
  rw [expand_eq (grown.labelled hr), List.nil_append, List.mem_filter,
    grown.mem_newcomers (by omega)]
  simp [far.blank_iff hr']

/-- The two balls meet when the radii add up to the distance, and then in one layer of
the geodesics. -/
theorem Grown.mem_meetPoints_of_gap (grown : Grown knows c r own)
    (far : Grown knows c' r' other) (hd : Layer (undirected knows) c d c')
    (gap : r + r' < d) (fits : d ≤ 127) (v : V) :
    v ∈ (IC14.expand knows own other []).2 ↔
      r + 1 + r' = d ∧ Layer (undirected knows) c (r + 1) v ∧
        Layer (undirected knows) c' r' v := by
  rw [grown.mem_meetPoints (by omega) far (by omega)]
  constructor
  · rintro ⟨hv, hball⟩
    obtain ⟨j, hj, hv'⟩ := hball.layer
    have := hv.triangle hv'.symm hd
    obtain rfl : j = r' := by omega
    exact ⟨by omega, hv, hv'⟩
  · rintro ⟨_, hv, hv'⟩
    exact ⟨hv, hv'.ball le_rfl⟩

theorem Grown.meetPoints_nil_iff (grown : Grown knows c r own)
    (far : Grown knows c' r' other) (hd : Layer (undirected knows) c d c')
    (gap : r + r' < d) (fits : d ≤ 127) :
    (IC14.expand knows own other []).2 = [] ↔ r + 1 + r' < d := by
  rw [List.eq_nil_iff_forall_not_mem]
  simp only [grown.mem_meetPoints_of_gap far hd gap fits]
  constructor
  · intro none
    by_contra hfull
    have hsum : r + 1 + r' = d := by omega
    obtain ⟨m, hm, hm'⟩ := exists_layer_between (hsum ▸ hd)
    exact none m ⟨hsum, hm, hm'.symm⟩
  · rintro hlt v ⟨hsum, _⟩
    omega

theorem Grown.queue_ne_nil (grown : Grown knows c r own)
    (hd : Layer (undirected knows) c d c') (hr : r ≤ d) : own.queue ≠ [] := by
  obtain ⟨m, hm, _⟩ := exists_layer_between (i := r) (j := d - r)
    (by rwa [show r + (d - r) = d by omega])
  exact List.ne_nil_of_mem ((grown.queue m).mpr hm)

end Growth

/-- The side whose queue is not longer is expanded, the source side when they tie. -/
def fromSrc (st : SearchState V) : Prop :=
  st.src.queue ≠ [] ∧ st.src.queue.length ≤ st.dst.queue.length

instance (st : SearchState V) : Decidable (fromSrc st) :=
  inferInstanceAs (Decidable (st.src.queue ≠ [] ∧ _))

/-- The state after one layer, before the loop decides whether it goes on. -/
inductive Expanded (knows : EdgeTable V V Unit) (st : SearchState V) : SearchState V → Prop
  | src (turn : fromSrc st) : Expanded knows st
      ⟨(expand knows st.src st.dst st.meetPoints).1, st.dst,
        (expand knows st.src st.dst st.meetPoints).2⟩
  | dst (turn : ¬ fromSrc st) (nonempty : st.dst.queue ≠ []) : Expanded knows st
      ⟨st.src, (expand knows st.dst st.src st.meetPoints).1,
        (expand knows st.dst st.src st.meetPoints).2⟩

omit [DecidableEq V] in
theorem afterLayer_next {st t : SearchState V} (h : afterLayer st = .next t) :
    t = st ∧ st.meetPoints = [] ∧ st.src.queue ≠ [] ∧ st.dst.queue ≠ [] := by
  by_cases hmeet : st.meetPoints = []
  · by_cases hqueue : st.src.queue = [] ∨ st.dst.queue = []
    · simp [afterLayer, hmeet, hqueue] at h
    · simp only [afterLayer, hmeet, ne_eq, not_true, if_false, hqueue,
        Control.next.injEq] at h
      exact ⟨h.symm, hmeet, not_or.mp hqueue⟩
  · simp [afterLayer, hmeet] at h

omit [DecidableEq V] in
theorem afterLayer_done {st t : SearchState V} (h : afterLayer st = .done t) :
    t = st ∧ (st.meetPoints ≠ [] ∨ st.src.queue = [] ∨ st.dst.queue = []) := by
  by_cases hmeet : st.meetPoints = []
  · by_cases hqueue : st.src.queue = [] ∨ st.dst.queue = []
    · simp only [afterLayer, hmeet, ne_eq, not_true, if_false, hqueue, if_true,
        Control.done.injEq] at h
      exact ⟨h.symm, Or.inr hqueue⟩
    · simp [afterLayer, hmeet, hqueue] at h
  · simp only [afterLayer, ne_eq, hmeet, not_false_eq_true, if_true, Control.done.injEq] at h
    exact ⟨h.symm, Or.inl hmeet⟩

/-- The three ways through the loop body. -/
theorem searchStep_cases (knows : EdgeTable V V Unit) (st : SearchState V) :
    (∃ t, Expanded knows st t ∧ searchStep knows st = afterLayer t) ∨
      (st.dst.queue = [] ∧ searchStep knows st = .done st) := by
  by_cases hsrc : fromSrc st
  · exact Or.inl ⟨_, .src hsrc, if_pos hsrc⟩
  · by_cases hdst : st.dst.queue = []
    · refine Or.inr ⟨hdst, (if_neg hsrc).trans ?_⟩
      simp [hdst]
    · refine Or.inl ⟨_, .dst hsrc hdst, (if_neg hsrc).trans ?_⟩
      simp [hdst]

theorem searchStep_next {knows : EdgeTable V V Unit} {st t : SearchState V}
    (h : searchStep knows st = .next t) :
    Expanded knows st t ∧ t.meetPoints = [] ∧ t.src.queue ≠ [] ∧ t.dst.queue ≠ [] := by
  rcases searchStep_cases knows st with ⟨u, hu, hstep⟩ | ⟨_, hstep⟩
  · obtain ⟨rfl, rest⟩ := afterLayer_next (hstep.symm.trans h)
    exact ⟨hu, rest⟩
  · rw [hstep] at h
    cases h

theorem searchStep_done {knows : EdgeTable V V Unit} {st t : SearchState V}
    (h : searchStep knows st = .done t) :
    (Expanded knows st t ∧ (t.meetPoints ≠ [] ∨ t.src.queue = [] ∨ t.dst.queue = [])) ∨
      (st.dst.queue = [] ∧ t = st) := by
  rcases searchStep_cases knows st with ⟨u, hu, hstep⟩ | ⟨hdst, hstep⟩
  · obtain ⟨rfl, rest⟩ := afterLayer_done (hstep.symm.trans h)
    exact Or.inl ⟨hu, rest⟩
  · rw [hstep] at h
    cases h
    exact Or.inr ⟨hdst, rfl⟩

section Termination
variable [Fintype V]

def unvisited (dist : V → Int8) : Finset V := Finset.univ.filter (fun v => dist v = -1)

/-- A layer labelled -1 visits nobody, but the next one is labelled 0. -/
def sideMeasure (side : Side V) : Nat :=
  2 * (unvisited side.dist).card + if side.depth = -1 then 0 else 1

theorem expand_measure {knows : EdgeTable V V Unit} {own other : Side V}
    {meetPoints : List V} (grows : (expand knows own other meetPoints).1.queue ≠ []) :
    sideMeasure (expand knows own other meetPoints).1 < sideMeasure own := by
  by_cases hdepth : own.depth + 1 = -1
  · have old : own.depth ≠ -1 := by
      intro h
      rw [h] at hdepth
      exact absurd hdepth (by decide)
    rw [expand_blank hdepth]
    simp [sideMeasure, old]
  · rw [expand_eq hdepth] at grows ⊢
    obtain ⟨w, hw⟩ := List.exists_mem_of_ne_nil _ grows
    rw [mem_newcomers] at hw
    have fewer : (unvisited fun v => if own.dist v = -1 ∧ v ∈ ends knows own.queue
        then own.depth + 1 else own.dist v).card < (unvisited own.dist).card := by
      apply Finset.card_lt_card
      refine Finset.ssubset_iff_of_subset ?_ |>.mpr ⟨w, by simp [unvisited, hw.1], ?_⟩
      · intro v hv
        by_contra hne
        have hlab : own.dist v ≠ -1 := by simpa [unvisited] using hne
        simp [unvisited, hlab] at hv
      · simp [unvisited, hw, hdepth]
    simp only [sideMeasure, hdepth, if_false]
    split <;> omega

def searchMeasure (st : SearchState V) : Nat := sideMeasure st.src + sideMeasure st.dst

theorem searchStep_measure {knows : EdgeTable V V Unit} {st t : SearchState V}
    (h : searchStep knows st = .next t) : searchMeasure t < searchMeasure st := by
  obtain ⟨hexp, _, hsrc, hdst⟩ := searchStep_next h
  cases hexp with
  | src => exact Nat.add_lt_add_right (expand_measure hsrc) _
  | dst => exact Nat.add_lt_add_left (expand_measure hdst) _

/-- The search ends on every graph, also when its counters wrap. -/
theorem search_total (knows : EdgeTable V V Unit) (st : SearchState V) {fuel : Nat}
    (enough : 4 * Fintype.card V + 3 ≤ fuel) :
    ∃ r, loop (searchStep knows) fuel st = some r := by
  have side : ∀ s : Side V, sideMeasure s ≤ 2 * Fintype.card V + 1 := by
    intro s
    have : (unvisited s.dist).card ≤ Fintype.card V := Finset.card_le_univ _
    rw [sideMeasure]
    split <;> omega
  have bound : searchMeasure st < fuel := by
    have h1 := side st.src
    have h2 := side st.dst
    rw [searchMeasure]
    omega
  have progress : ∀ s, True → Progress (fun _ => True) (fun _ => True) searchMeasure s
      (searchStep knows s) := by
    intro s _
    cases h : searchStep knows s with
    | next t => exact ⟨trivial, searchStep_measure h⟩
    | done r => exact trivial
  obtain ⟨r, hr, _⟩ := loop_total _ _ searchMeasure progress trivial bound
  exact ⟨r, hr⟩

end Termination

section Faithfulness

/-- The labels of a side are distances, and its counter is the number of its layers. -/
structure FaithfulSide (knows : EdgeTable V V Unit) (c : V) (side : Side V) : Prop where
  label : ∀ v, side.dist v ≠ -1 →
    ∃ k : ℕ, (side.dist v).toInt = k ∧ Layer (undirected knows) c k v
  counter : ∃ r : ℕ, side.depth.toInt = r ∧
    (∀ v, v ∈ side.queue ↔ Layer (undirected knows) c r v) ∧
    ∀ v, side.dist v ≠ -1 ↔ Ball (undirected knows) c r v

structure Faithful (knows : EdgeTable V V Unit) (src dst : V) (st : SearchState V) : Prop where
  fromSrc : FaithfulSide knows src st.src
  fromDst : FaithfulSide knows dst st.dst

/-- The counter that the next pass through the loop increments. -/
def expandedDepth (st : SearchState V) : Int8 :=
  if fromSrc st then st.src.depth else st.dst.depth

/-- Nobody who was reached is lost or relabelled. -/
def Keeps (st later : SearchState V) : Prop :=
  (∀ v, st.src.dist v ≠ -1 → later.src.dist v = st.src.dist v) ∧
    ∀ v, st.dst.dist v ≠ -1 → later.dst.dist v = st.dst.dist v

variable {knows : EdgeTable V V Unit} {c src dst : V} {r : ℕ} {own : Side V}

theorem Grown.faithful (grown : Grown knows c r own) (hr : r ≤ 127) :
    FaithfulSide knows c own := by
  have reached : ∀ v, own.dist v ≠ -1 ↔ Ball (undirected knows) c r v := by
    intro v
    rw [ne_eq, grown.blank_iff (by omega), not_not]
  constructor
  · intro v hv
    obtain ⟨k, hk, hlayer⟩ := ((reached v).mp hv).layer
    refine ⟨k, ?_, hlayer⟩
    rw [grown.inside v k hk hlayer]
    exact toInt_ofNat_of_le (by omega)
  · refine ⟨r, ?_, grown.queue, reached⟩
    rw [grown.depth]
    exact toInt_ofNat_of_le hr

theorem Grown.expand_keeps (grown : Grown knows c r own) (hr : r + 1 < 255) (other : Side V)
    (meetPoints : List V) {v : V} (hv : own.dist v ≠ -1) :
    (IC14.expand knows own other meetPoints).1.dist v = own.dist v := by
  rw [expand_eq (grown.labelled hr)]
  simp [hv]

/-- The states of a run whose counters have not wrapped, seen from an earlier state. -/
def Unwrapped (knows : EdgeTable V V Unit) (src dst : V) (early st : SearchState V) : Prop :=
  ∃ s t, s ≤ 127 ∧ t ≤ 127 ∧ Grown knows src s st.src ∧ Grown knows dst t st.dst ∧
    Keeps early st

theorem Unwrapped.expanded {early st later : SearchState V}
    (inv : Unwrapped knows src dst early st) (low : expandedDepth st < 127)
    (hexp : Expanded knows st later) : Unwrapped knows src dst early later := by
  obtain ⟨s, t, hs, ht, growS, growT, keepS, keepT⟩ := inv
  have hlow := Int8.lt_iff_toInt_lt.mp low
  have h127 : (127 : Int8).toInt = 127 := rfl
  cases hexp with
  | src turn =>
    rw [expandedDepth, if_pos turn, growS.depth, toInt_ofNat_of_le hs] at hlow
    refine ⟨s + 1, t, by omega, ht, growS.expand (by omega) _ _, growT, ?_, keepT⟩
    intro v hv
    have hsame := keepS v hv
    exact (growS.expand_keeps (by omega) _ _ (hsame ▸ hv)).trans hsame
  | dst turn _ =>
    rw [expandedDepth, if_neg turn, growT.depth, toInt_ofNat_of_le ht] at hlow
    refine ⟨s, t + 1, hs, by omega, growS, growT.expand (by omega) _ _, keepS, ?_⟩
    intro v hv
    have hsame := keepT v hv
    exact (growT.expand_keeps (by omega) _ _ (hsame ▸ hv)).trans hsame

theorem Unwrapped.visits {early st later : SearchState V}
    (inv : Unwrapped knows src dst early st)
    (run : Visits (searchStep knows) (fun st => expandedDepth st < 127) st later) :
    Unwrapped knows src dst early later := by
  apply visits_invariant (Unwrapped knows src dst early) _ _ inv run
  · intro s t hs low hstep
    exact hs.expanded low (searchStep_next hstep).1
  · intro s t hs low hstep
    rcases searchStep_done hstep with ⟨hexp, _⟩ | ⟨_, rfl⟩
    · exact hs.expanded low hexp
    · exact hs

end Faithfulness

section Meeting

/-- The two balls cover a geodesic, and the meeting points are one full layer of the
geodesics. -/
structure Met (knows : EdgeTable V V Unit) (src dst : V) (s t : ℕ) (st : SearchState V) :
    Prop where
  fromSrc : Grown knows src s st.src
  fromDst : Grown knows dst t st.dst
  between : Layer (undirected knows) src (s + t) dst
  meets : ∀ v, v ∈ st.meetPoints ↔
    Layer (undirected knows) src s v ∧ Layer (undirected knows) dst t v

/-- The balls at the loop head, as long as they do not meet. -/
def Apart (knows : EdgeTable V V Unit) (src dst : V) (d : ℕ) (st : SearchState V) : Prop :=
  ∃ s t, Grown knows src s st.src ∧ Grown knows dst t st.dst ∧ s + t < d ∧
    st.meetPoints = []

variable {knows : EdgeTable V V Unit} {src dst : V} {d : ℕ}

theorem Apart.next (hd : Layer (undirected knows) src d dst) (near : d ≤ 127)
    {st st' : SearchState V} (apart : Apart knows src dst d st)
    (h : searchStep knows st = .next st') : Apart knows src dst d st' := by
  obtain ⟨s, t, growS, growT, gap, empty⟩ := apart
  obtain ⟨hexp, none, _, _⟩ := searchStep_next h
  cases hexp with
  | src =>
    rw [empty] at none ⊢
    have gap' := (growS.meetPoints_nil_iff growT hd gap near).mp none
    exact ⟨s + 1, t, growS.expand (by omega) _ _, growT, gap', none⟩
  | dst =>
    rw [empty] at none ⊢
    have gap' := (growT.meetPoints_nil_iff growS hd.symm (by omega) near).mp none
    exact ⟨s, t + 1, growS, growT.expand (by omega) _ _, by omega, none⟩

theorem Apart.done (hd : Layer (undirected knows) src d dst) (near : d ≤ 127)
    {st r : SearchState V} (apart : Apart knows src dst d st)
    (h : searchStep knows st = .done r) : ∃ s t, s + t = d ∧ Met knows src dst s t r := by
  obtain ⟨s, t, growS, growT, gap, empty⟩ := apart
  rcases searchStep_done h with ⟨hexp, hleft⟩ | ⟨hdst, _⟩
  · cases hexp with
    | src =>
      rw [empty] at hleft ⊢
      have grown := growS.expand (by omega) st.dst []
      have found : (expand knows st.src st.dst []).2 ≠ [] := by
        rcases hleft with hmeet | hqueue | hqueue
        · exact hmeet
        · exact False.elim (grown.queue_ne_nil hd (by omega) hqueue)
        · exact False.elim (growT.queue_ne_nil hd.symm (by omega) hqueue)
      rw [ne_eq, growS.meetPoints_nil_iff growT hd gap near] at found
      obtain rfl : d = s + 1 + t := by omega
      refine ⟨s + 1, t, rfl, grown, growT, hd, fun v => ?_⟩
      rw [growS.mem_meetPoints_of_gap growT hd gap near]
      simp
    | dst =>
      rw [empty] at hleft ⊢
      have grown := growT.expand (by omega) st.src []
      have gap' : t + s < d := by omega
      have found : (expand knows st.dst st.src []).2 ≠ [] := by
        rcases hleft with hmeet | hqueue | hqueue
        · exact hmeet
        · exact False.elim (growS.queue_ne_nil hd (by omega) hqueue)
        · exact False.elim (grown.queue_ne_nil hd.symm (by omega) hqueue)
      rw [ne_eq, growT.meetPoints_nil_iff growS hd.symm gap' near] at found
      obtain rfl : d = s + (t + 1) := by omega
      refine ⟨s, t + 1, rfl, growS, grown, hd, fun v => ?_⟩
      rw [growT.mem_meetPoints_of_gap growS hd.symm gap' near]
      constructor
      · rintro ⟨_, hv, hv'⟩
        exact ⟨hv', hv⟩
      · rintro ⟨hv', hv⟩
        exact ⟨by omega, hv, hv'⟩
  · exact False.elim (growT.queue_ne_nil hd.symm (by omega) hdst)

/-- The search for a person at distance at most 127 ends where the balls meet. -/
theorem search_met (different : src ≠ dst) (hd : Layer (undirected knows) src d dst)
    (near : d ≤ 127) {fuel : Nat} {r : SearchState V}
    (h : loop (searchStep knows) fuel (startSearch src dst) = some r) :
    ∃ s t, s + t = d ∧ Met knows src dst s t r := by
  have positive : 0 < d := by
    apply Nat.pos_of_ne_zero
    rintro rfl
    exact different (layer_zero_iff.mp hd).symm
  have start : Apart knows src dst d (startSearch src dst) :=
    ⟨0, 0, startSide_grown _ src, startSide_grown _ dst, positive, rfl⟩
  exact loop_post (Apart knows src dst d) (fun r => ∃ s t, s + t = d ∧ Met knows src dst s t r)
    (fun _ _ apart => apart.next hd near) (fun _ _ apart => apart.done hd near) start h

end Meeting

section AnyDepth
variable {knows : EdgeTable V V Unit} {src dst : V}

/-- What a layer does whatever its depth label is. -/
structure Layered (knows : EdgeTable V V Unit) (own other : Side V) (meetPoints : List V)
    (out : Side V × List V) : Prop where
  old : ∀ v, own.dist v ≠ -1 → out.1.dist v = own.dist v
  new : ∀ v, out.1.dist v ≠ -1 → own.dist v ≠ -1 ∨ v ∈ ends knows own.queue
  queue : ∀ v ∈ out.1.queue, v ∈ ends knows own.queue
  kept : ∀ v ∈ meetPoints, v ∈ out.2
  met : ∀ v ∈ out.2, v ∈ meetPoints ∨
    (own.dist v = -1 ∧ v ∈ ends knows own.queue) ∧ other.dist v ≠ -1
  found : ∀ v, own.dist v = -1 → out.1.dist v ≠ -1 → other.dist v ≠ -1 → v ∈ out.2

theorem expand_layered (knows : EdgeTable V V Unit) (own other : Side V)
    (meetPoints : List V) :
    Layered knows own other meetPoints (expand knows own other meetPoints) := by
  by_cases hdepth : own.depth + 1 = -1
  · rw [expand_blank hdepth]
    refine ⟨?_, ?_, ?_, ?_, ?_, ?_⟩
    · exact fun v _ => rfl
    · exact fun v hv => Or.inl hv
    · exact fun v hv => (List.mem_filter.mp hv).1
    · exact fun v hv => List.mem_append_left _ hv
    · intro v hv
      rcases List.mem_append.mp hv with hv | hv
      · exact Or.inl hv
      · simp only [List.mem_filter, decide_eq_true_eq] at hv
        exact Or.inr ⟨⟨hv.2.1, hv.1⟩, hv.2.2⟩
    · exact fun v hblank hlab => False.elim (hlab hblank)
  · rw [expand_eq hdepth]
    refine ⟨?_, ?_, ?_, ?_, ?_, ?_⟩
    · intro v hv
      simp [hv]
    · intro v hv
      by_cases hend : v ∈ ends knows own.queue
      · exact Or.inr hend
      · simp only [hend, and_false, if_false] at hv
        exact Or.inl hv
    · exact fun v hv => (mem_newcomers.mp hv).2
    · exact fun v hv => List.mem_append_left _ hv
    · intro v hv
      rcases List.mem_append.mp hv with hv | hv
      · exact Or.inl hv
      · simp only [List.mem_filter, mem_newcomers, decide_eq_true_eq] at hv
        exact Or.inr hv
    · intro v hblank hlab hother
      have hend : v ∈ ends knows own.queue := by
        by_contra hnot
        simp [hnot, hblank] at hlab
      apply List.mem_append_right
      simp [mem_newcomers, hblank, hend, hother]

/-- A side reaches only persons of the component of its start. -/
structure Inside (knows : EdgeTable V V Unit) (c : V) (side : Side V) : Prop where
  dist : ∀ v, side.dist v ≠ -1 → (undirected knows).Reachable c v
  queue : ∀ v ∈ side.queue, (undirected knows).Reachable c v

theorem Inside.ends {c : V} {side : Side V} (inside : Inside knows c side) {v : V}
    (hv : v ∈ ends knows side.queue) : (undirected knows).Reachable c v := by
  obtain ⟨x, hx, hxv⟩ := mem_ends.mp hv
  obtain ⟨k, hk⟩ := exists_layer_of_reachable (inside.queue x hx)
  obtain ⟨_, _, hlayer⟩ := (hxv.ball_succ (hk.ball le_rfl)).layer
  exact hlayer.reachable

theorem Inside.layered {c : V} {own other : Side V} {meetPoints : List V}
    {out : Side V × List V} (inside : Inside knows c own)
    (layered : Layered knows own other meetPoints out) : Inside knows c out.1 := by
  constructor
  · intro v hv
    rcases layered.new v hv with hv | hv
    · exact inside.dist v hv
    · exact inside.ends hv
  · exact fun v hv => inside.ends (layered.queue v hv)

theorem startSide_inside (knows : EdgeTable V V Unit) (c : V) :
    Inside knows c (startSide c) := by
  constructor
  · intro v hv
    have hvc : v = c := by
      by_contra hne
      simp [startSide, hne] at hv
    exact hvc ▸ SimpleGraph.Reachable.refl v
  · intro v hv
    rw [List.mem_singleton.mp hv]

/-- The part of the invariant that does not depend on the depth counters. -/
structure Connected (knows : EdgeTable V V Unit) (src dst : V) (st : SearchState V) :
    Prop where
  fromSrc : Inside knows src st.src
  fromDst : Inside knows dst st.dst
  srcLabel : st.src.dist src = 0
  dstMark : st.dst.dist src ≠ -1 → src ∈ st.meetPoints
  meets : ∀ v ∈ st.meetPoints,
    (undirected knows).Reachable src v ∧ (undirected knows).Reachable dst v

theorem Connected.expanded {st later : SearchState V} (inv : Connected knows src dst st)
    (hexp : Expanded knows st later) : Connected knows src dst later := by
  have hzero : (0 : Int8) ≠ -1 := by decide
  cases hexp with
  | src =>
    have layered := expand_layered knows st.src st.dst st.meetPoints
    refine ⟨inv.fromSrc.layered layered, inv.fromDst, ?_, ?_, ?_⟩
    · exact (layered.old src (inv.srcLabel ▸ hzero)).trans inv.srcLabel
    · exact fun hsrc => layered.kept src (inv.dstMark hsrc)
    · intro v hv
      rcases layered.met v hv with hv | ⟨⟨_, hend⟩, hdst⟩
      · exact inv.meets v hv
      · exact ⟨inv.fromSrc.ends hend, inv.fromDst.dist v hdst⟩
  | dst =>
    have layered := expand_layered knows st.dst st.src st.meetPoints
    refine ⟨inv.fromSrc, inv.fromDst.layered layered, inv.srcLabel, ?_, ?_⟩
    · intro hsrc
      by_cases hold : st.dst.dist src = -1
      · exact layered.found src hold hsrc (inv.srcLabel ▸ hzero)
      · exact layered.kept src (inv.dstMark hold)
    · intro v hv
      rcases layered.met v hv with hv | ⟨⟨_, hend⟩, hsrc⟩
      · exact inv.meets v hv
      · exact ⟨inv.fromSrc.dist v hsrc, inv.fromDst.ends hend⟩

theorem search_connected (different : src ≠ dst) {fuel : Nat} {r : SearchState V}
    (h : loop (searchStep knows) fuel (startSearch src dst) = some r) :
    Connected knows src dst r := by
  have start : Connected knows src dst (startSearch src dst) := by
    refine ⟨startSide_inside knows src, startSide_inside knows dst, ?_, ?_, ?_⟩
    · simp [startSearch, startSide]
    · simp [startSearch, startSide, different]
    · simp [startSearch]
  refine loop_post (Connected knows src dst) (Connected knows src dst) ?_ ?_ start h
  · exact fun s t inv hstep => inv.expanded (searchStep_next hstep).1
  · intro s t inv hstep
    rcases searchStep_done hstep with ⟨hexp, _⟩ | ⟨_, rfl⟩
    · exact inv.expanded hexp
    · exact inv

end AnyDepth

end Layers

end IC14

open IC14

/-- In every run whose passes all start below the largest 8-bit counter, the labels are
distances and the counters count layers in every state, the last one included, and no
label changes once it is set. -/
theorem search_labels_faithful (G : Graph) (src dst : G.Person)
    {st later : SearchState G.Person}
    (start : Within (searchStep G.knows) (fun st => expandedDepth st < 127)
      (startSearch src dst) st)
    (run : Visits (searchStep G.knows) (fun st => expandedDepth st < 127) st later) :
    Faithful G.knows src dst later ∧ Keeps st later := by
  have init : Unwrapped G.knows src dst (startSearch src dst) (startSearch src dst) :=
    ⟨0, 0, by omega, by omega, startSide_grown _ src, startSide_grown _ dst,
      fun _ _ => rfl, fun _ _ => rfl⟩
  obtain ⟨s, t, hs, ht, growS, growT, _⟩ := init.visits (Or.inl start)
  have here : Unwrapped G.knows src dst st st :=
    ⟨s, t, hs, ht, growS, growT, fun _ _ => rfl, fun _ _ => rfl⟩
  obtain ⟨s', t', hs', ht', growS', growT', keeps⟩ := here.visits run
  exact ⟨⟨growS'.faithful hs', growT'.faithful ht'⟩, keeps⟩

theorem search_labels_faithful_first_layer :
    let knows := (Graph.chain 2 (by decide)).knows
    let st := startSearch (0 : Fin 3) (2 : Fin 3)
    let layer := expand knows st.src st.dst st.meetPoints
    Faithful knows (0 : Fin 3) (2 : Fin 3) ⟨layer.1, st.dst, layer.2⟩ ∧
      Keeps st ⟨layer.1, st.dst, layer.2⟩ :=
  search_labels_faithful (Graph.chain 2 (by decide)) (0 : Fin 3) (2 : Fin 3) .refl
    (Or.inl (.single ⟨by decide, rfl⟩))

section Chain
variable {n : Nat} {knows : EdgeTable (Fin (n + 1)) (Fin (n + 1)) Unit}

theorem joined_chain (n : Nat) (small : n + 1 ≤ kInvalidVid) (u v : Fin (n + 1)) :
    Joined (Graph.chain n small).knows u v ↔ u.val + 1 = v.val ∨ v.val + 1 = u.val := by
  have out : ∀ x y : Fin (n + 1),
      y ∈ (Graph.chain n small).knows.outgoing x ↔ x.val + 1 = y.val := by
    intro x y
    have hy := y.isLt
    refine (EdgeTable.mem_outgoing_ofList _ x y).trans ?_
    simp only [List.mem_map, List.mem_finRange, true_and]
    constructor
    · rintro ⟨_, e, ⟨m, rfl⟩, he⟩
      cases he
      rfl
    · intro hxy
      refine ⟨(), _, ⟨⟨x.val, by omega⟩, rfl⟩, ?_⟩
      have hsucc : (⟨x.val, by omega⟩ : Fin n).succ = y := Fin.ext hxy
      rw [hsucc]
      rfl
  exact or_congr (out u v) (((Graph.chain n small).knows.mem_incoming v u).trans (out v u))

/-- Where the neighbours are the next numbers, the distance from 0 is the number. -/
theorem layer_of_joined
    (joined : ∀ u v, Joined knows u v ↔ u.val + 1 = v.val ∨ v.val + 1 = u.val) (k : Nat)
    (v : Fin (n + 1)) : Layer (undirected knows) 0 k v ↔ v.val = k := by
  induction k using Nat.strongRecOn generalizing v with
  | ind k ih =>
    cases k with
    | zero =>
      rw [layer_zero_iff]
      exact Fin.ext_iff
    | succ k =>
      have inside : Ball (undirected knows) 0 k v ↔ v.val ≤ k := by
        constructor
        · intro hball
          obtain ⟨i, hi, hlayer⟩ := hball.layer
          rw [(ih i (by omega) v).mp hlayer]
          exact hi
        · intro hv
          exact ((ih v.val (by omega) v).mpr rfl).ball hv
      rw [layer_succ_joined, inside]
      constructor
      · rintro ⟨far, u, hu, huv⟩
        have hval := (ih k (Nat.lt_succ_self k) u).mp hu
        rcases (joined u v).mp huv with h | h <;> omega
      · intro hv
        have hlt := v.isLt
        exact ⟨by omega, ⟨k, by omega⟩, (ih k (Nat.lt_succ_self k) _).mpr rfl,
          (joined _ v).mpr (Or.inl hv.symm)⟩

/-- The source side alone is expanded as long as it has not met the other end. -/
theorem passes_of_joined
    (joined : ∀ u v, Joined knows u v ↔ u.val + 1 = v.val ∨ v.val + 1 = u.val) {k : Nat}
    (near : k < n) (fits : k < 255) :
    ∃ st, passes (searchStep knows) k (startSearch 0 (Fin.last n)) = some st ∧
      Grown knows 0 k st.src ∧ st.dst = startSide (Fin.last n) ∧ st.meetPoints = [] := by
  induction k with
  | zero => exact ⟨_, rfl, startSide_grown knows 0, rfl, rfl⟩
  | succ k ih =>
    obtain ⟨st, run, grown, hdst, hmeet⟩ := ih (by omega) (by omega)
    have layer := layer_of_joined joined
    have mem : ∀ v, v ∈ st.src.queue ↔ v ∈ [(⟨k, by omega⟩ : Fin (n + 1))] := by
      intro v
      rw [grown.queue, layer, List.mem_singleton, Fin.ext_iff]
    have single : st.src.queue = [⟨k, by omega⟩] := List.perm_singleton.mp
      ((List.perm_ext_iff_of_nodup grown.nodup (List.nodup_singleton _)).mpr mem)
    have turn : fromSrc st := by simp [fromSrc, single, hdst, startSide]
    have grown' := grown.expand fits st.dst st.meetPoints
    have far : (expand knows st.src st.dst st.meetPoints).2 = [] := by
      rw [hmeet, hdst, List.eq_nil_iff_forall_not_mem]
      intro v hv
      obtain ⟨hv, hlast⟩ :=
        (grown.mem_meetPoints fits (startSide_grown knows _) (by omega) v).mp hv
      rw [ball_zero_iff.mp hlast, layer, Fin.val_last] at hv
      omega
    have step : searchStep knows st = .next ⟨(expand knows st.src st.dst st.meetPoints).1,
        st.dst, (expand knows st.src st.dst st.meetPoints).2⟩ := by
      have hqueue : (expand knows st.src st.dst st.meetPoints).1.queue ≠ [] :=
        List.ne_nil_of_mem ((grown'.queue ⟨k + 1, by omega⟩).mpr ((layer _ _).mpr rfl))
      have hother : st.dst.queue ≠ [] := by simp [hdst, startSide]
      refine (if_pos turn).trans ?_
      simp [afterLayer, far, hqueue, hother]
    exact ⟨_, passes_succ run step, grown', hdst, far⟩

end Chain

/-- On a chain of 130 persons the person at distance 128 is labelled -128. -/
theorem search_label_wraps :
    let knows := (Graph.chain 129 (by decide)).knows
    ∃ st, Reaches (searchStep knows) (startSearch (0 : Fin 130) (129 : Fin 130)) st ∧
      ∃ v, st.src.dist v ≠ -1 ∧
        ¬ ∃ k : ℕ, (st.src.dist v).toInt = k ∧ Layer (undirected knows) (0 : Fin 130) k v := by
  intro knows
  have joined := joined_chain 129 (by decide)
  obtain ⟨st, run, grown, -⟩ := passes_of_joined joined (by decide : 128 < 129) (by decide)
  have far := (layer_of_joined joined 128 128).mpr rfl
  have hlabel : st.src.dist (128 : Fin 130) = -128 := grown.inside _ 128 le_rfl far
  refine ⟨st, reaches_of_passes run, (128 : Fin 130), ?_, ?_⟩
  · rw [hlabel]
    decide
  · rintro ⟨k, hk, _⟩
    rw [hlabel] at hk
    have hwrap : (-128 : Int8).toInt = -128 := rfl
    omega

end LdbcInteractive
