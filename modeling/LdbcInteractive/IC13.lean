import LdbcInteractive.Common
import LdbcInteractive.Loops
import Mathlib.Data.Fintype.Card
import Mathlib.Data.Finset.Filter
import Mathlib.Tactic.Ring

/-!
# IC13: length of a shortest KNOWS path

A bidirectional search that keeps both sides in one signed label array: a person
at distance `k` from the source is labelled `k + 1`, one at distance `k` from the
target `-(k + 1)`, and 0 means unlabelled. The side with the shorter queue is
expanded by a layer, and the function returns in the middle of a layer at the
first edge into the other side.
-/

namespace LdbcInteractive

open EdgeTables GraphDistance Loops

namespace IC13

variable {V : Type} [DecidableEq V]

/-- The labels and the queue of the next layer while a layer is expanded. -/
abbrev Layering (V : Type) := (V → Int32) × List V

/-- What the two halves of the search loop do differently. -/
structure Side where
  fresh : Int32 → Int32
  met : Int32 → Bool
  length : Int32 → Int32 → Int32

/-- Expanding the source queue: `dist[x] + 1`, `dist[v] < 0`, `dist[x] - dist[v] - 1`. -/
def srcSide : Side where
  fresh dx := dx + 1
  met dv := dv < 0
  length dx dv := dx - dv - 1

/-- Expanding the target queue: `dist[x] - 1`, `dist[v] > 0`, `dist[v] - dist[x] - 1`. -/
def dstSide : Side where
  fresh dx := dx - 1
  met dv := dv > 0
  length dx dv := dv - dx - 1

/-- One edge from `x` to `v`; an error is the early return of the function. -/
def visit (side : Side) (x : V) (st : Layering V) (v : V) : Except Int32 (Layering V) :=
  if st.1 v = 0 then .ok (Function.update st.1 v (side.fresh (st.1 x)), st.2 ++ [v])
  else if side.met (st.1 v) then .error (side.length (st.1 x) (st.1 v))
  else .ok st

def expandLayer (side : Side) (knows : EdgeTable V V Unit) (q : List V) (dist : V → Int32) :
    Except Int32 (Layering V) :=
  q.foldlM (fun st x => do
    let st ← (knows.outgoing x).foldlM (visit side x) st
    (knows.incoming x).foldlM (visit side x) st) (dist, [])

structure State (V : Type) where
  dist : V → Int32
  q1 : List V
  q2 : List V

/-- One pass through the `while (true)` loop. -/
def step (knows : EdgeTable V V Unit) (st : State V) : Control (State V) Int32 :=
  if st.q1.length ≤ st.q2.length then
    if st.q1 = [] then .done (-1)
    else match expandLayer srcSide knows st.q1 st.dist with
      | .error len => .done len
      | .ok (dist, tmp) => .next ⟨dist, tmp, st.q2⟩
  else
    if st.q2 = [] then .done (-1)
    else match expandLayer dstSide knows st.q2 st.dist with
      | .error len => .done len
      | .ok (dist, tmp) => .next ⟨dist, st.q1, tmp⟩

def start (src dst : V) : State V where
  dist := Function.update (Function.update (fun _ => 0) src 1) dst (-1)
  q1 := [src]
  q2 := [dst]

def shortestPathLength (fuel : Nat) (knows : EdgeTable V V Unit) (src dst : V) :
    Option Int32 :=
  if src = dst then some 0 else loop (step knows) fuel (start src dst)

/-- The query; the loop gets a budget that is shown to suffice below. -/
def exec (G : Graph) (person1Id person2Id : Int) : Option Int32 :=
  match getVertexIndex G.personId person1Id, getVertexIndex G.personId person2Id with
  | some src, some dst => shortestPathLength (G.personNum + 2) G.knows src dst
  | _, _ => some (-1)

/-- The edges looked at while a queue is expanded, in order. -/
def scanned (knows : EdgeTable V V Unit) (q : List V) : List (V × V) :=
  q.flatMap (fun x => (knows.outgoing x ++ knows.incoming x).map (Prod.mk x))

theorem mem_scanned {knows : EdgeTable V V Unit} {q : List V} {x v : V} :
    (x, v) ∈ scanned knows q ↔ x ∈ q ∧ Joined knows x v := by
  simp only [scanned, List.mem_flatMap, List.mem_map, List.mem_append, Joined, Prod.mk.injEq]
  constructor
  · rintro ⟨y, hy, w, hw, rfl, rfl⟩
    exact ⟨hy, hw⟩
  · rintro ⟨hx, hv⟩
    exact ⟨x, hx, v, hv, rfl, rfl⟩

theorem expandLayer_eq (side : Side) (knows : EdgeTable V V Unit) (q : List V)
    (dist : V → Int32) :
    expandLayer side knows q dist =
      (scanned knows q).foldlM (fun st e => visit side e.1 st e.2) (dist, []) := by
  have general : ∀ st : Layering V,
      q.foldlM (fun st x => do
        let st ← (knows.outgoing x).foldlM (visit side x) st
        (knows.incoming x).foldlM (visit side x) st) st =
      (scanned knows q).foldlM (fun st e => visit side e.1 st e.2) st := by
    induction q with
    | nil => intro st; rfl
    | cons x rest ih =>
      intro st
      rw [scanned, List.flatMap_cons, List.foldlM_append, List.foldlM_map, List.foldlM_cons,
        List.foldlM_append]
      exact bind_congr fun st => ih st
  exact general (dist, [])

/-- What a side needs to know of its labels, which are all equal on its queue. -/
structure Uniform (side : Side) (label : Int32) : Prop where
  label_ne : label ≠ 0
  fresh_ne : side.fresh label ≠ 0
  fresh_met : side.met (side.fresh label) = false

/-- A scan without an early return: every unlabelled target is labelled and queued. -/
structure Fills (side : Side) (label : Int32) (es : List (V × V))
    (before after : Layering V) : Prop where
  unmet : ∀ v ∈ es.map Prod.snd, before.1 v ≠ 0 → side.met (before.1 v) = false
  labelled : ∀ v ∈ es.map Prod.snd, before.1 v = 0 → after.1 v = side.fresh label
  kept : ∀ v, before.1 v ≠ 0 ∨ v ∉ es.map Prod.snd → after.1 v = before.1 v
  queued : ∀ v, v ∈ after.2 ↔ v ∈ before.2 ∨ before.1 v = 0 ∧ v ∈ es.map Prod.snd

/-- An early return names a target that the other side has labelled. -/
def Outcome (side : Side) (label : Int32) (es : List (V × V)) (before : Layering V) :
    Except Int32 (Layering V) → Prop
  | .error len => ∃ v ∈ es.map Prod.snd,
      side.met (before.1 v) = true ∧ len = side.length label (before.1 v)
  | .ok after => Fills side label es before after

theorem outcome_of_new {side : Side} {label : Int32} (uniform : Uniform side label)
    {e : V × V} {rest : List (V × V)} {before : Layering V} (new : before.1 e.2 = 0)
    {r : Except Int32 (Layering V)}
    (h : Outcome side label rest
      (Function.update before.1 e.2 (side.fresh label), before.2 ++ [e.2]) r) :
    Outcome side label (e :: rest) before r := by
  cases r with
  | error len =>
    obtain ⟨v, hv, hmet, hlen⟩ := h
    have hne : v ≠ e.2 := by
      rintro rfl
      simp [uniform.fresh_met] at hmet
    simp only [Function.update_of_ne hne] at hmet hlen
    exact ⟨v, List.mem_cons_of_mem _ hv, hmet, hlen⟩
  | ok after =>
    have h' : Fills side label rest _ after := h
    refine ⟨?_, ?_, ?_, ?_⟩
    · intro v hv hlab
      have hne : v ≠ e.2 := by
        rintro rfl
        exact hlab new
      have hv' : v ∈ rest.map Prod.snd := (List.mem_cons.mp hv).resolve_left hne
      have hmet := h'.unmet v hv'
      simp only [Function.update_of_ne hne] at hmet
      exact hmet hlab
    · intro v hv hzero
      by_cases hve : v = e.2
      · rw [h'.kept v (Or.inl (by simpa [hve] using uniform.fresh_ne))]
        simp [hve]
      · have hv' : v ∈ rest.map Prod.snd := (List.mem_cons.mp hv).resolve_left hve
        exact h'.labelled v hv' (by simpa [hve] using hzero)
    · intro v hv
      have hne : v ≠ e.2 := by
        rintro rfl
        exact hv.elim (fun h => h new) (fun h => h List.mem_cons_self)
      rw [h'.kept v (by simpa [hne] using hv)]
      simp [hne]
    · intro v
      rw [h'.queued v]
      by_cases hve : v = e.2
      · simp [hve, new]
      · simp [hve]

omit [DecidableEq V] in
theorem outcome_of_old {side : Side} {label : Int32} {e : V × V} {rest : List (V × V)}
    {before : Layering V} (old : before.1 e.2 ≠ 0) (unmet : side.met (before.1 e.2) = false)
    {r : Except Int32 (Layering V)} (h : Outcome side label rest before r) :
    Outcome side label (e :: rest) before r := by
  cases r with
  | error len =>
    obtain ⟨v, hv, hlen⟩ := h
    exact ⟨v, List.mem_cons_of_mem _ hv, hlen⟩
  | ok after =>
    have h' : Fills side label rest before after := h
    have skip : ∀ v, before.1 v = 0 → (v ∈ (e :: rest).map Prod.snd ↔ v ∈ rest.map Prod.snd) := by
      intro v hzero
      have hne : v ≠ e.2 := by
        rintro rfl
        exact old hzero
      simp [hne]
    refine ⟨?_, ?_, ?_, ?_⟩
    · intro v hv hlab
      rcases List.mem_cons.mp hv with rfl | hv
      · exact unmet
      · exact h'.unmet v hv hlab
    · intro v hv hzero
      exact h'.labelled v ((skip v hzero).mp hv) hzero
    · intro v hv
      by_cases hzero : before.1 v = 0
      · exact h'.kept v (Or.inr (fun h => hv.elim (fun h => h hzero)
          (fun hn => hn ((skip v hzero).mpr h))))
      · exact h'.kept v (Or.inl hzero)
    · intro v
      rw [h'.queued v, and_congr_right (skip v)]

theorem foldlM_visit {side : Side} {label : Int32} (uniform : Uniform side label)
    (es : List (V × V)) (before : Layering V) (same : ∀ e ∈ es, before.1 e.1 = label) :
    Outcome side label es before
      (es.foldlM (fun st e => visit side e.1 st e.2) before) := by
  induction es generalizing before with
  | nil =>
    change Fills side label [] before before
    exact ⟨by simp, by simp, by simp, by simp⟩
  | cons e rest ih =>
    have hx : before.1 e.1 = label := same e List.mem_cons_self
    rw [List.foldlM_cons]
    by_cases hzero : before.1 e.2 = 0
    · have hv : visit side e.1 before e.2 =
          .ok (Function.update before.1 e.2 (side.fresh label), before.2 ++ [e.2]) := by
        simp [visit, hzero, hx]
      -- No queued vertex has label 0, so the labels that are read do not change.
      have same' : ∀ f ∈ rest, Function.update before.1 e.2 (side.fresh label) f.1 = label := by
        intro f hf
        have hlabel := same f (List.mem_cons_of_mem e hf)
        have hne : f.1 ≠ e.2 := by
          intro h
          rw [h, hzero] at hlabel
          exact uniform.label_ne hlabel.symm
        rw [Function.update_of_ne hne, hlabel]
      rw [hv]
      exact outcome_of_new uniform hzero (ih _ same')
    · cases hmet : side.met (before.1 e.2) with
      | true =>
        have hv : visit side e.1 before e.2 = .error (side.length label (before.1 e.2)) := by
          simp [visit, hzero, hmet, hx]
        rw [hv]
        exact ⟨e.2, List.mem_cons_self, hmet, rfl⟩
      | false =>
        have hv : visit side e.1 before e.2 = .ok before := by simp [visit, hzero, hmet]
        rw [hv]
        exact outcome_of_old hzero hmet
          (ih before (fun f hf => same f (List.mem_cons_of_mem e hf)))

theorem mem_scanned_targets {knows : EdgeTable V V Unit} {q : List V} {v : V} :
    v ∈ (scanned knows q).map Prod.snd ↔ ∃ x ∈ q, Joined knows x v := by
  constructor
  · intro h
    obtain ⟨e, he, rfl⟩ := List.mem_map.mp h
    exact ⟨e.1, mem_scanned.mp he⟩
  · rintro ⟨x, hx, hv⟩
    exact List.mem_map.mpr ⟨(x, v), mem_scanned.mpr ⟨hx, hv⟩, rfl⟩

theorem expandLayer_outcome {side : Side} {label : Int32} (uniform : Uniform side label)
    (knows : EdgeTable V V Unit) {q : List V} {dist : V → Int32}
    (same : ∀ x ∈ q, dist x = label) :
    Outcome side label (scanned knows q) (dist, []) (expandLayer side knows q dist) := by
  rw [expandLayer_eq]
  apply foldlM_visit uniform
  intro e he
  exact same e.1 (mem_scanned.mp (show (e.1, e.2) ∈ _ from he)).1

theorem toInt_add_eq {a b : Int32} (lo : -2 ^ 31 ≤ a.toInt + b.toInt)
    (hi : a.toInt + b.toInt < 2 ^ 31) : (a + b).toInt = a.toInt + b.toInt := by
  rw [Int32.toInt_add]
  exact Int.bmod_eq_of_le (by omega) (by omega)

theorem toInt_sub_eq {a b : Int32} (lo : -2 ^ 31 ≤ a.toInt - b.toInt)
    (hi : a.toInt - b.toInt < 2 ^ 31) : (a - b).toInt = a.toInt - b.toInt := by
  rw [Int32.toInt_sub]
  exact Int.bmod_eq_of_le (by omega) (by omega)

/-- A side whose labels carry the given sign, as long as they fit into 32 bits. -/
structure Signed (ε : Int) (side : Side) : Prop where
  sign : ε = 1 ∨ ε = -1
  fresh : ∀ (d : Int32) (k : ℕ), d.toInt = ε * (k + 1) → k + 2 < 2 ^ 31 →
    (side.fresh d).toInt = ε * (k + 2)
  met : ∀ d : Int32, side.met d = true ↔ ε * d.toInt < 0
  length : ∀ (dx dv : Int32) (i j : ℕ), dx.toInt = ε * (i + 1) → dv.toInt = -ε * (j + 1) →
    i + j + 2 < 2 ^ 31 → (side.length dx dv).toInt = i + j + 1

theorem srcSide_signed : Signed 1 srcSide := by
  refine ⟨Or.inl rfl, ?_, ?_, ?_⟩
  · intro d k hd hk
    have h1 := Int32.toInt_one
    rw [srcSide, toInt_add_eq (by omega) (by omega)]
    omega
  · intro d
    simp [srcSide, Int32.lt_iff_toInt_lt]
  · intro dx dv i j hx hv hij
    have h1 := Int32.toInt_one
    have hsub : (dx - dv).toInt = dx.toInt - dv.toInt := toInt_sub_eq (by omega) (by omega)
    rw [srcSide, toInt_sub_eq (by omega) (by omega)]
    omega

theorem dstSide_signed : Signed (-1) dstSide := by
  refine ⟨Or.inr rfl, ?_, ?_, ?_⟩
  · intro d k hd hk
    have h1 := Int32.toInt_one
    rw [dstSide, toInt_sub_eq (by omega) (by omega)]
    omega
  · intro d
    simp [dstSide, Int32.lt_iff_toInt_lt]
  · intro dx dv i j hx hv hij
    have h1 := Int32.toInt_one
    have hsub : (dv - dx).toInt = dv.toInt - dx.toInt := toInt_sub_eq (by omega) (by omega)
    rw [dstSide, toInt_sub_eq (by omega) (by omega)]
    omega

/-- One side of the search around `c`: the labels of a ball, and its outermost layer. -/
structure Half (ε : Int) (knows : EdgeTable V V Unit) (c : V) (r : ℕ) (dist : V → Int32)
    (q : List V) : Prop where
  ball : ∀ v, 0 < ε * (dist v).toInt ↔ Ball (undirected knows) c r v
  label : ∀ v k, k ≤ r → Layer (undirected knows) c k v → (dist v).toInt = ε * (k + 1)
  queue : ∀ v, v ∈ q ↔ Layer (undirected knows) c r v

/-- The labels around `c` fit into 32 bits as long as the ball does not contain `c'`. -/
def Fits (knows : EdgeTable V V Unit) (c c' : V) : Prop :=
  ∀ v k, Layer (undirected knows) c k v → ¬ Ball (undirected knows) c k c' → k + 2 < 2 ^ 31

theorem fits_of_card [Fintype V] (small : Fintype.card V < 2 ^ 31)
    (knows : EdgeTable V V Unit) (c c' : V) : Fits knows c c' := by
  intro v k hv far
  have := hv.add_two_le_card far
  omega

section Expansion
variable {ε : Int} {side : Side} {knows : EdgeTable V V Unit} {c c' : V} {r r' : ℕ}
variable {dist : V → Int32} {q q' : List V}

theorem Half.center_outside (near : Half ε knows c r dist q)
    (far : Half (-ε) knows c' r' dist q') : ¬ Ball (undirected knows) c r c' := by
  intro h
  have h1 := (near.ball c').mpr h
  have h2 := (far.ball c').mpr ((layer_zero_iff.mpr rfl).ball (Nat.zero_le r'))
  rw [Int.neg_mul] at h2
  omega

/-- The common label of a nonempty queue. -/
theorem Half.uniform (signed : Signed ε side) (near : Half ε knows c r dist q)
    (far : Half (-ε) knows c' r' dist q') (fits : Fits knows c c') {x : V} (hx : x ∈ q) :
    Uniform side (dist x) ∧ (side.fresh (dist x)).toInt = ε * (r + 2) ∧
      ∀ y ∈ q, dist y = dist x := by
  have hlayer := (near.queue x).mp hx
  have hlabel := near.label x r le_rfl hlayer
  have hfresh := signed.fresh (dist x) r hlabel
    (fits x r hlayer (near.center_outside far))
  refine ⟨⟨?_, ?_, ?_⟩, hfresh, ?_⟩
  · intro h
    rw [h, Int32.toInt_zero] at hlabel
    rcases signed.sign with rfl | rfl <;> omega
  · intro h
    rw [h, Int32.toInt_zero] at hfresh
    rcases signed.sign with rfl | rfl <;> omega
  · rw [← Bool.not_eq_true, signed.met, hfresh]
    rcases signed.sign with rfl | rfl <;> omega
  · intro y hy
    apply Int32.toInt_inj.mp
    rw [hlabel, near.label y r le_rfl ((near.queue y).mp hy)]

/-- An edge into the other side closes a path, and no shorter one exists. -/
theorem expandLayer_error (signed : Signed ε side) (near : Half ε knows c r dist q)
    (far : Half (-ε) knows c' r' dist q') (fits : Fits knows c c') {x : V} (hx : x ∈ q)
    {len : Int32} (h : expandLayer side knows q dist = .error len)
    (bound : ∀ d, Layer (undirected knows) c d c' → d + 1 < 2 ^ 31) :
    ∃ d, Layer (undirected knows) c d c' ∧ len.toInt = d := by
  obtain ⟨uniform, _, same⟩ := near.uniform signed far fits hx
  have outcome := expandLayer_outcome uniform knows same
  rw [h] at outcome
  obtain ⟨v, hv, hmet, hlen⟩ := outcome
  obtain ⟨y, hy, hyv⟩ := mem_scanned_targets.mp hv
  have hcy := (near.queue y).mp hy
  have hneg : ε * (dist v).toInt < 0 := (signed.met _).mp hmet
  obtain ⟨j, hj, hjv⟩ := ((far.ball v).mp (by rw [Int.neg_mul]; omega)).layer
  obtain ⟨i, hi, hcv⟩ := (hyv.ball_succ (hcy.ball le_rfl)).layer
  obtain ⟨d, hd⟩ := exists_layer_of_reachable (hcv.reachable.trans hjv.symm.reachable)
  have upper := hcv.triangle hjv.symm hd
  have lower : r + r' < d := by
    by_contra hshort
    obtain ⟨m, hm, hmc⟩ := exists_layer_between (i := min d r) (j := d - min d r)
      (by rwa [show min d r + (d - min d r) = d by omega])
    have h1 := (near.ball m).mpr (hm.ball (by omega))
    have h2 := (far.ball m).mpr (hmc.symm.ball (by omega))
    rw [Int.neg_mul] at h2
    omega
  have hdij : d = r + j + 1 := by omega
  refine ⟨d, hd, ?_⟩
  have hx' := near.label x r le_rfl ((near.queue x).mp hx)
  have hv' := far.label v j hj hjv
  rw [hlen, signed.length _ _ r j hx' hv' (by have := bound d hd; omega)]
  omega

/-- A scan without an early return meets unlabelled persons exactly outside the ball. -/
theorem Half.blank_iff (signed : Signed ε side) (near : Half ε knows c r dist q)
    {label : Int32} {after : Layering V} (fills : Fills side label (scanned knows q) (dist, []) after)
    {v : V} (hv : v ∈ (scanned knows q).map Prod.snd) :
    dist v = 0 ↔ ¬ Ball (undirected knows) c r v := by
  rw [← near.ball v]
  constructor
  · intro h0
    rw [h0, Int32.toInt_zero]
    omega
  · intro hpos
    by_contra hne
    have hmet : side.met (dist v) = false := fills.unmet v hv hne
    rw [← Bool.not_eq_true, signed.met] at hmet
    apply hne
    apply Int32.toInt_inj.mp
    rw [Int32.toInt_zero]
    rcases signed.sign with rfl | rfl <;> omega

/-- The persons labelled and queued by an expansion are the next layer. -/
structure NextLabelled (ε : Int) (knows : EdgeTable V V Unit) (c : V) (r : ℕ)
    (dist dist' : V → Int32) (tmp : List V) : Prop where
  blank : ∀ v, Layer (undirected knows) c (r + 1) v → dist v = 0
  fresh : ∀ v, Layer (undirected knows) c (r + 1) v → (dist' v).toInt = ε * (r + 2)
  kept : ∀ v, ¬ Layer (undirected knows) c (r + 1) v → dist' v = dist v
  queue : ∀ v, v ∈ tmp ↔ Layer (undirected knows) c (r + 1) v

theorem expandLayer_next (signed : Signed ε side) (near : Half ε knows c r dist q)
    (far : Half (-ε) knows c' r' dist q') (fits : Fits knows c c') {x : V} (hx : x ∈ q)
    {dist' : V → Int32} {tmp : List V}
    (h : expandLayer side knows q dist = .ok (dist', tmp)) :
    NextLabelled ε knows c r dist dist' tmp := by
  obtain ⟨uniform, hfresh, same⟩ := near.uniform signed far fits hx
  have fills : Fills side (dist x) (scanned knows q) (dist, []) (dist', tmp) := by
    have outcome := expandLayer_outcome uniform knows same
    rwa [h] at outcome
  have new_iff : ∀ v, Layer (undirected knows) c (r + 1) v ↔
      dist v = 0 ∧ v ∈ (scanned knows q).map Prod.snd := by
    intro v
    have target : v ∈ (scanned knows q).map Prod.snd ↔
        ∃ u, Layer (undirected knows) c r u ∧ Joined knows u v := by
      rw [mem_scanned_targets]
      simp only [near.queue]
    rw [layer_succ_joined, ← target]
    exact and_congr_left fun hv => (near.blank_iff signed fills hv).symm
  refine ⟨fun v hv => ((new_iff v).mp hv).1, ?_, ?_, ?_⟩
  · intro v hv
    obtain ⟨h0, hmem⟩ := (new_iff v).mp hv
    have hlabel : dist' v = side.fresh (dist x) := fills.labelled v hmem h0
    rw [hlabel, hfresh]
  · intro v hv
    apply fills.kept v
    by_cases h0 : dist v = 0
    · exact Or.inr fun hmem => hv ((new_iff v).mpr ⟨h0, hmem⟩)
    · exact Or.inl h0
  · intro v
    rw [fills.queued v, new_iff v]
    simp

section Next
variable {dist' : V → Int32} {tmp : List V}

theorem NextLabelled.grown (next : NextLabelled ε knows c r dist dist' tmp)
    (sign : ε = 1 ∨ ε = -1) (near : Half ε knows c r dist q) :
    Half ε knows c (r + 1) dist' tmp where
  ball v := by
    rw [ball_succ_iff]
    by_cases hv : Layer (undirected knows) c (r + 1) v
    · rw [next.fresh v hv]
      simp only [hv, or_true, iff_true]
      rcases sign with rfl | rfl <;> omega
    · rw [next.kept v hv, near.ball v]
      simp [hv]
  label v k hk hv := by
    by_cases hkr : k = r + 1
    · subst hkr
      rw [next.fresh v hv]
      push_cast
      ring
    · rw [next.kept v fun h => hkr (hv.unique h)]
      exact near.label v k (by omega) hv
  queue := next.queue

/-- The other side has no unlabelled person, so it keeps its labels. -/
theorem NextLabelled.other (next : NextLabelled ε knows c r dist dist' tmp)
    (sign : ε = 1 ∨ ε = -1) (far : Half (-ε) knows c' r' dist q') :
    Half (-ε) knows c' r' dist' q' where
  ball v := by
    by_cases hv : Layer (undirected knows) c (r + 1) v
    · rw [next.fresh v hv, ← far.ball v, next.blank v hv, Int32.toInt_zero]
      rcases sign with rfl | rfl <;> omega
    · rw [next.kept v hv]
      exact far.ball v
  label v k hk hv := by
    have hne : ¬ Layer (undirected knows) c (r + 1) v := by
      intro hnew
      have hpos := (far.ball v).mpr (hv.ball hk)
      rw [next.blank v hnew, Int32.toInt_zero] at hpos
      omega
    rw [next.kept v hne]
    exact far.label v k hk hv
  queue := far.queue

end Next

/-- Without such an edge the ball grows by one layer, and the other side is kept. -/
theorem expandLayer_ok (signed : Signed ε side) (near : Half ε knows c r dist q)
    (far : Half (-ε) knows c' r' dist q') (fits : Fits knows c c') {x : V} (hx : x ∈ q)
    {dist' : V → Int32} {tmp : List V}
    (h : expandLayer side knows q dist = .ok (dist', tmp)) :
    Half ε knows c (r + 1) dist' tmp ∧ Half (-ε) knows c' r' dist' q' := by
  have next := expandLayer_next signed near far fits hx h
  exact ⟨next.grown signed.sign near, next.other signed.sign far⟩

end Expansion

/-- The labels of both searches and the length between the two ends fit into 32 bits. -/
structure LabelsFit (knows : EdgeTable V V Unit) (src dst : V) : Prop where
  fromSrc : Fits knows src dst
  fromDst : Fits knows dst src
  between : ∀ d, Layer (undirected knows) src d dst → d + 1 < 2 ^ 31

theorem labelsFit_of_card [Fintype V] (small : Fintype.card V < 2 ^ 31)
    (knows : EdgeTable V V Unit) (src dst : V) : LabelsFit knows src dst := by
  refine ⟨fits_of_card small knows src dst, fits_of_card small knows dst src, ?_⟩
  intro d hd
  have := hd.lt_card
  omega

/-- The invariant of the loop: two labelled balls that do not meet. -/
def Searching (knows : EdgeTable V V Unit) (src dst : V) (st : State V) : Prop :=
  ∃ s t, Half 1 knows src s st.dist st.q1 ∧ Half (-1) knows dst t st.dist st.q2

def Answer (knows : EdgeTable V V Unit) (src dst : V) (r : Int32) : Prop :=
  (∀ d, Layer (undirected knows) src d dst → r.toInt = d) ∧
    (¬ (undirected knows).Reachable src dst → r = -1)

theorem start_searching (knows : EdgeTable V V Unit) {src dst : V} (different : src ≠ dst) :
    Searching knows src dst (start src dst) := by
  have hone := Int32.toInt_one
  have hneg : (-1 : Int32).toInt = -1 := rfl
  have hdst : (start src dst).dist dst = -1 := by simp [start]
  have hsrc : (start src dst).dist src = 1 := by simp [start, different]
  have hother : ∀ v, v ≠ src → v ≠ dst → (start src dst).dist v = 0 := by
    intro v h1 h2
    simp [start, h1, h2]
  refine ⟨0, 0, ⟨?_, ?_, ?_⟩, ⟨?_, ?_, ?_⟩⟩
  · intro v
    rw [ball_zero_iff]
    by_cases h1 : v = src
    · simp [h1, hsrc, hone]
    · by_cases h2 : v = dst
      · simp [h2, hdst, hneg, Ne.symm different]
      · simp [h1, hother v h1 h2]
  · intro v k hk hv
    obtain rfl : k = 0 := by omega
    rw [layer_zero_iff.mp hv, hsrc, hone]
    rfl
  · intro v
    rw [layer_zero_iff]
    simp [start]
  · intro v
    rw [ball_zero_iff]
    by_cases h2 : v = dst
    · simp [h2, hdst, hneg]
    · by_cases h1 : v = src
      · simp [h1, hsrc, hone, different]
      · simp [h2, hother v h1 h2]
  · intro v k hk hv
    obtain rfl : k = 0 := by omega
    rw [layer_zero_iff.mp hv, hdst, hneg]
    rfl
  · intro v
    rw [layer_zero_iff]
    simp [start]

variable [Fintype V]

def unlabelled (dist : V → Int32) : Finset V := Finset.univ.filter (fun v => dist v = 0)

theorem expandLayer_progress {side : Side} {label : Int32} (uniform : Uniform side label)
    {knows : EdgeTable V V Unit} {q : List V} {dist dist' : V → Int32} {tmp : List V}
    (same : ∀ x ∈ q, dist x = label)
    (h : expandLayer side knows q dist = .ok (dist', tmp)) :
    (unlabelled dist').card + (if tmp = [] then 0 else 1) ≤ (unlabelled dist).card := by
  have fills : Fills side label (scanned knows q) (dist, []) (dist', tmp) := by
    have outcome := expandLayer_outcome uniform knows same
    rwa [h] at outcome
  have sub : unlabelled dist' ⊆ unlabelled dist := by
    intro v hv
    simp only [unlabelled, Finset.mem_filter, Finset.mem_univ, true_and] at hv ⊢
    by_contra hne
    exact hne ((fills.kept v (Or.inl hne)).symm.trans hv)
  by_cases hnil : tmp = []
  · simpa [hnil] using Finset.card_le_card sub
  · obtain ⟨v, hv⟩ := List.exists_mem_of_ne_nil tmp hnil
    have hnew := (fills.queued v).mp hv
    have hnew' : dist v = 0 ∧ v ∈ (scanned knows q).map Prod.snd := by simpa using hnew
    have hlab : dist' v = side.fresh label := fills.labelled v hnew'.2 hnew'.1
    rw [if_neg hnil]
    apply Finset.card_lt_card
    refine Finset.ssubset_iff_subset_ne.mpr ⟨sub, fun heq => ?_⟩
    have hmem : v ∈ unlabelled dist' := by
      rw [heq]
      simpa [unlabelled] using hnew'.1
    simp only [unlabelled, Finset.mem_filter, Finset.mem_univ, true_and] at hmem
    exact uniform.fresh_ne (hlab.symm.trans hmem)

/-- Unlabelled persons, and one more while neither queue is empty. -/
def remaining (st : State V) : Nat :=
  (unlabelled st.dist).card + if st.q1 = [] ∨ st.q2 = [] then 0 else 1

omit [Fintype V] in
/-- An exhausted side has not met the other one, so there is no path. -/
theorem answer_of_exhausted {ε : Int} {knows : EdgeTable V V Unit} {c c' : V} {r r' : ℕ}
    {dist : V → Int32} {q' : List V} (near : Half ε knows c r dist [])
    (far : Half (-ε) knows c' r' dist q') : ¬ (undirected knows).Reachable c c' := by
  intro h
  apply near.center_outside far
  apply ball_of_layer_empty _ h
  intro u hu
  have := (near.queue u).mpr hu
  simp at this

theorem step_progress {knows : EdgeTable V V Unit} {src dst : V}
    (fit : LabelsFit knows src dst) (st : State V) (inv : Searching knows src dst st) :
    Progress (Searching knows src dst) (Answer knows src dst) remaining st
      (step knows st) := by
  obtain ⟨s, t, hs, ht⟩ := inv
  have hs' : Half (-(-1)) knows src s st.dist st.q1 := hs
  have bound : ∀ d, Layer (undirected knows) dst d src → d + 1 < 2 ^ 31 :=
    fun d hd => fit.between d hd.symm
  by_cases hsize : st.q1.length ≤ st.q2.length
  · by_cases hq1 : st.q1 = []
    · rw [step, if_pos hsize, if_pos hq1]
      rw [hq1] at hs
      have none := answer_of_exhausted hs ht
      exact ⟨fun d hd => False.elim (none hd.reachable), fun _ => rfl⟩
    · obtain ⟨x, hx⟩ := List.exists_mem_of_ne_nil _ hq1
      have hq2 : st.q2 ≠ [] := by
        intro h
        rw [h] at hsize
        exact hq1 (List.eq_nil_of_length_eq_zero (Nat.le_zero.mp hsize))
      rw [step, if_pos hsize, if_neg hq1]
      cases h : expandLayer srcSide knows st.q1 st.dist with
      | error len =>
        obtain ⟨d, hd, hlen⟩ :=
          expandLayer_error srcSide_signed hs ht fit.fromSrc hx h fit.between
        exact ⟨fun e he => by rw [hlen, hd.unique he],
          fun none => False.elim (none hd.reachable)⟩
      | ok out =>
        obtain ⟨grown, kept⟩ := expandLayer_ok srcSide_signed hs ht fit.fromSrc hx h
        obtain ⟨uniform, _, same⟩ := hs.uniform srcSide_signed ht fit.fromSrc hx
        have hdec := expandLayer_progress uniform same h
        refine ⟨⟨s + 1, t, grown, kept⟩, ?_⟩
        simp only [remaining, hq1, hq2, or_self, or_false, if_false]
        omega
  · have hq1 : st.q1 ≠ [] := by
      intro h
      rw [h] at hsize
      exact hsize (Nat.zero_le _)
    by_cases hq2 : st.q2 = []
    · rw [step, if_neg hsize, if_pos hq2]
      rw [hq2] at ht
      have none := answer_of_exhausted ht hs'
      exact ⟨fun d hd => False.elim (none hd.symm.reachable), fun _ => rfl⟩
    · obtain ⟨x, hx⟩ := List.exists_mem_of_ne_nil _ hq2
      rw [step, if_neg hsize, if_neg hq2]
      cases h : expandLayer dstSide knows st.q2 st.dist with
      | error len =>
        obtain ⟨d, hd, hlen⟩ := expandLayer_error dstSide_signed ht hs' fit.fromDst hx h bound
        exact ⟨fun e he => by rw [hlen, hd.unique he.symm],
          fun none => False.elim (none hd.symm.reachable)⟩
      | ok out =>
        obtain ⟨grown, kept⟩ := expandLayer_ok dstSide_signed ht hs' fit.fromDst hx h
        obtain ⟨uniform, _, same⟩ := ht.uniform dstSide_signed hs' fit.fromDst hx
        have hdec := expandLayer_progress uniform same h
        refine ⟨⟨s, t + 1, kept, grown⟩, ?_⟩
        simp only [remaining, hq1, hq2, or_self, false_or, if_false]
        omega

/-- Two passes more than there are persons are enough, and then the answer is right. -/
theorem shortestPathLength_answer {knows : EdgeTable V V Unit} {src dst : V}
    (fit : LabelsFit knows src dst) {fuel : Nat} (enough : Fintype.card V + 2 ≤ fuel) :
    ∃ r, shortestPathLength fuel knows src dst = some r ∧ Answer knows src dst r := by
  by_cases different : src = dst
  · subst different
    refine ⟨0, by simp [shortestPathLength], ?_, ?_⟩
    · intro d hd
      rw [Int32.toInt_zero]
      exact congrArg Nat.cast ((layer_zero_iff.mpr rfl).unique hd)
    · intro none
      exact False.elim (none (SimpleGraph.Reachable.refl src))
  · rw [shortestPathLength, if_neg different]
    apply loop_total (Searching knows src dst) (Answer knows src dst) remaining
      (step_progress fit) (start_searching knows different)
    have hcard : (unlabelled (start src dst).dist).card ≤ Fintype.card V :=
      Finset.card_le_univ _
    rw [remaining]
    split_ifs <;> omega

omit [DecidableEq V] [Fintype V] in
theorem layer_dist {G : SimpleGraph V} {s v : V} (h : G.Reachable s v) :
    Layer G s (G.dist s v) v := by
  obtain ⟨k, hk⟩ := exists_layer_of_reachable h
  have hdist : G.dist s v = k := by
    rw [Layer] at hk
    rw [SimpleGraph.dist, hk, ENat.toNat_natCast]
  rwa [hdist]

omit [Fintype V] in
theorem Answer.spec {knows : EdgeTable V V Unit} {src dst : V} {r : Int32}
    (answer : Answer knows src dst r) :
    (r.toInt = -1 ↔ ¬ (undirected knows).Reachable src dst) ∧
      ((undirected knows).Reachable src dst → r.toInt = (undirected knows).dist src dst) := by
  have found : (undirected knows).Reachable src dst →
      r.toInt = (undirected knows).dist src dst := fun h => answer.1 _ (layer_dist h)
  refine ⟨⟨?_, ?_⟩, found⟩
  · intro hr h
    have := found h
    omega
  · intro h
    rw [answer.2 h]
    rfl

end IC13

/-- The function returns after at most `personNum + 2` passes: the length of a shortest
undirected KNOWS path, or -1 exactly when there is none. -/
theorem shortestPathLength_correct (G : Graph) (small : G.personNum < 2 ^ 31)
    (src dst : G.Person) (fuel : Nat) (enough : G.personNum + 2 ≤ fuel) :
    ∃ r, IC13.shortestPathLength fuel G.knows src dst = some r ∧
      (src = dst → r = 0) ∧
      (r.toInt = -1 ↔ ¬ (undirected G.knows).Reachable src dst) ∧
      ((undirected G.knows).Reachable src dst →
        r.toInt = (undirected G.knows).dist src dst) := by
  have fit : IC13.LabelsFit G.knows src dst :=
    IC13.labelsFit_of_card (by rwa [Fintype.card_fin]) G.knows src dst
  have budget : Fintype.card G.Person + 2 ≤ fuel := by rwa [Fintype.card_fin]
  obtain ⟨r, hr, answer⟩ := IC13.shortestPathLength_answer fit budget
  refine ⟨r, hr, ?_, answer.spec⟩
  intro hsame
  rw [IC13.shortestPathLength, if_pos hsame] at hr
  exact (Option.some.inj hr).symm

theorem shortestPathLength_correct_path :
    let knows := (Graph.ofKnows 3 (by decide) [(0, 1), (1, 2)]).knows
    let src : Fin 3 := 2
    let dst : Fin 3 := 0
    ∃ r, IC13.shortestPathLength 5 knows src dst = some r ∧ (src = dst → r = 0) ∧
      (r.toInt = -1 ↔ ¬ (undirected knows).Reachable src dst) ∧
      ((undirected knows).Reachable src dst →
        r.toInt = (undirected knows).dist src dst) :=
  shortestPathLength_correct (Graph.ofKnows 3 (by decide) [(0, 1), (1, 2)]) (by decide)
    (2 : Fin 3) (0 : Fin 3) 5 (by decide)

end LdbcInteractive
