import LdbcInteractive.IC14Search

/-!
# IC14: the marked persons and the paths

The marking phase starts from one full layer of the geodesics and follows labels
backwards on both sides. It rewrites labels on the target side while it reads them,
so the invariant speaks of the labels of the marked persons only. The enumeration
that follows is independent of how its labels came about.
-/

namespace LdbcInteractive

open EdgeTables GraphDistance Loops

namespace IC14

section Marking
variable {V : Type} [DecidableEq V]

/-- The two tests of `markEdge`: `nbr` is one label behind `v` on either side. -/
def behindSrc (st : MarkState V) (v nbr : V) : Prop :=
  st.distFromSrc nbr ≠ -1 ∧ (st.distFromSrc nbr).toInt + 1 = (st.distFromSrc v).toInt

def behindDst (distFromDst : V → Int8) (v nbr : V) : Prop :=
  distFromDst nbr ≠ -1 ∧ (distFromDst nbr).toInt + 1 = (distFromDst v).toInt

instance (st : MarkState V) (v nbr : V) : Decidable (behindSrc st v nbr) :=
  inferInstanceAs (Decidable (_ ∧ _))

instance (distFromDst : V → Int8) (v nbr : V) : Decidable (behindDst distFromDst v nbr) :=
  inferInstanceAs (Decidable (_ ∧ _))

theorem markEdge_old {distFromDst : V → Int8} {v nbr : V} {st : MarkState V}
    (old : st.onPath nbr = true) : markEdge distFromDst v st nbr = st := by
  simp [markEdge, old]

/-- A neighbour that passes both tests is queued twice. -/
theorem markEdge_new {distFromDst : V → Int8} {v nbr : V} {st : MarkState V}
    (new : st.onPath nbr ≠ true) :
    markEdge distFromDst v st nbr =
      if behindDst distFromDst v nbr then
        { onPath := Function.update st.onPath nbr true
          distFromSrc := Function.update st.distFromSrc nbr (st.distFromSrc v + 1)
          frontier := st.frontier ++ if behindSrc st v nbr then [nbr, nbr] else [nbr] }
      else if behindSrc st v nbr then
        { st with
          onPath := Function.update st.onPath nbr true
          frontier := st.frontier ++ [nbr] }
      else st := by
  by_cases hsrc : behindSrc st v nbr
  · have hsrc' := hsrc
    simp only [behindSrc] at hsrc'
    by_cases hdst : behindDst distFromDst v nbr
    · have hdst' := hdst
      simp only [behindDst] at hdst'
      simp [markEdge, new, hsrc, hdst, hsrc', hdst']
    · have hdst' := hdst
      simp only [behindDst] at hdst'
      simp [markEdge, new, hsrc, hdst, hsrc', hdst']
  · have hsrc' := hsrc
    simp only [behindSrc] at hsrc'
    by_cases hdst : behindDst distFromDst v nbr
    · have hdst' := hdst
      simp only [behindDst] at hdst'
      simp [markEdge, new, hsrc, hdst, hsrc', hdst']
    · have hdst' := hdst
      simp only [behindDst] at hdst'
      simp [markEdge, new, hsrc, hdst, hsrc', hdst']

/-- What a list of edges can do to the marks. -/
structure Extends (st st' : MarkState V) : Prop where
  kept : ∀ u, st.onPath u = true → st'.onPath u = true
  label : ∀ u, st.onPath u = true → st'.distFromSrc u = st.distFromSrc u
  queued : ∀ u ∈ st.frontier, u ∈ st'.frontier
  new : ∀ u, st'.onPath u = true → st.onPath u = true ∨ u ∈ st'.frontier

omit [DecidableEq V] in
theorem Extends.refl (st : MarkState V) : Extends st st :=
  ⟨fun _ h => h, fun _ _ => rfl, fun _ h => h, fun _ h => Or.inl h⟩

omit [DecidableEq V] in
theorem Extends.trans {st st' st'' : MarkState V} (first : Extends st st')
    (second : Extends st' st'') : Extends st st'' := by
  refine ⟨?_, ?_, ?_, ?_⟩
  · exact fun u hu => second.kept u (first.kept u hu)
  · exact fun u hu => (second.label u (first.kept u hu)).trans (first.label u hu)
  · exact fun u hu => second.queued u (first.queued u hu)
  · intro u hu
    rcases second.new u hu with hu | hu
    · rcases first.new u hu with hu | hu
      · exact Or.inl hu
      · exact Or.inr (second.queued u hu)
    · exact Or.inr hu

theorem extends_update {st : MarkState V} {nbr : V} (new : st.onPath nbr ≠ true)
    {label : V → Int8} (same : ∀ u, u ≠ nbr → label u = st.distFromSrc u)
    {more : List V} (hmore : nbr ∈ more) :
    Extends st ⟨Function.update st.onPath nbr true, label, st.frontier ++ more⟩ := by
  have ne_nbr : ∀ u, st.onPath u = true → u ≠ nbr := by
    rintro u hu rfl
    exact new hu
  refine ⟨?_, ?_, ?_, ?_⟩
  · intro u hu
    simp [ne_nbr u hu, hu]
  · exact fun u hu => same u (ne_nbr u hu)
  · exact fun u hu => List.mem_append_left _ hu
  · intro u hu
    by_cases hnbr : u = nbr
    · exact Or.inr (List.mem_append_right _ (hnbr ▸ hmore))
    · simp only [Function.update_of_ne hnbr] at hu
      exact Or.inl hu

theorem markEdge_extends (distFromDst : V → Int8) (v : V) (st : MarkState V) (nbr : V) :
    Extends st (markEdge distFromDst v st nbr) := by
  by_cases old : st.onPath nbr = true
  · rw [markEdge_old old]
    exact Extends.refl st
  · rw [markEdge_new old]
    split
    · apply extends_update old
      · exact fun u hu => Function.update_of_ne hu _ _
      · split <;> simp
    · split
      · exact extends_update old (fun _ _ => rfl) (by simp)
      · exact Extends.refl st

/-- Unmarked persons, three times each, and the queue. -/
def markMeasure [Fintype V] (st : MarkState V) : Nat :=
  3 * (Finset.univ.filter (fun v => st.onPath v = false)).card + st.frontier.length

theorem markMeasure_update [Fintype V] {st : MarkState V} {nbr : V}
    (new : st.onPath nbr ≠ true) (label : V → Int8) {more : List V} (few : more.length ≤ 2) :
    markMeasure ⟨Function.update st.onPath nbr true, label, st.frontier ++ more⟩ ≤
      markMeasure st := by
  have hnbr : nbr ∈ Finset.univ.filter (fun v => st.onPath v = false) := by simpa using new
  have fewer : Finset.univ.filter (fun u => Function.update st.onPath nbr true u = false) =
      (Finset.univ.filter (fun v => st.onPath v = false)).erase nbr := by
    ext u
    by_cases hu : u = nbr <;> simp [hu]
  have hcard := Finset.card_erase_add_one hnbr
  rw [← fewer] at hcard
  simp only [markMeasure, List.length_append]
  omega

theorem markEdge_measure [Fintype V] (distFromDst : V → Int8) (v : V) (st : MarkState V)
    (nbr : V) : markMeasure (markEdge distFromDst v st nbr) ≤ markMeasure st := by
  by_cases old : st.onPath nbr = true
  · rw [markEdge_old old]
  · rw [markEdge_new old]
    split
    · apply markMeasure_update old
      split <;> simp
    · split
      · exact markMeasure_update old _ (by simp)
      · exact le_rfl

theorem foldl_markEdge_measure [Fintype V] (distFromDst : V → Int8) (v : V) (nbrs : List V)
    (st : MarkState V) :
    markMeasure (nbrs.foldl (markEdge distFromDst v) st) ≤ markMeasure st := by
  induction nbrs generalizing st with
  | nil => exact le_rfl
  | cons nbr rest ih => exact (ih _).trans (markEdge_measure distFromDst v st nbr)

theorem markStep_cons {knows : EdgeTable V V Unit} {distFromDst : V → Int8}
    {st : MarkState V} {v : V} {rest : List V} (h : st.frontier = v :: rest) :
    markStep knows distFromDst st = .next ((knows.outgoing v ++ knows.incoming v).foldl
      (markEdge distFromDst v) { st with frontier := rest }) := by
  rw [markStep, h, List.foldl_append]

theorem markStep_nil {knows : EdgeTable V V Unit} {distFromDst : V → Int8}
    {st : MarkState V} (h : st.frontier = []) : markStep knows distFromDst st = .done st := by
  rw [markStep, h]

theorem markStep_next {knows : EdgeTable V V Unit} {distFromDst : V → Int8}
    {st st' : MarkState V} (h : markStep knows distFromDst st = .next st') :
    ∃ v rest, st.frontier = v :: rest ∧
      st' = (knows.outgoing v ++ knows.incoming v).foldl (markEdge distFromDst v)
        { st with frontier := rest } := by
  cases hfront : st.frontier with
  | nil =>
    rw [markStep_nil hfront] at h
    cases h
  | cons v rest =>
    rw [markStep_cons hfront] at h
    exact ⟨v, rest, rfl, (Control.next.inj h).symm⟩

theorem markStep_done {knows : EdgeTable V V Unit} {distFromDst : V → Int8}
    {st r : MarkState V} (h : markStep knows distFromDst st = .done r) :
    r = st ∧ st.frontier = [] := by
  cases hfront : st.frontier with
  | nil =>
    rw [markStep_nil hfront] at h
    exact ⟨(Control.done.inj h).symm, rfl⟩
  | cons v rest =>
    rw [markStep_cons hfront] at h
    cases h

/-- Marking ends on every graph and from every labelling. -/
theorem mark_total [Fintype V] (knows : EdgeTable V V Unit) (distFromDst : V → Int8)
    (st : MarkState V) {fuel : Nat} (enough : markMeasure st < fuel) :
    ∃ r, loop (markStep knows distFromDst) fuel st = some r := by
  have progress : ∀ s, True → Progress (fun _ => True) (fun _ => True) markMeasure s
      (markStep knows distFromDst s) := by
    intro s _
    cases h : s.frontier with
    | nil => rw [markStep_nil h]; exact trivial
    | cons v rest =>
      rw [markStep_cons h]
      refine ⟨trivial, ?_⟩
      have hle := foldl_markEdge_measure distFromDst v
        (knows.outgoing v ++ knows.incoming v) { s with frontier := rest }
      have hpop : markMeasure { s with frontier := rest } < markMeasure s := by
        simp [markMeasure, h]
      exact lt_of_le_of_lt hle hpop
  obtain ⟨r, hr, _⟩ := loop_total _ _ markMeasure progress trivial enough
  exact ⟨r, hr⟩

section Invariant
variable {knows : EdgeTable V V Unit} {src dst : V} {s t : ℕ} {met : SearchState V}

/-- The marked persons lie on geodesics and carry their distance from the source. -/
structure Marking (knows : EdgeTable V V Unit) (src dst : V) (met : SearchState V)
    (st : MarkState V) : Prop where
  geodesic : ∀ v, st.onPath v = true → OnGeodesic (undirected knows) src dst v
  label : ∀ v k, st.onPath v = true → Layer (undirected knows) src k v →
    st.distFromSrc v = Int8.ofNat k
  unmarked : ∀ v, st.onPath v ≠ true → st.distFromSrc v = met.src.dist v
  meets : ∀ v ∈ met.meetPoints, st.onPath v = true
  frontier : ∀ v ∈ st.frontier, st.onPath v = true

/-- `u` is the predecessor of `v` in one of the two balls. -/
def Behind (knows : EdgeTable V V Unit) (src dst : V) (s t : ℕ) (v u : V) : Prop :=
  (∃ k, k < s ∧ Layer (undirected knows) src k u ∧ Layer (undirected knows) src (k + 1) v) ∨
    ∃ k, k < t ∧ Layer (undirected knows) dst k u ∧ Layer (undirected knows) dst (k + 1) v

theorem adj_of_layers {c u v : V} {k : ℕ} (h : Joined knows v u)
    (hu : Layer (undirected knows) c k u) (hv : Layer (undirected knows) c (k + 1) v) :
    (undirected knows).Adj u v := by
  refine (adj_iff knows u v).mpr ⟨?_, h.symm⟩
  rintro rfl
  have := hu.unique hv
  omega

/-- The labels that one side of the search has left, read as numbers. -/
theorem Grown.layer_of_label {c : V} {r : ℕ} {side : Side V} (grown : Grown knows c r side)
    (hr : r ≤ 127) {u : V} (hu : side.dist u ≠ -1) :
    ∃ k, k ≤ r ∧ Layer (undirected knows) c k u ∧ (side.dist u).toInt = k := by
  rw [ne_eq, grown.blank_iff (by omega), not_not] at hu
  obtain ⟨k, hk, hlayer⟩ := hu.layer
  exact ⟨k, hk, hlayer, by rw [grown.inside u k hk hlayer, toInt_ofNat_of_le (by omega)]⟩

theorem Marking.label_toInt {st : MarkState V} (marking : Marking knows src dst met st) {v : V}
    {k : ℕ} (hv : st.onPath v = true) (hk : Layer (undirected knows) src k v)
    (small : k ≤ 127) : (st.distFromSrc v).toInt = k := by
  rw [marking.label v k hv hk, toInt_ofNat_of_le small]

/-- An unmarked neighbour one label behind on the source side. -/
theorem behindSrc_iff (hmet : Met knows src dst s t met) (small : s + t ≤ 127)
    {st : MarkState V} (marking : Marking knows src dst met st) {v u : V}
    (hv : st.onPath v = true) (hvu : Joined knows v u) (hu : st.onPath u ≠ true) :
    behindSrc st v u ↔ ∃ k, k < s ∧ Layer (undirected knows) src k u ∧
      Layer (undirected knows) src (k + 1) v := by
  obtain ⟨i, j, hi, hj, hij⟩ := marking.geodesic v hv
  have hsum := hij.unique hmet.between
  have hlabel := marking.label_toInt hv hi (by omega)
  rw [behindSrc, marking.unmarked u hu, hlabel]
  constructor
  · rintro ⟨hseen, hstep⟩
    obtain ⟨k, hk, hlayer, hint⟩ := hmet.fromSrc.layer_of_label (by omega) hseen
    obtain rfl : i = k + 1 := by omega
    refine ⟨k, lt_of_le_of_ne hk ?_, hlayer, hi⟩
    rintro rfl
    -- In layer `s` all geodesic persons are meeting points, and those are marked.
    have geo := (marking.geodesic v hv).of_pred hi hlayer (adj_of_layers hvu hlayer hi)
    obtain ⟨_, hdst⟩ := geo.layer_target hmet.between hlayer
    exact hu (marking.meets u ((hmet.meets u).mpr ⟨hlayer, by simpa using hdst⟩))
  · rintro ⟨k, hk, hlayer, hlayer'⟩
    obtain rfl := hi.unique hlayer'
    have hdist := hmet.fromSrc.inside u k (by omega) hlayer
    rw [hdist, toInt_ofNat_of_le (by omega)]
    exact ⟨ofNat_ne_blank (by omega), by push_cast; rfl⟩

theorem behindDst_iff (hmet : Met knows src dst s t met) (small : s + t ≤ 127) {v u : V} :
    behindDst met.dst.dist v u ↔ ∃ k, k < t ∧ Layer (undirected knows) dst k u ∧
      Layer (undirected knows) dst (k + 1) v := by
  rw [behindDst]
  constructor
  · rintro ⟨hseen, hstep⟩
    obtain ⟨k, _, hlayer, hint⟩ := hmet.fromDst.layer_of_label (by omega) hseen
    have hv : met.dst.dist v ≠ -1 := by
      intro hblank
      rw [hblank, show (-1 : Int8).toInt = -1 from rfl] at hstep
      omega
    obtain ⟨j, hj, hlayer', hint'⟩ := hmet.fromDst.layer_of_label (by omega) hv
    obtain rfl : j = k + 1 := by omega
    exact ⟨k, by omega, hlayer, hlayer'⟩
  · rintro ⟨k, hk, hlayer, hlayer'⟩
    rw [hmet.fromDst.inside u k (by omega) hlayer,
      hmet.fromDst.inside v (k + 1) (by omega) hlayer', toInt_ofNat_of_le (by omega),
      toInt_ofNat_of_le (by omega)]
    exact ⟨ofNat_ne_blank (by omega), by push_cast; rfl⟩

/-- A new mark on a geodesic person with the right label keeps the invariant. -/
theorem Marking.mark {st : MarkState V} (marking : Marking knows src dst met st) {u : V}
    (geo : OnGeodesic (undirected knows) src dst u) {label : V → Int8}
    (same : ∀ w, w ≠ u → label w = st.distFromSrc w)
    (right : ∀ k, Layer (undirected knows) src k u → label u = Int8.ofNat k)
    {more : List V} (hmore : ∀ w ∈ more, w = u) :
    Marking knows src dst met
      ⟨Function.update st.onPath u true, label, st.frontier ++ more⟩ := by
  have onPath : ∀ w, w ≠ u → Function.update st.onPath u true w = st.onPath w :=
    fun w hw => Function.update_of_ne hw _ _
  have keep : ∀ w, st.onPath w = true → Function.update st.onPath u true w = true := by
    intro w hw
    by_cases hwu : w = u <;> simp [hwu, hw]
  refine ⟨?_, ?_, ?_, ?_, ?_⟩
  · intro w hw
    by_cases hwu : w = u
    · exact hwu ▸ geo
    · exact marking.geodesic w ((onPath w hwu).symm.trans hw)
  · intro w k hw hk
    by_cases hwu : w = u
    · exact hwu ▸ right k (hwu ▸ hk)
    · exact (same w hwu).trans (marking.label w k ((onPath w hwu).symm.trans hw) hk)
  · intro w hw
    have hwu : w ≠ u := by
      rintro rfl
      simp at hw
    exact (same w hwu).trans (marking.unmarked w (onPath w hwu ▸ hw))
  · exact fun w hw => keep w (marking.meets w hw)
  · intro w hw
    rcases List.mem_append.mp hw with hw | hw
    · exact keep w (marking.frontier w hw)
    · simp [hmore w hw]

/-- A predecessor on the target side is one step further away from the source. -/
theorem Marking.label_behindDst {st : MarkState V} (marking : Marking knows src dst met st)
    {v u : V} {k l : ℕ} (hv : st.onPath v = true)
    (hvt : Layer (undirected knows) dst (k + 1) v) (hut : Layer (undirected knows) dst k u)
    (geo : OnGeodesic (undirected knows) src dst u) (hl : Layer (undirected knows) src l u) :
    st.distFromSrc v + 1 = Int8.ofNat l := by
  obtain ⟨i, j, hi, hj, hij⟩ := marking.geodesic v hv
  obtain rfl := hj.unique hvt
  obtain ⟨a, b, ha, hb, hab⟩ := geo
  obtain rfl := ha.unique hl
  obtain rfl := hb.unique hut
  have hsum := hab.unique hij
  obtain rfl : a = i + 1 := by omega
  rw [marking.label v i hv hi, ofNat_succ]

/-- One edge keeps the invariant and marks the neighbour if it is a predecessor. -/
theorem Marking.markEdge (hmet : Met knows src dst s t met) (small : s + t ≤ 127)
    {st : MarkState V} (marking : Marking knows src dst met st) {v u : V}
    (hv : st.onPath v = true) (hvu : Joined knows v u) :
    Marking knows src dst met (IC14.markEdge met.dst.dist v st u) ∧
      (Behind knows src dst s t v u → (IC14.markEdge met.dst.dist v st u).onPath u = true) := by
  by_cases old : st.onPath u = true
  · rw [markEdge_old old]
    exact ⟨marking, fun _ => old⟩
  · have onSrc := behindSrc_iff hmet small marking hv hvu old
    have onDst := behindDst_iff hmet small (v := v) (u := u)
    rw [markEdge_new old]
    by_cases hdst : behindDst met.dst.dist v u
    · rw [if_pos hdst]
      obtain ⟨k, hk, hlayer, hlayer'⟩ := onDst.mp hdst
      have geo : OnGeodesic (undirected knows) src dst u :=
        ((marking.geodesic v hv).symm.of_pred hlayer' hlayer
          (adj_of_layers hvu hlayer hlayer')).symm
      refine ⟨marking.mark geo (fun w hw => Function.update_of_ne hw _ _) ?_ ?_,
        fun _ => Function.update_self _ _ _⟩
      · intro l hl
        rw [Function.update_self]
        exact marking.label_behindDst hv hlayer' hlayer geo hl
      · intro w hw
        split at hw <;> simpa using hw
    · rw [if_neg hdst]
      by_cases hsrc : behindSrc st v u
      · rw [if_pos hsrc]
        obtain ⟨k, hk, hlayer, hlayer'⟩ := onSrc.mp hsrc
        have geo := (marking.geodesic v hv).of_pred hlayer' hlayer
          (adj_of_layers hvu hlayer hlayer')
        refine ⟨marking.mark geo (fun _ _ => rfl) ?_ (by simp),
          fun _ => Function.update_self _ _ _⟩
        intro l hl
        obtain rfl := hl.unique hlayer
        rw [marking.unmarked u old]
        exact hmet.fromSrc.inside u l (by omega) hl
      · rw [if_neg hsrc]
        refine ⟨marking, ?_⟩
        rintro (hbehind | hbehind)
        · exact False.elim (hsrc (onSrc.mpr hbehind))
        · exact False.elim (hdst (onDst.mpr hbehind))

theorem foldl_markEdge_extends (distFromDst : V → Int8) (v : V) (nbrs : List V)
    (st : MarkState V) : Extends st (nbrs.foldl (IC14.markEdge distFromDst v) st) := by
  induction nbrs generalizing st with
  | nil => exact Extends.refl st
  | cons nbr rest ih => exact (markEdge_extends distFromDst v st nbr).trans (ih _)

/-- All edges of one person keep the invariant and mark all predecessors. -/
theorem Marking.edges (hmet : Met knows src dst s t met) (small : s + t ≤ 127) {v : V}
    (nbrs : List V) (joined : ∀ u ∈ nbrs, Joined knows v u) {st : MarkState V}
    (marking : Marking knows src dst met st) (hv : st.onPath v = true) :
    Marking knows src dst met (nbrs.foldl (IC14.markEdge met.dst.dist v) st) ∧
      ∀ u ∈ nbrs, Behind knows src dst s t v u →
        (nbrs.foldl (IC14.markEdge met.dst.dist v) st).onPath u = true := by
  induction nbrs generalizing st with
  | nil => exact ⟨marking, by simp⟩
  | cons u rest ih =>
    obtain ⟨first, found⟩ := marking.markEdge hmet small hv (joined u List.mem_cons_self)
    have hv' := (markEdge_extends met.dst.dist v st u).kept v hv
    obtain ⟨all, others⟩ := ih (fun w hw => joined w (List.mem_cons_of_mem u hw)) first hv'
    refine ⟨all, ?_⟩
    intro w hw hbehind
    rcases List.mem_cons.mp hw with rfl | hw
    · exact (foldl_markEdge_extends met.dst.dist v rest _).kept w (found hbehind)
    · exact others w hw hbehind

/-- The invariant of the marking loop: a processed person has its predecessors marked. -/
structure MarkLoop (knows : EdgeTable V V Unit) (src dst : V) (s t : ℕ)
    (met : SearchState V) (st : MarkState V) : Prop where
  marking : Marking knows src dst met st
  processed : ∀ v, st.onPath v = true → v ∉ st.frontier →
    ∀ u, Joined knows v u → Behind knows src dst s t v u → st.onPath u = true

theorem startMark_loop (hmet : Met knows src dst s t met) :
    MarkLoop knows src dst s t met (startMark met) := by
  have onPath : ∀ v, (startMark met).onPath v = true ↔ v ∈ met.meetPoints := by
    intro v
    simp [startMark, markAll_eq]
  refine ⟨⟨?_, ?_, fun _ _ => rfl, ?_, ?_⟩, ?_⟩
  · intro v hv
    obtain ⟨hs, ht⟩ := (hmet.meets v).mp ((onPath v).mp hv)
    exact ⟨s, t, hs, ht, hmet.between⟩
  · intro v k hv hk
    obtain ⟨hs, _⟩ := (hmet.meets v).mp ((onPath v).mp hv)
    obtain rfl := hs.unique hk
    exact hmet.fromSrc.inside v s le_rfl hk
  · exact fun v hv => (onPath v).mpr hv
  · exact fun v hv => (onPath v).mpr hv
  · exact fun v hv hnot => False.elim (hnot ((onPath v).mp hv))

theorem MarkLoop.next (hmet : Met knows src dst s t met) (small : s + t ≤ 127)
    {st st' : MarkState V} (inv : MarkLoop knows src dst s t met st)
    (h : markStep knows met.dst.dist st = .next st') : MarkLoop knows src dst s t met st' := by
  obtain ⟨v, rest, hfront, rfl⟩ := markStep_next h
  have hv : st.onPath v = true := inv.marking.frontier v (hfront ▸ List.mem_cons_self)
  have popped : Marking knows src dst met { st with frontier := rest } :=
    ⟨inv.marking.geodesic, inv.marking.label, inv.marking.unmarked, inv.marking.meets,
      fun w hw => inv.marking.frontier w (hfront ▸ List.mem_cons_of_mem v hw)⟩
  have joined : ∀ u ∈ knows.outgoing v ++ knows.incoming v, Joined knows v u :=
    fun u hu => List.mem_append.mp hu
  obtain ⟨marking, found⟩ := popped.edges hmet small _ joined hv
  have grown := foldl_markEdge_extends met.dst.dist v
    (knows.outgoing v ++ knows.incoming v) { st with frontier := rest }
  refine ⟨marking, ?_⟩
  intro w hw hnot u hwu hbehind
  by_cases hwv : w = v
  · subst hwv
    exact found u (List.mem_append.mpr hwu) hbehind
  · rcases grown.new w hw with hw | hw
    · have hout : w ∉ st.frontier := by
        rw [hfront, List.mem_cons, not_or]
        exact ⟨hwv, fun hrest => hnot (grown.queued w hrest)⟩
      exact grown.kept u (inv.processed w hw hout u hwu hbehind)
    · exact False.elim (hnot hw)

/-- Without a frontier the marks have spread from the meeting points over all geodesics. -/
theorem MarkLoop.onPath_of_geodesic (hmet : Met knows src dst s t met) {r : MarkState V}
    (inv : MarkLoop knows src dst s t met r) (empty : r.frontier = []) {v : V}
    (geo : OnGeodesic (undirected knows) src dst v) : r.onPath v = true := by
  have closed : ∀ v u, Joined knows u v → Behind knows src dst s t u v →
      r.onPath u = true → r.onPath v = true :=
    fun v u hjoin hbehind hu => inv.processed u hu (by simp [empty]) v hjoin hbehind
  have full : ∀ w, Layer (undirected knows) src s w → Layer (undirected knows) dst t w →
      r.onPath w = true :=
    fun w hs ht => inv.marking.meets w ((hmet.meets w).mpr ⟨hs, ht⟩)
  obtain ⟨i, j, hi, hj, hij⟩ := geo
  have hsum := hij.unique hmet.between
  rcases Nat.le_total i s with his | his
  · apply marked_of_closed hmet.between full _ (s - i) (by omega) hi
    · rwa [show t + (s - i) = j by omega]
    · intro w u k hk hw hu hadj
      exact closed w u ((adj_iff knows u w).mp hadj.symm).2 (Or.inl ⟨k, hk, hw, hu⟩)
  · have back : Layer (undirected knows) dst (t + s) src := by
      rw [Nat.add_comm]
      exact hmet.between.symm
    apply marked_of_closed back (fun w ht hs => full w hs ht) _ (t - j) (by omega) hj
    · rwa [show s + (t - j) = i by omega]
    · intro w u k hk hw hu hadj
      exact closed w u ((adj_iff knows u w).mp hadj.symm).2 (Or.inr ⟨k, hk, hw, hu⟩)

/-- At the end exactly the persons on geodesics are marked, with their distances. -/
theorem mark_geodesics (hmet : Met knows src dst s t met) (small : s + t ≤ 127) {fuel : Nat}
    {r : MarkState V} (h : loop (markStep knows met.dst.dist) fuel (startMark met) = some r) :
    (∀ v, r.onPath v = true ↔ OnGeodesic (undirected knows) src dst v) ∧
      ∀ v k, r.onPath v = true → Layer (undirected knows) src k v →
        (r.distFromSrc v).toInt = k := by
  have ends : MarkLoop knows src dst s t met r ∧ r.frontier = [] := by
    refine loop_post (MarkLoop knows src dst s t met)
      (fun r => MarkLoop knows src dst s t met r ∧ r.frontier = []) ?_ ?_
      (startMark_loop hmet) h
    · exact fun st st' inv hstep => inv.next hmet small hstep
    · intro st r inv hstep
      obtain ⟨rfl, empty⟩ := markStep_done hstep
      exact ⟨inv, empty⟩
  obtain ⟨inv, empty⟩ := ends
  refine ⟨fun v => ⟨inv.marking.geodesic v, inv.onPath_of_geodesic hmet empty⟩, ?_⟩
  intro v k hv hk
  obtain ⟨i, j, hi, hj, hij⟩ := inv.marking.geodesic v hv
  obtain rfl := hi.unique hk
  have := hij.unique hmet.between
  exact inv.marking.label_toInt hv hi (by omega)

/-- The source keeps the label 0: it is marked, or the other side has not reached it. -/
def SourceKept (src : V) (distFromDst : V → Int8) (m : MarkState V) : Prop :=
  m.distFromSrc src = 0 ∧ (m.onPath src = true ∨ distFromDst src = -1)

theorem SourceKept.markEdge {distFromDst : V → Int8} {m : MarkState V}
    (kept : SourceKept src distFromDst m) (v u : V) :
    SourceKept src distFromDst (IC14.markEdge distFromDst v m u) := by
  have ext := markEdge_extends distFromDst v m u
  refine ⟨?_, kept.2.imp_left (ext.kept src)⟩
  rcases kept.2 with hon | hblank
  · exact (ext.label src hon).trans kept.1
  · by_cases old : m.onPath u = true
    · rw [markEdge_old old]
      exact kept.1
    · rw [markEdge_new old]
      by_cases hdst : behindDst distFromDst v u
      · have hne : src ≠ u := by
          rintro rfl
          exact hdst.1 hblank
        rw [if_pos hdst]
        exact (Function.update_of_ne hne _ _).trans kept.1
      · rw [if_neg hdst]
        split <;> exact kept.1

theorem SourceKept.edges {distFromDst : V → Int8} (v : V) (us : List V) {m : MarkState V}
    (kept : SourceKept src distFromDst m) :
    SourceKept src distFromDst (us.foldl (IC14.markEdge distFromDst v) m) := by
  induction us generalizing m with
  | nil => exact kept
  | cons u rest ih => exact ih (kept.markEdge v u)

/-- Marking never touches the label of the source, however the search has labelled. -/
theorem mark_keeps_source {r : MarkState V} {st : SearchState V}
    (hlabel : st.src.dist src = 0) (hmark : st.dst.dist src ≠ -1 → src ∈ st.meetPoints)
    {fuel : Nat} (h : loop (markStep knows st.dst.dist) fuel (startMark st) = some r) :
    r.distFromSrc src = 0 := by
  have start : SourceKept src st.dst.dist (startMark st) := by
    refine ⟨hlabel, ?_⟩
    by_cases hblank : st.dst.dist src = -1
    · exact Or.inr hblank
    · exact Or.inl (by simp [startMark, markAll_eq, hmark hblank])
  refine loop_post (SourceKept src st.dst.dist) (fun m => m.distFromSrc src = 0) ?_ ?_ start h
  · intro m m' kept hstep
    obtain ⟨v, rest, _, rfl⟩ := markStep_next hstep
    exact SourceKept.edges v _ kept
  · intro m r kept hstep
    obtain ⟨rfl, _⟩ := markStep_done hstep
    exact kept.1

end Invariant

end Marking

section Enumeration
variable {V : Type} [DecidableEq V]

/-- The continuations of a path, in the order of the two edge loops of `dfs_paths`. -/
def nextHops (knows : EdgeTable V V Unit) (label : V → Int8) (onPath : V → Bool) (u : V) :
    List V :=
  (knows.outgoing u ++ knows.incoming u).filter
    (fun v => onPath v = true ∧ (label v).toInt = (label u).toInt + 1)

/-- The paths that start in `u`. -/
def routes (knows : EdgeTable V V Unit) (dst : V) (label : V → Int8) (onPath : V → Bool)
    (u : V) : List (List V) :=
  dfsPaths knows dst label onPath u [] []

variable {knows : EdgeTable V V Unit} {dst : V} {label : V → Int8} {onPath : V → Bool}

theorem dfsPaths_at_target (path : List V) (paths : List (List V)) :
    dfsPaths knows dst label onPath dst path paths = paths ++ [path ++ [dst]] := by
  rw [dfsPaths, if_pos rfl]

/-- A fold that appends what a function returns for the elements passing a test. -/
theorem foldl_append_if {α β : Type} (c : α → Prop) [DecidablePred c]
    (f : α → List β → List β) (g : α → List β) (hf : ∀ a, c a → ∀ bs, f a bs = bs ++ g a)
    (as : List α) (bs : List β) :
    as.foldl (fun bs a => if _h : c a then f a bs else bs) bs =
      bs ++ (as.filter (fun a => c a)).flatMap g := by
  induction as generalizing bs with
  | nil => simp
  | cons a rest ih =>
    rw [List.foldl_cons, ih]
    by_cases ha : c a
    · simp [ha, hf a ha]
    · simp [ha]

/-- The accumulators only collect: the paths from `u` are the same under any prefix. -/
theorem dfsPaths_append (u : V) (path : List V) (paths : List (List V)) :
    dfsPaths knows dst label onPath u path paths =
      paths ++ (routes knows dst label onPath u).map (path ++ ·) := by
  by_cases hu : u = dst
  · subst hu
    simp [routes, dfsPaths_at_target]
  · have below : ∀ v, onPath v = true ∧ (label v).toInt = (label u).toInt + 1 →
        (127 - (label v).toInt).toNat < (127 - (label u).toInt).toNat := by
      rintro v ⟨_, hstep⟩
      have hlt := (label v).toInt_lt
      omega
    have unfolded : ∀ path paths, dfsPaths knows dst label onPath u path paths =
        paths ++ (nextHops knows label onPath u).flatMap (fun v =>
          (routes knows dst label onPath v).map (path ++ [u] ++ ·)) := by
      intro path paths
      have hops : ∀ v, onPath v = true ∧ (label v).toInt = (label u).toInt + 1 →
          ∀ paths, dfsPaths knows dst label onPath v (path ++ [u]) paths =
            paths ++ (routes knows dst label onPath v).map (path ++ [u] ++ ·) :=
        fun v hv paths => dfsPaths_append v (path ++ [u]) paths
      rw [dfsPaths, if_neg hu, foldl_append_if _ _ _ hops, foldl_append_if _ _ _ hops,
        nextHops, List.filter_append, List.flatMap_append, List.append_assoc]
    rw [unfolded, routes, unfolded]
    simp [List.map_flatMap, Function.comp_def]
termination_by (127 - (label u).toInt).toNat
decreasing_by exact below v hv

theorem routes_at_target : routes knows dst label onPath dst = [[dst]] := by
  rw [routes, dfsPaths_at_target]
  rfl

theorem routes_eq {u : V} (hu : u ≠ dst) :
    routes knows dst label onPath u = (nextHops knows label onPath u).flatMap
      (fun v => (routes knows dst label onPath v).map (u :: ·)) := by
  have hops : ∀ v, onPath v = true ∧ (label v).toInt = (label u).toInt + 1 →
      ∀ paths, dfsPaths knows dst label onPath v ([] ++ [u]) paths =
        paths ++ (routes knows dst label onPath v).map ([] ++ [u] ++ ·) :=
    fun v _ paths => dfsPaths_append v _ paths
  rw [routes, dfsPaths, if_neg hu, foldl_append_if _ _ _ hops, foldl_append_if _ _ _ hops,
    nextHops, List.filter_append, List.flatMap_append, List.append_assoc]
  rfl

theorem mem_routes {u : V} (hu : u ≠ dst) {p : List V} :
    p ∈ routes knows dst label onPath u ↔ ∃ v, (Joined knows u v ∧ onPath v = true ∧
      (label v).toInt = (label u).toInt + 1) ∧
        ∃ q ∈ routes knows dst label onPath v, u :: q = p := by
  simp only [routes_eq hu, List.mem_flatMap, List.mem_map, nextHops, List.mem_filter,
    List.mem_append, decide_eq_true_eq, Joined]

theorem routes_head {u : V} {p : List V} (h : p ∈ routes knows dst label onPath u) :
    p.head? = some u := by
  by_cases hu : u = dst
  · subst hu
    rw [routes_at_target, List.mem_singleton] at h
    simp [h]
  · obtain ⟨_, _, q, _, rfl⟩ := (mem_routes hu).mp h
    rfl

omit [DecidableEq V] in
/-- Labels are bounded, so a statement about a person may assume it of the next label. -/
theorem label_induction (label : V → Int8) {P : V → Prop}
    (step : ∀ u, (∀ v, (label v).toInt = (label u).toInt + 1 → P v) → P u) (u : V) : P u := by
  induction hn : (127 - (label u).toInt).toNat using Nat.strongRecOn generalizing u with
  | ind n ih =>
    apply step
    intro v hv
    have hlt := (label v).toInt_lt
    exact ih _ (by omega) v rfl

/-- A path is no longer than the range of its labels. -/
theorem routes_bound {u : V} {p : List V} (h : p ∈ routes knows dst label onPath u) :
    ∃ k : ℕ, (label dst).toInt = (label u).toInt + k ∧ Ball (undirected knows) u k dst := by
  induction u using label_induction label generalizing p with
  | step u ih =>
    by_cases hu : u = dst
    · exact ⟨0, by simp [hu], ball_zero_iff.mpr hu.symm⟩
    · obtain ⟨v, ⟨hjoin, _, hlabel⟩, q, hq, _⟩ := (mem_routes hu).mp h
      obtain ⟨k, hk, hball⟩ := ih v hlabel hq
      refine ⟨k + 1, by push_cast; omega, ?_⟩
      obtain ⟨j, hj, hlayer⟩ := hball.layer
      have hback := hjoin.symm.ball_succ (hlayer.symm.ball le_rfl)
      obtain ⟨i, hi, hl⟩ := hback.layer
      exact hl.symm.ball (by omega)

theorem nextHops_nodup (simple : SimpleKnows knows) (u : V) :
    (nextHops knows label onPath u).Nodup :=
  (simple.neighbors_nodup u).filter _

theorem routes_nodup (simple : SimpleKnows knows) (u : V) :
    (routes knows dst label onPath u).Nodup := by
  induction u using label_induction label with
  | step u ih =>
    by_cases hu : u = dst
    · subst hu
      rw [routes_at_target]
      exact List.nodup_singleton _
    · rw [routes_eq hu, List.nodup_flatMap]
      constructor
      · intro v hv
        have hlabel : (label v).toInt = (label u).toInt + 1 := by
          simp only [nextHops, List.mem_filter, decide_eq_true_eq] at hv
          exact hv.2.2
        exact (ih v hlabel).map (List.cons_injective)
      · refine (nextHops_nodup simple u).imp ?_
        intro v w hvw
        rw [Function.onFun, List.disjoint_left]
        rintro p hv hw
        obtain ⟨q, hq, rfl⟩ := List.mem_map.mp hv
        obtain ⟨q', hq', heq⟩ := List.mem_map.mp hw
        obtain rfl := List.cons_injective heq
        exact hvw (Option.some.inj ((routes_head hq).symm.trans (routes_head hq')))

/-- Marks and labels as the marking phase leaves them for `src` and `dst`. -/
structure Marked (knows : EdgeTable V V Unit) (src dst : V) (label : V → Int8)
    (onPath : V → Bool) : Prop where
  onPath_iff : ∀ v, onPath v = true ↔ OnGeodesic (undirected knows) src dst v
  label_eq : ∀ v k, onPath v = true → Layer (undirected knows) src k v → (label v).toInt = k

/-- The continuations of a path are the geodesic successors of its last person. -/
theorem Marked.next_iff {src u v : V} {i j : ℕ} (marked : Marked knows src dst label onPath)
    (hi : Layer (undirected knows) src i u) (hj : Layer (undirected knows) dst (j + 1) u)
    (hd : Layer (undirected knows) src (i + j + 1) dst) :
    (onPath v = true ∧ (label v).toInt = (label u).toInt + 1) ↔
      Layer (undirected knows) src (i + 1) v ∧ Layer (undirected knows) dst j v := by
  have hu : onPath u = true :=
    (marked.onPath_iff u).mpr ⟨i, j + 1, hi, hj, by rwa [← Nat.add_assoc]⟩
  rw [marked.label_eq u i hu hi]
  constructor
  · rintro ⟨hv, hlabel⟩
    obtain ⟨a, b, ha, hb, hab⟩ := (marked.onPath_iff v).mp hv
    rw [marked.label_eq v a hv ha] at hlabel
    have hsum := hab.unique hd
    obtain rfl : a = i + 1 := by omega
    obtain rfl : b = j := by omega
    exact ⟨ha, hb⟩
  · rintro ⟨ha, hb⟩
    have hv : onPath v = true :=
      (marked.onPath_iff v).mpr ⟨i + 1, j, ha, hb, by rwa [show i + 1 + j = i + j + 1 by omega]⟩
    refine ⟨hv, ?_⟩
    rw [marked.label_eq v (i + 1) hv ha]
    push_cast
    rfl

/-- The paths from a geodesic person are the shortest paths from it to the target. -/
theorem Marked.mem_routes {src u : V} {i j : ℕ} (marked : Marked knows src dst label onPath)
    (hi : Layer (undirected knows) src i u) (hj : Layer (undirected knows) dst j u)
    (hd : Layer (undirected knows) src (i + j) dst) {p : List V} :
    p ∈ routes knows dst label onPath u ↔
      ∃ w : (undirected knows).Walk u dst, w.length = j ∧ w.support = p := by
  induction j generalizing i u p with
  | zero =>
    obtain rfl := layer_zero_iff.mp hj
    rw [routes_at_target, List.mem_singleton]
    constructor
    · rintro rfl
      exact ⟨.nil, rfl, rfl⟩
    · rintro ⟨w, hw, rfl⟩
      cases w with
      | nil => rfl
      | cons hadj w => simp at hw
  | succ j ih =>
    have hu : u ≠ dst := by
      rintro rfl
      have := hj.unique (layer_zero_iff.mpr rfl)
      omega
    rw [IC14.mem_routes hu]
    constructor
    · rintro ⟨v, ⟨hjoin, hnext⟩, q, hq, rfl⟩
      obtain ⟨ha, hb⟩ := (marked.next_iff hi hj hd).mp hnext
      obtain ⟨w, hw, rfl⟩ := (ih ha hb (by rwa [show i + 1 + j = i + (j + 1) by omega])).mp hq
      exact ⟨.cons (adj_of_layers hjoin.symm hi ha) w, by simp [hw], by simp⟩
    · rintro ⟨w, hw, rfl⟩
      cases w with
      | nil => simp at hw
      | @cons _ v _ hadj w =>
        obtain ⟨huv, hjoin⟩ := (adj_iff knows u v).mp hadj
        have hlen : w.length = j := by simpa using hw
        have near : Ball (undirected knows) v j dst := by
          rw [Ball, ← hlen]
          exact w.edist_le
        obtain ⟨b, hb, hbl⟩ := near.layer
        obtain ⟨a, ha, hal⟩ := (hi.adj_ball hadj).layer
        have hle := hal.triangle hbl hd
        obtain rfl : a = i + 1 := by omega
        obtain rfl : b = j := by omega
        refine ⟨v, ⟨hjoin, (marked.next_iff hi hj hd).mpr ⟨hal, hbl.symm⟩⟩, w.support, ?_, ?_⟩
        · exact (ih hal hbl.symm (by rwa [show i + 1 + b = i + (b + 1) by omega])).mpr
            ⟨w, hlen, rfl⟩
        · simp

/-- Between two neighbours there is one path for each edge that joins them. -/
theorem Marked.routes_adjacent {src : V} (marked : Marked knows src dst label onPath)
    (hd : Layer (undirected knows) src 1 dst) :
    routes knows dst label onPath src =
      List.replicate ((knows.outgoing src).count dst + (knows.incoming src).count dst)
        [src, dst] := by
  have different : src ≠ dst := (layer_one_iff.mp hd).ne
  have hops : nextHops knows label onPath src =
      (knows.outgoing src ++ knows.incoming src).filter (fun v => v = dst) := by
    refine List.filter_congr fun v _ => decide_eq_decide.mpr ?_
    refine (marked.next_iff (layer_zero_iff.mpr rfl) hd.symm hd).trans ?_
    constructor
    · rintro ⟨-, hv⟩
      exact layer_zero_iff.mp hv
    · rintro rfl
      exact ⟨hd, layer_zero_iff.mpr rfl⟩
  rw [routes_eq different, hops, List.filter_eq, ← List.count_append]
  induction (knows.outgoing src ++ knows.incoming src).count dst with
  | zero => rfl
  | succ n ih =>
    rw [List.replicate_succ, List.flatMap_cons, ih, routes_at_target, List.replicate_succ]
    rfl

end Enumeration

section Paths
variable (G : Graph) {src dst : G.Person} {d : ℕ}

theorem search_some (src dst : G.Person) : ∃ r, search G src dst = some r :=
  search_total G.knows (startSearch src dst) (by rw [Fintype.card_fin])

theorem mark_some (st : SearchState G.Person) : ∃ m, mark G st = some m := by
  apply mark_total G.knows st.dst.dist (startMark st)
  have hcard : ∀ s : Finset G.Person, s.card ≤ G.personNum :=
    fun s => (Finset.card_le_univ s).trans_eq (Fintype.card_fin _)
  exact Nat.lt_succ_of_le (Nat.add_le_add_right (Nat.mul_le_mul_left 3 (hcard _)) _)

/-- The two ways the search can end, and the enumeration that follows the second. -/
theorem findPaths_cases (src dst : G.Person) :
    (∃ st, search G src dst = some st ∧ st.meetPoints = [] ∧ findPaths G src dst = some []) ∨
      ∃ st m, search G src dst = some st ∧ st.meetPoints ≠ [] ∧ mark G st = some m ∧
        findPaths G src dst = some (routes G.knows dst m.distFromSrc m.onPath src) := by
  obtain ⟨st, hst⟩ := search_some G src dst
  obtain ⟨m, hm⟩ := mark_some G st
  by_cases hmeet : st.meetPoints = []
  · exact Or.inl ⟨st, hst, hmeet, by simp [findPaths, hst, hmeet]⟩
  · exact Or.inr ⟨st, m, hst, hmeet, hm, by simp [findPaths, hst, hmeet, hm, routes]⟩

theorem findPaths_unreachable (apart : ¬ (undirected G.knows).Reachable src dst) :
    findPaths G src dst = some [] := by
  rcases findPaths_cases G src dst with ⟨_, _, _, h⟩ | ⟨st, m, hst, hmeet, _, _⟩
  · exact h
  · have different : src ≠ dst := by
      rintro rfl
      exact apart (SimpleGraph.Reachable.refl _)
    obtain ⟨v, hv⟩ := List.exists_mem_of_ne_nil _ hmeet
    obtain ⟨h1, h2⟩ := (search_connected different hst).meets v hv
    exact False.elim (apart (h1.trans h2.symm))

/-- Beyond distance 127 no path is found: the labels of a path start at 0 and go up by 1. -/
theorem findPaths_far (hd : Layer (undirected G.knows) src d dst) (far : 127 < d) :
    findPaths G src dst = some [] := by
  rcases findPaths_cases G src dst with ⟨_, _, _, h⟩ | ⟨st, m, hst, _, hm, h⟩
  · exact h
  · have different : src ≠ dst := by
      rintro rfl
      have := hd.unique (layer_zero_iff.mpr rfl)
      omega
    have connected := search_connected different hst
    have hzero := mark_keeps_source connected.srcLabel connected.dstMark hm
    rw [h, Option.some.injEq, List.eq_nil_iff_forall_not_mem]
    intro p hp
    obtain ⟨k, hk, hball⟩ := routes_bound hp
    have hlt := (m.distFromSrc dst).toInt_lt
    have := hd.le_of_ball hball
    rw [hzero, Int8.toInt_zero] at hk
    omega

/-- Up to distance 127 the enumeration works on the geodesics of the two persons. -/
theorem findPaths_near (different : src ≠ dst) (hd : Layer (undirected G.knows) src d dst)
    (near : d ≤ 127) : ∃ label onPath, Marked G.knows src dst label onPath ∧
      findPaths G src dst = some (routes G.knows dst label onPath src) := by
  rcases findPaths_cases G src dst with ⟨st, hst, hmeet, _⟩ | ⟨st, m, hst, _, hm, h⟩
  · obtain ⟨s, t, rfl, met⟩ := search_met different hd near hst
    obtain ⟨v, hv, hv'⟩ := exists_layer_between met.between
    have := (met.meets v).mpr ⟨hv, hv'.symm⟩
    simp [hmeet] at this
  · obtain ⟨s, t, rfl, met⟩ := search_met different hd near hst
    obtain ⟨honPath, hlabel⟩ := mark_geodesics met near hm
    exact ⟨m.distFromSrc, m.onPath, ⟨honPath, hlabel⟩, h⟩

theorem Marked.mem_paths {label : G.Person → Int8} {onPath : G.Person → Bool}
    (marked : Marked G.knows src dst label onPath)
    (hd : Layer (undirected G.knows) src d dst) {p : List G.Person} :
    p ∈ routes G.knows dst label onPath src ↔
      ∃ w : (undirected G.knows).Walk src dst, w.length = d ∧ w.support = p :=
  marked.mem_routes (layer_zero_iff.mpr rfl) hd.symm (by rwa [Nat.zero_add])

end Paths

end IC14

end LdbcInteractive
