import LdbcInteractive.IC14Search

/-!
# IC14: the search from a person to the same person

The loop has no branch for equal ends. Both sides start in the same ball, and as long
as every layer around the person is a single person, only the source side is expanded
and never meets the other one. The first wider layer hands the turn to the target
side, whose first layer is already labelled. After 255 layers the label is the mark of
an unvisited person, which delays the end of the chain by at most two layers.
-/

namespace LdbcInteractive

open EdgeTables GraphDistance Loops

namespace IC14

variable {V : Type} [DecidableEq V] {knows : EdgeTable V V Unit} {c : V}

/-- The persons reachable from `c` form a chain of `m` steps with `c` at its end. From
255 steps on it matters that the labels wrap: the step into layer 255 is a single edge,
and for 256 steps the person in layer 255 has no self-edge. -/
structure BareChain (knows : EdgeTable V V Unit) (c : V) (m : ℕ) : Prop where
  single : ∀ k, k ≤ m → ∃! v, Layer (undirected knows) c k v
  last : ∀ v, ¬ Layer (undirected knows) c (m + 1) v
  once : 255 ≤ m → ∀ u v, Layer (undirected knows) c 254 u → Layer (undirected knows) c 255 v →
    (knows.outgoing u).count v + (knows.outgoing v).count u = 1
  loopless : m = 256 → ∀ v, Layer (undirected knows) c 255 v → v ∉ knows.outgoing v

/-- A chain that the search follows to its end without meeting the other side. -/
def ShortChain (knows : EdgeTable V V Unit) (c : V) : Prop := ∃ m, m ≤ 256 ∧ BareChain knows c m

/-- The search from this state on ends with, or without, a meeting point. -/
def Misses (knows : EdgeTable V V Unit) (st : SearchState V) : Prop :=
  ∃ n r, loop (searchStep knows) n st = some r ∧ r.meetPoints = []

def Meets (knows : EdgeTable V V Unit) (st : SearchState V) : Prop :=
  ∃ n r, loop (searchStep knows) n st = some r ∧ r.meetPoints ≠ []

/-- The state decides whether there is a short chain. -/
def Decided (knows : EdgeTable V V Unit) (c : V) (st : SearchState V) : Prop :=
  (Misses knows st ∧ ShortChain knows c) ∨ (Meets knows st ∧ ¬ ShortChain knows c)

theorem Decided.of_next {st t : SearchState V} (h : searchStep knows st = .next t)
    (decided : Decided knows c t) : Decided knows c st := by
  rcases decided with ⟨⟨n, r, hr, hmeet⟩, hchain⟩ | ⟨⟨n, r, hr, hmeet⟩, hchain⟩
  · exact Or.inl ⟨⟨n + 1, r, (loop_next h n).trans hr, hmeet⟩, hchain⟩
  · exact Or.inr ⟨⟨n + 1, r, (loop_next h n).trans hr, hmeet⟩, hchain⟩

section Chains
variable {k m : ℕ}

theorem BareChain.le_of_layer (chain : BareChain knows c m) {v : V}
    (h : Layer (undirected knows) c k v) : k ≤ m := by
  by_contra hlong
  obtain ⟨u, hu⟩ := h.below (i := m + 1) (by omega)
  exact chain.last u hu

theorem BareChain.eq_of_layer (chain : BareChain knows c m) {v w : V}
    (hv : Layer (undirected knows) c k v) (hw : Layer (undirected knows) c k w) : v = w :=
  (chain.single k (chain.le_of_layer hv)).unique hv hw

/-- A layer with two persons rules every chain out. -/
theorem not_shortChain_of_two {v w : V} (hv : Layer (undirected knows) c k v)
    (hw : Layer (undirected knows) c k w) (different : v ≠ w) : ¬ ShortChain knows c := by
  rintro ⟨m, _, chain⟩
  exact different (chain.eq_of_layer hv hw)

end Chains

/-- A person of the next layer is joined to the only person of the layer before. -/
theorem joined_of_only {k : ℕ} {w x : V} (only : ∀ u, Layer (undirected knows) c k u → u = w)
    (hx : Layer (undirected knows) c (k + 1) x) : Joined knows w x := by
  obtain ⟨z, hz, hadj⟩ := hx.exists_pred
  rw [← only z hz]
  exact ((adj_iff knows z x).mp hadj).2

theorem ne_of_layers {k l : ℕ} {u x : V} (hu : Layer (undirected knows) c k u)
    (hx : Layer (undirected knows) c l x) (different : k ≠ l) : u ≠ x := by
  rintro rfl
  exact different (hu.unique hx)

/-- Only the source side has been expanded. -/
structure Alone (c : V) (st : SearchState V) : Prop where
  dst : st.dst = startSide c
  meets : st.meetPoints = []
  center : st.src.dist c ≠ -1

theorem startSide_dist_ne {v : V} (h : (startSide c).dist v ≠ -1) : v = c := by
  by_contra hne
  simp [startSide, hne] at h

section Alone
variable {st : SearchState V}

/-- A source layer of one person gives the source side the next turn as well. -/
theorem Alone.expand (knows : EdgeTable V V Unit) (alone : Alone c st) :
    (expand knows st.src st.dst st.meetPoints).2 = [] ∧
      Alone c ⟨(expand knows st.src st.dst st.meetPoints).1, st.dst, []⟩ := by
  have layered := expand_layered knows st.src st.dst st.meetPoints
  refine ⟨?_, alone.dst, rfl, ?_⟩
  · rw [List.eq_nil_iff_forall_not_mem]
    intro u hu
    rcases layered.met u hu with hu | ⟨⟨hblank, _⟩, hdst⟩
    · simp [alone.meets] at hu
    · rw [alone.dst] at hdst
      exact alone.center (startSide_dist_ne hdst ▸ hblank)
  · rw [layered.old c alone.center]
    exact alone.center

theorem Alone.step (alone : Alone c st) {x : V} (hqueue : st.src.queue = [x]) :
    searchStep knows st =
      afterLayer ⟨(IC14.expand knows st.src st.dst st.meetPoints).1, st.dst, []⟩ := by
  have turn : fromSrc st := by
    rw [fromSrc, hqueue, alone.dst]
    simp [startSide]
  have hstep : searchStep knows st = afterLayer ⟨(IC14.expand knows st.src st.dst
      st.meetPoints).1, st.dst, (IC14.expand knows st.src st.dst st.meetPoints).2⟩ := if_pos turn
  rw [hstep, (alone.expand knows).1]

theorem Alone.misses (alone : Alone c st) {x : V} (hqueue : st.src.queue = [x])
    (exhausted : (IC14.expand knows st.src st.dst st.meetPoints).1.queue = []) :
    Misses knows st := by
  refine ⟨1, ⟨(IC14.expand knows st.src st.dst st.meetPoints).1, st.dst, []⟩,
    loop_done ((alone.step hqueue).trans ?_) 0, rfl⟩
  simp [afterLayer, exhausted]

theorem Alone.next (alone : Alone c st) {x : V} (hqueue : st.src.queue = [x])
    (grows : (IC14.expand knows st.src st.dst st.meetPoints).1.queue ≠ []) :
    searchStep knows st =
      .next ⟨(IC14.expand knows st.src st.dst st.meetPoints).1, st.dst, []⟩ := by
  have hdst : st.dst.queue ≠ [] := by simp [alone.dst, startSide]
  rw [alone.step hqueue]
  simp [afterLayer, grows, hdst]

/-- A longer source queue gives the turn to the target side, which meets layer 1. -/
theorem Alone.meets_of_wide (alone : Alone c st) (wide : 2 ≤ st.src.queue.length)
    (first : ∃ v, Layer (undirected knows) c 1 v ∧ st.src.dist v ≠ -1) : Meets knows st := by
  have turn : ¬ fromSrc st := by
    rw [fromSrc, alone.dst]
    simp [startSide]
    omega
  obtain ⟨v, hv, hlabel⟩ := first
  have grown : Grown knows c 0 st.dst := alone.dst ▸ startSide_grown knows c
  have hmeet : v ∈ (IC14.expand knows st.dst st.src st.meetPoints).2 := by
    rw [alone.meets, expand_eq (grown.labelled (by omega)), List.nil_append, List.mem_filter,
      grown.mem_newcomers (by omega)]
    exact ⟨hv, by simpa using hlabel⟩
  have hdst : st.dst.queue ≠ [] := by simp [alone.dst, startSide]
  have found : (IC14.expand knows st.dst st.src st.meetPoints).2 ≠ [] :=
    List.ne_nil_of_mem hmeet
  refine ⟨1, ⟨st.src, (IC14.expand knows st.dst st.src st.meetPoints).1,
    (IC14.expand knows st.dst st.src st.meetPoints).2⟩, loop_done ?_ 0, found⟩
  refine ((if_neg turn).trans (if_pos hdst)).trans ?_
  simp [afterLayer, found]

end Alone

omit [DecidableEq V] in
theorem two_le_length {l : List V} {a b : V} (ha : a ∈ l) (hb : b ∈ l) (different : a ≠ b) :
    2 ≤ l.length := by
  match l with
  | [] => simp at ha
  | [x] =>
    rw [List.mem_singleton] at ha hb
    exact False.elim (different (ha.trans hb.symm))
  | _ :: _ :: _ => simp

omit [DecidableEq V] in
theorem exists_two {l : List V} (nodup : l.Nodup) (long : 2 ≤ l.length) :
    ∃ a ∈ l, ∃ b ∈ l, a ≠ b := by
  match l, nodup, long with
  | a :: b :: rest, nodup, _ =>
    refine ⟨a, by simp, b, by simp, ?_⟩
    rintro rfl
    simp at nodup

omit [DecidableEq V] in
theorem eq_singleton {l : List V} {a : V} (nodup : l.Nodup) (h : ∀ x, x ∈ l ↔ x = a) :
    l = [a] := by
  apply List.perm_singleton.mp
  rw [List.perm_ext_iff_of_nodup nodup (List.nodup_singleton a)]
  intro x
  rw [h x, List.mem_singleton]

/-- The loop head after `r` expansions of the source side, every layer a single person. -/
structure Narrow (knows : EdgeTable V V Unit) (c : V) (r : ℕ) (st : SearchState V) : Prop where
  grown : Grown knows c r st.src
  dst : st.dst = startSide c
  meets : st.meetPoints = []
  single : ∀ k, k ≤ r → ∃! v, Layer (undirected knows) c k v

section Narrow
variable {r : ℕ} {st : SearchState V}

theorem Narrow.alone (narrow : Narrow knows c r st) (hr : r < 255) : Alone c st := by
  refine ⟨narrow.dst, narrow.meets, ?_⟩
  rw [ne_eq, narrow.grown.blank_iff hr, not_not]
  exact (layer_zero_iff.mpr rfl).ball (Nat.zero_le r)

theorem Narrow.queue (narrow : Narrow knows c r st) :
    ∃ v, Layer (undirected knows) c r v ∧ st.src.queue = [v] := by
  obtain ⟨v, hv, only⟩ := narrow.single r le_rfl
  refine ⟨v, hv, eq_singleton narrow.grown.nodup fun x => ?_⟩
  rw [narrow.grown.queue]
  exact ⟨only x, fun h => h ▸ hv⟩

/-- Below the wrap, one more layer either decides or is a single person again. -/
theorem Narrow.step (narrow : Narrow knows c r st) (hr : r + 1 < 255) :
    Decided knows c st ∨ ∃ t, searchStep knows st = .next t ∧ Narrow knows c (r + 1) t := by
  have alone := narrow.alone (by omega)
  obtain ⟨v, _, hqueue⟩ := narrow.queue
  have grown := narrow.grown.expand hr st.dst st.meetPoints
  by_cases hempty : (expand knows st.src st.dst st.meetPoints).1.queue = []
  · refine Or.inl (Or.inl ⟨alone.misses hqueue hempty, r, by omega, narrow.single, ?_, ?_, ?_⟩)
    · intro u hu
      have := (grown.queue u).mpr hu
      simp [hempty] at this
    · exact fun h => by omega
    · exact fun h => by omega
  · have hnext := alone.next hqueue hempty
    obtain ⟨u, hu⟩ := List.exists_mem_of_ne_nil _ hempty
    have hlayer := (grown.queue u).mp hu
    by_cases only : ∀ w, Layer (undirected knows) c (r + 1) w → w = u
    · refine Or.inr ⟨_, hnext, grown, narrow.dst, rfl, ?_⟩
      intro k hk
      by_cases hkr : k = r + 1
      · subst hkr
        exact ⟨u, hlayer, only⟩
      · exact narrow.single k (by omega)
    · obtain ⟨w, hw⟩ := not_forall.mp only
      obtain ⟨hw, hne⟩ := Classical.not_imp.mp hw
      left
      apply Decided.of_next hnext
      refine Or.inr ⟨(alone.expand knows).2.meets_of_wide ?_ ?_,
        not_shortChain_of_two hw hlayer hne⟩
      · exact two_le_length ((grown.queue w).mpr hw) hu hne
      · obtain ⟨x, hx⟩ := hlayer.below (i := 1) (by omega)
        refine ⟨x, hx, ?_⟩
        rw [ne_eq, grown.blank_iff hr, not_not]
        exact hx.ball (by omega)

end Narrow

section Wrapped
variable {v w x : V} {dist : V → Int8}

/-- After 255 expansions: layer 255 is the single person `w`, queued once, not labelled. -/
structure Wrapped (knows : EdgeTable V V Unit) (c v w : V) (dist : V → Int8) : Prop where
  blank : ∀ u, dist u = -1 ↔ ¬ Ball (undirected knows) c 254 u
  single : ∀ k, k ≤ 254 → ∃! u, Layer (undirected knows) c k u
  before : Layer (undirected knows) c 254 v
  here : Layer (undirected knows) c 255 w
  only : ∀ u, Layer (undirected knows) c 255 u → u = w
  once : (knows.outgoing v).count w + (knows.outgoing w).count v = 1

theorem Wrapped.single_next (wrapped : Wrapped knows c v w dist) :
    ∀ k, k ≤ 255 → ∃! u, Layer (undirected knows) c k u := by
  intro k hk
  by_cases h255 : k = 255
  · subst h255
    exact ⟨w, wrapped.here, wrapped.only⟩
  · exact wrapped.single k (by omega)

theorem Wrapped.once_all (wrapped : Wrapped knows c v w dist) :
    ∀ a b, Layer (undirected knows) c 254 a → Layer (undirected knows) c 255 b →
      (knows.outgoing a).count b + (knows.outgoing b).count a = 1 := by
  intro a b ha hb
  rw [wrapped.only b hb, (wrapped.single 254 le_rfl).unique ha wrapped.before]
  exact wrapped.once

theorem Wrapped.chain255 (wrapped : Wrapped knows c v w dist)
    (last : ∀ u, ¬ Layer (undirected knows) c 256 u) : ShortChain knows c :=
  ⟨255, by omega, wrapped.single_next, last, fun _ => wrapped.once_all, fun h => by omega⟩

/-- The unlabelled persons next to `w`: itself, by a self-edge, and layer 256. -/
theorem Wrapped.blank_ends (wrapped : Wrapped knows c v w dist) (u : V) :
    (dist u = -1 ∧ u ∈ ends knows [w]) ↔
      (u = w ∧ w ∈ knows.outgoing w) ∨ Layer (undirected knows) c 256 u := by
  rw [wrapped.blank, mem_ends]
  constructor
  · rintro ⟨hfar, z, hz, hjoin⟩
    rw [List.mem_singleton.mp hz] at hjoin
    obtain ⟨i, hi, hl⟩ := (hjoin.ball_succ (wrapped.here.ball le_rfl)).layer
    obtain rfl | rfl | hnear : i = 256 ∨ i = 255 ∨ i ≤ 254 := by omega
    · exact Or.inr hl
    · left
      have huw := wrapped.only u hl
      subst huw
      refine ⟨rfl, ?_⟩
      rcases hjoin with h | h
      · exact h
      · exact (knows.mem_incoming u u).mp h
    · exact False.elim (hfar (hl.ball hnear))
  · rintro (⟨rfl, hself⟩ | hu)
    · refine ⟨fun h => ?_, u, List.mem_singleton_self u, Or.inl hself⟩
      have := wrapped.here.le_of_ball h
      omega
    · refine ⟨fun h => ?_, w, List.mem_singleton_self w, ?_⟩
      · have := hu.le_of_ball h
        omega
      · exact joined_of_only wrapped.only hu

theorem Wrapped.center (wrapped : Wrapped knows c v w dist) : dist c ≠ -1 := by
  rw [ne_eq, wrapped.blank, not_not]
  exact (layer_zero_iff.mpr rfl).ball (by omega)

theorem Wrapped.first (wrapped : Wrapped knows c v w dist) :
    ∃ u, Layer (undirected knows) c 1 u ∧ dist u ≠ -1 := by
  obtain ⟨u, hu⟩ := wrapped.here.below (i := 1) (by omega)
  refine ⟨u, hu, ?_⟩
  rw [ne_eq, wrapped.blank, not_not]
  exact hu.ball (by omega)

/-- A state whose source side has wrapped, with the given queue, labels and counter. -/
def wrappedState (c : V) (queue : List V) (dist : V → Int8) (depth : Int8) : SearchState V :=
  ⟨⟨queue, dist, depth⟩, startSide c, []⟩

/-- The labels after the ends of one person are labelled. -/
def relabel (knows : EdgeTable V V Unit) (w : V) (depth : Int8) (dist : V → Int8) : V → Int8 :=
  fun u => if dist u = -1 ∧ u ∈ ends knows [w] then depth else dist u

theorem relabel_blank {depth : Int8} (labelled : depth ≠ -1) (u : V) :
    relabel knows w depth dist u = -1 ↔ dist u = -1 ∧ u ∉ ends knows [w] := by
  by_cases hu : u ∈ ends knows [w] <;> by_cases hd : dist u = -1 <;>
    simp [relabel, hu, hd, labelled]

theorem relabel_labelled {depth : Int8} (labelled : depth ≠ -1) {u : V} (h : dist u ≠ -1) :
    relabel knows w depth dist u ≠ -1 := by
  rw [ne_eq, relabel_blank labelled]
  exact fun hblank => h hblank.1

theorem wrapped_expand {w : V} {depth : Int8} (labelled : depth + 1 ≠ -1) :
    (expand knows (wrappedState c [w] dist depth).src (wrappedState c [w] dist depth).dst
      (wrappedState c [w] dist depth).meetPoints).1 =
      ⟨newcomers dist (ends knows [w]), relabel knows w (depth + 1) dist, depth + 1⟩ := by
  rw [expand_eq labelled]
  rfl

/-- One more expansion after the wrap, from a queue of one person. -/
theorem wrapped_next {depth : Int8} (labelled : depth + 1 ≠ -1) (center : dist c ≠ -1)
    (grows : newcomers dist (ends knows [w]) ≠ []) :
    searchStep knows (wrappedState c [w] dist depth) = .next (wrappedState c
      (newcomers dist (ends knows [w])) (relabel knows w (depth + 1) dist) (depth + 1)) := by
  have alone : Alone c (wrappedState c [w] dist depth) := ⟨rfl, rfl, center⟩
  have hexp : (expand knows (wrappedState c [w] dist depth).src
      (wrappedState c [w] dist depth).dst (wrappedState c [w] dist depth).meetPoints).1 =
      ⟨newcomers dist (ends knows [w]), relabel knows w (depth + 1) dist, depth + 1⟩ :=
    wrapped_expand labelled
  rw [alone.next rfl (by rw [hexp]; exact grows), hexp]
  rfl

theorem wrapped_misses {depth : Int8} (labelled : depth + 1 ≠ -1) (center : dist c ≠ -1)
    (exhausted : newcomers dist (ends knows [w]) = []) :
    Misses knows (wrappedState c [w] dist depth) := by
  have alone : Alone c (wrappedState c [w] dist depth) := ⟨rfl, rfl, center⟩
  apply alone.misses rfl
  rw [wrapped_expand labelled]
  exact exhausted

/-- A queue of two persons or more lets the target side meet layer 1. -/
theorem Wrapped.meets_of_wide (wrapped : Wrapped knows c v w dist) {queue : List V}
    {dist' : V → Int8} (kept : ∀ u, dist u ≠ -1 → dist' u ≠ -1) (wide : 2 ≤ queue.length)
    (depth : Int8) : Meets knows (wrappedState c queue dist' depth) := by
  have alone : Alone c (wrappedState c queue dist' depth) := ⟨rfl, rfl, kept c wrapped.center⟩
  obtain ⟨u, hu, hlabel⟩ := wrapped.first
  exact alone.meets_of_wide wide ⟨u, hu, kept u hlabel⟩

theorem newcomers_nodup (dist : V → Int8) (vs : List V) : (newcomers dist vs).Nodup :=
  FirstVisits.fresh_nodup _ _

/-- Layer 256 is the single person `x` as well, and `w` has no self-edge. -/
structure Prolonged (knows : EdgeTable V V Unit) (c v w x : V) (dist : V → Int8) : Prop
    extends Wrapped knows c v w dist where
  next : Layer (undirected knows) c 256 x
  onlyNext : ∀ u, Layer (undirected knows) c 256 u → u = x
  loopless : w ∉ knows.outgoing w

section Prolonged
variable (prolonged : Prolonged knows c v w x dist)
include prolonged

theorem Prolonged.chain256 (last : ∀ u, ¬ Layer (undirected knows) c 257 u) :
    ShortChain knows c := by
  refine ⟨256, le_rfl, ?_, last, fun _ => prolonged.once_all, ?_⟩
  · intro k hk
    by_cases h256 : k = 256
    · subst h256
      exact ⟨x, prolonged.next, prolonged.onlyNext⟩
    · exact prolonged.single_next k (by omega)
  · intro _ u hu
    rw [prolonged.only u hu]
    exact prolonged.loopless

theorem Prolonged.blank_iff (u : V) :
    relabel knows w 0 dist u = -1 ↔ dist u = -1 ∧ u ≠ x := by
  rw [relabel_blank (by decide)]
  refine and_congr_right fun hu => not_congr ?_
  have ends := prolonged.blank_ends u
  simp only [hu, true_and, prolonged.loopless, and_false, false_or] at ends
  rw [ends]
  exact ⟨prolonged.onlyNext u, fun h => h ▸ prolonged.next⟩

/-- Behind layer 256 the search finds layer 257 and, for the first time, labels `w`. -/
theorem Prolonged.mem_queue (u : V) :
    u ∈ newcomers (relabel knows w 0 dist) (ends knows [x]) ↔
      u = w ∨ Layer (undirected knows) c 257 u := by
  rw [IC14.mem_newcomers, mem_ends, prolonged.blank_iff, prolonged.blank]
  constructor
  · rintro ⟨⟨hfar, hux⟩, z, hz, hjoin⟩
    rw [List.mem_singleton.mp hz] at hjoin
    obtain ⟨i, hi, hl⟩ := (hjoin.ball_succ (prolonged.next.ball le_rfl)).layer
    obtain rfl | rfl | rfl | hnear : i = 257 ∨ i = 256 ∨ i = 255 ∨ i ≤ 254 := by omega
    · exact Or.inr hl
    · exact False.elim (hux (prolonged.onlyNext u hl))
    · exact Or.inl (prolonged.only u hl)
    · exact False.elim (hfar (hl.ball hnear))
  · rintro (rfl | hu)
    · refine ⟨⟨fun h => ?_, ne_of_layers prolonged.here prolonged.next (by decide)⟩, x,
        List.mem_singleton_self x, (joined_of_only prolonged.only prolonged.next).symm⟩
      have := prolonged.here.le_of_ball h
      omega
    · refine ⟨⟨fun h => ?_, ne_of_layers hu prolonged.next (by decide)⟩, x,
        List.mem_singleton_self x, joined_of_only prolonged.onlyNext hu⟩
      have := hu.le_of_ball h
      omega

/-- Where the chain ends with layer 256, `w` is the last to be visited and sees nobody new. -/
theorem Prolonged.exhausted :
    newcomers (relabel knows x (0 + 1) (relabel knows w 0 dist)) (ends knows [w]) = [] := by
  rw [List.eq_nil_iff_forall_not_mem]
  intro u hu
  obtain ⟨hblank, hend⟩ := IC14.mem_newcomers.mp hu
  obtain ⟨hdist, hux⟩ := (prolonged.blank_iff u).mp ((relabel_blank (by decide) u).mp hblank).1
  rcases (prolonged.blank_ends u).mp ⟨hdist, hend⟩ with ⟨_, hself⟩ | h256
  · exact prolonged.loopless hself
  · exact hux (prolonged.onlyNext u h256)

theorem Prolonged.decided : Decided knows c (wrappedState c [x] (relabel knows w 0 dist) 0) := by
  have hone : (0 : Int8) + 1 ≠ -1 := by decide
  have kept : ∀ u, dist u ≠ -1 → relabel knows w 0 dist u ≠ -1 :=
    fun _ => relabel_labelled (by decide)
  have kept' : ∀ u, dist u ≠ -1 → relabel knows x (0 + 1) (relabel knows w 0 dist) u ≠ -1 :=
    fun u h => relabel_labelled hone (kept u h)
  have hw := (prolonged.mem_queue w).mpr (Or.inl rfl)
  apply Decided.of_next (wrapped_next hone (kept c prolonged.center) (List.ne_nil_of_mem hw))
  by_cases hlast : ∀ u, ¬ Layer (undirected knows) c 257 u
  · have hqueue : newcomers (relabel knows w 0 dist) (ends knows [x]) = [w] := by
      apply eq_singleton (newcomers_nodup _ _)
      intro u
      rw [prolonged.mem_queue u]
      simp [hlast u]
    rw [hqueue]
    exact Or.inl ⟨wrapped_misses (by decide) (kept' c prolonged.center) prolonged.exhausted,
      prolonged.chain256 hlast⟩
  · obtain ⟨y, hy⟩ := not_forall.mp hlast
    have hy := not_not.mp hy
    refine Or.inr ⟨prolonged.meets_of_wide kept' ?_ _, ?_⟩
    · exact two_le_length hw ((prolonged.mem_queue y).mpr (Or.inr hy))
        (ne_of_layers prolonged.here hy (by decide))
    · rintro ⟨m, hm, chain⟩
      have := chain.le_of_layer hy
      omega

end Prolonged

section FirstQueue
variable (wrapped : Wrapped knows c v w dist)
include wrapped

theorem Wrapped.mem_queue (u : V) :
    u ∈ newcomers dist (ends knows [w]) ↔
      (u = w ∧ w ∈ knows.outgoing w) ∨ Layer (undirected knows) c 256 u :=
  IC14.mem_newcomers.trans (wrapped.blank_ends u)

/-- Two persons behind the wrap: layer 256 is wider, or `w` has a self-edge as well. -/
theorem Wrapped.not_shortChain_of_wide (wide : 2 ≤ (newcomers dist (ends knows [w])).length) :
    ¬ ShortChain knows c := by
  rintro ⟨m, hm, chain⟩
  obtain ⟨a, ha, b, hb, hab⟩ := exists_two (newcomers_nodup dist _) wide
  have loopless : ∀ u, Layer (undirected knows) c 256 u → w ∉ knows.outgoing w := by
    intro u hu
    have := chain.le_of_layer hu
    exact chain.loopless (by omega) w wrapped.here
  rcases (wrapped.mem_queue a).mp ha with ⟨haw, hself⟩ | ha
  · rcases (wrapped.mem_queue b).mp hb with ⟨hbw, _⟩ | hb
    · exact hab (haw.trans hbw.symm)
    · exact loopless b hb hself
  · rcases (wrapped.mem_queue b).mp hb with ⟨_, hself⟩ | hb
    · exact loopless a ha hself
    · exact hab (chain.eq_of_layer ha hb)

/-- The self-edge labels `w` itself, and nobody is left. -/
theorem Wrapped.misses_of_self (hqueue : newcomers dist (ends knows [w]) = [w]) :
    Misses knows (wrappedState c [w] (relabel knows w 0 dist) 0) ∧ ShortChain knows c := by
  refine ⟨wrapped_misses (by decide) (relabel_labelled (by decide) wrapped.center) ?_,
    wrapped.chain255 fun u hu => ?_⟩
  · rw [List.eq_nil_iff_forall_not_mem]
    intro u hu
    obtain ⟨hblank, hend⟩ := IC14.mem_newcomers.mp hu
    exact ((relabel_blank (by decide) u).mp hblank).2 hend
  · have huw := (wrapped.mem_queue u).mpr (Or.inr hu)
    rw [hqueue, List.mem_singleton] at huw
    exact ne_of_layers hu wrapped.here (by decide) huw

theorem Wrapped.prolonged (hqueue : newcomers dist (ends knows [w]) = [x])
    (hx : Layer (undirected knows) c 256 x) : Prolonged knows c v w x dist := by
  have only : ∀ u, u ∈ newcomers dist (ends knows [w]) → u = x := by
    intro u hu
    rwa [hqueue, List.mem_singleton] at hu
  refine ⟨wrapped, hx, fun u hu => only u ((wrapped.mem_queue u).mpr (Or.inr hu)), ?_⟩
  intro hself
  exact ne_of_layers wrapped.here hx (by decide)
    (only w ((wrapped.mem_queue w).mpr (Or.inl ⟨rfl, hself⟩)))

/-- Everything that can follow the wrap decides. -/
theorem Wrapped.decided : Decided knows c (wrappedState c [w] dist (-1)) := by
  have hzero : (-1 : Int8) + 1 ≠ -1 := by decide
  have hdepth : (-1 : Int8) + 1 = 0 := by decide
  by_cases hempty : newcomers dist (ends knows [w]) = []
  · refine Or.inl ⟨wrapped_misses hzero wrapped.center hempty, wrapped.chain255 fun u hu => ?_⟩
    have hmem := (wrapped.mem_queue u).mpr (Or.inr hu)
    simp [hempty] at hmem
  · apply Decided.of_next (wrapped_next hzero wrapped.center hempty)
    by_cases wide : 2 ≤ (newcomers dist (ends knows [w])).length
    · exact Or.inr ⟨wrapped.meets_of_wide (fun _ => relabel_labelled hzero) wide _,
        wrapped.not_shortChain_of_wide wide⟩
    · obtain ⟨x, hqueue⟩ : ∃ x, newcomers dist (ends knows [w]) = [x] := by
        have := List.length_pos_of_ne_nil hempty
        exact List.length_eq_one_iff.mp (by omega)
      have hmem : x ∈ newcomers dist (ends knows [w]) := by simp [hqueue]
      rw [hqueue, hdepth]
      rcases (wrapped.mem_queue x).mp hmem with ⟨rfl, _⟩ | hx
      · exact Or.inl (wrapped.misses_of_self hqueue)
      · exact (wrapped.prolonged hqueue hx).decided

end FirstQueue

end Wrapped

/-- The queue behind the step into layer 255, whose label is the mark of the unvisited. -/
def wrapQueue (knows : EdgeTable V V Unit) (dist : V → Int8) (v : V) : List V :=
  (ends knows [v]).filter fun u => dist u = -1

/-- A person that stays unlabelled is queued once for each edge. -/
theorem count_wrapQueue {dist : V → Int8} {v u : V} (hu : u ∈ wrapQueue knows dist v) :
    (wrapQueue knows dist v).count u =
      (knows.outgoing v).count u + (knows.outgoing u).count v := by
  have hblank : dist u = -1 := by simpa using (List.mem_filter.mp hu).2
  rw [wrapQueue, List.count_filter (by simpa using hblank)]
  simp [ends, knows.count_incoming]

section AtWrap
variable {st : SearchState V} {v w : V} (narrow : Narrow knows c 254 st)
  (hv : Layer (undirected knows) c 254 v)
include narrow

theorem Narrow.blank_iff (u : V) : st.src.dist u = -1 ↔ ¬ Ball (undirected knows) c 254 u :=
  narrow.grown.blank_iff (by omega) u

theorem Narrow.expand_at_wrap (hqueue : st.src.queue = [v]) :
    (expand knows st.src st.dst st.meetPoints).1 =
      ⟨wrapQueue knows st.src.dist v, st.src.dist, -1⟩ := by
  have hdepth : st.src.depth + 1 = -1 := by
    rw [narrow.grown.depth]
    decide
  rw [expand_blank hdepth, hqueue]
  rfl

theorem Narrow.next_at_wrap (hqueue : st.src.queue = [v])
    (grows : wrapQueue knows st.src.dist v ≠ []) :
    searchStep knows st =
      .next (wrappedState c (wrapQueue knows st.src.dist v) st.src.dist (-1)) := by
  have hexp := narrow.expand_at_wrap hqueue
  rw [(narrow.alone (by omega)).next hqueue (by rw [hexp]; exact grows), hexp, narrow.dst]
  rfl

include hv

theorem Narrow.mem_wrapQueue (u : V) :
    u ∈ wrapQueue knows st.src.dist v ↔ Layer (undirected knows) c 255 u := by
  rw [wrapQueue, List.mem_filter, mem_ends, decide_eq_true_eq, narrow.blank_iff,
    layer_succ_joined, and_comm]
  refine and_congr_right fun _ => ?_
  constructor
  · rintro ⟨z, hz, hjoin⟩
    exact ⟨z, List.mem_singleton.mp hz ▸ hv, hjoin⟩
  · rintro ⟨z, hz, hjoin⟩
    exact ⟨z, List.mem_singleton.mpr ((narrow.single 254 le_rfl).unique hz hv), hjoin⟩

/-- Two entries in the queue are two persons in layer 255 or two edges to one. -/
theorem Narrow.not_shortChain_at_wrap (wide : 2 ≤ (wrapQueue knows st.src.dist v).length) :
    ¬ ShortChain knows c := by
  rintro ⟨m, hm, chain⟩
  obtain ⟨w, hw⟩ := List.exists_mem_of_length_pos (Nat.zero_lt_of_lt wide)
  have hlayer := (narrow.mem_wrapQueue hv w).mp hw
  have honce := chain.once (chain.le_of_layer hlayer) v w hv hlayer
  have hall : (wrapQueue knows st.src.dist v).count w = (wrapQueue knows st.src.dist v).length := by
    rw [List.count_eq_length]
    exact fun u hu => chain.eq_of_layer hlayer ((narrow.mem_wrapQueue hv u).mp hu)
  have hcount := count_wrapQueue hw
  omega

theorem Narrow.wrapped (hqueue : wrapQueue knows st.src.dist v = [w]) :
    Wrapped knows c v w st.src.dist := by
  have mem : ∀ u, u = w ↔ Layer (undirected knows) c 255 u := by
    intro u
    rw [← narrow.mem_wrapQueue hv u, hqueue, List.mem_singleton]
  refine ⟨narrow.blank_iff, narrow.single, hv, (mem w).mp rfl, fun u => (mem u).mpr, ?_⟩
  have hcount := count_wrapQueue ((narrow.mem_wrapQueue hv w).mpr ((mem w).mp rfl))
  rw [← hcount, hqueue, List.count_singleton_self]

end AtWrap

/-- The step into layer 255, which labels nobody and queues a person once for each edge. -/
theorem Narrow.decided_at_wrap {st : SearchState V} (narrow : Narrow knows c 254 st) :
    Decided knows c st := by
  have alone := narrow.alone (by omega)
  obtain ⟨v, hv, hqueue⟩ := narrow.queue
  by_cases hempty : wrapQueue knows st.src.dist v = []
  · refine Or.inl ⟨alone.misses hqueue (by rw [narrow.expand_at_wrap hqueue]; exact hempty),
      254, by omega, narrow.single, fun u hu => ?_, fun h => by omega, fun h => by omega⟩
    have hmem := (narrow.mem_wrapQueue hv u).mpr hu
    simp [hempty] at hmem
  · apply Decided.of_next (narrow.next_at_wrap hqueue hempty)
    by_cases wide : 2 ≤ (wrapQueue knows st.src.dist v).length
    · have wrapped : Alone c (wrappedState c (wrapQueue knows st.src.dist v) st.src.dist (-1)) :=
        ⟨rfl, rfl, alone.center⟩
      obtain ⟨u, hu⟩ := hv.below (i := 1) (by omega)
      have hlabel : st.src.dist u ≠ -1 := by
        rw [ne_eq, narrow.blank_iff, not_not]
        exact hu.ball (by omega)
      exact Or.inr ⟨wrapped.meets_of_wide wide ⟨u, hu, hlabel⟩,
        narrow.not_shortChain_at_wrap hv wide⟩
    · obtain ⟨w, hw⟩ : ∃ w, wrapQueue knows st.src.dist v = [w] := by
        have := List.length_pos_of_ne_nil hempty
        exact List.length_eq_one_iff.mp (by omega)
      rw [hw]
      exact (narrow.wrapped hv hw).decided

theorem Narrow.decided {r n : ℕ} (hr : r + n = 254) {st : SearchState V}
    (narrow : Narrow knows c r st) : Decided knows c st := by
  induction n generalizing r st with
  | zero =>
    obtain rfl : r = 254 := by omega
    exact narrow.decided_at_wrap
  | succ n ih =>
    rcases narrow.step (by omega) with hdone | ⟨t, hstep, hnext⟩
    · exact hdone
    · exact Decided.of_next hstep (ih (by omega) hnext)

/-- The search from a person to itself misses itself exactly on the short chains. -/
theorem same_person_search (knows : EdgeTable V V Unit) (c : V) {fuel : Nat}
    {r : SearchState V} (h : loop (searchStep knows) fuel (startSearch c c) = some r) :
    r.meetPoints = [] ↔ ShortChain knows c := by
  have start : Narrow knows c 0 (startSearch c c) := by
    refine ⟨startSide_grown knows c, rfl, rfl, ?_⟩
    intro k hk
    obtain rfl : k = 0 := by omega
    exact ⟨c, layer_zero_iff.mpr rfl, fun u hu => layer_zero_iff.mp hu⟩
  have decided : Decided knows c (startSearch c c) := start.decided (n := 254) (by omega)
  rcases decided with ⟨⟨n, q, hq, hmeet⟩, hchain⟩ | ⟨⟨n, q, hq, hmeet⟩, hchain⟩
  · obtain rfl := loop_unique h hq
    exact ⟨fun _ => hchain, fun _ => hmeet⟩
  · obtain rfl := loop_unique h hq
    exact ⟨fun h => False.elim (hmeet h), fun h => False.elim (hchain h)⟩

end IC14

end LdbcInteractive
