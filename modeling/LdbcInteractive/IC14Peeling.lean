import LdbcInteractive.IC14Scores
import Mathlib.Data.Sym.Sym2

/-!
# IC14: the rounds of the peeling loop

What is added to `score_cache` is followed through the whole run. A round adds the pairs
of one person and takes them off the graph, so that each adjacent pair is either still to
be peeled or has been added once.
-/

namespace LdbcInteractive

open EdgeTables Loops

namespace IC14

variable {G : Graph}

/-- One `score_cache[pair_key(root, v)] += score`. -/
structure Addition (G : Graph) where
  root : G.Person
  nbr : G.Person
  score : Int

def Addition.pair (a : Addition G) : Sym2 G.Person := s(a.root, a.nbr)

def record (cache : UInt64 → Option Int) (a : Addition G) : UInt64 → Option Int :=
  addScore cache (pairKey a.root a.nbr) a.score

/-- The score a round has for a neighbour of its root, by the branch it takes. -/
def roundScore (st : PeelState G) (root v : G.Person) : Int :=
  match inOrder (nbrs st.pairs root) with
  | [_] => pairScoreOne G root v
  | vs =>
    accumulateScores G root (vs.foldl (fun counts v => Function.update counts v 1) st.counts) v - 1

/-- What a pass adds to the cache, in order. -/
def additions (st : PeelState G) : List (Addition G) :=
  match (highestDegree st.pairs).1 with
  | none => []
  | some root => (inOrder (nbrs st.pairs root)).map fun v => ⟨root, v, roundScore st root v⟩

def startPeel (paths : List (List G.Person)) : PeelState G :=
  ⟨personPairs paths, fun _ => 0, fun _ => none⟩

theorem additions_root {st : PeelState G} {root : G.Person}
    (hroot : (highestDegree st.pairs).1 = some root) :
    additions st =
      (inOrder (nbrs st.pairs root)).map fun v => ⟨root, v, roundScore st root v⟩ := by
  simp [additions, hroot]

theorem foldl_record (root : G.Person) (score : G.Person → Int) (vs : List G.Person)
    (cache : UInt64 → Option Int) :
    (vs.map fun v => (⟨root, v, score v⟩ : Addition G)).foldl record cache =
      addScores root score vs cache := by
  rw [List.foldl_map]
  rfl

/-- A pass changes the cache by its additions and by nothing else. -/
theorem peelStep_scoreCache {st st' : PeelState G} (h : peelStep st = .next st') :
    st'.scoreCache = (additions st).foldl record st.scoreCache := by
  by_cases hempty : ∀ v, st.pairs v = none
  · simp [peelStep, hempty] at h
  · cases hbest : (highestDegree st.pairs).1 with
    | none => simp [peelStep, hempty, hbest] at h
    | some root =>
      rw [additions_root hbest, foldl_record]
      have nodup := inOrder_nodup (nbrs st.pairs root)
      rcases horder : inOrder (nbrs st.pairs root) with _ | ⟨other, _ | ⟨w, rest⟩⟩
      · have hvs : inOrder ((st.pairs root).getD ∅) = [] := horder
        simp [peelStep, hempty, hbest, hvs] at h
      · have hvs : inOrder ((st.pairs root).getD ∅) = [other] := horder
        have hscore : roundScore st root = pairScoreOne G root := by
          funext v
          simp [roundScore, horder]
        have hst : peelOne st root other = st' := by
          simpa [peelStep, hempty, hbest, hvs] using h
        rw [← hst, hscore]
        rfl
      · have hvs : inOrder ((st.pairs root).getD ∅) = other :: w :: rest := horder
        have hscore : roundScore st root = fun v => accumulateScores G root
            ((other :: w :: rest).foldl (fun counts v => Function.update counts v 1)
              st.counts) v - 1 := by
          funext v
          simp [roundScore, horder]
        have hst : peelMany st root (other :: w :: rest) = st' := by
          simpa [peelStep, hempty, hbest, hvs] using h
        rw [horder] at nodup
        rw [← hst, hscore, peelMany, foldl_collectOne root nodup]

/-- Among the pairs a round adds, each one at the root stands once. -/
theorem count_additions {st : PeelState G} {root : G.Person} (graph : PairGraph st.pairs)
    (hroot : (highestDegree st.pairs).1 = some root) (u v : G.Person) :
    ((additions st).map Addition.pair).count s(u, v) =
      if v ∈ nbrs st.pairs u ∧ (u = root ∨ v = root) then 1 else 0 := by
  have pairs : (additions st).map Addition.pair =
      (inOrder (nbrs st.pairs root)).map fun v => s(root, v) := by
    rw [additions_root hroot, List.map_map]
    rfl
  have nodup : ((inOrder (nbrs st.pairs root)).map fun v => s(root, v)).Nodup :=
    (inOrder_nodup _).map fun v w h => Sym2.congr_right.mp h
  have mem : s(u, v) ∈ (inOrder (nbrs st.pairs root)).map (fun v => s(root, v)) ↔
      v ∈ nbrs st.pairs u ∧ (u = root ∨ v = root) := by
    rw [List.mem_map]
    constructor
    · rintro ⟨w, hw, hpair⟩
      have hw := mem_inOrder.mp hw
      rcases Sym2.eq_iff.mp hpair with ⟨rfl, rfl⟩ | ⟨rfl, rfl⟩
      · exact ⟨hw, Or.inl rfl⟩
      · exact ⟨graph.symm _ _ hw, Or.inr rfl⟩
    · rintro ⟨huv, rfl | rfl⟩
      · exact ⟨v, mem_inOrder.mpr huv, rfl⟩
      · exact ⟨u, mem_inOrder.mpr (graph.symm _ _ huv), Sym2.eq_swap⟩
  rw [pairs, nodup.count]
  simp only [mem]

/-- A pair of the initial graph is still to be peeled or has been added, and not both. -/
structure Adding (initial : PairMap G) (log : List (Addition G)) (st : PeelState G) : Prop where
  graph : PairGraph st.pairs
  counts : ∀ v, st.counts v = 0
  cache : st.scoreCache = log.foldl record fun _ => none
  once : ∀ u v, (log.map Addition.pair).count s(u, v) + (if v ∈ nbrs st.pairs u then 1 else 0) =
    if v ∈ nbrs initial u then 1 else 0

theorem Adding.start {paths : List (List G.Person)} (stepping : Stepping paths) :
    Adding (personPairs paths) [] (startPeel paths) :=
  ⟨personPairs_graph stepping, fun _ => rfl, rfl, fun _ _ => Nat.zero_add _⟩

theorem Adding.pass {initial : PairMap G} {log : List (Addition G)} {st st' : PeelState G}
    (adding : Adding initial log st) (h : peelStep st = .next st') :
    Adding initial (log ++ additions st) st' := by
  rcases peelStep_cases Scoring.any adding.graph adding.counts with
    ⟨hdone, _⟩ | ⟨root, next, hroot, hnext, round⟩
  · rw [hdone] at h
    cases h
  · obtain rfl : next = st' := by
      rw [hnext] at h
      exact Control.next.inj h
    refine ⟨round.graph, round.counts, ?_, ?_⟩
    · rw [peelStep_scoreCache h, adding.cache, List.foldl_append]
    · intro u v
      have hold := adding.once u v
      have hadd := count_additions adding.graph hroot u v
      have hpairs := round.pairs u v
      rw [List.map_append, List.count_append, hadd, ← hold]
      by_cases huv : v ∈ nbrs st.pairs u
      · by_cases hends : u = root ∨ v = root
        · have hgone : v ∉ nbrs next.pairs u := by
            intro hmem
            obtain ⟨_, hu, hv⟩ := hpairs.mp hmem
            exact hends.elim hu hv
          simp [huv, hends, hgone]
        · rw [not_or] at hends
          simp [huv, hends, hpairs]
      · simp [huv, hpairs]

theorem Adding.count_eq {initial : PairMap G} {log : List (Addition G)} {st : PeelState G}
    (adding : Adding initial log st) (emptied : ∀ v, st.pairs v = none) (u v : G.Person) :
    (log.map Addition.pair).count s(u, v) = if v ∈ nbrs initial u then 1 else 0 := by
  have honce := adding.once u v
  have hgone : v ∉ nbrs st.pairs u := by simp [nbrs, emptied u]
  rwa [if_neg hgone, Nat.add_zero] at honce

theorem Adding.of_emits {paths : List (List G.Person)} (stepping : Stepping paths)
    {log : List (Addition G)} {st : PeelState G}
    (run : Emits peelStep additions (startPeel paths) log st) :
    Adding (personPairs paths) log st :=
  run.invariant (Adding (personPairs paths)) (fun _ _ _ adding h => adding.pass h)
    (Adding.start stepping)

/-- The last loop head of a run that ends through the condition. -/
theorem exists_lastHead {paths : List (List G.Person)} (stepping : Stepping paths)
    {st : PeelState G} (hpeel : peel paths = some (.emptied, st)) :
    ∃ log, Emits peelStep additions (startPeel paths) log st ∧
      peelStep st = .done (.emptied, st) ∧ ∀ v, st.pairs v = none := by
  obtain ⟨last, hrun, hdone⟩ := reaches_of_loop hpeel
  obtain ⟨log, hlog⟩ := Emits.of_reaches additions hrun
  have adding := Adding.of_emits stepping hlog
  rcases peelStep_cases Scoring.any adding.graph adding.counts with
    ⟨hcase, hempty⟩ | ⟨_, _, _, hnext, _⟩
  · obtain rfl : last = st := by
      rw [hcase] at hdone
      exact (Prod.mk.inj (Control.done.inj hdone)).2
    exact ⟨log, hlog, hdone, hempty⟩
  · rw [hnext] at hdone
    cases hdone

end IC14

open IC14

/-- The loop ends through its condition, and on the way adds each adjacent pair once. -/
theorem peeling_adds_once (G : Graph) (paths : List (List G.Person)) (several : 2 ≤ paths.length)
    (stepping : ∀ path ∈ paths, ∀ e ∈ hops path, e.1 ≠ e.2) :
    (∀ st, Reaches peelStep (startPeel paths) st → PairGraph st.pairs ∧ ∀ v, st.counts v = 0) ∧
    (∃ log st, peel paths = some (.emptied, st) ∧
      Emits peelStep additions (startPeel paths) log st ∧ peelStep st = .done (.emptied, st) ∧
      st.scoreCache = log.foldl record (fun _ => none) ∧
      (∀ u v, (∃ path ∈ paths, AdjacentOn path u v) →
        (log.map Addition.pair).count s(u, v) = 1) ∧
      (∀ u v, (∀ path ∈ paths, ¬ AdjacentOn path u v) →
        (log.map Addition.pair).count s(u, v) = 0) ∧
      (∀ path ∈ paths, ∀ e ∈ hops path, st.scoreCache (pairKey e.1 e.2) ≠ none) ∧
      scorePaths paths = paths.mapM (cachedScore st.scoreCache) ∧ scorePaths paths ≠ none) ∧
    ∀ u v x y : G.Person, pairKey u v = pairKey x y ↔ s(u, v) = s(x, y) := by
  refine ⟨?_, ?_, ?_⟩
  · intro st run
    obtain ⟨log, hlog⟩ := Emits.of_reaches additions run
    have adding := Adding.of_emits stepping hlog
    exact ⟨adding.graph, adding.counts⟩
  · obtain ⟨st, hpeel, hcached⟩ := peel_caches Scoring.any stepping
    obtain ⟨log, hlog, hdone, hempty⟩ := exists_lastHead stepping hpeel
    obtain ⟨scores, hscores, _⟩ := scorePaths_total stepping
    obtain ⟨hmem, _⟩ := personPairs_spec paths
    have adding := Adding.of_emits stepping hlog
    refine ⟨log, st, hpeel, hlog, hdone, adding.cache, ?_, ?_, ?_, ?_, ?_⟩
    · intro u v hadj
      rw [adding.count_eq hempty, if_pos ((hmem u v).mpr hadj)]
    · intro u v hnot
      have habsent : v ∉ nbrs (personPairs paths) u := by
        intro huv
        obtain ⟨path, hpath, hadj⟩ := (hmem u v).mp huv
        exact hnot path hpath hadj
      rw [adding.count_eq hempty, if_neg habsent]
    · intro path hpath e he
      obtain ⟨score, _, hscore⟩ := hcached path hpath e he
      simp [hscore]
    · rw [scorePaths_of_several several, hpeel, Option.bind_some]
    · simp [hscores]
  · intro u v x y
    rw [pairKey_eq_iff G.personNum_le, Sym2.eq_iff]

/-- The paths 0, 1, 2 and 0, 2. -/
theorem peeling_adds_once_thread :
    2 ≤ threadPaths.length ∧ (∀ path ∈ threadPaths, ∀ e ∈ hops path, e.1 ≠ e.2) ∧
    ∃ log st, peel (G := replyThread) threadPaths = some (.emptied, st) ∧
      Emits peelStep additions (startPeel (G := replyThread) threadPaths) log st ∧
      (log.map Addition.pair).count s((0 : Fin 3), (2 : Fin 3)) = 1 := by
  obtain ⟨_, ⟨log, st, hpeel, hlog, _, _, once, _⟩, _⟩ :=
    peeling_adds_once replyThread threadPaths (by decide) threadPaths_stepping
  have adjacent : AdjacentOn (G := replyThread) ([0, 2] : List (Fin 3)) (0 : Fin 3) (2 : Fin 3) :=
    Or.inl List.mem_cons_self
  exact ⟨by decide, threadPaths_stepping, log, st, hpeel, hlog,
    once _ _ ⟨_, List.mem_cons_of_mem _ List.mem_cons_self, adjacent⟩⟩

end LdbcInteractive
