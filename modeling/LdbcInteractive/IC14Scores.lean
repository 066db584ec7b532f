import LdbcInteractive.IC14
import Mathlib.Algebra.BigOperators.Group.Finset.Basic

/-!
# IC14: the scores of two or more paths

Each round of the peeling loop takes the edges of one person off the graph of
adjacent pairs and caches one score for each of them. Which pairs are cached, and
that each of them is cached once, does not depend on the messages. What is cached
does, and that the three ways of counting agree is shown in the second half.
-/

namespace LdbcInteractive

open EdgeTables Loops

namespace IC14

section Keys

theorem toNat_pack {hi lo : Nat} (hhi : hi < 2 ^ 32) (hlo : lo < 2 ^ 32) :
    (UInt64.ofNat lo ||| (UInt64.ofNat hi <<< 32)).toNat = lo + hi * 2 ^ 32 := by
  have h32 : (32 : UInt64).toNat % 64 = 32 := rfl
  have hsize : UInt64.size = 2 ^ 64 := rfl
  rw [UInt64.toNat_or, UInt64.toNat_shiftLeft, UInt64.toNat_ofNat_of_lt' (by omega),
    UInt64.toNat_ofNat_of_lt' (by omega), h32, Nat.shiftLeft_eq, Nat.mod_eq_of_lt (by omega),
    Nat.or_comm, ← Nat.shiftLeft_eq, ← Nat.shiftLeft_add_eq_or_of_lt hlo, Nat.add_comm]

theorem toNat_pairKey {n : Nat} (small : n ≤ kInvalidVid) (a b : Fin n) :
    (pairKey a b).toNat = max a.val b.val + min a.val b.val * 2 ^ 32 := by
  have ha := a.isLt
  have hb := b.isLt
  rw [kInvalidVid] at small
  by_cases h : a > b
  · have hval : b.val < a.val := h
    rw [pairKey, if_pos h, toNat_pack (by omega) (by omega), Nat.max_eq_left (by omega),
      Nat.min_eq_right (by omega)]
  · have hval : a.val ≤ b.val := Nat.le_of_not_lt h
    rw [pairKey, if_neg h, toNat_pack (by omega) (by omega), Nat.max_eq_right (by omega),
      Nat.min_eq_left (by omega)]

/-- No two unordered pairs share a key. -/
theorem pairKey_eq_iff {n : Nat} (small : n ≤ kInvalidVid) {a b c d : Fin n} :
    pairKey a b = pairKey c d ↔ (a = c ∧ b = d) ∨ (a = d ∧ b = c) := by
  have ha := a.isLt
  have hb := b.isLt
  have hc := c.isLt
  have hd := d.isLt
  rw [← UInt64.toNat_inj, toNat_pairKey small, toNat_pairKey small]
  rw [kInvalidVid] at small
  simp only [Fin.ext_iff]
  omega

theorem pairKey_comm {n : Nat} (small : n ≤ kInvalidVid) (a b : Fin n) :
    pairKey a b = pairKey b a :=
  (pairKey_eq_iff small).mpr (Or.inr ⟨rfl, rfl⟩)

end Keys

section Pairs
variable {G : Graph}

/-- The neighbour set of a key, empty for an absent one. -/
def nbrs (pairs : PairMap G) (v : G.Person) : Finset G.Person := (pairs v).getD ∅

/-- `person_pairs` at the head of the loop: symmetric, irreflexive, without empty sets. -/
structure PairGraph (pairs : PairMap G) : Prop where
  symm : ∀ u v, v ∈ nbrs pairs u → u ∈ nbrs pairs v
  irrefl : ∀ u, u ∉ nbrs pairs u
  nonempty : ∀ u, pairs u ≠ some ∅

/-- Two persons stand next to each other on a path, in either order. -/
def AdjacentOn (path : List G.Person) (u v : G.Person) : Prop :=
  (u, v) ∈ hops path ∨ (v, u) ∈ hops path

/-- Consecutive persons of every path are distinct. -/
def Stepping (paths : List (List G.Person)) : Prop :=
  ∀ path ∈ paths, ∀ e ∈ hops path, e.1 ≠ e.2

theorem nbrs_insertPair (pairs : PairMap G) (a b u : G.Person) :
    nbrs (insertPair pairs a b) u = if u = a then insert b (nbrs pairs a) else nbrs pairs u := by
  by_cases hu : u = a
  · subst hu
    simp [nbrs, insertPair]
  · simp [nbrs, insertPair, hu]

theorem insertPair_nonempty {pairs : PairMap G} (nonempty : ∀ u, pairs u ≠ some ∅)
    (a b u : G.Person) : insertPair pairs a b u ≠ some ∅ := by
  by_cases hu : u = a
  · subst hu
    simp [insertPair]
  · simpa [insertPair, hu] using nonempty u

/-- The pairs of one path, in both directions, on top of those already there. -/
theorem mem_nbrs_hops (es : List (G.Person × G.Person)) (pairs : PairMap G) (u v : G.Person) :
    v ∈ nbrs (es.foldl (fun pairs e => insertPair (insertPair pairs e.1 e.2) e.2 e.1) pairs) u ↔
      v ∈ nbrs pairs u ∨ (u, v) ∈ es ∨ (v, u) ∈ es := by
  induction es generalizing pairs with
  | nil => simp
  | cons e rest ih =>
    obtain ⟨a, b⟩ := e
    rw [List.foldl_cons, ih, nbrs_insertPair, nbrs_insertPair]
    simp only [List.mem_cons, Prod.mk.injEq]
    by_cases hub : u = b <;> by_cases hua : u = a <;> by_cases hvb : v = b <;>
      by_cases hva : v = a <;> simp_all [nbrs_insertPair]

theorem hops_nonempty (es : List (G.Person × G.Person)) {pairs : PairMap G}
    (nonempty : ∀ u, pairs u ≠ some ∅) (u : G.Person) :
    es.foldl (fun pairs e => insertPair (insertPair pairs e.1 e.2) e.2 e.1) pairs u ≠ some ∅ := by
  induction es generalizing pairs with
  | nil => exact nonempty u
  | cons e rest ih =>
    exact ih (insertPair_nonempty (insertPair_nonempty nonempty e.1 e.2) e.2 e.1)

theorem personPairs_spec (paths : List (List G.Person)) :
    (∀ u v, v ∈ nbrs (personPairs paths) u ↔ ∃ path ∈ paths, AdjacentOn path u v) ∧
      ∀ u, personPairs paths u ≠ some ∅ := by
  have general : ∀ pairs : PairMap G, (∀ u, pairs u ≠ some ∅) →
      let all := paths.foldl (fun pairs path => (hops path).foldl
        (fun pairs e => insertPair (insertPair pairs e.1 e.2) e.2 e.1) pairs) pairs
      (∀ u v, v ∈ nbrs all u ↔ v ∈ nbrs pairs u ∨ ∃ path ∈ paths, AdjacentOn path u v) ∧
        ∀ u, all u ≠ some ∅ := by
    induction paths with
    | nil => exact fun pairs nonempty => ⟨by simp, nonempty⟩
    | cons path rest ih =>
      intro pairs nonempty
      obtain ⟨hmem, hall⟩ := ih _ (hops_nonempty (hops path) nonempty)
      refine ⟨?_, hall⟩
      intro u v
      rw [List.foldl_cons, hmem, mem_nbrs_hops, or_assoc]
      simp [AdjacentOn]
  obtain ⟨hmem, hall⟩ := general (fun _ => none) (fun _ => by simp)
  refine ⟨?_, hall⟩
  intro u v
  rw [personPairs, hmem]
  simp [nbrs]

theorem personPairs_graph {paths : List (List G.Person)} (stepping : Stepping paths) :
    PairGraph (personPairs paths) := by
  obtain ⟨hmem, nonempty⟩ := personPairs_spec paths
  refine ⟨?_, ?_, nonempty⟩
  · intro u v huv
    obtain ⟨path, hpath, hadj⟩ := (hmem u v).mp huv
    exact (hmem v u).mpr ⟨path, hpath, hadj.symm⟩
  · intro u huu
    obtain ⟨path, hpath, hadj⟩ := (hmem u u).mp huu
    exact stepping path hpath (u, u) (hadj.elim id id) rfl

/-- The comparison of one key in the scan for the highest degree. -/
def largerSet (pairs : PairMap G) (best : Option G.Person × Nat) (v : G.Person) :
    Option G.Person × Nat :=
  match pairs v with
  | some neighbors => if neighbors.card > best.2 then (some v, neighbors.card) else best
  | none => best

/-- The scan so far: the key found has a neighbour, and no key seen has more of them. -/
structure DegreeScan (pairs : PairMap G) (seen : List G.Person) (best : Option G.Person × Nat) :
    Prop where
  rooted : ∀ root, best.1 = some root → nbrs pairs root ≠ ∅
  unrooted : best.1 = none → best.2 = 0
  bound : ∀ v ∈ seen, (nbrs pairs v).card ≤ best.2

section DegreeScan
variable {pairs : PairMap G} {seen : List G.Person} {best : Option G.Person × Nat}

theorem DegreeScan.step (scan : DegreeScan pairs seen best) (v : G.Person) :
    DegreeScan pairs (seen ++ [v]) (largerSet pairs best v) := by
  have bound : ∀ m, best.2 ≤ m → (nbrs pairs v).card ≤ m →
      ∀ u ∈ seen ++ [v], (nbrs pairs u).card ≤ m := by
    intro m hm hv u hu
    rcases List.mem_append.mp hu with hu | hu
    · exact (scan.bound u hu).trans hm
    · rwa [List.mem_singleton.mp hu]
  cases hv : pairs v with
  | none =>
    have hstep : largerSet pairs best v = best := by simp [largerSet, hv]
    rw [hstep]
    exact ⟨scan.rooted, scan.unrooted, bound _ le_rfl (by simp [nbrs, hv])⟩
  | some s =>
    have hs : nbrs pairs v = s := by simp [nbrs, hv]
    by_cases hmore : s.card > best.2
    · have hstep : largerSet pairs best v = (some v, s.card) := by simp [largerSet, hv, hmore]
      rw [hstep]
      refine ⟨?_, by simp, bound _ hmore.le (by rw [hs])⟩
      rintro root ⟨⟩
      rw [hs]
      rintro rfl
      simp at hmore
    · have hstep : largerSet pairs best v = best := by simp [largerSet, hv, hmore]
      rw [hstep]
      exact ⟨scan.rooted, scan.unrooted, bound _ le_rfl (by rw [hs]; exact not_lt.mp hmore)⟩

theorem DegreeScan.foldl (scan : DegreeScan pairs seen best) (vs : List G.Person) :
    DegreeScan pairs (seen ++ vs) (vs.foldl (largerSet pairs) best) := by
  induction vs generalizing seen best with
  | nil => simpa using scan
  | cons v rest ih =>
    rw [← List.singleton_append, ← List.append_assoc]
    exact ih (scan.step v)

end DegreeScan

/-- The root has a neighbour, and there is one as long as some set is not empty. -/
theorem highestDegree_spec (pairs : PairMap G) :
    (∀ root, (highestDegree pairs).1 = some root → nbrs pairs root ≠ ∅) ∧
      ((highestDegree pairs).1 = none → ∀ v, nbrs pairs v = ∅) := by
  have start : DegreeScan pairs [] (none, 0) := ⟨by simp, by simp, by simp⟩
  have scan : DegreeScan pairs (List.finRange G.personNum) (highestDegree pairs) :=
    start.foldl (List.finRange G.personNum)
  refine ⟨scan.rooted, fun hnone v => ?_⟩
  have hzero := scan.bound v (List.mem_finRange v)
  rwa [scan.unrooted hnone, Nat.le_zero, Finset.card_eq_zero] at hzero

/-- What one round does to the set of a neighbour of the root. -/
def without (root : G.Person) (entry : Option (Finset G.Person)) : Option (Finset G.Person) :=
  if (entry.getD ∅).erase root = ∅ then none else some ((entry.getD ∅).erase root)

theorem getD_without (root : G.Person) (entry : Option (Finset G.Person)) :
    (without root entry).getD ∅ = (entry.getD ∅).erase root := by
  by_cases h : (entry.getD ∅).erase root = ∅ <;> simp [without, h]

theorem without_ne_empty (root : G.Person) (entry : Option (Finset G.Person)) :
    without root entry ≠ some ∅ := by
  by_cases h : (entry.getD ∅).erase root = ∅ <;> simp [without, h]

theorem foldl_dropPair (root : G.Person) {vs : List G.Person} (nodup : vs.Nodup)
    (pairs : PairMap G) (u : G.Person) :
    vs.foldl (fun pairs v => dropPair pairs v root) pairs u =
      if u ∈ vs then without root (pairs u) else pairs u := by
  induction vs generalizing pairs with
  | nil => simp
  | cons v rest ih =>
    obtain ⟨hv, hrest⟩ := List.nodup_cons.mp nodup
    rw [List.foldl_cons, ih hrest]
    by_cases huv : u = v
    · subst huv
      simp [hv, dropPair, without]
    · simp [dropPair, huv]

/-- The graph after a round: the edges of the root are gone. -/
def peeledPairs (pairs : PairMap G) (root : G.Person) (vs : List G.Person) : PairMap G :=
  Function.update (vs.foldl (fun pairs v => dropPair pairs v root) pairs) root none

section Round
variable {pairs : PairMap G} {root : G.Person} {vs : List G.Person}

theorem nbrs_peeledPairs (graph : PairGraph pairs) (nodup : vs.Nodup)
    (hvs : ∀ v, v ∈ vs ↔ v ∈ nbrs pairs root) (u v : G.Person) :
    v ∈ nbrs (peeledPairs pairs root vs) u ↔ v ∈ nbrs pairs u ∧ u ≠ root ∧ v ≠ root := by
  by_cases hu : u = root
  · subst hu
    simp [nbrs, peeledPairs]
  · simp only [nbrs, peeledPairs, Function.update_of_ne hu, foldl_dropPair root nodup]
    by_cases hmem : u ∈ vs
    · simp [hmem, getD_without, hu, and_comm]
    · rw [if_neg hmem]
      refine ⟨fun h => ⟨h, hu, ?_⟩, fun h => h.1⟩
      rintro rfl
      exact hmem ((hvs u).mpr (graph.symm u v h))

theorem peeledPairs_graph (graph : PairGraph pairs) (nodup : vs.Nodup)
    (hvs : ∀ v, v ∈ vs ↔ v ∈ nbrs pairs root) : PairGraph (peeledPairs pairs root vs) := by
  have mem := nbrs_peeledPairs graph nodup hvs
  refine ⟨?_, ?_, ?_⟩
  · intro u v huv
    obtain ⟨h, hu, hv⟩ := (mem u v).mp huv
    exact (mem v u).mpr ⟨graph.symm u v h, hv, hu⟩
  · exact fun u huu => graph.irrefl u ((mem u u).mp huu).1
  · intro u
    by_cases hu : u = root
    · simp [peeledPairs, hu]
    · rw [peeledPairs, Function.update_of_ne hu, foldl_dropPair root nodup]
      split
      · exact without_ne_empty root _
      · exact graph.nonempty u

/-- The keys of `person_pairs`. -/
def keys (pairs : PairMap G) : Finset G.Person := Finset.univ.filter (fun v => pairs v ≠ none)

theorem keys_peeledPairs (nodup : vs.Nodup) (hroot : nbrs pairs root ≠ ∅)
    (hvs : ∀ v, v ∈ vs → nbrs pairs v ≠ ∅) :
    (keys (peeledPairs pairs root vs)).card < (keys pairs).card := by
  have present : ∀ v, nbrs pairs v ≠ ∅ → pairs v ≠ none := by
    intro v hv hnone
    exact hv (by simp [nbrs, hnone])
  apply Finset.card_lt_card
  refine Finset.ssubset_iff_of_subset ?_ |>.mpr ⟨root, ?_, ?_⟩
  · intro u hu
    simp only [keys, Finset.mem_filter, Finset.mem_univ, true_and] at hu ⊢
    by_cases hur : u = root
    · exact hur ▸ present root hroot
    · rw [peeledPairs, Function.update_of_ne hur, foldl_dropPair root nodup] at hu
      by_cases hmem : u ∈ vs
      · exact present u (hvs u hmem)
      · rwa [if_neg hmem] at hu
  · simpa [keys] using present root hroot
  · rw [keys, Finset.mem_filter, peeledPairs, Function.update_self]
    exact fun h => h.2 rfl

end Round

/-- The scores of one round, each added under the key of its pair. -/
def addScores (root : G.Person) (score : G.Person → Int) (vs : List G.Person)
    (cache : UInt64 → Option Int) : UInt64 → Option Int :=
  vs.foldl (fun cache v => addScore cache (pairKey root v) (score v)) cache

theorem addScores_other {root : G.Person} {score : G.Person → Int} {vs : List G.Person}
    {key : UInt64} (other : ∀ v ∈ vs, key ≠ pairKey root v) (cache : UInt64 → Option Int) :
    addScores root score vs cache key = cache key := by
  induction vs generalizing cache with
  | nil => rfl
  | cons v rest ih =>
    have hrest := ih (fun w hw => other w (List.mem_cons_of_mem v hw))
      (addScore cache (pairKey root v) (score v))
    exact hrest.trans (Function.update_of_ne (other v List.mem_cons_self) _ _)

theorem addScores_self {root : G.Person} {score : G.Person → Int} {vs : List G.Person}
    (nodup : vs.Nodup) {cache : UInt64 → Option Int} {v : G.Person} (hv : v ∈ vs)
    (absent : cache (pairKey root v) = none) :
    addScores root score vs cache (pairKey root v) = some (score v) := by
  induction vs generalizing cache with
  | nil => simp at hv
  | cons w rest ih =>
    obtain ⟨hw, hrest⟩ := List.nodup_cons.mp nodup
    have unfolded : addScores root score (w :: rest) cache =
        addScores root score rest (addScore cache (pairKey root w) (score w)) := rfl
    have distinct : ∀ u, u ≠ w → pairKey root u ≠ pairKey root w := by
      intro u huw hkey
      rcases (pairKey_eq_iff G.personNum_le).mp hkey with ⟨_, h⟩ | ⟨h, h'⟩
      · exact huw h
      · exact huw (h'.trans h)
    rw [unfolded]
    rcases List.mem_cons.mp hv with rfl | hv
    · have other : ∀ u ∈ rest, pairKey root v ≠ pairKey root u := by
        intro u hu
        have hne : u ≠ v := fun h => hw (h ▸ hu)
        exact (distinct u hne).symm
      rw [addScores_other other, addScore, Function.update_self, absent]
      simp
    · have hne : v ≠ w := fun h => hw (h ▸ hv)
      apply ih hrest hv
      rw [addScore, Function.update_of_ne (distinct v hne)]
      exact absent

/-- Reading and resetting the counts of distinct neighbours, all components at once. -/
theorem foldl_collectOne (root : G.Person) {vs : List G.Person} (nodup : vs.Nodup)
    (st : PeelState G) :
    vs.foldl (collectOne root) st =
      { pairs := vs.foldl (fun pairs v => dropPair pairs v root) st.pairs
        counts := fun u => if u ∈ vs then 0 else st.counts u
        scoreCache := addScores root (fun v => st.counts v - 1) vs st.scoreCache } := by
  induction vs generalizing st with
  | nil => rfl
  | cons v rest ih =>
    obtain ⟨hv, hrest⟩ := List.nodup_cons.mp nodup
    rw [List.foldl_cons, ih hrest]
    congr 1
    · funext u
      by_cases huv : u = v
      · simp [huv, collectOne]
      · simp [huv, collectOne]
    · have later : ∀ u ∈ rest, (collectOne root st v).counts u = st.counts u := by
        intro u hu
        have huv : u ≠ v := fun h => hv (h ▸ hu)
        simp [collectOne, huv]
      refine List.foldl_ext _ _ _ fun cache u hu => ?_
      simp only [later u hu]

theorem foldl_mark (vs : List G.Person) (counts : G.Person → Int) (u : G.Person) :
    vs.foldl (fun counts v => Function.update counts v 1) counts u =
      if u ∈ vs then 1 else counts u := by
  induction vs generalizing counts with
  | nil => rfl
  | cons v rest ih =>
    rw [List.foldl_cons, ih]
    by_cases huv : u = v
    · simp [huv]
    · simp [huv]

end Pairs

section Interactions
variable (G : Graph)

/-- The authors that `root` has interacted with, one entry for each reply in either
direction, in the order in which the two batch scorers meet them. -/
def interactions (root : G.Person) : List (Option G.Person × Int) :=
  (G.commentHasCreator.incoming root).flatMap (fun comment =>
    replyTarget G comment :: (G.replyOfComment.incoming comment).map (fun follower =>
      (getSingleOutNeighbor G.commentHasCreator.outgoing follower, 1))) ++
  (G.postHasCreator.incoming root).flatMap (fun post =>
    (G.replyOfPost.incoming post).map (fun reply =>
      (getSingleOutNeighbor G.commentHasCreator.outgoing reply, 2)))

theorem accumulateScores_eq (root : G.Person) (counts : G.Person → Int) :
    accumulateScores G root counts = (interactions G root).foldl bump counts := by
  simp only [accumulateScores, interactions, List.foldl_append, List.foldl_flatMap,
    List.foldl_cons, List.foldl_map]

variable {G}

/-- The weight that a list of interactions gives to one author. -/
def weight (targets : List (Option G.Person × Int)) (author : G.Person) : Int :=
  (targets.map (fun target => if target.1 = some author then target.2 else 0)).sum

theorem foldl_credit (author : G.Person) (targets : List (Option G.Person × Int))
    (score : Int) : targets.foldl (credit author) score = score + weight targets author := by
  induction targets generalizing score with
  | nil => simp [weight]
  | cons target rest ih =>
    rw [List.foldl_cons, ih, credit]
    simp only [weight, List.map_cons, List.sum_cons]
    split <;> omega

theorem bump_of_zero {counts : G.Person → Int} {author : G.Person} (zero : counts author = 0)
    (target : Option G.Person × Int) : bump counts target author = 0 := by
  obtain ⟨a, w⟩ := target
  cases a with
  | none => exact zero
  | some a =>
    by_cases ha : author = a
    · subst ha
      simp [bump, zero]
    · by_cases hcount : counts a = 0 <;> simp [bump, hcount, ha, zero]

theorem foldl_bump_zero {author : G.Person} (targets : List (Option G.Person × Int))
    {counts : G.Person → Int} (zero : counts author = 0) :
    targets.foldl bump counts author = 0 := by
  induction targets generalizing counts with
  | nil => exact zero
  | cons target rest ih => exact ih (bump_of_zero zero target)

/-- A positive count grows by the weight of the interactions, none of which is negative. -/
theorem foldl_bump {author : G.Person} {targets : List (Option G.Person × Int)}
    (nonneg : ∀ target ∈ targets, 0 ≤ target.2) {counts : G.Person → Int}
    (positive : 0 < counts author) :
    targets.foldl bump counts author = counts author + weight targets author := by
  induction targets generalizing counts with
  | nil => simp [weight]
  | cons target rest ih =>
    have hw := nonneg target List.mem_cons_self
    have step : bump counts target author =
        counts author + if target.1 = some author then target.2 else 0 := by
      obtain ⟨a, w⟩ := target
      cases a with
      | none => simp [bump]
      | some a =>
        by_cases ha : a = author
        · subst ha
          simp [bump, positive.ne']
        · by_cases hcount : counts a = 0 <;> simp [bump, hcount, ha, Ne.symm ha]
    have positive' : 0 < bump counts target author := by
      rw [step]
      split <;> omega
    rw [List.foldl_cons, ih (fun t ht => nonneg t (List.mem_cons_of_mem target ht)) positive',
      step]
    simp only [weight, List.map_cons, List.sum_cons]
    omega

theorem replyTarget_nonneg (comment : G.Comment) : 0 ≤ (replyTarget G comment).2 := by
  rw [replyTarget]
  split
  · exact (by decide : (0 : Int) ≤ 2)
  · split
    · exact (by decide : (0 : Int) ≤ 1)
    · exact le_rfl

theorem interactions_nonneg (root : G.Person) :
    ∀ target ∈ interactions G root, 0 ≤ target.2 := by
  intro target htarget
  rcases List.mem_append.mp htarget with h | h
  · obtain ⟨comment, _, h⟩ := List.mem_flatMap.mp h
    rcases List.mem_cons.mp h with rfl | h
    · exact replyTarget_nonneg comment
    · obtain ⟨_, _, rfl⟩ := List.mem_map.mp h
      exact (by decide : (0 : Int) ≤ 1)
  · obtain ⟨_, _, h⟩ := List.mem_flatMap.mp h
    obtain ⟨_, _, rfl⟩ := List.mem_map.mp h
    exact (by decide : (0 : Int) ≤ 2)

end Interactions

section Peeling
variable {G : Graph}

/-- What a round may cache for a pair. The predicate `Ok` leaves open what is known of
the messages. -/
structure Scoring (Ok : G.Person → G.Person → Int → Prop) : Prop where
  symm : ∀ u v score, Ok u v score → Ok v u score
  one : ∀ root other, root ≠ other → Ok root other (pairScoreOne G root other)
  many : ∀ (root v : G.Person) (counts : G.Person → Int), root ≠ v → counts v = 1 →
    Ok root v (accumulateScores G root counts v - 1)

/-- Without regard to the messages any score will do. -/
theorem Scoring.any : Scoring (fun _ _ _ => True : G.Person → G.Person → Int → Prop) :=
  ⟨fun _ _ _ _ => trivial, fun _ _ _ => trivial, fun _ _ _ _ _ => trivial⟩

/-- One round: the edges of `root` leave the graph and their scores enter the cache. -/
structure Peeled (Ok : G.Person → G.Person → Int → Prop) (st : PeelState G)
    (root : G.Person) (st' : PeelState G) : Prop where
  graph : PairGraph st'.pairs
  pairs : ∀ u v, v ∈ nbrs st'.pairs u ↔ v ∈ nbrs st.pairs u ∧ u ≠ root ∧ v ≠ root
  fewer : (keys st'.pairs).card < (keys st.pairs).card
  counts : ∀ v, st'.counts v = 0
  added : ∀ v ∈ nbrs st.pairs root, st.scoreCache (pairKey root v) = none →
    ∃ score, Ok root v score ∧ st'.scoreCache (pairKey root v) = some score
  others : ∀ key, (∀ v ∈ nbrs st.pairs root, key ≠ pairKey root v) →
    st'.scoreCache key = st.scoreCache key

variable {Ok : G.Person → G.Person → Int → Prop}

theorem peeled_of_star {st : PeelState G} {root : G.Person} {vs : List G.Person}
    (graph : PairGraph st.pairs) (nodup : vs.Nodup)
    (hvs : ∀ v, v ∈ vs ↔ v ∈ nbrs st.pairs root) (hroot : nbrs st.pairs root ≠ ∅)
    {counts : G.Person → Int} (zero : ∀ v, counts v = 0) {score : G.Person → Int}
    (ok : ∀ v ∈ vs, Ok root v (score v)) :
    Peeled Ok st root
      ⟨peeledPairs st.pairs root vs, counts, addScores root score vs st.scoreCache⟩ := by
  have hback : ∀ v ∈ vs, nbrs st.pairs v ≠ ∅ := by
    intro v hv hempty
    have := graph.symm root v ((hvs v).mp hv)
    simp [hempty] at this
  refine ⟨peeledPairs_graph graph nodup hvs, nbrs_peeledPairs graph nodup hvs,
    keys_peeledPairs nodup hroot hback, zero, ?_, ?_⟩
  · intro v hv absent
    exact ⟨score v, ok v ((hvs v).mpr hv), addScores_self nodup ((hvs v).mpr hv) absent⟩
  · exact fun key other => addScores_other (fun v hv => other v ((hvs v).mp hv)) _

theorem peelOne_peeled (scoring : Scoring Ok) {st : PeelState G} {root other : G.Person}
    (graph : PairGraph st.pairs) (zero : ∀ v, st.counts v = 0)
    (hvs : ∀ v, v ∈ [other] ↔ v ∈ nbrs st.pairs root) :
    Peeled Ok st root (peelOne st root other) := by
  have hother := (hvs other).mp List.mem_cons_self
  have different : root ≠ other := by
    rintro rfl
    exact graph.irrefl root hother
  have hpeel : peelOne st root other = ⟨peeledPairs st.pairs root [other], st.counts,
      addScores root (pairScoreOne G root) [other] st.scoreCache⟩ := rfl
  rw [hpeel]
  refine peeled_of_star graph (List.nodup_singleton other) hvs (Finset.ne_empty_of_mem hother)
    zero ?_
  intro v hv
  rw [List.mem_singleton.mp hv]
  exact scoring.one root other different

theorem peelMany_peeled (scoring : Scoring Ok) {st : PeelState G} {root : G.Person}
    {vs : List G.Person} (graph : PairGraph st.pairs) (zero : ∀ v, st.counts v = 0)
    (nodup : vs.Nodup) (hvs : ∀ v, v ∈ vs ↔ v ∈ nbrs st.pairs root)
    (hroot : nbrs st.pairs root ≠ ∅) : Peeled Ok st root (peelMany st root vs) := by
  let marked := vs.foldl (fun counts v => Function.update counts v 1) st.counts
  have hmarked : ∀ v, marked v = if v ∈ vs then 1 else 0 := by
    intro v
    exact (foldl_mark vs st.counts v).trans (by rw [zero])
  let score := fun v => accumulateScores G root marked v - 1
  have hpeel : peelMany st root vs =
      ⟨peeledPairs st.pairs root vs,
        fun u => if u ∈ vs then 0 else accumulateScores G root marked u,
        addScores root score vs st.scoreCache⟩ := by
    rw [peelMany, foldl_collectOne root nodup]
    rfl
  rw [hpeel]
  refine peeled_of_star graph nodup hvs hroot ?_ ?_
  · intro v
    by_cases hv : v ∈ vs
    · simp [hv]
    · rw [if_neg hv, accumulateScores_eq]
      exact foldl_bump_zero _ (by rw [hmarked, if_neg hv])
  · intro v hv
    have different : root ≠ v := by
      rintro rfl
      exact graph.irrefl root ((hvs root).mp hv)
    exact scoring.many root v marked different (by rw [hmarked, if_pos hv])

/-- A pass either ends through the loop condition or peels one person. -/
theorem peelStep_cases (scoring : Scoring Ok) {st : PeelState G} (graph : PairGraph st.pairs)
    (zero : ∀ v, st.counts v = 0) :
    (peelStep st = .done (.emptied, st) ∧ ∀ v, st.pairs v = none) ∨
      ∃ root st', (highestDegree st.pairs).1 = some root ∧ peelStep st = .next st' ∧
        Peeled Ok st root st' := by
  by_cases hempty : ∀ v, st.pairs v = none
  · exact Or.inl ⟨by rw [peelStep, if_pos hempty], hempty⟩
  · right
    obtain ⟨hsome, hnone⟩ := highestDegree_spec st.pairs
    cases hbest : (highestDegree st.pairs).1 with
    | none =>
      obtain ⟨v, hv⟩ := not_forall.mp hempty
      obtain ⟨s, hs⟩ := Option.ne_none_iff_exists'.mp hv
      have : nbrs st.pairs v = ∅ := hnone hbest v
      rw [nbrs, hs, Option.getD_some] at this
      exact False.elim (graph.nonempty v (this ▸ hs))
    | some root =>
      have hroot := hsome root hbest
      have hvs : ∀ v, v ∈ inOrder ((st.pairs root).getD ∅) ↔ v ∈ nbrs st.pairs root :=
        fun v => mem_inOrder
      have nodup := inOrder_nodup ((st.pairs root).getD ∅)
      rw [peelStep, if_neg hempty, hbest]
      match horder : inOrder ((st.pairs root).getD ∅) with
      | [] =>
        obtain ⟨v, hv⟩ := Finset.nonempty_iff_ne_empty.mpr hroot
        have := (hvs v).mpr hv
        simp [horder] at this
      | [other] =>
        rw [horder] at hvs
        exact ⟨root, _, rfl, by simp [horder], peelOne_peeled scoring graph zero hvs⟩
      | v :: w :: rest =>
        rw [horder] at hvs nodup
        exact ⟨root, _, rfl, by simp [horder],
          peelMany_peeled scoring graph zero nodup hvs hroot⟩

/-- Every initial pair is still in the graph and not cached, or cached and out of it. -/
structure PeelInv (Ok : G.Person → G.Person → Int → Prop) (initial : PairMap G)
    (st : PeelState G) : Prop where
  graph : PairGraph st.pairs
  counts : ∀ v, st.counts v = 0
  pending : ∀ u v, v ∈ nbrs st.pairs u →
    v ∈ nbrs initial u ∧ st.scoreCache (pairKey u v) = none
  cached : ∀ u v, v ∈ nbrs initial u → v ∉ nbrs st.pairs u →
    ∃ score, Ok u v score ∧ st.scoreCache (pairKey u v) = some score

theorem PeelInv.peeled (scoring : Scoring Ok) {initial : PairMap G} {st st' : PeelState G}
    {root : G.Person} (inv : PeelInv Ok initial st) (round : Peeled Ok st root st') :
    PeelInv Ok initial st' := by
  have key_iff : ∀ {a b c d : G.Person}, pairKey a b = pairKey c d ↔
      (a = c ∧ b = d) ∨ (a = d ∧ b = c) := pairKey_eq_iff G.personNum_le
  refine ⟨round.graph, round.counts, ?_, ?_⟩
  · intro u v huv
    obtain ⟨hold, hu, hv⟩ := (round.pairs u v).mp huv
    obtain ⟨hinit, habsent⟩ := inv.pending u v hold
    refine ⟨hinit, (round.others _ ?_).trans habsent⟩
    intro w _ hkey
    rcases key_iff.mp hkey with ⟨h, _⟩ | ⟨_, h⟩
    · exact hu h
    · exact hv h
  · intro u v hinit hgone
    by_cases hold : v ∈ nbrs st.pairs u
    · -- The pair has left the graph in this round, so one of the two is the root.
      have hends : u = root ∨ v = root := by
        by_contra hnot
        rw [not_or] at hnot
        exact hgone ((round.pairs u v).mpr ⟨hold, hnot.1, hnot.2⟩)
      rcases hends with rfl | rfl
      · exact round.added v hold (inv.pending u v hold).2
      · have hback := inv.graph.symm u v hold
        obtain ⟨score, hok, hscore⟩ := round.added u hback (inv.pending v u hback).2
        exact ⟨score, scoring.symm v u score hok,
          by rw [pairKey_comm G.personNum_le]; exact hscore⟩
    · obtain ⟨score, hok, hscore⟩ := inv.cached u v hinit hold
      refine ⟨score, hok, (round.others _ ?_).trans hscore⟩
      intro w hw hkey
      rcases key_iff.mp hkey with ⟨rfl, rfl⟩ | ⟨rfl, rfl⟩
      · exact hold hw
      · exact hold (inv.graph.symm v u hw)

/-- The peeling ends through its condition, with a score cached for every initial pair. -/
theorem peel_caches (scoring : Scoring Ok) {paths : List (List G.Person)}
    (stepping : Stepping paths) : ∃ st, peel paths = some (.emptied, st) ∧
      ∀ path ∈ paths, ∀ e ∈ hops path,
        ∃ score, Ok e.1 e.2 score ∧ st.scoreCache (pairKey e.1 e.2) = some score := by
  let initial := personPairs paths
  obtain ⟨hmem, _⟩ := personPairs_spec paths
  have start : PeelInv Ok initial ⟨initial, fun _ => 0, fun _ => none⟩ :=
    ⟨personPairs_graph stepping, fun _ => rfl, fun u v huv => ⟨huv, rfl⟩,
      fun u v huv hgone => False.elim (hgone huv)⟩
  have progress : ∀ st, PeelInv Ok initial st →
      Progress (PeelInv Ok initial)
        (fun out => out.1 = .emptied ∧ PeelInv Ok initial out.2 ∧ ∀ v, out.2.pairs v = none)
        (fun st => (keys st.pairs).card) st (peelStep st) := by
    intro st inv
    rcases peelStep_cases scoring inv.graph inv.counts with
      ⟨h, hempty⟩ | ⟨root, st', _, h, round⟩
    · rw [h]
      exact ⟨rfl, inv, hempty⟩
    · rw [h]
      exact ⟨inv.peeled scoring round, round.fewer⟩
  have enough : (keys initial).card < G.personNum + 1 :=
    Nat.lt_succ_of_le ((Finset.card_le_univ _).trans_eq (Fintype.card_fin _))
  obtain ⟨⟨exit, st⟩, hpeel, rfl, inv, hempty⟩ := loop_total _ _ _ progress start enough
  refine ⟨st, hpeel, ?_⟩
  intro path hpath e he
  apply inv.cached e.1 e.2
  · exact (hmem e.1 e.2).mpr ⟨path, hpath, Or.inl he⟩
  · have hnone : st.pairs e.1 = none := hempty e.1
    simp [nbrs, hnone]

/-- Summing cached scores along a path never meets a missing key. -/
theorem cachedScore_of_cached {cache : UInt64 → Option Int} {path : List G.Person}
    {f : G.Person × G.Person → Int}
    (cached : ∀ e ∈ hops path, cache (pairKey e.1 e.2) = some (f e)) :
    cachedScore cache path = some ((hops path).map f).sum := by
  have general : ∀ (es : List (G.Person × G.Person)) (score : Int),
      (∀ e ∈ es, cache (pairKey e.1 e.2) = some (f e)) →
      es.foldlM (fun score e => (cache (pairKey e.1 e.2)).map (score + ·)) score =
        some (score + (es.map f).sum) := by
    intro es
    induction es with
    | nil => simp
    | cons e rest ih =>
      intro score h
      rw [List.foldlM_cons, h e List.mem_cons_self]
      have hrest := ih (score + f e) (fun e' he' => h e' (List.mem_cons_of_mem e he'))
      simpa [add_assoc] using hrest
  rw [cachedScore, general (hops path) 0 cached, Int.zero_add]

theorem mapM_of_forall {α β : Type} {f : α → Option β} {g : α → β} {as : List α}
    (h : ∀ a ∈ as, f a = some (g a)) : as.mapM f = some (as.map g) := by
  induction as with
  | nil => rfl
  | cons a rest ih =>
    rw [List.mapM_cons, h a List.mem_cons_self,
      ih (fun b hb => h b (List.mem_cons_of_mem a hb))]
    rfl

theorem scorePaths_of_several {paths : List (List G.Person)} (several : 2 ≤ paths.length) :
    scorePaths paths =
      (peel paths).bind (fun out => paths.mapM (cachedScore out.2.scoreCache)) := by
  match paths, several with
  | _ :: _ :: _, _ => rfl

/-- Whatever the messages are, every path gets a score. -/
theorem scorePaths_total {paths : List (List G.Person)} (stepping : Stepping paths) :
    ∃ scores, scorePaths paths = some scores ∧ scores.length = paths.length := by
  obtain ⟨st, hpeel, hcached⟩ := peel_caches Scoring.any stepping
  have scored : ∀ path ∈ paths, cachedScore st.scoreCache path =
      some ((hops path).map (fun e => (st.scoreCache (pairKey e.1 e.2)).getD 0)).sum := by
    intro path hpath
    apply cachedScore_of_cached
    intro e he
    obtain ⟨score, _, hscore⟩ := hcached path hpath e he
    rw [hscore, Option.getD_some]
  match paths, hpeel, scored with
  | [], hpeel, _ => exact ⟨[], by simp [scorePaths, hpeel], rfl⟩
  | [path], _, _ => exact ⟨[singleScore path], rfl, rfl⟩
  | p :: q :: rest, hpeel, scored =>
    have all := mapM_of_forall scored
    refine ⟨_, Eq.trans ?_ all, List.length_map _⟩
    rw [scorePaths_of_several (by simp), hpeel, Option.bind_some]

end Peeling

section Contract
variable {G : Graph}

/-- The weight of the replies written by `x` to messages of `y`. -/
def replies (G : Graph) (x y : G.Person) : Int :=
  weight ((G.commentHasCreator.incoming x).map (replyTarget G)) y

theorem pairScore_eq (x y : G.Person) : pairScore G x y = replies G x y + replies G y x := by
  simp only [pairScore, replies, ← List.foldl_map, foldl_credit, Int.zero_add]

theorem pairScore_comm (x y : G.Person) : pairScore G x y = pairScore G y x := by
  rw [pairScore_eq, pairScore_eq, Int.add_comm]

theorem pairScoreOne_eq (root other : G.Person) :
    pairScoreOne G root other = weight (interactions G root) other ∨
      pairScoreOne G root other = weight (interactions G other) root := by
  have walk : ∀ u v : G.Person,
      (G.postHasCreator.incoming u).foldl (fun score post =>
        (G.replyOfPost.incoming post).foldl (fun score reply =>
          credit v score (getSingleOutNeighbor G.commentHasCreator.outgoing reply, 2)) score)
        ((G.commentHasCreator.incoming u).foldl (fun score comment =>
          (G.replyOfComment.incoming comment).foldl (fun score follower =>
            credit v score (getSingleOutNeighbor G.commentHasCreator.outgoing follower, 1))
            (credit v score (replyTarget G comment))) 0) =
        weight (interactions G u) v := by
    intro u v
    rw [← Int.zero_add (weight _ _), ← foldl_credit]
    simp only [interactions, List.foldl_append, List.foldl_flatMap, List.foldl_cons,
      List.foldl_map]
  rw [pairScoreOne]
  split
  · exact Or.inr (walk other root)
  · exact Or.inl (walk root other)

/-- The target of a reply, read off the two chains of edges that the batch scorers follow
backwards. At most one of them exists. -/
theorem credit_replyTarget (contract : ReplyContract G) (comment : G.Comment) (u : G.Person) :
    (if (replyTarget G comment).1 = some u then (replyTarget G comment).2 else 0) =
      (if ((G.replyOfComment.outgoing comment).head?.bind
          fun parent => (G.commentHasCreator.outgoing parent).head?) = some u then 1 else 0) +
        if ((G.replyOfPost.outgoing comment).head?.bind
          fun post => (G.postHasCreator.outgoing post).head?) = some u then 2 else 0 := by
  have hone := contract.oneParent comment
  rcases hpost : G.replyOfPost.outgoing comment with _ | ⟨post, posts⟩
  · rcases hparent : G.replyOfComment.outgoing comment with _ | ⟨parent, parents⟩
    · simp [replyTarget, getSingleOutNeighbor, hpost, hparent]
    · simp only [replyTarget, getSingleOutNeighbor, hpost, hparent, List.head?_nil,
        List.head?_cons, Option.bind_some, Option.bind_none, reduceCtorEq, if_false, Int.add_zero]
      rfl
  · have hnil : G.replyOfComment.outgoing comment = [] := by
      have hlen := congrArg List.length hpost
      simp only [EdgeTable.outgoing, List.length_map, List.length_cons] at hlen
      apply List.eq_nil_of_length_eq_zero
      rw [EdgeTable.outgoing, List.length_map]
      omega
    simp only [replyTarget, getSingleOutNeighbor, hpost, hnil, List.head?_nil,
      List.head?_cons, Option.bind_some, Option.bind_none, reduceCtorEq, if_false, Int.zero_add]
    rfl

/-- The replies that reach a person's messages through the incoming views. -/
theorem weight_received (contract : ReplyContract G) (u v : G.Person) :
    ((G.commentHasCreator.incoming u).map (fun comment =>
      ((G.replyOfComment.incoming comment).map (fun follower =>
        if (G.commentHasCreator.outgoing follower).head? = some v
          then (1 : Int) else 0)).sum)).sum +
    ((G.postHasCreator.incoming u).map (fun post =>
      ((G.replyOfPost.incoming post).map (fun reply =>
        if (G.commentHasCreator.outgoing reply).head? = some v
          then (2 : Int) else 0)).sum)).sum = replies G v u := by
  rw [contract.commentCreator.sum_incoming_incoming contract.replyOfComment,
    contract.postCreator.sum_incoming_incoming contract.replyOfPost, replies, weight,
    List.map_map, contract.commentCreator.sum_incoming, ← Finset.sum_add_distrib]
  apply Finset.sum_congr rfl
  intro comment _
  simp only [Function.comp_apply, credit_replyTarget contract]
  by_cases hauthor : (G.commentHasCreator.outgoing comment).head? = some v
  · simp [hauthor]
  · simp [hauthor]

theorem weight_append (xs ys : List (Option G.Person × Int)) (v : G.Person) :
    weight (xs ++ ys) v = weight xs v + weight ys v := by
  simp [weight]

theorem weight_flatMap {α : Type} (as : List α) (f : α → List (Option G.Person × Int))
    (v : G.Person) : weight (as.flatMap f) v = (as.map (fun a => weight (f a) v)).sum := by
  induction as with
  | nil => rfl
  | cons a rest ih => rw [List.flatMap_cons, weight_append, ih, List.map_cons, List.sum_cons]

/-- The interactions of `u` give `v` the replies in both directions, each of them once. -/
theorem weight_interactions (contract : ReplyContract G) (u v : G.Person) :
    weight (interactions G u) v = pairScore G u v := by
  rw [pairScore_eq, ← weight_received contract u v, interactions, weight_append,
    weight_flatMap, weight_flatMap, replies]
  have split : ∀ comment, weight (replyTarget G comment ::
      (G.replyOfComment.incoming comment).map (fun follower =>
        (getSingleOutNeighbor G.commentHasCreator.outgoing follower, (1 : Int)))) v =
      (if (replyTarget G comment).1 = some v then (replyTarget G comment).2 else 0) +
        ((G.replyOfComment.incoming comment).map (fun follower =>
          if (G.commentHasCreator.outgoing follower).head? = some v then (1 : Int) else 0)).sum := by
    intro comment
    simp [weight, getSingleOutNeighbor, Function.comp_def]
  simp only [split, List.sum_map_add]
  simp only [weight, List.map_map, Function.comp_def, getSingleOutNeighbor]
  exact Int.add_assoc _ _ _

theorem pairScore_scoring (contract : ReplyContract G) :
    Scoring (fun u v score => score = pairScore G u v) := by
  refine ⟨?_, ?_, ?_⟩
  · intro u v score hscore
    rw [hscore, pairScore_comm]
  · intro root other _
    rcases pairScoreOne_eq root other with h | h
    · rw [h, weight_interactions contract]
    · rw [h, weight_interactions contract, pairScore_comm]
  · intro root v counts _ hone
    rw [accumulateScores_eq, foldl_bump (interactions_nonneg root) (by omega), hone,
      weight_interactions contract]
    omega

theorem singleScore_eq (path : List G.Person) :
    singleScore path = ((hops path).map (fun e => pairScore G e.1 e.2)).sum := by
  have general : ∀ (es : List (G.Person × G.Person)) (score : Int),
      es.foldl (fun score e => score + pairScore G e.1 e.2) score =
        score + (es.map (fun e => pairScore G e.1 e.2)).sum := by
    intro es
    induction es with
    | nil => simp
    | cons e rest ih =>
      intro score
      rw [List.foldl_cons, ih, List.map_cons, List.sum_cons, Int.add_assoc]
  rw [singleScore, general, Int.zero_add]

end Contract

end IC14

open IC14

/-- The batch scorers give every path the sum of the plain pair scores, the formula of the
single-path branch. -/
theorem scorePaths_eq_plain (G : Graph) (contract : ReplyContract G)
    (paths : List (List G.Person)) (several : 2 ≤ paths.length)
    (stepping : ∀ path ∈ paths, ∀ e ∈ hops path, e.1 ≠ e.2) :
    scorePaths paths =
      some (paths.map (fun path => ((hops path).map (fun e => pairScore G e.1 e.2)).sum)) ∧
    ∀ path : List G.Person, scorePaths [path] =
      some [((hops path).map (fun e => pairScore G e.1 e.2)).sum] := by
  constructor
  · obtain ⟨st, hpeel, hcached⟩ := peel_caches (pairScore_scoring contract) stepping
    rw [scorePaths_of_several several, hpeel, Option.bind_some]
    apply mapM_of_forall
    intro path hpath
    apply cachedScore_of_cached
    intro e he
    obtain ⟨_, rfl, hscore⟩ := hcached path hpath e he
    exact hscore
  · intro path
    rw [scorePaths, singleScore_eq]

/-- Person 1 replies to the post of person 0, person 2 to that reply and person 1 again. -/
def replyThread : Graph where
  personNum := 3
  personNum_le := by decide
  personId v := v.val
  personKey := by decide
  postNum := 1
  postKey := by decide
  commentNum := 3
  commentKey := by decide
  knows := .ofList [(0, 1, ()), (1, 2, ())]
  postHasCreator := .ofList [(0, 0, 10)]
  commentHasCreator := .ofList [(0, 1, 20), (1, 2, 30), (2, 1, 40)]
  replyOfPost := .ofList [(0, 0, ())]
  replyOfComment := .ofList [(1, 0, ()), (2, 1, ())]

theorem replyThread_contract : ReplyContract replyThread := by
  refine ⟨?_, ?_, ?_⟩
  · unfold EdgeTable.AtMostOne
    decide
  · unfold EdgeTable.AtMostOne
    decide
  · decide

def threadPaths : List (List (Fin 3)) := [[0, 1, 2], [0, 2]]

theorem threadPaths_stepping : ∀ path ∈ threadPaths, ∀ e ∈ hops path, e.1 ≠ e.2 := by decide

theorem scorePaths_eq_plain_thread :
    scorePaths (G := replyThread) threadPaths =
      some (threadPaths.map (fun path =>
        ((hops path).map (fun e => pairScore replyThread e.1 e.2)).sum)) ∧
    ∀ path : List (Fin 3), scorePaths (G := replyThread) [path] =
      some [((hops path).map (fun e => pairScore replyThread e.1 e.2)).sum] :=
  scorePaths_eq_plain replyThread replyThread_contract threadPaths (by decide)
    threadPaths_stepping

example : scorePaths (G := replyThread) threadPaths = some [4, 0] := by decide

end LdbcInteractive
