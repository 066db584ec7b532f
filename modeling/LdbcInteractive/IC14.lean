import LdbcInteractive.Common
import LdbcInteractive.Loops
import Mathlib.Data.Fintype.Card
import Mathlib.Data.Finset.Filter
import Mathlib.Data.Rat.Defs

/-!
# IC14: shortest KNOWS paths with interaction weights

A bidirectional layered search with 8-bit distance labels, a backward marking of
the persons on shortest paths, a depth-first enumeration of the paths, and their
scores. One path is scored directly; for two or more the scores of the adjacent
pairs are gathered first, by peeling the person of highest degree off the graph of
pairs.
-/

namespace LdbcInteractive

open EdgeTables Loops PriorityQueues

namespace IC14

section Search
variable {V : Type} [DecidableEq V]

structure LayerState (V : Type) where
  dist0 : V → Int8
  next : List V
  meetPoints : List V

/-- The body of both edge loops of `bfs_layer`. -/
def discover (depth : Int8) (dist1 : V → Int8) (st : LayerState V) (v : V) : LayerState V :=
  if st.dist0 v = -1 then
    { dist0 := Function.update st.dist0 v depth
      next := st.next ++ [v]
      meetPoints := if dist1 v ≠ -1 then st.meetPoints ++ [v] else st.meetPoints }
  else st

def bfsLayer (knows : EdgeTable V V Unit) (depth : Int8) (curr next : List V)
    (dist0 dist1 : V → Int8) (meetPoints : List V) : LayerState V :=
  curr.foldl (fun st x =>
    let st := (knows.outgoing x).foldl (discover depth dist1) st
    (knows.incoming x).foldl (discover depth dist1) st) ⟨dist0, next, meetPoints⟩

/-- The queue, the labels and the depth counter of one side of the search:
`q1`, `dist_from_src`, `src_depth` or `q2`, `dist_from_dst`, `dst_depth`. -/
structure Side (V : Type) where
  queue : List V
  dist : V → Int8
  depth : Int8

structure SearchState (V : Type) where
  src : Side V
  dst : Side V
  meetPoints : List V

/-- `++depth`, `bfs_layer` and the swap; the 8-bit counter wraps. -/
def expand (knows : EdgeTable V V Unit) (own other : Side V) (meetPoints : List V) :
    Side V × List V :=
  let depth := own.depth + 1
  let layer := bfsLayer knows depth own.queue [] own.dist other.dist meetPoints
  (⟨layer.next, layer.dist0, depth⟩, layer.meetPoints)

def afterLayer (st : SearchState V) : Control (SearchState V) (SearchState V) :=
  if st.meetPoints ≠ [] then .done st
  else if st.src.queue = [] ∨ st.dst.queue = [] then .done st
  else .next st

/-- One pass through the `while (true)` loop of `exec`. -/
def searchStep (knows : EdgeTable V V Unit) (st : SearchState V) :
    Control (SearchState V) (SearchState V) :=
  if st.src.queue ≠ [] ∧ st.src.queue.length ≤ st.dst.queue.length then
    let out := expand knows st.src st.dst st.meetPoints
    afterLayer ⟨out.1, st.dst, out.2⟩
  else if st.dst.queue ≠ [] then
    let out := expand knows st.dst st.src st.meetPoints
    afterLayer ⟨st.src, out.1, out.2⟩
  else .done st

def startSide (c : V) : Side V := ⟨[c], Function.update (fun _ => -1) c 0, 0⟩

def startSearch (src dst : V) : SearchState V := ⟨startSide src, startSide dst, []⟩

structure MarkState (V : Type) where
  onPath : V → Bool
  distFromSrc : V → Int8
  frontier : List V

/-- The body of both edge loops of the marking phase. The sums are `int` sums, and
only the label that is stored goes back to 8 bits. -/
def markEdge (distFromDst : V → Int8) (v : V) (st : MarkState V) (nbr : V) : MarkState V :=
  if st.onPath nbr then st
  else
    let st :=
      if st.distFromSrc nbr ≠ -1 ∧
          (st.distFromSrc nbr).toInt + 1 = (st.distFromSrc v).toInt then
        { st with
          onPath := Function.update st.onPath nbr true
          frontier := st.frontier ++ [nbr] }
      else st
    if distFromDst nbr ≠ -1 ∧ (distFromDst nbr).toInt + 1 = (distFromDst v).toInt then
      { onPath := Function.update st.onPath nbr true
        distFromSrc := Function.update st.distFromSrc nbr (st.distFromSrc v + 1)
        frontier := st.frontier ++ [nbr] }
    else st

def markStep (knows : EdgeTable V V Unit) (distFromDst : V → Int8) (st : MarkState V) :
    Control (MarkState V) (MarkState V) :=
  match st.frontier with
  | [] => .done st
  | v :: rest =>
    let st := (knows.outgoing v).foldl (markEdge distFromDst v) { st with frontier := rest }
    .next ((knows.incoming v).foldl (markEdge distFromDst v) st)

def startMark (st : SearchState V) : MarkState V where
  onPath := markAll (fun _ => false) st.meetPoints
  distFromSrc := st.src.dist
  frontier := st.meetPoints

/-- The recursion goes up by one label at each call, and labels stay below 128. -/
def dfsPaths (knows : EdgeTable V V Unit) (dst : V) (distFromSrc : V → Int8)
    (onPath : V → Bool) (src : V) (path : List V) (paths : List (List V)) : List (List V) :=
  let path := path ++ [src]
  if src = dst then paths ++ [path]
  else
    let paths := (knows.outgoing src).foldl (fun paths v =>
      if _h : onPath v = true ∧ (distFromSrc v).toInt = (distFromSrc src).toInt + 1 then
        dfsPaths knows dst distFromSrc onPath v path paths
      else paths) paths
    (knows.incoming src).foldl (fun paths v =>
      if _h : onPath v = true ∧ (distFromSrc v).toInt = (distFromSrc src).toInt + 1 then
        dfsPaths knows dst distFromSrc onPath v path paths
      else paths) paths
termination_by (127 - (distFromSrc src).toInt).toNat
decreasing_by
  all_goals
    have hlt := (distFromSrc v).toInt_lt
    have := And.right ‹_ ∧ _›
    omega

end Search

section Scores
variable (G : Graph)

/-- `pair_key` packs the smaller number into the high half of a 64-bit word. -/
def pairKey {n : Nat} (a b : Fin n) : UInt64 :=
  if a > b then UInt64.ofNat a.val ||| (UInt64.ofNat b.val <<< 32)
  else UInt64.ofNat b.val ||| (UInt64.ofNat a.val <<< 32)

/-- The author a comment replies to with the weight of the reply: 2 for a post,
otherwise 1 for a comment. -/
def replyTarget (comment : G.Comment) : Option G.Person × Int :=
  match getSingleOutNeighbor G.replyOfPost.outgoing comment with
  | some post => (getSingleOutNeighbor G.postHasCreator.outgoing post, 2)
  | none =>
    match getSingleOutNeighbor G.replyOfComment.outgoing comment with
    | some parent => (getSingleOutNeighbor G.commentHasCreator.outgoing parent, 1)
    | none => (none, 0)

variable {G}

/-- `if (author == y) score += weight`. -/
def credit (y : G.Person) (score : Int) (target : Option G.Person × Int) : Int :=
  if target.1 = some y then score + target.2 else score

/-- `if (author < counts.size() && counts[author] != 0) counts[author] += weight`. -/
def bump (counts : G.Person → Int) (target : Option G.Person × Int) : G.Person → Int :=
  match target.1 with
  | some author =>
    if counts author ≠ 0 then Function.update counts author (counts author + target.2)
    else counts
  | none => counts

variable (G)

def pairScore (x y : G.Person) : Int :=
  let score := (G.commentHasCreator.incoming x).foldl
    (fun score comment => credit y score (replyTarget G comment)) 0
  (G.commentHasCreator.incoming y).foldl
    (fun score comment => credit x score (replyTarget G comment)) score

def pairScoreOne (root other : G.Person) : Int :=
  let rootDegree := countEdges G.commentHasCreator.incoming root +
    countEdges G.postHasCreator.incoming root
  let otherDegree := countEdges G.commentHasCreator.incoming other +
    countEdges G.postHasCreator.incoming other
  let u := if rootDegree > otherDegree then other else root
  let v := if rootDegree > otherDegree then root else other
  let score := (G.commentHasCreator.incoming u).foldl (fun score comment =>
    let score := credit v score (replyTarget G comment)
    (G.replyOfComment.incoming comment).foldl (fun score follower =>
      credit v score (getSingleOutNeighbor G.commentHasCreator.outgoing follower, 1)) score) 0
  (G.postHasCreator.incoming u).foldl (fun score post =>
    (G.replyOfPost.incoming post).foldl (fun score reply =>
      credit v score (getSingleOutNeighbor G.commentHasCreator.outgoing reply, 2)) score) score

def accumulateScores (root : G.Person) (counts : G.Person → Int) : G.Person → Int :=
  let counts := (G.commentHasCreator.incoming root).foldl (fun counts comment =>
    let counts := bump counts (replyTarget G comment)
    (G.replyOfComment.incoming comment).foldl (fun counts follower =>
      bump counts (getSingleOutNeighbor G.commentHasCreator.outgoing follower, 1)) counts) counts
  (G.postHasCreator.incoming root).foldl (fun counts post =>
    (G.replyOfPost.incoming post).foldl (fun counts reply =>
      bump counts (getSingleOutNeighbor G.commentHasCreator.outgoing reply, 2)) counts) counts

/-- The adjacent pairs `(path[i - 1], path[i])`. -/
def hops {V : Type} (path : List V) : List (V × V) := path.zip path.tail

/-- `std::map<vid_t, std::set<vid_t>>`: `none` is an absent key. -/
abbrev PairMap := G.Person → Option (Finset G.Person)

variable {G}

/-- `person_pairs[a].insert(b)`. -/
def insertPair (pairs : PairMap G) (a b : G.Person) : PairMap G :=
  Function.update pairs a (some (insert b ((pairs a).getD ∅)))

/-- `person_pairs[v].erase(root)`, and the key `v` goes when its set is empty. -/
def dropPair (pairs : PairMap G) (v root : G.Person) : PairMap G :=
  let otherSet := ((pairs v).getD ∅).erase root
  Function.update pairs v (if otherSet = ∅ then none else some otherSet)

def personPairs (paths : List (List G.Person)) : PairMap G :=
  paths.foldl (fun pairs path =>
    (hops path).foldl (fun pairs e => insertPair (insertPair pairs e.1 e.2) e.2 e.1) pairs)
    (fun _ => none)

/-- The first key with the largest neighbour set, with the size of that set. -/
def highestDegree (pairs : PairMap G) : Option G.Person × Nat :=
  (List.finRange G.personNum).foldl (fun best v =>
    match pairs v with
    | some neighbors => if neighbors.card > best.2 then (some v, neighbors.card) else best
    | none => best) (none, 0)

structure PeelState (G : Graph) where
  pairs : PairMap G
  counts : G.Person → Int
  scoreCache : UInt64 → Option Int

/-- `score_cache[key] += score`. -/
def addScore (cache : UInt64 → Option Int) (key : UInt64) (score : Int) :
    UInt64 → Option Int :=
  Function.update cache key (some ((cache key).getD 0 + score))

/-- The three ways out of the peeling loop: its condition and the two breaks. -/
inductive PeelExit where
  | emptied
  | noRoot
  | noNeighbors
  deriving DecidableEq

/-- The last remaining neighbour of `root`. -/
def peelOne (st : PeelState G) (root other : G.Person) : PeelState G where
  pairs := Function.update (dropPair st.pairs other root) root none
  counts := st.counts
  scoreCache := addScore st.scoreCache (pairKey root other) (pairScoreOne G root other)

/-- Read the count of one neighbour, reset it and drop the pair. -/
def collectOne (root : G.Person) (st : PeelState G) (v : G.Person) : PeelState G where
  scoreCache := addScore st.scoreCache (pairKey root v) (st.counts v - 1)
  counts := Function.update st.counts v 0
  pairs := dropPair st.pairs v root

/-- Two or more neighbours of `root`, batched in the shared counts array. -/
def peelMany (st : PeelState G) (root : G.Person) (nbrs : List G.Person) : PeelState G :=
  let counts := nbrs.foldl (fun counts v => Function.update counts v 1) st.counts
  let st := nbrs.foldl (collectOne root)
    { st with counts := accumulateScores G root counts }
  { st with pairs := Function.update st.pairs root none }

def peelStep (st : PeelState G) : Control (PeelState G) (PeelExit × PeelState G) :=
  if ∀ v, st.pairs v = none then .done (.emptied, st)
  else
    match (highestDegree st.pairs).1 with
    | none => .done (.noRoot, st)
    | some root =>
      match inOrder ((st.pairs root).getD ∅) with
      | [] => .done (.noNeighbors, st)
      | [other] => .next (peelOne st root other)
      | v :: w :: rest => .next (peelMany st root (v :: w :: rest))

def peel (paths : List (List G.Person)) : Option (PeelExit × PeelState G) :=
  loop peelStep (G.personNum + 1) ⟨personPairs paths, fun _ => 0, fun _ => none⟩

/-- The sum over a path of `score_cache.at`, which throws at a missing key. -/
def cachedScore (cache : UInt64 → Option Int) (path : List G.Person) : Option Int :=
  (hops path).foldlM (fun score e => (cache (pairKey e.1 e.2)).map (score + ·)) 0

def singleScore (path : List G.Person) : Int :=
  (hops path).foldl (fun score e => score + pairScore G e.1 e.2) 0

def scorePaths (paths : List (List G.Person)) : Option (List Int) :=
  match paths with
  | [path] => some [singleScore path]
  | _ => do
    let out ← peel paths
    paths.mapM (cachedScore out.2.scoreCache)

end Scores

structure Row where
  personIdsInPath : List Int
  pathWeight : ℚ
  deriving DecidableEq

/-- The descending comparison of two indices by their scores. -/
def scoreOrder (scores : List Int) : Comparer Nat :=
  Comparer.ofKey (fun a b => scores.getD a 0 > scores.getD b 0)
    (fun a => OrderDual.toDual (scores.getD a 0)) (fun a b => by simp)

def search (G : Graph) (src dst : G.Person) : Option (SearchState G.Person) :=
  loop (searchStep G.knows) (4 * G.personNum + 3) (startSearch src dst)

def mark (G : Graph) (st : SearchState G.Person) : Option (MarkState G.Person) :=
  loop (markStep G.knows st.dst.dist) (3 * G.personNum + st.meetPoints.length + 1) (startMark st)

/-- The path list of two persons, in the order of the enumeration. -/
def findPaths (G : Graph) (src dst : G.Person) : Option (List (List G.Person)) := do
  let st ← search G src dst
  if st.meetPoints = [] then return []
  let marked ← mark G st
  return dfsPaths G.knows dst marked.distFromSrc marked.onPath src [] []

def exec (sort : StdSort) (G : Graph) (person1Id person2Id : Int) : Option (List Row) :=
  match getVertexIndex G.personId person1Id, getVertexIndex G.personId person2Id with
  | some src, some dst => do
    let paths ← findPaths G src dst
    if paths = [] then return []
    let scores ← scorePaths paths
    let order := sort.sort (scoreOrder scores) (List.range paths.length)
    return order.map (fun idx =>
      { personIdsInPath := (paths.getD idx []).map G.personId
        pathWeight := (scores.getD idx 0 : ℚ) / 2 })
  | _, _ => some []

end IC14

end LdbcInteractive
