import Mair.Ir.Site
import Mair.Library.PrunedTraversal

/-! # Stack accesses between spawn and join

The traversals of `StackRaceAnalyzer` and its two strategies for collecting the accesses that
lie between a call that may spawn a thread and a call that may join it. -/

namespace Mair.StackRace

open Ir DepthFirst

variable {β : Type*} [DecidableEq β] {f : Function β}

/-! ## Traversals -/

def predecessors (f : Function β) (b : β) : List β := f.blocks.filter fun q => b ∈ f.succs q

/-- The iterator `I` is built in front of the loop, which builds another one. -/
def depthFirstTraversal (f : Function β) (starts : List β) : List β :=
  starts.foldl
    (fun visited start => depthFirst f.succs f.blocks (iterBegin visited start) start) []

def inverseDepthFirstTraversal (f : Function β) (starts : List β) (prune : β → Bool) :
    List β :=
  prunedAll (predecessors f) prune f.blocks starts

/-! ## Two traversals for many accesses -/

/-- The blocks that the two traversals have in common. -/
def blocksBetween (mightSpawns mightJoins : List (Site f)) : List β :=
  let forwardBBs := depthFirstTraversal f (mightSpawns.map Site.block)
  inverseDepthFirstTraversal f (mightJoins.map Site.block) fun b => b ∉ forwardBBs

def insertBound (isUpperBounds : Bool) (bounds : β → Option (Site f)) (cb : Site f) :
    β → Option (Site f) :=
  let bound :=
    match bounds cb.block with
    | none => cb
    | some lastCB => if lastCB.comesBefore cb ^^ isUpperBounds then cb else lastCB
  fun b => if b = cb.block then some bound else bounds b

/-- A bound of this kind is given up when control can stay between across the block edge. -/
def isUnbounded (between : List β) (isUpperBounds : Bool) (b : β) : Bool :=
  if isUpperBounds then (predecessors f b).any fun q => q ∈ between
  else (f.succs b).any fun q => q ∈ between

def deriveBounds (between : List β) (isUpperBounds : Bool) (origBounds : List (Site f)) :
    β → Option (Site f) :=
  origBounds.foldl
    (fun bounds cb =>
      if isUnbounded (f := f) between isUpperBounds cb.block then bounds
      else insertBound isUpperBounds bounds cb)
    fun _ => none

def mustNoRaceInBounds (bounds : β → Option (Site f)) (isUpperBounds : Bool) (mop : Site f) :
    Bool :=
  match bounds mop.block with
  | none => false
  | some bound => if isUpperBounds then mop.comesBefore bound else bound.comesBefore mop

def collectManyMopsMayRace (mops mightSpawns mightJoins : List (Site f)) : List (Site f) :=
  let between := blocksBetween mightSpawns mightJoins
  let upperBounds := deriveBounds between true mightSpawns
  let lowerBounds := deriveBounds between false mightJoins
  mops.filter fun mop =>
    mop.block ∈ between &&
      !(mustNoRaceInBounds upperBounds true mop || mustNoRaceInBounds lowerBounds false mop)

/-! ## Pairwise queries for several accesses -/

/-- The queries to the loop information and to the reachability of the compiler's library. -/
structure CfgQueries (β : Type*) where
  inLoop : β → Bool
  isPotentiallyReachableFromMany : List β → β → Bool

/-- A block of a loop lies on a cycle, and a path is never denied. -/
structure CfgQueries.Sound (q : CfgQueries β) (f : Function β) : Prop where
  inLoop : ∀ b, q.inLoop b = true → Site.Leads f b b
  reachable : ∀ froms b, (∃ a ∈ froms, Site.Leads f a b) →
    q.isPotentiallyReachableFromMany froms b = true

/-- The blocks that the loop of either overload collects. -/
def otherBlocks (sites : List (Site f)) (b : β) : List β :=
  (sites.map Site.block).filter fun c => c ≠ b

/-- The overload from several instructions to one. -/
def isPotentiallyReachableFrom (q : CfgQueries β) (froms : List (Site f)) (toI : Site f) :
    Bool :=
  if froms.any fun fromI =>
      fromI.block = toI.block && (q.inLoop fromI.block || fromI.comesBefore toI) then true
  else
    let fromBBs := otherBlocks froms toI.block
    if fromBBs.isEmpty then false else q.isPotentiallyReachableFromMany fromBBs toI.block

/-- The overload from one instruction to several. -/
def isPotentiallyReachableTo (q : CfgQueries β) (fromI : Site f) (tos : List (Site f)) : Bool :=
  if tos.any fun toI =>
      toI.block = fromI.block && (q.inLoop fromI.block || fromI.comesBefore toI) then true
  else
    let toBBs := otherBlocks tos fromI.block
    if toBBs.isEmpty then false
    else (depthFirst f.succs f.blocks [] fromI.block).any fun b => b ∈ toBBs

def collectSeveralMopsMayRace (q : CfgQueries β) (mops mightSpawns mightJoins : List (Site f)) :
    List (Site f) :=
  mops.filter fun mop =>
    isPotentiallyReachableFrom q mightSpawns mop && isPotentiallyReachableTo q mop mightJoins

end Mair.StackRace
