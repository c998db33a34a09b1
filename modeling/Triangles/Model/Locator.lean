import Mathlib.Algebra.Order.Group.Int
import Triangles.Model.Kernel
import Triangles.Model.Node

/-! Two ways to a block: locators (main.h), the hashes by which a node tells another where its
chain is, and heights (main.cpp). The `int` counters stay below twice the height of the block. -/

namespace Triangles

def stepsBack : Nat → Option CBlockIndex → Option CBlockIndex
  | 0, pindex => pindex
  | _ + 1, none => none
  | i + 1, some p => stepsBack i p.pprev

namespace CBlockLocator

/-- The loop of `Set`. A round leaves the block for one of its ancestors. -/
def setLoop : Nat → Option CBlockIndex → Nat → List uint256 → List uint256
  | 0, _, _, vHave => vHave
  | _ + 1, none, _, vHave => vHave
  | fuel + 1, some p, nStep, vHave =>
    let vHave := vHave ++ [p.getBlockHash]
    -- exponentially larger steps back
    setLoop fuel (stepsBack nStep (some p)) (if 10 < vHave.length then nStep * 2 else nStep) vHave

def set (pindex : CBlockIndex) : List uint256 :=
  setLoop (pindex.nHeight + 1) (some pindex) 1 [] ++ [hashGenesisBlock]

def inMainChain (mapBlockIndex : BlockMap) (s : State) (hash : uint256) : Bool :=
  match mapBlockIndex.find hash with
  | some pindex => s.isInMainChain pindex
  | none => false

def distanceLoop (mapBlockIndex : BlockMap) (s : State) : List uint256 → Nat → Nat → Nat
  | [], nDistance, _ => nDistance
  | hash :: vHave, nDistance, nStep =>
    if inMainChain mapBlockIndex s hash then nDistance
    else
      let nDistance := nDistance + nStep
      distanceLoop mapBlockIndex s vHave nDistance (if 10 < nDistance then nStep * 2 else nStep)

def getDistanceBack (mapBlockIndex : BlockMap) (s : State) (vHave : List uint256) : Nat :=
  distanceLoop mapBlockIndex s vHave 0 1

def getBlockIndex (mapBlockIndex : BlockMap) (s : State) : List uint256 → Option CBlockIndex
  | [] => s.pindexGenesisBlock
  | hash :: vHave =>
    if inMainChain mapBlockIndex s hash then mapBlockIndex.find hash
    else getBlockIndex mapBlockIndex s vHave

end CBlockLocator

/-- `while (pblockindex->nHeight > nHeight) pblockindex = pblockindex->pprev;`. It is none where the
loop would follow a null link. -/
def walkDown (nHeight : Int) (pblockindex : CBlockIndex) : Option CBlockIndex :=
  if nHeight < pblockindex.nHeight then
    match pblockindex with
    | .genesis _ => none
    | .child _ pprev => walkDown nHeight pprev
  else some pblockindex

def walkUp (s : State) (nHeight : Int) : Nat → CBlockIndex → Option CBlockIndex
  | 0, _ => none
  | rounds + 1, pblockindex =>
    if pblockindex.nHeight < nHeight then (s.pnext pblockindex).bind (walkUp s nHeight rounds)
    else some pblockindex

/-- Where `FindBlockByHeight` starts: at one end of the chain, or at the block it found last. -/
def nearestKnown (s : State) (pblockindexFBBHLast : Option CBlockIndex) (nHeight : Int) :
    Option CBlockIndex :=
  let pblockindex := if nHeight < s.nBestHeight.tdiv 2 then s.pindexGenesisBlock else s.pindexBest
  match pblockindexFBBHLast, pblockindex with
  | some last, some pblockindex =>
    if |nHeight - last.nHeight| < |nHeight - pblockindex.nHeight| then some last
    else some pblockindex
  | _, pblockindex => pblockindex

/-- `FindBlockByHeight`: the block, which is also what `pblockindexFBBHLast` becomes. Each round up
is to a block one higher. -/
def findBlockByHeight (s : State) (pblockindexFBBHLast : Option CBlockIndex) (nHeight : Int) :
    Option CBlockIndex :=
  ((nearestKnown s pblockindexFBBHLast nHeight).bind (walkDown nHeight)).bind
    (walkUp s nHeight (nHeight.toNat + 1))

end Triangles

/-! The loops at the start of `Reorganize` as they run over block pointers (main.cpp). A loop that has used
up its rounds has no result. -/

namespace Triangles.ForkSearch

variable {Block : Type} [DecidableEq Block] (pprev : Block → Option Block) (nHeight : Block → Int)

def lowerLoop : Nat → Block → Block → Option (Except Reject Block)
  | 0, _, _ => none
  | rounds + 1, pfork, plonger =>
    if nHeight pfork < nHeight plonger then
      match pprev plonger with
      | none => some (.error { msg := "Reorganize() : plonger->pprev is null" })
      | some plonger => lowerLoop rounds pfork plonger
    else some (.ok plonger)

def forkLoop : Nat → Block → Block → Option (Except Reject Block)
  | 0, _, _ => none
  | rounds + 1, pfork, plonger =>
    if pfork = plonger then some (.ok pfork)
    else
      match lowerLoop pprev nHeight rounds pfork plonger with
      | none => none
      | some (.error e) => some (.error e)
      | some (.ok plonger) =>
        if pfork = plonger then some (.ok pfork)
        else
          match pprev pfork with
          | none => some (.error { msg := "Reorganize() : pfork->pprev is null" })
          | some pfork => forkLoop rounds pfork plonger

/-- `for (pindex = …; pindex != pfork; pindex = pindex->pprev)`. Past the first block there is nothing to
read. -/
def listLoop (pfork : Block) : Nat → Block → Option (List Block)
  | 0, _ => none
  | rounds + 1, pindex =>
    if pindex = pfork then some []
    else
      match pprev pindex with
      | none => none
      | some p => (listLoop pfork rounds p).map (pindex :: ·)

def forkSearch (rounds : Nat) (pindexBest pindexNew : Block) :
    Option (Except Reject (Block × List Block × List Block)) :=
  match forkLoop pprev nHeight rounds pindexBest pindexNew with
  | none => none
  | some (.error e) => some (.error e)
  | some (.ok pfork) => do
    let vDisconnect ← listLoop pprev pfork rounds pindexBest
    let vConnect ← listLoop pprev pfork rounds pindexNew
    return .ok (pfork, vDisconnect, vConnect.reverse)

end Triangles.ForkSearch
