import Mathlib.Data.Finset.Basic
import Mathlib.Data.List.Sort
import Triangles.Lib.Parcels
import Triangles.Model.LoadBlockIndex
import Triangles.Model.Locator
import Triangles.Model.PoolAccept
import Triangles.Model.ProcessBlock

/-! Inventories (mruset.h, protocol.h, net.h, net.cpp, main.cpp): what nodes announce to each other,
ask for and answer with. Of `SendMessages` these are the parts for `inv` and `getdata`; the counts of
the wallet's requests and the log are left out. -/

namespace Triangles.Inventory

open Parcel

/-! Sets of the most recent elements (mruset.h). -/

structure mruset (T : Type) [DecidableEq T] where
  set : Finset T
  queue : List T
  nMaxSize : Nat
  mem_set : ∀ x, x ∈ set ↔ x ∈ queue
  nodup : queue.Nodup
  bounded : nMaxSize ≠ 0 → queue.length ≤ nMaxSize

namespace mruset

variable {T : Type} [DecidableEq T]

def empty (nMaxSizeIn : Nat) : mruset T := ⟨∅, [], nMaxSizeIn, by simp, by simp, by simp⟩

def count (s : mruset T) (k : T) : Bool := k ∈ s.set

theorem count_iff (s : mruset T) (k : T) : s.count k = true ↔ k ∈ s.queue := by
  rw [count, decide_eq_true_iff, s.mem_set]

def kept (s : mruset T) : List T :=
  if s.nMaxSize ≠ 0 ∧ s.queue.length = s.nMaxSize then s.queue.tail else s.queue

theorem kept_sublist (s : mruset T) : s.kept.Sublist s.queue := by
  unfold kept
  split
  · exact List.tail_sublist _
  · exact List.Sublist.refl _

/-- The front of a full queue leaves the set. -/
def trimmed (s : mruset T) (x : T) : Finset T :=
  if s.nMaxSize ≠ 0 ∧ s.queue.length = s.nMaxSize then
    (s.queue.head?.toList).foldl Finset.erase (insert x s.set)
  else insert x s.set

theorem mem_trimmed {s : mruset T} {x : T} (hx : x ∉ s.set) (y : T) :
    y ∈ s.trimmed x ↔ y ∈ s.kept ++ [x] := by
  have hnodup := s.nodup
  rw [s.mem_set] at hx
  rw [List.mem_append, List.mem_singleton, trimmed, kept]
  split
  · cases hq : s.queue with
    | nil =>
      have hset : s.set = ∅ := by
        ext z
        rw [s.mem_set z, hq]
        simp
      simp [hset]
    | cons front rest =>
      rw [hq] at hnodup hx
      obtain ⟨hfront, -⟩ := List.nodup_cons.mp hnodup
      simp only [List.head?_cons, Option.toList_some, List.foldl_cons, List.foldl_nil,
        Finset.mem_erase, Finset.mem_insert, s.mem_set, hq, List.mem_cons, List.tail_cons]
      constructor
      · rintro ⟨hne, rfl | rfl | hy⟩
        · exact .inr rfl
        · exact absurd rfl hne
        · exact .inl hy
      · rintro (hy | rfl)
        · exact ⟨fun he => hfront (he ▸ hy), .inr (.inr hy)⟩
        · exact ⟨fun he => hx (he ▸ List.mem_cons_self), .inl rfl⟩
  · rw [Finset.mem_insert, s.mem_set, or_comm]

def insert (s : mruset T) (x : T) : mruset T × Bool :=
  if hx : x ∈ s.set then (s, false)
  else
    ({ set := s.trimmed x
       queue := s.kept ++ [x]
       nMaxSize := s.nMaxSize
       mem_set := mem_trimmed hx
       nodup := by
         have hnew : x ∉ s.queue := fun hq => hx ((s.mem_set x).mpr hq)
         rw [List.nodup_append]
         refine ⟨s.nodup.sublist s.kept_sublist, List.nodup_singleton x, ?_⟩
         rintro a ha b hb rfl
         exact hnew (s.kept_sublist.subset (by rwa [List.mem_singleton.mp hb] at ha))
       bounded := by
         intro hmax
         have hbound := s.bounded hmax
         unfold kept
         split
         · rename_i hfull
           simp only [List.length_append, List.length_tail, List.length_singleton]
           omega
         · rename_i hfull
           simp only [List.length_append, List.length_singleton]
           omega }, true)

end mruset

/-! Inventory vectors (protocol.h). -/

def MSG_TX : Int := 1

def MSG_BLOCK : Int := 2

structure CInv where
  type : Int
  hash : uint256
deriving DecidableEq, Repr

/-- There are the names "ERROR", "tx" and "block". -/
def CInv.isKnownType (inv : CInv) : Bool := 1 ≤ inv.type ∧ inv.type < 3

def MAX_INV_SZ : Nat := 50000

inductive Message where
  | inv (vInv : List CInv)
  | getdata (vInv : List CInv)
  | getblocks (vHave : List uint256) (hashStop : uint256)
  | headers (vHeaders : List CBlockHeader)
  /-- The block of an index entry, read from disk. -/
  | block (pindex : CBlockIndex)
  /-- A transaction as it was relayed, or as it is in the memory pool. -/
  | relayed (inv : CInv)
  | tx (tx : CTransaction)
deriving DecidableEq

structure CNode where
  setInventoryKnown : mruset CInv
  vInventoryToSend : List CInv := []
  mapAskFor : List (Int × CInv) := []
  hashContinue : uint256 := 0
  pindexLastGetBlocksBegin : Option CBlockIndex := none
  hashLastGetBlocksEnd : uint256 := 0
  vSend : List Message := []

namespace CNode

def new (sendBufferSize : Nat) : CNode where
  setInventoryKnown := mruset.empty (sendBufferSize / 1000)

def pushMessage (pnode : CNode) (m : Message) : CNode := { pnode with vSend := pnode.vSend ++ [m] }

def addInventoryKnown (pnode : CNode) (inv : CInv) : CNode :=
  { pnode with setInventoryKnown := (pnode.setInventoryKnown.insert inv).1 }

def pushInventory (pnode : CNode) (inv : CInv) : CNode :=
  if pnode.setInventoryKnown.count inv then pnode
  else { pnode with vInventoryToSend := pnode.vInventoryToSend ++ [inv] }

def locator (pindexBegin : Option CBlockIndex) : List uint256 :=
  match pindexBegin with
  | some pindex => CBlockLocator.set pindex
  | none => [hashGenesisBlock]

/-- `PushGetBlocks`, which leaves out the same request made twice. -/
def pushGetBlocks (pnode : CNode) (pindexBegin : Option CBlockIndex) (hashEnd : uint256) : CNode :=
  if pindexBegin = pnode.pindexLastGetBlocksBegin ∧ hashEnd = pnode.hashLastGetBlocksEnd then pnode
  else
    { pnode with
      pindexLastGetBlocksBegin := pindexBegin
      hashLastGetBlocksEnd := hashEnd
      vSend := pnode.vSend ++ [.getblocks (locator pindexBegin) hashEnd] }

end CNode

/-! Asking (net.h, main.cpp). Times are microseconds. -/

/-- What the requests to all nodes share: when something was last asked for, 0 if it was not, and the
last time that was given out. -/
structure AskTimes where
  mapAlreadyAskedFor : CInv → Int
  nLastTime : Int

def multimapInsert (e : Int × CInv) (m : List (Int × CInv)) : List (Int × CInv) :=
  m.orderedInsert (fun a b => a.1 < b.1) e

def askFor (nTime : Int) (inv : CInv) (t : AskTimes) (mapAskFor : List (Int × CInv)) :
    AskTimes × List (Int × CInv) :=
  let nRequestTime := t.mapAlreadyAskedFor inv
  -- not the same time twice, to keep things in the same order
  let nNow := (nTime - 1) * 1000000
  let nLastTime := t.nLastTime + 1
  let nNow := max nNow nLastTime
  -- each retry is 2 minutes after the last
  let nRequestTime := max (nRequestTime + 2 * 60 * 1000000) nNow
  (⟨Function.update t.mapAlreadyAskedFor inv nRequestTime, nNow⟩,
    multimapInsert (nRequestTime, inv) mapAskFor)

def AskTimes.erase (t : AskTimes) (inv : CInv) : AskTimes :=
  { t with mapAlreadyAskedFor := Function.update t.mapAlreadyAskedFor inv 0 }

def getDataLoop (alreadyHave : CInv → Bool) (nNow : Int) :
    List (Int × CInv) → Parcels CInv → AskTimes → List (Int × CInv) × Parcels CInv × AskTimes
  | [], vGetData, t => ([], vGetData, t)
  | (nTime, inv) :: mapAskFor, vGetData, t =>
    if nTime ≤ nNow then
      if alreadyHave inv then getDataLoop alreadyHave nNow mapAskFor vGetData t
      else
        getDataLoop alreadyHave nNow mapAskFor (push 1000 vGetData inv)
          { t with mapAlreadyAskedFor := Function.update t.mapAlreadyAskedFor inv nNow }
    else ((nTime, inv) :: mapAskFor, vGetData, t)

def sendGetData (alreadyHave : CInv → Bool) (nTime : Int) (t : AskTimes) (pto : CNode) :
    AskTimes × CNode :=
  let (mapAskFor, vGetData, t) :=
    getDataLoop alreadyHave (nTime * 1000000) pto.mapAskFor ([], []) t
  (t, { pto with mapAskFor := mapAskFor, vSend := pto.vSend ++ (close vGetData).map .getdata })

/-! Announcing (main.cpp). -/

structure InvLoop where
  setInventoryKnown : mruset CInv
  vInv : Parcels CInv := ([], [])
  vInvWait : List CInv := []

def InvLoop.round (fSendTrickle : Bool) (wait : CInv → Bool) (w : InvLoop) (inv : CInv) : InvLoop :=
  if w.setInventoryKnown.count inv then w
  else if inv.type = MSG_TX ∧ fSendTrickle = false ∧ wait inv = true then
    { w with vInvWait := w.vInvWait ++ [inv] }
  else
    match w.setInventoryKnown.insert inv with
    | (setInventoryKnown, true) => { w with setInventoryKnown, vInv := push 1000 w.vInv inv }
    | (setInventoryKnown, false) => { w with setInventoryKnown }

def sendInventory (fSendTrickle : Bool) (wait : CInv → Bool) (pto : CNode) : CNode :=
  let w := pto.vInventoryToSend.foldl (InvLoop.round fSendTrickle wait) ⟨pto.setInventoryKnown, ([], []), []⟩
  { pto with
    setInventoryKnown := w.setInventoryKnown
    vInventoryToSend := w.vInvWait
    vSend := pto.vSend ++ (close w.vInv).map .inv }

/-! The handlers (main.cpp). -/

def alreadyHave (n : BlockNode) (o : OrphanTxs) (inv : CInv) : Bool :=
  if inv.type = MSG_TX then
    (n.mempool.mapTx.lookup inv.hash).isSome || (o.mapOrphanTransactions.lookup inv.hash).isSome ||
      n.txdb.containsTx inv.hash
  else if inv.type = MSG_BLOCK then
    n.mapBlockIndex.has inv.hash || (n.mapOrphanBlocks.lookup inv.hash).isSome
  else true

def getOrphanRoot (env : Env) (o : OrphanBlocks) (pblock : CBlock) : uint256 :=
  (o.workBack o.mapOrphanBlocks.keys.length pblock).getHash env

def lastBlock (vInv : List CInv) : Option Nat :=
  (List.range vInv.length).reverse.find? fun nInv => (vInv[nInv]?.map CInv.type) == some MSG_BLOCK

def receiveInv (env : Env) (n : BlockNode) (o : OrphanTxs) (nTime : Int) (fLastBlock : Bool)
    (inv : CInv) (t : AskTimes) (pfrom : CNode) : AskTimes × CNode :=
  let pfrom := pfrom.addInventoryKnown inv
  if alreadyHave n o inv = false then
    let (t, mapAskFor) := askFor nTime inv t pfrom.mapAskFor
    (t, { pfrom with mapAskFor })
  else
    match (if inv.type = MSG_BLOCK then n.mapOrphanBlocks.lookup inv.hash else none) with
    | some pblock =>
      (t, pfrom.pushGetBlocks n.pindexBest (getOrphanRoot env n.toOrphanBlocks pblock))
    | none =>
      if fLastBlock then (t, pfrom.pushGetBlocks (n.mapBlockIndex.find inv.hash) 0) else (t, pfrom)

def receiveInvs (env : Env) (n : BlockNode) (o : OrphanTxs) (nTime : Nat → Int)
    (nLastBlock : Option Nat) : Nat → List CInv → AskTimes → CNode → AskTimes × CNode
  | _, [], t, pfrom => (t, pfrom)
  | nInv, inv :: vInv, t, pfrom =>
    let (t, pfrom) := receiveInv env n o (nTime nInv) (nLastBlock == some nInv) inv t pfrom
    receiveInvs env n o nTime nLastBlock (nInv + 1) vInv t pfrom

def processInv (env : Env) (n : BlockNode) (o : OrphanTxs) (nTime : Nat → Int) (vInv : List CInv)
    (t : AskTimes) (pfrom : CNode) : Except Reject (AskTimes × CNode) :=
  if vInv.length > MAX_INV_SZ then .error { msg := "message inv size() = ", nDoS := 20 }
  else .ok (receiveInvs env n o nTime (lastBlock vInv) 0 vInv t pfrom)

def answer (n : BlockNode) (mapRelay : CInv → Bool) (pfrom : CNode) (inv : CInv) : CNode :=
  if inv.type = MSG_BLOCK then
    match n.mapBlockIndex.find inv.hash with
    | none => pfrom
    | some pindex =>
      let pfrom := pfrom.pushMessage (.block pindex)
      -- the next batch of inventory
      if inv.hash = pfrom.hashContinue then
        match n.pindexBest with
        | none => pfrom
        | some pindexBest =>
          { pfrom.pushMessage (.inv [⟨MSG_BLOCK, (getLastBlockIndex false pindexBest).getBlockHash⟩])
            with hashContinue := 0 }
      else pfrom
  else if inv.isKnownType then
    if mapRelay inv then pfrom.pushMessage (.relayed inv)
    else if inv.type = MSG_TX then
      match n.mempool.mapTx.lookup inv.hash with
      | some tx => pfrom.pushMessage (.tx tx)
      | none => pfrom
    else pfrom
  else pfrom

def processGetData (n : BlockNode) (mapRelay : CInv → Bool) (vInv : List CInv) (pfrom : CNode) :
    Except Reject CNode :=
  if vInv.length > MAX_INV_SZ then .error { msg := "message getdata size() = ", nDoS := 20 }
  else .ok (vInv.foldl (answer n mapRelay) pfrom)

/-- Whether the latest block is announced where a reply stops: not when it might be rejected for its
stake. -/
def tellsLatest (env : Env) (s : State) (hashStop : uint256) (pindex : CBlockIndex) : Bool :=
  hashStop != s.hashBestChain && s.pindexBest.any fun pindexBest =>
    pindexBest.getBlockTime < pindex.getBlockTime + nStakeMinAge env

def getBlocksLoop (env : Env) (s : State) (hashStop : uint256) :
    Nat → Option CBlockIndex → CNode → CNode
  | 0, _, pfrom => pfrom
  | _ + 1, none, pfrom => pfrom
  | nLimit + 1, some pindex, pfrom =>
    if pindex.getBlockHash = hashStop then
      if tellsLatest env s hashStop pindex then
        pfrom.pushInventory ⟨MSG_BLOCK, s.hashBestChain⟩
      else pfrom
    else
      let pfrom := pfrom.pushInventory ⟨MSG_BLOCK, pindex.getBlockHash⟩
      if nLimit = 0 then { pfrom with hashContinue := pindex.getBlockHash }
      else getBlocksLoop env s hashStop nLimit (s.pnext pindex) pfrom

/-- The `getblocks` message: the chain behind the last block that the caller has of it. -/
def processGetBlocks (env : Env) (n : BlockNode) (vHave : List uint256) (hashStop : uint256)
    (pfrom : CNode) : CNode :=
  getBlocksLoop env n.toState hashStop 500
    ((CBlockLocator.getBlockIndex n.mapBlockIndex n.toState vHave).bind n.pnext) pfrom

def getHeadersLoop (s : State) (hashStop : uint256) : Nat → Option CBlockIndex → List CBlockHeader
  | 0, _ => []
  | _ + 1, none => []
  | nLimit + 1, some pindex =>
    pindex.getBlockHeader ::
      if nLimit = 0 ∨ pindex.getBlockHash = hashStop then []
      else getHeadersLoop s hashStop nLimit (s.pnext pindex)

/-- The `getheaders` message; without a locator it is about one block. -/
def processGetHeaders (n : BlockNode) (vHave : List uint256) (hashStop : uint256) (pfrom : CNode) :
    CNode :=
  if vHave = [] then
    match n.mapBlockIndex.find hashStop with
    | none => pfrom
    | some pindex => pfrom.pushMessage (.headers (getHeadersLoop n.toState hashStop 2000 (some pindex)))
  else
    pfrom.pushMessage (.headers (getHeadersLoop n.toState hashStop 2000
      ((CBlockLocator.getBlockIndex n.mapBlockIndex n.toState vHave).bind n.pnext)))

/-! What happens to one node, and to all of them. -/

/-- What is announced to a node: it may name something itself, something may be queued for it, and
`SendMessages` may come round to it. -/
inductive InvOp where
  | known (inv : CInv)
  | push (inv : CInv)
  | send (fSendTrickle : Bool) (wait : CInv → Bool)

def InvOp.apply (pnode : CNode) : InvOp → CNode
  | .known inv => pnode.addInventoryKnown inv
  | .push inv => pnode.pushInventory inv
  | .send fSendTrickle wait => sendInventory fSendTrickle wait pnode

def announcedIn (vSend : List Message) : List CInv :=
  vSend.flatMap fun
    | .inv vInv => vInv
    | _ => []

def requestedIn (vSend : List Message) : List CInv :=
  vSend.flatMap fun
    | .getdata vInv => vInv
    | _ => []

inductive AskOp where
  | ask (node : Nat) (nTime : Int) (inv : CInv)
  | send (node : Nat) (nTime : Int) (alreadyHave : CInv → Bool)
  | received (inv : CInv)

structure Asking where
  times : AskTimes
  nodes : Nat → CNode

def AskOp.apply (a : Asking) : AskOp → Asking
  | .ask node nTime inv =>
    let (times, mapAskFor) := askFor nTime inv a.times (a.nodes node).mapAskFor
    ⟨times, Function.update a.nodes node { a.nodes node with mapAskFor }⟩
  | .send node nTime alreadyHave =>
    let (times, pto) := sendGetData alreadyHave nTime a.times (a.nodes node)
    ⟨times, Function.update a.nodes node pto⟩
  | .received inv => { a with times := a.times.erase inv }

def Asking.run (sendBufferSize : Nat) (ops : List AskOp) : Asking :=
  ops.foldl AskOp.apply ⟨⟨fun _ => 0, 0⟩, fun _ => CNode.new sendBufferSize⟩

end Triangles.Inventory
