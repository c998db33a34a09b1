import Mathlib.Data.List.AList
import Mathlib.Data.List.FinRange
import Mathlib.Data.List.Sort
import Mathlib.Data.UInt
import Triangles.Lib.Outcome

/-! The address manager (addrman.h, addrman.cpp): a table of addresses kept under ids, spread
over new and tried buckets and listed in a random order. -/

namespace Triangles

open Outcome

def ADDRMAN_TRIED_BUCKET_COUNT : Nat := 64
def ADDRMAN_TRIED_BUCKET_SIZE : Nat := 64
def ADDRMAN_NEW_BUCKET_COUNT : Nat := 256
def ADDRMAN_NEW_BUCKET_SIZE : Nat := 64
def ADDRMAN_NEW_BUCKETS_PER_ADDRESS : Int := 4
def ADDRMAN_TRIED_ENTRIES_INSPECT_ON_EVICT : Nat := 4
def ADDRMAN_HORIZON_DAYS : Int := 30
def ADDRMAN_RETRIES : Int := 3
def ADDRMAN_MAX_FAILURES : Int := 10
def ADDRMAN_MIN_FAIL_DAYS : Int := 7
def ADDRMAN_GETADDR_MAX_PCT : Nat := 23
def ADDRMAN_GETADDR_MAX : Nat := 2500

theorem tried_bucket_lt (n : Nat) : n % 64 < ADDRMAN_TRIED_BUCKET_COUNT :=
  Nat.mod_lt n (Nat.succ_pos 63)

theorem new_bucket_lt (n : Nat) : n % 256 < ADDRMAN_NEW_BUCKET_COUNT :=
  Nat.mod_lt n (Nat.succ_pos 255)

structure CNetAddr where
  ip : List UInt8
deriving DecidableEq, Repr

structure CService extends CNetAddr where
  port : UInt16
deriving DecidableEq, Repr

structure CAddress extends CService where
  nServices : UInt64 := 1
  nTime : UInt32 := 100000000
  nLastTry : Int := 0
deriving DecidableEq, Repr

structure CAddrInfo extends CAddress where
  source : CNetAddr
  nLastSuccess : Int := 0
  nAttempts : Int := 0
  nRefCount : Int := 0
  fInTried : Bool := false
  nRandomPos : Nat := 0
deriving DecidableEq, Repr

structure AddrHash where
  newHash : CNetAddr → CNetAddr → Nat
  triedHash : CService → Nat
  isRoutable : CNetAddr → Bool

/-- What happens by chance during a call: the numbers behind `GetRandInt`, the outcomes of the
floating-point tests of `Select_`, and the adjusted time. -/
structure Chance where
  draw : Nat → Nat
  accept : Nat → Bool
  nNow : Int

def Chance.getRandInt (c : Chance) (k nMax : Nat) : Nat := c.draw k % nMax

namespace CAddrInfo

def getTriedBucket (h : AddrHash) (info : CAddrInfo) : Fin ADDRMAN_TRIED_BUCKET_COUNT :=
  ⟨h.triedHash info.toCService % 64, tried_bucket_lt _⟩

def getNewBucket (h : AddrHash) (info : CAddrInfo) (src : CNetAddr) :
    Fin ADDRMAN_NEW_BUCKET_COUNT :=
  ⟨h.newHash info.toCNetAddr src % 256, new_bucket_lt _⟩

def isTerrible (info : CAddrInfo) (nNow : Int) : Bool :=
  if info.nLastTry ≠ 0 ∧ nNow - 60 ≤ info.nLastTry then false
  else decide (nNow + 10 * 60 < (info.nTime.toNat : Int)) ||
    decide (info.nTime = 0 ∨ ADDRMAN_HORIZON_DAYS * 86400 < nNow - info.nTime.toNat) ||
    decide (info.nLastSuccess = 0 ∧ ADDRMAN_RETRIES ≤ info.nAttempts) ||
    decide (ADDRMAN_MIN_FAIL_DAYS * 86400 < nNow - info.nLastSuccess ∧
      ADDRMAN_MAX_FAILURES ≤ info.nAttempts)

end CAddrInfo

structure CAddrMan where
  nIdCount : Nat := 0
  mapInfo : AList (fun _ : Nat => CAddrInfo) := ∅
  mapAddr : AList (fun _ : CNetAddr => Nat) := ∅
  vRandom : List Nat := []
  nTried : Int := 0
  vvTried : Fin ADDRMAN_TRIED_BUCKET_COUNT → List Nat := fun _ => []
  nNew : Int := 0
  vvNew : Fin ADDRMAN_NEW_BUCKET_COUNT → List Nat := fun _ => []

namespace CAddrMan

def find (s : CAddrMan) (addr : CNetAddr) : Option (Nat × CAddrInfo) :=
  match s.mapAddr.lookup addr with
  | none => none
  | some nId =>
    match s.mapInfo.lookup nId with
    | none => none
    | some info => some (nId, info)

def modifyInfo (s : CAddrMan) (nId : Nat) (f : CAddrInfo → CAddrInfo) : CAddrMan :=
  match s.mapInfo.lookup nId with
  | none => s
  | some info => { s with mapInfo := s.mapInfo.insert nId (f info) }

def create (s : CAddrMan) (addr : CAddress) (addrSource : CNetAddr) : CAddrMan :=
  { s with
    nIdCount := s.nIdCount + 1
    mapInfo := s.mapInfo.insert s.nIdCount
      { toCAddress := { addr with nLastTry := 0 }, source := addrSource,
        nRandomPos := s.vRandom.length }
    mapAddr := s.mapAddr.insert addr.toCNetAddr s.nIdCount
    vRandom := s.vRandom ++ [s.nIdCount] }

def swapRandom (s : CAddrMan) (nRndPos1 nRndPos2 : Nat) : CAddrMan :=
  if nRndPos1 = nRndPos2 then s
  else
    let nId1 := s.vRandom.getD nRndPos1 0
    let nId2 := s.vRandom.getD nRndPos2 0
    let s := s.modifyInfo nId1 fun info => { info with nRandomPos := nRndPos2 }
    let s := s.modifyInfo nId2 fun info => { info with nRandomPos := nRndPos1 }
    { s with vRandom := (s.vRandom.set nRndPos1 nId2).set nRndPos2 nId1 }

def lastSuccess (s : CAddrMan) (nId : Nat) : Int :=
  ((s.mapInfo.lookup nId).map CAddrInfo.nLastSuccess).getD 0

def selectTriedRound (s : CAddrMan) (chance : Chance) (acc : List Nat × Option Nat × Nat) (i : Nat) :
    List Nat × Option Nat × Nat :=
  let (vTried, nOldest, nOldestPos) := acc
  let nPos := chance.getRandInt (i + 1) (vTried.length - i) + i
  let nTemp := vTried.getD nPos 0
  let vTried := (vTried.set nPos (vTried.getD i 0)).set i nTemp
  match nOldest with
  | none => (vTried, some nTemp, nPos)
  | some oldest =>
    if s.lastSuccess nTemp < s.lastSuccess oldest then (vTried, some nTemp, nPos)
    else (vTried, some oldest, nOldestPos)

/-- `SelectTried`: the bucket with its first entries shuffled, and the position it returns. The
first draw of the call is the one of `Good_`. -/
def selectTried (s : CAddrMan) (chance : Chance) (vTried : List Nat) : List Nat × Nat :=
  let (vTried, _, nOldestPos) :=
    (List.range (min ADDRMAN_TRIED_ENTRIES_INSPECT_ON_EVICT vTried.length)).foldl
      (s.selectTriedRound chance) (vTried, none, 0)
  (vTried, nOldestPos)

def removeInfo (s : CAddrMan) (nId : Nat) (info : CAddrInfo) : CAddrMan :=
  let s := s.swapRandom info.nRandomPos (s.vRandom.length - 1)
  { s with
    vRandom := s.vRandom.dropLast
    mapAddr := s.mapAddr.erase info.toCNetAddr
    mapInfo := s.mapInfo.erase nId
    nNew := s.nNew - 1 }

def release (s : CAddrMan) (nId : Nat) : CAddrMan :=
  let s := s.modifyInfo nId fun info => { info with nRefCount := info.nRefCount - 1 }
  match s.mapInfo.lookup nId with
  | none => s
  | some info => if info.nRefCount = 0 then s.removeInfo nId info else s

def dropReference (s : CAddrMan) (nUBucket : Fin ADDRMAN_NEW_BUCKET_COUNT) (nId : Nat) : CAddrMan :=
  let s := s.release nId
  { s with vvNew := Function.update s.vvNew nUBucket ((s.vvNew nUBucket).erase nId) }

def olderNew (s : CAddrMan) (nOldest : Option Nat) (nId : Nat) : Option Nat :=
  match nOldest with
  | none => some nId
  | some oldest =>
    match s.mapInfo.lookup nId, s.mapInfo.lookup oldest with
    | some a, some b => if a.nTime < b.nTime then some nId else some oldest
    | _, _ => some oldest

/-- The entry of a new bucket that `ShrinkNew` picks when none is terrible: the oldest of those
at the four positions drawn. -/
def oldestNew (s : CAddrMan) (positions : List Nat) (vNew : List Nat) : Option Nat :=
  vNew.zipIdx.foldl
    (fun nOldest x => if x.2 ∈ positions then s.olderNew nOldest x.1 else nOldest) none

def shrinkNew (s : CAddrMan) (chance : Chance) (nUBucket : Fin ADDRMAN_NEW_BUCKET_COUNT) :
    CAddrMan :=
  let vNew := s.vvNew nUBucket
  match vNew.find? fun nId => (s.mapInfo.lookup nId).any (·.isTerrible chance.nNow) with
  | some nId => s.dropReference nUBucket nId
  | none =>
    let positions := (List.range 4).map fun k => chance.getRandInt (k + 1) vNew.length
    match s.oldestNew positions vNew with
    | none => s
    | some nOldest => s.dropReference nUBucket nOldest

def insertNew (s : CAddrMan) (nUBucket : Fin ADDRMAN_NEW_BUCKET_COUNT) (nId : Nat) : CAddrMan :=
  if nId ∈ s.vvNew nUBucket then s
  else
    { s with
      vvNew := Function.update s.vvNew nUBucket
        ((s.vvNew nUBucket).orderedInsert (· ≤ ·) nId) }

def bucketsOf (s : CAddrMan) (nId : Nat) : List (Fin ADDRMAN_NEW_BUCKET_COUNT) :=
  (List.finRange ADDRMAN_NEW_BUCKET_COUNT).filter fun b => nId ∈ s.vvNew b

def leaveNew (s : CAddrMan) (nId : Nat) : CAddrMan :=
  let s' := s.modifyInfo nId fun info =>
    { info with nRefCount := info.nRefCount - (s.bucketsOf nId).length }
  { s' with vvNew := fun b => (s.vvNew b).erase nId, nNew := s.nNew - 1 }

def makeTried (h : AddrHash) (s : CAddrMan) (chance : Chance) (nId : Nat)
    (nOrigin : Fin ADDRMAN_NEW_BUCKET_COUNT) : CAddrMan :=
  let s := s.leaveNew nId
  match s.mapInfo.lookup nId with
  | none => s
  | some info =>
    let nKBucket := info.getTriedBucket h
    let vTried := s.vvTried nKBucket
    if vTried.length < ADDRMAN_TRIED_BUCKET_SIZE then
      let s := s.modifyInfo nId fun info => { info with fInTried := true }
      { s with
        vvTried := Function.update s.vvTried nKBucket (vTried ++ [nId])
        nTried := s.nTried + 1 }
    else
      let (vTried, nPos) := s.selectTried chance vTried
      let nOld := vTried.getD nPos 0
      match s.mapInfo.lookup nOld with
      | none => s
      | some infoOld =>
        let nUBucket := infoOld.getNewBucket h infoOld.source
        let s := s.modifyInfo nOld fun info => { info with fInTried := false, nRefCount := 1 }
        let s :=
          if (s.vvNew nUBucket).length < ADDRMAN_NEW_BUCKET_SIZE then s.insertNew nUBucket nOld
          else s.insertNew nOrigin nOld
        let s := s.modifyInfo nId fun info => { info with fInTried := true }
        { s with
          nNew := s.nNew + 1
          vvTried := Function.update s.vvTried nKBucket (vTried.set nPos nId) }

def findBucket (s : CAddrMan) (nRnd nId : Nat) : Option (Fin ADDRMAN_NEW_BUCKET_COUNT) :=
  ((List.range 256).map fun n =>
    (⟨(n + nRnd) % 256, new_bucket_lt _⟩ : Fin ADDRMAN_NEW_BUCKET_COUNT)).find? fun b =>
      nId ∈ s.vvNew b

def good (h : AddrHash) (s : CAddrMan) (chance : Chance) (addr : CService) (nTime : Int) :
    CAddrMan :=
  match s.find addr.toCNetAddr with
  | none => s
  | some (nId, info) =>
    if info.toCService ≠ addr then s
    else
      let s := s.modifyInfo nId fun info =>
        { info with nLastSuccess := nTime, nLastTry := nTime, nTime := UInt32.ofInt nTime,
                    nAttempts := 0 }
      if info.fInTried then s
      else
        match s.findBucket (chance.getRandInt 0 256) nId with
        | none => s
        | some nUBucket => s.makeTried h chance nId nUBucket

/-- The end of `Add_`: one more reference, in the bucket for the source. -/
def addReference (h : AddrHash) (s : CAddrMan) (chance : Chance) (nId : Nat) (source : CNetAddr) :
    CAddrMan :=
  match s.mapInfo.lookup nId with
  | none => s
  | some info =>
    let nUBucket := info.getNewBucket h source
    if nId ∈ s.vvNew nUBucket then s
    else
      let s := s.modifyInfo nId fun info => { info with nRefCount := info.nRefCount + 1 }
      let s :=
        if (s.vvNew nUBucket).length = ADDRMAN_NEW_BUCKET_SIZE then s.shrinkNew chance nUBucket
        else s
      s.insertNew nUBucket nId

def refresh (chance : Chance) (addr : CAddress) (nTimePenalty : Int) (info : CAddrInfo) :
    CAddrInfo :=
  let nUpdateInterval : Int := if chance.nNow - addr.nTime.toNat < 24 * 60 * 60 then 60 * 60
    else 24 * 60 * 60
  { info with
    nTime :=
      if addr.nTime ≠ 0 ∧ (info.nTime = 0 ∨
          (info.nTime.toNat : Int) < addr.nTime.toNat - nUpdateInterval - nTimePenalty) then
        UInt32.ofInt (max 0 (addr.nTime.toNat - nTimePenalty))
      else info.nTime
    nServices := info.nServices ||| addr.nServices }

def add (h : AddrHash) (s : CAddrMan) (chance : Chance) (addr : CAddress) (source : CNetAddr)
    (nTimePenalty : Int) : CAddrMan × Bool :=
  if !h.isRoutable addr.toCNetAddr then (s, false)
  else
    match s.find addr.toCNetAddr with
    | some (nId, info) =>
      let s := s.modifyInfo nId (refresh chance addr nTimePenalty)
      let info := refresh chance addr nTimePenalty info
      if addr.nTime = 0 ∨ info.nTime ≠ 0 ∧ addr.nTime ≤ info.nTime then (s, false)
      else if info.fInTried then (s, false)
      else if info.nRefCount = ADDRMAN_NEW_BUCKETS_PER_ADDRESS then (s, false)
      else
        let nFactor := 2 ^ info.nRefCount.toNat
        if 1 < nFactor ∧ chance.getRandInt 0 nFactor ≠ 0 then (s, false)
        else (s.addReference h chance nId source, false)
    | none =>
      let nId := s.nIdCount
      let s := s.create addr source
      let s := s.modifyInfo nId fun info =>
        { info with nTime := UInt32.ofInt (max 0 (info.nTime.toNat - nTimePenalty)) }
      let s := { s with nNew := s.nNew + 1 }
      (s.addReference h chance nId source, true)

def attempt (s : CAddrMan) (addr : CService) (nTime : Int) : CAddrMan :=
  match s.find addr.toCNetAddr with
  | none => s
  | some (nId, info) =>
    if info.toCService ≠ addr then s
    else s.modifyInfo nId fun info =>
      { info with nLastTry := nTime, nAttempts := info.nAttempts + 1 }

def connected (s : CAddrMan) (addr : CService) (nTime : Int) : CAddrMan :=
  match s.find addr.toCNetAddr with
  | none => s
  | some (nId, info) =>
    if info.toCService ≠ addr then s
    else if 20 * 60 < nTime - info.nTime.toNat then
      s.modifyInfo nId fun info => { info with nTime := UInt32.ofInt nTime }
    else s

def selectRound (s : CAddrMan) (chance : Chance) (fTried : Bool) : Nat → Nat → Option CAddress
  | 0, _ => none
  | rounds + 1, k =>
    let bucket :=
      if fTried then s.vvTried ⟨chance.getRandInt (3 * k + 1) 64, tried_bucket_lt _⟩
      else s.vvNew ⟨chance.getRandInt (3 * k + 1) 256, new_bucket_lt _⟩
    if bucket.length = 0 then s.selectRound chance fTried rounds (k + 1)
    else
      match s.mapInfo.lookup (bucket.getD (chance.getRandInt (3 * k + 2) bucket.length) 0) with
      | none => none
      | some info =>
        if chance.accept (k + 1) then some info.toCAddress
        else s.selectRound chance fTried rounds (k + 1)

/-- `Select_`, which looks and changes nothing. The bias and the square roots decide one test. -/
def select (s : CAddrMan) (chance : Chance) (noAddress : CAddress) (rounds : Nat) :
    Option CAddress :=
  if s.vRandom.length = 0 then some noAddress
  else s.selectRound chance (chance.accept 0) rounds 0

def getAddrRound (chance : Chance) (acc : CAddrMan × List CAddress) (n : Nat) :
    CAddrMan × List CAddress :=
  let (s, vAddr) := acc
  let s := s.swapRandom n (chance.getRandInt n (s.vRandom.length - n) + n)
  match s.mapInfo.lookup (s.vRandom.getD n 0) with
  | none => (s, vAddr)
  | some info => (s, vAddr ++ [info.toCAddress])

def getAddr (s : CAddrMan) (chance : Chance) : CAddrMan × List CAddress :=
  let nNodes := min (ADDRMAN_GETADDR_MAX_PCT * s.vRandom.length / 100) ADDRMAN_GETADDR_MAX
  (List.range nNodes).foldl (getAddrRound chance) (s, [])

/-! `Check_`, which walks the tables again and returns a code for the first thing it finds. -/

structure CheckTables where
  setTried : List Nat := []
  mapNew : AList (fun _ : Nat => Int) := ∅

def checkInfo (s : CAddrMan) (t : CheckTables) (entry : Nat × CAddrInfo) :
    Except Int CheckTables := do
  let (n, info) := entry
  let t ←
    if info.fInTried then do
      check (info.nLastSuccess ≠ 0) (-1)
      check (info.nRefCount = 0) (-2)
      pure { t with setTried := t.setTried ++ [n] }
    else do
      check (0 ≤ info.nRefCount ∧ info.nRefCount ≤ ADDRMAN_NEW_BUCKETS_PER_ADDRESS) (-3)
      check (info.nRefCount ≠ 0) (-4)
      pure { t with mapNew := t.mapNew.insert n info.nRefCount }
  check ((s.mapAddr.lookup info.toCNetAddr).getD 0 = n) (-5)
  check (s.vRandom[info.nRandomPos]? = some n) (-14)
  check (0 ≤ info.nLastTry) (-6)
  check (0 ≤ info.nLastSuccess) (-8)
  pure t

def records (s : CAddrMan) : List (Nat × CAddrInfo) :=
  (s.mapInfo.keys.insertionSort (· ≤ ·)).filterMap fun n =>
    (s.mapInfo.lookup n).map fun info => (n, info)

def checkTried (setTried : List Nat) (n : Nat) : Except Int (List Nat) := do
  check (n ∈ setTried) (-11)
  pure (setTried.erase n)

def checkNew (mapNew : AList (fun _ : Nat => Int)) (n : Nat) :
    Except Int (AList (fun _ : Nat => Int)) := do
  let r ← (mapNew.lookup n).elim (.error (-12)) .ok
  pure (if r - 1 = 0 then mapNew.erase n else mapNew.insert n (r - 1))

def checkAll (s : CAddrMan) : Except Int Unit := do
  check ((s.vRandom.length : Int) = s.nTried + s.nNew) (-7)
  let t ← s.records.foldlM s.checkInfo {}
  check ((t.setTried.length : Int) = s.nTried) (-9)
  check ((t.mapNew.entries.length : Int) = s.nNew) (-10)
  let setTried ← ((List.finRange ADDRMAN_TRIED_BUCKET_COUNT).flatMap s.vvTried).foldlM
    checkTried t.setTried
  let mapNew ← ((List.finRange ADDRMAN_NEW_BUCKET_COUNT).flatMap s.vvNew).foldlM
    checkNew t.mapNew
  check (setTried.length = 0) (-13)
  check (mapNew.entries.length = 0) (-15)

def check_ (s : CAddrMan) : Int :=
  match s.checkAll with
  | .ok _ => 0
  | .error code => code

end CAddrMan

inductive AddrOp where
  | add (chance : Chance) (addr : CAddress) (source : CNetAddr) (nTimePenalty : Int)
  | good (chance : Chance) (addr : CService) (nTime : Int)
  | attempt (addr : CService) (nTime : Int)
  | connected (addr : CService) (nTime : Int)
  | select (chance : Chance)
  | getAddr (chance : Chance)

def CAddrMan.step (h : AddrHash) (s : CAddrMan) : AddrOp → CAddrMan
  | .add chance addr source nTimePenalty => (s.add h chance addr source nTimePenalty).1
  | .good chance addr nTime => s.good h chance addr nTime
  | .attempt addr nTime => s.attempt addr nTime
  | .connected addr nTime => s.connected addr nTime
  | .select _ => s
  | .getAddr chance => (s.getAddr chance).1

def CAddrMan.run (h : AddrHash) (ops : List AddrOp) : CAddrMan := ops.foldl (CAddrMan.step h) {}

end Triangles
