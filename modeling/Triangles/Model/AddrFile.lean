import Triangles.Model.AddrMan
import Triangles.Model.Serialize

/-! How the address manager is written to disk and read back (addrman.h). Ids are not written:
the entries get new ones in the order they are read in. -/

namespace Triangles

open Codec

/-! Addresses. All are written for disk, with the version `CAddrMan` has in scope. -/

def portBytes (port : UInt16) : List UInt8 := (wordBytes 2 port.toNat).reverse

def CNetAddr.unserialize : Reader StreamError CNetAddr := do
  let ip ← readBytes .endOfData 16
  pure ⟨ip⟩

def CService.serialize (service : CService) : List UInt8 := service.ip ++ portBytes service.port

def CService.unserialize : Reader StreamError CService := do
  let addr ← CNetAddr.unserialize
  let portN ← readBytes .endOfData 2
  pure { addr with port := UInt16.ofNat (leValue portN.reverse) }

def CAddress.serialize (nVersion : Int) (addr : CAddress) : List UInt8 :=
  signedBytes 4 nVersion ++ (wordBytes 4 addr.nTime.toNat ++
    (wordBytes 8 addr.nServices.toNat ++ addr.toCService.serialize))

/-- `Init` leaves the time of the last try at zero. -/
def CAddress.unserialize : Reader StreamError CAddress := do
  let _nVersion ← readSigned 4
  let nTime ← readUInt32
  let nServices ← readLE 8
  let service ← CService.unserialize
  pure { service with nServices := UInt64.ofNat nServices, nTime := nTime }

def CAddrInfo.serialize (info : CAddrInfo) : List UInt8 :=
  info.toCAddress.serialize 0 ++ (info.source.ip ++
    (signedBytes 8 info.nLastSuccess ++ signedBytes 4 info.nAttempts))

def CAddrInfo.unserialize : Reader StreamError CAddrInfo := do
  let addr ← CAddress.unserialize
  let source ← CNetAddr.unserialize
  let nLastSuccess ← readSigned 8
  let nAttempts ← readSigned 4
  pure { addr with source := source, nLastSuccess := nLastSuccess, nAttempts := nAttempts }

namespace CAddrMan

/-! Writing. -/

/-- The loop over `mapInfo` that writes the new entries and numbers them in `mapUnkIds`; an entry
on the way that is not written has the number of the next one. -/
def writeNew (nNew : Int) : List (Nat × CAddrInfo) → Nat → AList (fun _ : Nat => Nat) →
    AList (fun _ : Nat => Nat) × List UInt8
  | [], _, mapUnkIds => (mapUnkIds, [])
  | (nId, info) :: l, nIds, mapUnkIds =>
    if (nIds : Int) = nNew then (mapUnkIds, [])
    else if info.nRefCount ≠ 0 then
      let (m, bytes) := writeNew nNew l (nIds + 1) (mapUnkIds.insert nId nIds)
      (m, info.serialize ++ bytes)
    else writeNew nNew l nIds (mapUnkIds.insert nId nIds)

def writeTried (nTried : Int) : List (Nat × CAddrInfo) → Nat → List UInt8
  | [], _ => []
  | (_, info) :: l, nIds =>
    if (nIds : Int) = nTried then []
    else if info.fInTried then info.serialize ++ writeTried nTried l (nIds + 1)
    else writeTried nTried l nIds

def writeBucket (mapUnkIds : AList (fun _ : Nat => Nat)) (vNew : List Nat) : List UInt8 :=
  signedBytes 4 vNew.length ++
    vNew.flatMap fun nId => signedBytes 4 ((mapUnkIds.lookup nId).getD 0)

def serialize (nKey : List UInt8) (s : CAddrMan) : List UInt8 :=
  let (mapUnkIds, news) := writeNew s.nNew s.records 0 ∅
  wordBytes 1 0 ++ (serializeBytes nKey ++ (signedBytes 4 s.nNew ++ (signedBytes 4 s.nTried ++
    (signedBytes 4 ADDRMAN_NEW_BUCKET_COUNT ++ (news ++ (writeTried s.nTried s.records 0 ++
      (List.finRange ADDRMAN_NEW_BUCKET_COUNT).flatMap fun b =>
        writeBucket mapUnkIds (s.vvNew b)))))))

/-! Reading. -/

/-- The new entry of number `n`. With another number of buckets it goes where its source puts it. -/
def takeNew (h : AddrHash) (nUBuckets : Int) (acc : CAddrMan × Nat) (info : CAddrInfo) :
    CAddrMan × Nat :=
  let (s, n) := acc
  let s := { s with
    mapInfo := s.mapInfo.insert n { info with nRandomPos := s.vRandom.length }
    mapAddr := s.mapAddr.insert info.toCNetAddr n
    vRandom := s.vRandom ++ [n] }
  if nUBuckets ≠ ADDRMAN_NEW_BUCKET_COUNT then
    let s := s.insertNew (info.getNewBucket h info.source) n
    (s.modifyInfo n fun info => { info with nRefCount := info.nRefCount + 1 }, n + 1)
  else (s, n + 1)

def takeTried (h : AddrHash) (acc : CAddrMan × Nat) (info : CAddrInfo) : CAddrMan × Nat :=
  let (s, nLost) := acc
  let nKBucket := info.getTriedBucket h
  let vTried := s.vvTried nKBucket
  if vTried.length < ADDRMAN_TRIED_BUCKET_SIZE then
    ({ s with
      vRandom := s.vRandom ++ [s.nIdCount]
      mapInfo := s.mapInfo.insert s.nIdCount
        { info with nRandomPos := s.vRandom.length, fInTried := true }
      mapAddr := s.mapAddr.insert info.toCNetAddr s.nIdCount
      vvTried := Function.update s.vvTried nKBucket (vTried ++ [s.nIdCount])
      nIdCount := s.nIdCount + 1 }, nLost)
  else (s, nLost + 1)

/-- The record that `mapInfo[nIndex]` makes when there is none. -/
def noInfo : CAddrInfo where
  ip := List.replicate 16 0
  port := 0
  source := ⟨List.replicate 16 0⟩

def takeIndex (nUBuckets : Int) (b : Nat) (s : CAddrMan) (nIndex : Nat) : CAddrMan :=
  let s := if nIndex ∈ s.mapInfo then s
    else { s with mapInfo := s.mapInfo.insert nIndex noInfo }
  let info := (s.mapInfo.lookup nIndex).getD noInfo
  if h : b < ADDRMAN_NEW_BUCKET_COUNT then
    if nUBuckets = ADDRMAN_NEW_BUCKET_COUNT ∧ info.nRefCount < ADDRMAN_NEW_BUCKETS_PER_ADDRESS then
      let s := s.modifyInfo nIndex fun info => { info with nRefCount := info.nRefCount + 1 }
      s.insertNew ⟨b, h⟩ nIndex
    else s
  else s

def readNewRound (h : AddrHash) (nUBuckets : Int) (acc : CAddrMan × Nat) :
    Reader StreamError (CAddrMan × Nat) := do
  let info ← CAddrInfo.unserialize
  pure (takeNew h nUBuckets acc info)

def readTriedRound (h : AddrHash) (acc : CAddrMan × Nat) :
    Reader StreamError (CAddrMan × Nat) := do
  let info ← CAddrInfo.unserialize
  pure (takeTried h acc info)

def readIndexRound (nUBuckets : Int) (b : Nat) (s : CAddrMan) : Reader StreamError CAddrMan := do
  let nIndex ← readLE 4
  pure (takeIndex nUBuckets b s nIndex)

def readBucketRound (nUBuckets : Int) (acc : CAddrMan × Nat) :
    Reader StreamError (CAddrMan × Nat) := do
  let (s, b) := acc
  let nSize ← readSigned 4
  let s ← readLoop (readIndexRound nUBuckets b) nSize.toNat s
  pure (s, b + 1)

/-- `Unserialize`, which empties the manager first. `hashOf` gives the keyed hashes of a key. -/
def unserialize (hashOf : List UInt8 → AddrHash) :
    Reader StreamError (List UInt8 × CAddrMan) := do
  let _nVersion ← readLE 1
  let nKey ← unserializeBytes
  let nNew ← readSigned 4
  let nTried ← readSigned 4
  let nUBuckets ← readSigned 4
  let news ← readLoop (readNewRound (hashOf nKey) nUBuckets) nNew.toNat
    ({ nNew := nNew, nTried := nTried }, 0)
  -- the second component of the next loop counts the entries lost
  let tried ← readLoop (readTriedRound (hashOf nKey)) nTried.toNat
    ({ news.1 with nIdCount := nNew.toNat }, 0)
  let buckets ← readLoop (readBucketRound nUBuckets) nUBuckets.toNat
    ({ tried.1 with nTried := tried.1.nTried - tried.2 }, 0)
  pure (nKey, buckets.1)

end CAddrMan

end Triangles
