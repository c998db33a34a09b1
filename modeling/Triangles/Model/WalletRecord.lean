import Std.Data.ExtTreeMap.Lemmas
import Triangles.Lib.Codec
import Triangles.Model.Serialize
import Triangles.Model.SmsgSettings
import Triangles.Model.Wallet

/-! The records of the wallet file as bytes (wallet.h): transactions with what only their owner
cares about, and accounting entries. -/

namespace Triangles

open Codec Decimal
open Std (ExtTreeMap)

abbrev mapValue_t := ExtTreeMap (List UInt8) (List UInt8) compare

/-! Strings and maps. -/

def unserializeString : Reader StreamError (List UInt8) := do
  let nSize ← readCompactSize
  readBytes .endOfData nSize

def serializePair (item : List UInt8 × List UInt8) : List UInt8 :=
  serializeBytes item.1 ++ serializeBytes item.2

def unserializePair : Reader StreamError (List UInt8 × List UInt8) := do
  let first ← unserializeString
  let second ← unserializeString
  pure (first, second)

def serializeMap (m : mapValue_t) : List UInt8 := writeCompactSize m.size ++ m.toList.flatMap serializePair

/-- One round of the loop: an item whose key is there already is not put in. -/
def readMapItem (m : mapValue_t) : Reader StreamError mapValue_t := do
  let item ← unserializePair
  pure (m.insertIfNew item.1 item.2)

def unserializeMap : Reader StreamError mapValue_t := do
  let nSize ← readCompactSize
  readLoop readMapItem nSize ∅

/-! Positions. -/

def atoi64 (str : List UInt8) : Int := max (-2 ^ 63) (min (2 ^ 63 - 1) (readInt (str.dropWhile isSpace)))

def i64tostr (n : Int) : List UInt8 := intText n

def readOrderPos (mapValue : mapValue_t) : Int :=
  match mapValue[ascii "n"]? with
  | none => -1
  | some str => atoi64 str

def writeOrderPos (nOrderPos : Int) (mapValue : mapValue_t) : mapValue_t :=
  if nOrderPos = -1 then mapValue else mapValue.insert (ascii "n") (i64tostr nOrderPos)

/-! Transactions. -/

structure CMerkleTx where
  tx : CTransaction
  hashBlock : uint256 := 0
  vMerkleBranch : List uint256 := []
  nIndex : Int := -1
deriving DecidableEq

namespace CMerkleTx

def serialize (mtx : CMerkleTx) : List UInt8 :=
  mtx.tx.serialize ++ (uint256Bytes mtx.hashBlock ++
    (serializeVector uint256Bytes mtx.vMerkleBranch ++ signedBytes 4 mtx.nIndex))

def unserialize : Reader StreamError CMerkleTx := do
  let tx ← CTransaction.unserialize
  let hashBlock ← readLE 32
  let vMerkleBranch ← unserializeVector 32 (readLE 32)
  let nIndex ← readSigned 4
  pure ⟨tx, hashBlock, vMerkleBranch, nIndex⟩

def sizeof : Nat := 128

end CMerkleTx

structure WalletRecord extends CMerkleTx where
  vtxPrev : List CMerkleTx := []
  mapValue : mapValue_t := ∅
  vOrderForm : List (List UInt8 × List UInt8) := []
  fTimeReceivedIsTxTime : UInt32 := 0
  nTimeReceived : UInt32 := 0
  nTimeSmart : UInt32 := 0
  fFromMe : UInt8 := 0
  strFromAccount : List UInt8 := []
  vfSpent : List Bool := []
  nOrderPos : Int := -1

namespace WalletRecord

def walletTx (wtx : WalletRecord) : CWalletTx where
  tx := wtx.tx
  hashBlock := wtx.hashBlock
  vMerkleBranch := wtx.vMerkleBranch
  nIndex := wtx.nIndex
  fFromMe := wtx.fFromMe != 0
  vfSpent := wtx.vfSpent

def reservedKeys : List (List UInt8) :=
  [ascii "fromaccount", ascii "version", ascii "spent", ascii "n", ascii "timesmart"]

def eraseReserved (mapValue : mapValue_t) : mapValue_t :=
  reservedKeys.foldl (fun m key => m.erase key) mapValue

def writtenMap (wtx : WalletRecord) : mapValue_t :=
  let str := wtx.vfSpent.map fun f => if f then 0x31 else 0x30
  let mapValue := wtx.mapValue.insert (ascii "fromaccount") wtx.strFromAccount
  let mapValue := writeOrderPos wtx.nOrderPos (mapValue.insert (ascii "spent") str)
  if wtx.nTimeSmart ≠ 0 then
    mapValue.insert (ascii "timesmart") (natText wtx.nTimeSmart.toNat)
  else mapValue

def serialize (wtx : WalletRecord) : List UInt8 × WalletRecord :=
  let fSpent := wtx.vfSpent.any id
  let bytes := wtx.toCMerkleTx.serialize ++ (serializeVector CMerkleTx.serialize wtx.vtxPrev ++
    (serializeMap wtx.writtenMap ++ (serializeVector serializePair wtx.vOrderForm ++
      (wordBytes 4 wtx.fTimeReceivedIsTxTime.toNat ++ (wordBytes 4 wtx.nTimeReceived.toNat ++
        (wordBytes 1 wtx.fFromMe.toNat ++ wordBytes 1 (if fSpent then 1 else 0)))))))
  (bytes, { wtx with mapValue := eraseReserved wtx.writtenMap })

def ofMap (wtx : WalletRecord) (fSpent : Bool) : WalletRecord :=
  { wtx with
    strFromAccount := wtx.mapValue.getD (ascii "fromaccount") []
    vfSpent :=
      match wtx.mapValue[ascii "spent"]? with
      | some str => str.map (· != 0x30)
      | none => List.replicate wtx.tx.vout.length fSpent
    nOrderPos := readOrderPos wtx.mapValue
    nTimeSmart :=
      match wtx.mapValue[ascii "timesmart"]? with
      | some str => UInt32.ofInt (atoi64 str)
      | none => 0
    mapValue := eraseReserved wtx.mapValue }

def unserialize : Reader StreamError WalletRecord := do
  let mtx ← CMerkleTx.unserialize
  let vtxPrev ← unserializeVector CMerkleTx.sizeof CMerkleTx.unserialize
  let mapValue ← unserializeMap
  let vOrderForm ← unserializeVector 64 unserializePair
  let fTimeReceivedIsTxTime ← readUInt32
  let nTimeReceived ← readUInt32
  let fFromMe ← readLE 1
  let fSpent ← readLE 1
  let wtx : WalletRecord := { mtx with
    vtxPrev := vtxPrev
    mapValue := mapValue
    vOrderForm := vOrderForm
    fTimeReceivedIsTxTime := fTimeReceivedIsTxTime
    nTimeReceived := nTimeReceived
    fFromMe := UInt8.ofNat fFromMe }
  pure (wtx.ofMap (fSpent != 0))

end WalletRecord

/-! Accounting entries. -/

structure CAccountingEntry where
  strAccount : List UInt8 := []
  nCreditDebit : Int := 0
  nTime : Int := 0
  strOtherAccount : List UInt8 := []
  strComment : List UInt8 := []
  mapValue : mapValue_t := ∅
  nOrderPos : Int := -1
  nEntryNo : UInt64 := 0
  ssExtra : List UInt8 := []

namespace CAccountingEntry

def plain (strComment : List UInt8) : List UInt8 := strComment.takeWhile (· != 0)

def writtenComment (entry : CAccountingEntry) : List UInt8 :=
  let mapValue := writeOrderPos entry.nOrderPos entry.mapValue
  if mapValue.isEmpty && entry.ssExtra.isEmpty then entry.strComment
  else entry.strComment ++ 0 :: (serializeMap mapValue ++ entry.ssExtra)

def serialize (nVersion : Int) (entry : CAccountingEntry) : List UInt8 × CAccountingEntry :=
  let bytes := signedBytes 4 nVersion ++ (signedBytes 8 entry.nCreditDebit ++
    (signedBytes 8 entry.nTime ++ (serializeBytes entry.strOtherAccount ++
      serializeBytes entry.writtenComment)))
  (bytes, { entry with
    strComment := plain entry.writtenComment
    mapValue := (writeOrderPos entry.nOrderPos entry.mapValue).erase (ascii "n") })

def readExtra (strComment : List UInt8) : Except StreamError (Option (mapValue_t × List UInt8)) :=
  if strComment.contains 0 then do
    let r ← unserializeMap (strComment.drop ((plain strComment).length + 1))
    pure (some r)
  else pure none

def unserialize (entry : CAccountingEntry) : Reader StreamError CAccountingEntry := do
  let _ ← readSigned 4
  let nCreditDebit ← readSigned 8
  let nTime ← readSigned 8
  let strOtherAccount ← unserializeString
  let strComment ← unserializeString
  let extra ← (StateT.lift (readExtra strComment) : Reader StreamError _)
  let (mapValue, ssExtra) := extra.getD (∅, entry.ssExtra)
  pure { entry with
    nCreditDebit := nCreditDebit
    nTime := nTime
    strOtherAccount := strOtherAccount
    strComment := plain strComment
    mapValue := mapValue.erase (ascii "n")
    nOrderPos := readOrderPos mapValue
    ssExtra := ssExtra }

end CAccountingEntry

end Triangles
