import Triangles.Lib.Codec
import Triangles.Model.ConnectBlock

/-! The byte format of transactions and blocks (serialize.h, main.h): sizes, writers and
readers, and the block files. -/

namespace Triangles

open Codec

def MAX_SIZE : Nat := 0x02000000

def SER_NETWORK : Nat := 1 <<< 0
def SER_DISK : Nat := 1 <<< 1
def SER_GETHASH : Nat := 1 <<< 2
def SER_BLOCKHEADERONLY : Nat := 1 <<< 17

/-- What a reader throws: the stream ended, or `ReadCompactSize() : size too large`. -/
inductive StreamError where
  | endOfData
  | sizeTooLarge
deriving DecidableEq, Repr

def wordBytes : Nat → Nat → List UInt8
  | 0, _ => []
  | width + 1, n => UInt8.ofNat n :: wordBytes width (n / 256)

@[simp] theorem wordBytes_length (width n : Nat) : (wordBytes width n).length = width := by
  induction width generalizing n with
  | zero => rfl
  | succ width ih => rw [wordBytes, List.length_cons, ih]

def readLE (width : Nat) : Reader StreamError Nat := do
  let bytes ← readBytes .endOfData width
  pure (leValue bytes)

def signedBytes (width : Nat) (n : Int) : List UInt8 := wordBytes width (n % 256 ^ width).toNat

def readSigned (width : Nat) : Reader StreamError Int := do
  let n ← readLE width
  pure ((n : Int).bmod (256 ^ width))

def readUInt32 : Reader StreamError UInt32 := do
  let n ← readLE 4
  pure (UInt32.ofNat n)

def writeCompactSize (nSize : Nat) : List UInt8 :=
  if nSize < 253 then wordBytes 1 nSize
  else if nSize ≤ 0xffff then 253 :: wordBytes 2 nSize
  else if nSize ≤ 0xffffffff then 254 :: wordBytes 4 nSize
  else 255 :: wordBytes 8 nSize

def readSizeAfter (chSize : Nat) : Reader StreamError Nat :=
  if chSize < 253 then pure chSize
  else if chSize = 253 then readLE 2
  else if chSize = 254 then readLE 4
  else readLE 8

def readCompactSize : Reader StreamError Nat := do
  let chSize ← readLE 1
  let nSizeRet ← readSizeAfter chSize
  if MAX_SIZE < nSizeRet then throw .sizeTooLarge else pure nSizeRet

def serializeVector (w : α → List UInt8) (v : List α) : List UInt8 :=
  writeCompactSize v.length ++ v.flatMap w

/-- Items are read in blocks of `5000000 / sizeof(T)`. Every round reads one at least, so the
size bounds the number of rounds. -/
def unserializeVector (sizeofT : Nat) (r : Reader StreamError α) : Reader StreamError (List α) := do
  let nSize ← readCompactSize
  readBlocks (readMany r) (5000000 / sizeofT) nSize nSize []

def serializeBytes (v : List UInt8) : List UInt8 := writeCompactSize v.length ++ v

def unserializeBytes : Reader StreamError (List UInt8) := do
  let nSize ← readCompactSize
  readBlocks (readBytes .endOfData) (1 + 4999999 / 1) nSize nSize []

def vectorSize (size : α → UInt32) (v : List α) : UInt32 :=
  v.foldl (fun nSize a => nSize + size a) (UInt32.ofNat (getSizeOfCompactSize v.length))

def bytesSize (v : List UInt8) : UInt32 :=
  UInt32.ofNat (getSizeOfCompactSize v.length + v.length)

def uint256Bytes (n : uint256) : List UInt8 := wordBytes 32 n

namespace CTxIn

def serialize (txin : CTxIn) : List UInt8 :=
  (uint256Bytes txin.prevout.hash ++ wordBytes 4 txin.prevout.n.toNat) ++
    (serializeBytes txin.scriptSig ++ wordBytes 4 txin.nSequence.toNat)

def unserialize : Reader StreamError CTxIn := do
  let prevout ← (do
    let hash ← readLE 32
    let n ← readUInt32
    pure (⟨hash, n⟩ : COutPoint))
  let scriptSig ← unserializeBytes
  let nSequence ← readUInt32
  pure ⟨prevout, scriptSig, nSequence⟩

def sizeof : Nat := 72

def serSize (txin : CTxIn) : UInt32 := 36 + bytesSize txin.scriptSig + 4

end CTxIn

namespace CTxOut

def serialize (txout : CTxOut) : List UInt8 :=
  signedBytes 8 txout.nValue ++ serializeBytes txout.scriptPubKey

def unserialize : Reader StreamError CTxOut := do
  let nValue ← readSigned 8
  let scriptPubKey ← unserializeBytes
  pure ⟨nValue, scriptPubKey⟩

def sizeof : Nat := 32

def serSize (txout : CTxOut) : UInt32 := 8 + bytesSize txout.scriptPubKey

end CTxOut

namespace CTransaction

def serialize (tx : CTransaction) : List UInt8 :=
  signedBytes 4 tx.nVersion ++ (wordBytes 4 tx.nTime.toNat ++
    (serializeVector CTxIn.serialize tx.vin ++
      (serializeVector CTxOut.serialize tx.vout ++ wordBytes 4 tx.nLockTime.toNat)))

def unserialize : Reader StreamError CTransaction := do
  let nVersion ← readSigned 4
  let nTime ← readUInt32
  let vin ← unserializeVector CTxIn.sizeof CTxIn.unserialize
  let vout ← unserializeVector CTxOut.sizeof CTxOut.unserialize
  let nLockTime ← readUInt32
  pure ⟨nVersion, nTime, vin, vout, nLockTime⟩

def sizeof : Nat := 64

def serSize (tx : CTransaction) : UInt32 :=
  4 + 4 + vectorSize CTxIn.serSize tx.vin + vectorSize CTxOut.serSize tx.vout + 4

def readFromDisk (openBlockFile : UInt32 → Option (List UInt8)) (pos : CDiskTxPos) :
    Option CTransaction :=
  match openBlockFile pos.nFile with
  | none => none
  | some filein =>
    match unserialize (filein.drop pos.nTxPos.toNat) with
    | .ok (tx, _) => some tx
    | .error _ => none

end CTransaction

def CBlockHeader.serialize (header : CBlockHeader) : List UInt8 :=
  signedBytes 4 header.nVersion ++ (uint256Bytes header.hashPrevBlock ++
    (uint256Bytes header.hashMerkleRoot ++ (wordBytes 4 header.nTime.toNat ++
      (wordBytes 4 header.nBits.toNat ++ wordBytes 4 header.nNonce.toNat))))

def CBlockHeader.unserialize : Reader StreamError CBlockHeader := do
  let nVersion ← readSigned 4
  let hashPrevBlock ← readLE 32
  let hashMerkleRoot ← readLE 32
  let nTime ← readUInt32
  let nBits ← readUInt32
  let nNonce ← readUInt32
  pure ⟨nVersion, hashPrevBlock, hashMerkleRoot, nTime, nBits, nNonce⟩

namespace CBlock

/-- Only the header is written for hashing and where just the header is asked for. -/
def headerOnly (nType : Nat) : Bool := nType &&& (SER_GETHASH ||| SER_BLOCKHEADERONLY) != 0

def serialize (nType : Nat) (block : CBlock) : List UInt8 :=
  block.toCBlockHeader.serialize ++
    if headerOnly nType then []
    else serializeVector CTransaction.serialize block.vtx ++ serializeBytes block.vchBlockSig

def unserialize (nType : Nat) : Reader StreamError CBlock := do
  let header ← CBlockHeader.unserialize
  if headerOnly nType then pure { toCBlockHeader := header, vtx := [], vchBlockSig := [] }
  else do
    let vtx ← unserializeVector CTransaction.sizeof CTransaction.unserialize
    let vchBlockSig ← unserializeBytes
    pure { toCBlockHeader := header, vtx := vtx, vchBlockSig := vchBlockSig }

def serSize (nType : Nat) (block : CBlock) : UInt32 :=
  80 + if headerOnly nType then 0
    else vectorSize CTransaction.serSize block.vtx + bytesSize block.vchBlockSig

end CBlock

end Triangles
