import Mathlib.Data.Prod.Lex
import Triangles.Lib.Der
import Triangles.Lib.Memo
import Triangles.Model.Interpreter
import Triangles.Model.StackMachine

/-! `IsCanonicalSignature` read by read, and the numbers in a signature. -/

namespace Triangles

def readAt (vchSig : valtype) (i : Nat) : Except Fault UInt8 :=
  match vchSig[i]? with
  | none => .error .outOfBounds
  | some b => .ok b

def refuseIf (p : Prop) [Decidable p] : Except Fault Unit :=
  if p then .error .returnsFalse else .ok ()

def checkNumber (vchSig : valtype) (i nLen : Nat) : Except Fault Unit := do
  refuseIf ((← readAt vchSig (i - 2)) ≠ 0x02)
  refuseIf (nLen = 0)
  refuseIf ((← readAt vchSig i) &&& 0x80 ≠ 0)
  if 1 < nLen then
    if (← readAt vchSig i) = 0 then refuseIf ((← readAt vchSig (i + 1)) &&& 0x80 = 0)

/-- `IsCanonicalSignature`, with every read of the signature where the source makes it. -/
def readCanonicalSignature (nHeightBest : Int) (vchSig : valtype) : Except Fault Unit := do
  refuseIf (vchSig.length < 9)
  refuseIf (73 < vchSig.length)
  let nHashType := (← readAt vchSig (vchSig.length - 1)) &&& 0x7f
  refuseIf (nHashType < 1 ∨ 3 < nHashType)
  refuseIf ((← readAt vchSig 0) ≠ 0x30)
  refuseIf ((← readAt vchSig 1).toNat ≠ vchSig.length - 3)
  let nLenR := (← readAt vchSig 3).toNat
  refuseIf (vchSig.length ≤ 5 + nLenR)
  let nLenS := (← readAt vchSig (5 + nLenR)).toNat
  refuseIf (nLenR + nLenS + 7 ≠ vchSig.length)
  checkNumber vchSig 4 nLenR
  checkNumber vchSig (6 + nLenR) nLenS
  refuseIf (32 < nLenS ∧ CRAPCHAIN_CUTOFF_BLOCK < nHeightBest)

/-- The numbers and the hash type that stand at the places where the checks find them. -/
def decodeSig (vchSig : valtype) : Nat × Nat × UInt8 :=
  let nLenR := (vchSig.getD 3 0).toNat
  let nLenS := (vchSig.getD (5 + nLenR) 0).toNat
  (beValue ((vchSig.drop 4).take nLenR), beValue ((vchSig.drop (6 + nLenR)).take nLenS),
    vchSig.getLastD 0)

def encodeSig (r s : Nat) (nHashType : UInt8) : valtype := derPair r s ++ [nHashType]

end Triangles

/-! `CheckSig` with its cache of valid signatures (script.cpp). Its callers hold `cs_main`, so the
calls come one after the other. -/

namespace Triangles

open ByteOrder

abbrev SigData := Lex (uint256 × Lex (List UInt8 × List UInt8))

def sigData (hash : uint256) (vchSig pubKey : List UInt8) : SigData :=
  toLex (hash, toLex (vchSig, pubKey))

structure CSignatureCache where
  setValid : Finset SigData := ∅

/-- What `CKey` does with a public key: `SetPubKey`, which can fail, and `Verify` by the key set. -/
structure KeyOps (K : Type) where
  setPubKey : List UInt8 → Option K
  verify : K → uint256 → List UInt8 → Bool

def KeyOps.check {K : Type} (ops : KeyOps K) (vchPubKey : List UInt8) (hash : uint256)
    (vchSig : List UInt8) : Bool :=
  match ops.setPubKey vchPubKey with
  | none => false
  | some key => ops.verify key hash vchSig

namespace CSignatureCache

def get (c : CSignatureCache) (hash : uint256) (vchSig pubKey : List UInt8) : Bool :=
  decide (sigData hash vchSig pubKey ∈ c.setValid)

/-- `Set`. The limit is `GetArg("-maxsigcachesize", 50000)`, and `GetRandHash` draws the hashes at
which entries are evicted. -/
def set (nMaxCacheSize : Int) (getRandHash : Nat → uint256) (hash : uint256)
    (vchSig pubKey : List UInt8) (c : CSignatureCache) : CSignatureCache :=
  if nMaxCacheSize ≤ 0 then c
  else
    ⟨remember nMaxCacheSize (fun n => sigData (getRandHash n) [] []) (sigData hash vchSig pubKey)
      c.setValid⟩

end CSignatureCache

structure SigCall where
  vchSig : valtype
  vchPubKey : valtype
  scriptCode : CScript
  input : TxInput
  getRandHash : Nat → uint256

section CheckSig

variable {K : Type} (ops : KeyOps K) (env : ScriptEnv) (nMaxCacheSize : Int)

def checkSigCached (call : SigCall) (signatureCache : CSignatureCache) :
    Bool × CSignatureCache :=
  match call.vchSig.getLast? with
  | none => (false, signatureCache)
  | some back =>
    -- hash type is one byte tacked on to the end of the signature
    let nHashType := Int32.ofNat back.toNat
    if call.input.nHashType ≠ 0 ∧ call.input.nHashType ≠ nHashType then (false, signatureCache)
    else
      let vchSig := call.vchSig.dropLast
      let sighash :=
        signatureHash env.Hash call.scriptCode call.input.txTo call.input.nIn nHashType
      if signatureCache.get sighash vchSig call.vchPubKey then (true, signatureCache)
      else
        match ops.setPubKey call.vchPubKey with
        | none => (false, signatureCache)
        | some key =>
          if ops.verify key sighash vchSig then
            (true, signatureCache.set nMaxCacheSize call.getRandHash sighash vchSig call.vchPubKey)
          else (false, signatureCache)

/-- A history of calls: their results, and the cache they leave. -/
def checkSigs : List SigCall → CSignatureCache → List Bool × CSignatureCache
  | [], signatureCache => ([], signatureCache)
  | call :: calls, signatureCache =>
    let (fOk, after) := checkSigCached ops env nMaxCacheSize call signatureCache
    let (results, last) := checkSigs calls after
    (fOk :: results, last)

/-- `CheckSig` without its cache. -/
def uncached (call : SigCall) : Bool :=
  checkSig { env with verify := ops.check } call.input call.vchSig call.vchPubKey call.scriptCode

end CheckSig

end Triangles
