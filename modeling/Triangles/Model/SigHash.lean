import Triangles.Model.Serialize

/-! What a signature signs (script.cpp, script.h): the transaction blanked according to the hash
type, and its hash. -/

namespace Triangles

def OP_CODESEPARATOR : UInt8 := 0xab

def SIGHASH_ALL : Int32 := 1
def SIGHASH_NONE : Int32 := 2
def SIGHASH_SINGLE : Int32 := 3
def SIGHASH_ANYONECANPAY : Int32 := 0x80

def eraseFront (b : CScript) : Nat → CScript → CScript
  | 0, pc => pc
  | rounds + 1, pc => if b.isPrefixOf pc then eraseFront b rounds (pc.drop b.length) else pc

/-- The loop of `FindAndDelete` over the opcodes. Every opcode takes at least one byte, so the
script's length bounds the number of rounds. -/
def findAndDeleteFrom (b : CScript) : Nat → CScript → CScript
  | 0, pc => pc
  | rounds + 1, pc =>
    let pc := eraseFront b pc.length pc
    match getOp pc with
    | none => pc
    | some (_, _, rest) => pc.take (pc.length - rest.length) ++ findAndDeleteFrom b rounds rest

/-- `CScript::FindAndDelete`, as the script it leaves. -/
def findAndDelete (script b : CScript) : CScript :=
  if b.isEmpty then script else findAndDeleteFrom b (script.length + 1) script

def CTxOut.null : CTxOut := { nValue := -1, scriptPubKey := [] }

def freeOthers (nIn : Nat) (vin : List CTxIn) : List CTxIn :=
  vin.mapIdx fun i txin => if i ≠ nIn then { txin with nSequence := 0 } else txin

def blankScripts (nIn : Nat) (scriptCode : CScript) (vin : List CTxIn) : List CTxIn :=
  vin.mapIdx fun i txin => { txin with scriptSig := if i = nIn then scriptCode else [] }

def blankOutputs (nIn : Nat) (nHashType : Int32) (txTmp : CTransaction) : Option CTransaction :=
  if nHashType &&& 0x1f = SIGHASH_NONE then
    some { txTmp with vout := [], vin := freeOthers nIn txTmp.vin }
  else if nHashType &&& 0x1f = SIGHASH_SINGLE then
    if txTmp.vout.length ≤ nIn then none
    else
      some { txTmp with
        vout := (txTmp.vout.take (nIn + 1)).mapIdx fun i txout =>
          if i < nIn then CTxOut.null else txout
        vin := freeOthers nIn txTmp.vin }
  else some txTmp

def blankInputs (nIn : Nat) (nHashType : Int32) (txTmp : CTransaction) : CTransaction :=
  if nHashType &&& SIGHASH_ANYONECANPAY ≠ 0 then
    match txTmp.vin[nIn]? with
    | none => txTmp
    | some txin => { txTmp with vin := (txTmp.vin.set 0 txin).take 1 }
  else txTmp

def signatureHash (Hash : List UInt8 → uint256) (scriptCode : CScript) (txTo : CTransaction)
    (nIn : Nat) (nHashType : Int32) : uint256 :=
  if txTo.vin.length ≤ nIn then 1
  else
    let scriptCode := findAndDelete scriptCode [OP_CODESEPARATOR]
    let txTmp := { txTo with vin := blankScripts nIn scriptCode txTo.vin }
    match blankOutputs nIn nHashType txTmp with
    | none => 1
    | some txTmp =>
      Hash ((blankInputs nIn nHashType txTmp).serialize ++
        wordBytes 4 nHashType.toUInt32.toNat)

end Triangles
