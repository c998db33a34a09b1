import Triangles.Model.Transaction

/-! Standard scripts and transactions: template matching and destinations (script.cpp, main.cpp). -/

namespace Triangles

def OP_0 : UInt8 := 0x00
@[match_pattern] def OP_DUP : UInt8 := 0x76
@[match_pattern] def OP_EQUALVERIFY : UInt8 := 0x88
def OP_SMALLINTEGER : UInt8 := 0xfa
def OP_PUBKEYS : UInt8 := 0xfb
def OP_PUBKEYHASH : UInt8 := 0xfd
def OP_PUBKEY : UInt8 := 0xfe

abbrev uint160 := List UInt8

inductive TxnOutType where
  | TX_NONSTANDARD
  | TX_PUBKEY
  | TX_PUBKEYHASH
  | TX_SCRIPTHASH
  | TX_MULTISIG
deriving DecidableEq, Repr

inductive CTxDestination where
  | noDestination
  | keyID (id : uint160)
  | scriptID (id : uint160)
deriving DecidableEq, Repr

def decodeOP_N (opcode : UInt8) : UInt8 := if opcode = OP_0 then 0 else opcode - (OP_1 - 1)

abbrev ScriptOp := UInt8 × List UInt8 × CScript

/-- The loop for `OP_PUBKEYS`: take pushes of key size. A script that ends in the loop leaves
`OP_INVALIDOPCODE` without operand. -/
def matchPubKeys : Nat → ScriptOp → List (List UInt8) → ScriptOp × List (List UInt8)
  | 0, op, vSolutions => (op, vSolutions)
  | rounds + 1, op, vSolutions =>
    if 33 ≤ op.2.1.length ∧ op.2.1.length ≤ 120 then
      match getOp op.2.2 with
      | none => ((OP_INVALIDOPCODE, [], []), vSolutions ++ [op.2.1])
      | some op' => matchPubKeys rounds op' (vSolutions ++ [op.2.1])
    else (op, vSolutions)

def matchOpcode (opcode2 : UInt8) (op : ScriptOp) (vSolutions : List (List UInt8)) :
    Option (List (List UInt8)) :=
  if opcode2 = OP_PUBKEY then
    if op.2.1.length < 33 ∨ 120 < op.2.1.length then none else some (vSolutions ++ [op.2.1])
  else if opcode2 = OP_PUBKEYHASH then
    if op.2.1.length ≠ 20 then none else some (vSolutions ++ [op.2.1])
  else if opcode2 = OP_SMALLINTEGER then
    if op.1 = OP_0 ∨ OP_1 ≤ op.1 ∧ op.1 ≤ OP_16 then some (vSolutions ++ [[decodeOP_N op.1]])
    else none
  else if op.1 ≠ opcode2 ∨ op.2.1 ≠ [] then none
  else some vSolutions

def matchTemplate : List UInt8 → CScript → List (List UInt8) → Option (List (List UInt8))
  | [], script1, vSolutions => if script1.isEmpty then some vSolutions else none
  | opcode2 :: tplate, script1, vSolutions =>
    match getOp script1 with
    | none => none
    | some op =>
      if opcode2 = OP_PUBKEYS then
        match tplate with
        | [] => none
        | opcode2 :: tplate =>
          let (op, vSolutions) := matchPubKeys (op.2.2.length + 1) op vSolutions
          match matchOpcode opcode2 op vSolutions with
          | none => none
          | some vSolutions => matchTemplate tplate op.2.2 vSolutions
      else
        match matchOpcode opcode2 op vSolutions with
        | none => none
        | some vSolutions => matchTemplate tplate op.2.2 vSolutions

def templatePubKey : List UInt8 := [OP_PUBKEY, OP_CHECKSIG]

def templatePubKeyHash : List UInt8 :=
  [OP_DUP, OP_HASH160, OP_PUBKEYHASH, OP_EQUALVERIFY, OP_CHECKSIG]

def templateMultisig : List UInt8 :=
  [OP_SMALLINTEGER, OP_PUBKEYS, OP_SMALLINTEGER, OP_CHECKMULTISIG]

def solutionNumber (v : Option (List UInt8)) : Nat := ((v.getD []).headD 0).toNat

/-- `Solver`: the type of a standard script with its keys, hashes and numbers. The templates
are tried in the order of their types. -/
def solver (scriptPubKey : CScript) : Option (TxnOutType × List (List UInt8)) :=
  if isPayToScriptHash scriptPubKey then
    some (.TX_SCRIPTHASH, [(scriptPubKey.drop 2).take 20])
  else
    match matchTemplate templatePubKey scriptPubKey [] with
    | some vSolutions => some (.TX_PUBKEY, vSolutions)
    | none =>
      match matchTemplate templatePubKeyHash scriptPubKey [] with
      | some vSolutions => some (.TX_PUBKEYHASH, vSolutions)
      | none =>
        match matchTemplate templateMultisig scriptPubKey [] with
        | none => none
        | some vSolutions =>
          let m := solutionNumber vSolutions.head?
          let n := solutionNumber vSolutions.getLast?
          if m < 1 ∨ n < 1 ∨ n < m ∨ vSolutions.length - 2 ≠ n then none
          else some (.TX_MULTISIG, vSolutions)

def extractDestination (hash160 : List UInt8 → uint160) (scriptPubKey : CScript) :
    Option CTxDestination :=
  match solver scriptPubKey with
  | some (.TX_PUBKEY, vSolutions) => some (.keyID (hash160 (vSolutions.headD [])))
  | some (.TX_PUBKEYHASH, vSolutions) => some (.keyID (vSolutions.headD []))
  | some (.TX_SCRIPTHASH, vSolutions) => some (.scriptID (vSolutions.headD []))
  | _ => none

def isStandardScript (scriptPubKey : CScript) : Bool :=
  match solver scriptPubKey with
  | none => false
  | some (.TX_MULTISIG, vSolutions) =>
    let m := solutionNumber vSolutions.head?
    let n := solutionNumber vSolutions.getLast?
    decide (1 ≤ n) && decide (n ≤ 3) && decide (1 ≤ m) && decide (m ≤ n)
  | some (whichType, _) => whichType != .TX_NONSTANDARD

/-- The loop of `IsPushOnly`. -/
def pushesOnly : Nat → CScript → Bool
  | _, [] => true
  | 0, _ :: _ => false
  | rounds + 1, pc =>
    match getOp pc with
    | none => false
    | some (opcode, _, pc) => decide (opcode ≤ OP_16) && pushesOnly rounds pc

def isPushOnly (script : CScript) : Bool := pushesOnly script.length script

def wastefulPush (opcode : UInt8) (data : List UInt8) : Bool :=
  (decide (opcode < OP_PUSHDATA1 ∧ OP_0 < opcode) && data.length == 1 &&
    decide (data.headD 0 ≤ 16)) ||
  (opcode == OP_PUSHDATA1 && decide (data.length < OP_PUSHDATA1.toNat)) ||
  (opcode == OP_PUSHDATA2 && decide (data.length ≤ 0xff)) ||
  (opcode == OP_PUSHDATA4 && decide (data.length ≤ 0xffff))

def canonicalPushes : Nat → CScript → Bool
  | _, [] => true
  | 0, _ :: _ => false
  | rounds + 1, pc =>
    match getOp pc with
    | none => false
    | some (opcode, data, pc) =>
      (decide (OP_16 < opcode) || !wastefulPush opcode data) && canonicalPushes rounds pc

def hasCanonicalPushes (script : CScript) : Bool := canonicalPushes script.length script

def CTransaction.CURRENT_VERSION : Int := 1

def CTransaction.isStandard (fEnforceCanonical : Bool) (tx : CTransaction) : Bool :=
  decide (tx.nVersion ≤ CURRENT_VERSION) &&
  tx.vin.all (fun txin => decide (txin.scriptSig.length ≤ 500) && isPushOnly txin.scriptSig &&
    (!fEnforceCanonical || hasCanonicalPushes txin.scriptSig)) &&
  tx.vout.all fun txout => isStandardScript txout.scriptPubKey && txout.nValue != 0 &&
    (!fEnforceCanonical || hasCanonicalPushes txout.scriptPubKey)

end Triangles
