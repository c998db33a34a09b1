import Triangles.Model.SigHash
import Triangles.Model.Standard

/-! The script interpreter (script.cpp): `EvalScript`, `CheckSig` and `VerifyScript`. -/

namespace Triangles

open Outcome

abbrev valtype := List UInt8

def OP_1NEGATE : UInt8 := 0x4f
@[match_pattern] def OP_NOP : UInt8 := 0x61
@[match_pattern] def OP_IF : UInt8 := 0x63
@[match_pattern] def OP_NOTIF : UInt8 := 0x64
@[match_pattern] def OP_ELSE : UInt8 := 0x67
@[match_pattern] def OP_ENDIF : UInt8 := 0x68
@[match_pattern] def OP_VERIFY : UInt8 := 0x69
def OP_RETURN : UInt8 := 0x6a
@[match_pattern] def OP_TOALTSTACK : UInt8 := 0x6b
@[match_pattern] def OP_FROMALTSTACK : UInt8 := 0x6c
@[match_pattern] def OP_2DROP : UInt8 := 0x6d
@[match_pattern] def OP_2DUP : UInt8 := 0x6e
@[match_pattern] def OP_3DUP : UInt8 := 0x6f
@[match_pattern] def OP_2OVER : UInt8 := 0x70
@[match_pattern] def OP_2ROT : UInt8 := 0x71
@[match_pattern] def OP_2SWAP : UInt8 := 0x72
@[match_pattern] def OP_IFDUP : UInt8 := 0x73
@[match_pattern] def OP_DEPTH : UInt8 := 0x74
@[match_pattern] def OP_DROP : UInt8 := 0x75
@[match_pattern] def OP_NIP : UInt8 := 0x77
@[match_pattern] def OP_OVER : UInt8 := 0x78
@[match_pattern] def OP_PICK : UInt8 := 0x79
@[match_pattern] def OP_ROLL : UInt8 := 0x7a
@[match_pattern] def OP_ROT : UInt8 := 0x7b
@[match_pattern] def OP_SWAP : UInt8 := 0x7c
@[match_pattern] def OP_TUCK : UInt8 := 0x7d
def OP_CAT : UInt8 := 0x7e
def OP_SUBSTR : UInt8 := 0x7f
def OP_LEFT : UInt8 := 0x80
def OP_RIGHT : UInt8 := 0x81
@[match_pattern] def OP_SIZE : UInt8 := 0x82
def OP_INVERT : UInt8 := 0x83
def OP_AND : UInt8 := 0x84
def OP_OR : UInt8 := 0x85
def OP_XOR : UInt8 := 0x86
@[match_pattern] def OP_1ADD : UInt8 := 0x8b
@[match_pattern] def OP_1SUB : UInt8 := 0x8c
def OP_2MUL : UInt8 := 0x8d
def OP_2DIV : UInt8 := 0x8e
@[match_pattern] def OP_NEGATE : UInt8 := 0x8f
@[match_pattern] def OP_ABS : UInt8 := 0x90
@[match_pattern] def OP_NOT : UInt8 := 0x91
@[match_pattern] def OP_0NOTEQUAL : UInt8 := 0x92
@[match_pattern] def OP_ADD : UInt8 := 0x93
@[match_pattern] def OP_SUB : UInt8 := 0x94
def OP_MUL : UInt8 := 0x95
def OP_DIV : UInt8 := 0x96
def OP_MOD : UInt8 := 0x97
def OP_LSHIFT : UInt8 := 0x98
def OP_RSHIFT : UInt8 := 0x99
@[match_pattern] def OP_BOOLAND : UInt8 := 0x9a
@[match_pattern] def OP_BOOLOR : UInt8 := 0x9b
@[match_pattern] def OP_NUMEQUAL : UInt8 := 0x9c
@[match_pattern] def OP_NUMEQUALVERIFY : UInt8 := 0x9d
@[match_pattern] def OP_NUMNOTEQUAL : UInt8 := 0x9e
@[match_pattern] def OP_LESSTHAN : UInt8 := 0x9f
@[match_pattern] def OP_GREATERTHAN : UInt8 := 0xa0
@[match_pattern] def OP_LESSTHANOREQUAL : UInt8 := 0xa1
@[match_pattern] def OP_GREATERTHANOREQUAL : UInt8 := 0xa2
@[match_pattern] def OP_MIN : UInt8 := 0xa3
@[match_pattern] def OP_MAX : UInt8 := 0xa4
@[match_pattern] def OP_WITHIN : UInt8 := 0xa5
@[match_pattern] def OP_RIPEMD160 : UInt8 := 0xa6
@[match_pattern] def OP_SHA1 : UInt8 := 0xa7
@[match_pattern] def OP_SHA256 : UInt8 := 0xa8
@[match_pattern] def OP_HASH256 : UInt8 := 0xaa
def OP_NOP1 : UInt8 := 0xb0
def OP_NOP10 : UInt8 := 0xb9

/-! Numbers and truth values on the stack. -/

def setvch (vch : valtype) : Int :=
  let last := vch.getLastD 0
  if 0x80 ≤ last then -(leValue (vch.dropLast ++ [last - 0x80]) : Int) else leValue vch

def bnGetvch (n : Int) : valtype :=
  let vch := leBytes 8 n.natAbs
  let last := vch.getLastD 0
  if 0x80 ≤ last then vch ++ [if n < 0 then 0x80 else 0]
  else if n < 0 then vch.dropLast ++ [last ||| 0x80]
  else vch

def nMaxNumSize : Nat := 4

/-- `CastToBigNum`, which throws on more than four bytes. Writing the number and reading it again
only drops zeros in front. -/
def castToBigNum (vch : valtype) : Option Int :=
  if nMaxNumSize < vch.length then none else some (setvch vch)

def castToBool : valtype → Bool
  | [] => false
  | b :: vch => if b ≠ 0 then !(vch.isEmpty && b == 0x80) else castToBool vch

def vchBool (f : Bool) : valtype := if f then [1] else []

def pushData (b : valtype) : CScript :=
  if b.length < OP_PUSHDATA1.toNat then UInt8.ofNat b.length :: b
  else if b.length ≤ 0xff then OP_PUSHDATA1 :: wordBytes 1 b.length ++ b
  else if b.length ≤ 0xffff then OP_PUSHDATA2 :: wordBytes 2 b.length ++ b
  else OP_PUSHDATA4 :: wordBytes 4 b.length ++ b

/-! Signatures. -/

/-- What the interpreter takes from outside: hash functions, the check of one signature by a public
key, and the height of the best block. -/
structure ScriptEnv where
  ripemd160 : List UInt8 → List UInt8
  sha1 : List UInt8 → List UInt8
  sha256 : List UInt8 → List UInt8
  Hash : List UInt8 → uint256
  verify : List UInt8 → uint256 → List UInt8 → Bool
  nHeightBest : Int

structure TxInput where
  txTo : CTransaction
  nIn : Nat
  nHashType : Int32

def isCanonicalPubKey (vchPubKey : valtype) : Bool :=
  decide (33 ≤ vchPubKey.length) &&
    if vchPubKey.headD 0 = 0x04 then vchPubKey.length == 65
    else (vchPubKey.headD 0 == 0x02 || vchPubKey.headD 0 == 0x03) && vchPubKey.length == 33

def checkSig (env : ScriptEnv) (input : TxInput) (vchSig vchPubKey : valtype)
    (scriptCode : CScript) : Bool :=
  match vchSig.getLast? with
  | none => false
  | some back =>
    let last := Int32.ofNat back.toNat
    if input.nHashType ≠ 0 ∧ input.nHashType ≠ last then false
    else
      env.verify vchPubKey (signatureHash env.Hash scriptCode input.txTo input.nIn last)
        vchSig.dropLast

/-- A run that fails with `return false`. Its state is the number of calls of `CheckSig`. -/
abbrev Interp := EStateM Unit Nat

def ofOption (x : Option α) : Interp α :=
  match x with
  | none => throw ()
  | some a => pure a

/-- One signature against one key: only canonical ones get to `CheckSig`. -/
def checkOne (env : ScriptEnv) (input : TxInput) (scriptCode : CScript)
    (vchSig vchPubKey : valtype) : Interp Bool :=
  if isCanonicalSignature env.nHeightBest vchSig && isCanonicalPubKey vchPubKey then do
    modify (· + 1)
    pure (checkSig env input vchSig vchPubKey scriptCode)
  else pure false

/-- The loop of `OP_CHECKMULTISIG`: each key is tried once, against the first signature left. -/
def checkMultiSig (env : ScriptEnv) (input : TxInput) (scriptCode : CScript) :
    List valtype → List valtype → Interp Bool
  | [], _ => pure true
  | _ :: _, [] => pure false
  | vchSig :: sigs, vchPubKey :: keys => do
    let fOk ← checkOne env input scriptCode vchSig vchPubKey
    let left := if fOk then sigs else vchSig :: sigs
    if keys.length < left.length then pure false
    else checkMultiSig env input scriptCode left keys

/-! The machine. -/

structure EvalState where
  stack : List valtype
  altstack : List valtype := []
  vfExec : List Bool := []
  nOpCount : Nat := 0
  pbegincodehash : CScript

def pushResult (s : EvalState) (fVerify fSuccess : Bool) (stack : List valtype) : Option EvalState :=
  if fVerify then if fSuccess then some { s with stack := stack } else none
  else some { s with stack := vchBool fSuccess :: stack }

def pushNumber (opcode : UInt8) (s : EvalState) : Option EvalState :=
  if opcode = OP_1NEGATE ∨ OP_1 ≤ opcode ∧ opcode ≤ OP_16 then
    some { s with stack := bnGetvch ((opcode.toNat : Int) - (OP_1.toNat - 1)) :: s.stack }
  else none

def controlOp (fExec : Bool) (opcode : UInt8) (s : EvalState) : Option EvalState :=
  match opcode with
  | OP_NOP => some s
  | OP_IF | OP_NOTIF =>
    if fExec then
      match s.stack with
      | [] => none
      | vch :: stack =>
        let fValue := if opcode = OP_NOTIF then !castToBool vch else castToBool vch
        some { s with stack := stack, vfExec := fValue :: s.vfExec }
    else some { s with vfExec := false :: s.vfExec }
  | OP_ELSE =>
    match s.vfExec with
    | [] => none
    | f :: vfExec => some { s with vfExec := (!f) :: vfExec }
  | OP_ENDIF =>
    match s.vfExec with
    | [] => none
    | _ :: vfExec => some { s with vfExec := vfExec }
  | OP_VERIFY =>
    match s.stack with
    | [] => none
    | vch :: stack => if castToBool vch then some { s with stack := stack } else none
  | _ => none

def altStackOp (opcode : UInt8) (s : EvalState) : Option EvalState :=
  match opcode, s.stack, s.altstack with
  | OP_TOALTSTACK, vch :: stack, altstack =>
    some { s with stack := stack, altstack := vch :: altstack }
  | OP_FROMALTSTACK, stack, vch :: altstack =>
    some { s with stack := vch :: stack, altstack := altstack }
  | _, _, _ => none

def pickOp (fRoll : Bool) (vch : valtype) (stack : List valtype) : Option (List valtype) :=
  match castToBigNum vch with
  | none => none
  | some n =>
    if n < 0 then none
    else
      match stack[n.toNat]? with
      | none => none
      | some vch => some (vch :: if fRoll then stack.eraseIdx n.toNat else stack)

def stackOp (opcode : UInt8) (stack : List valtype) : Option (List valtype) :=
  match opcode, stack with
  | OP_2DROP, _ :: _ :: s => some s
  | OP_2DUP, x2 :: x1 :: s => some (x2 :: x1 :: x2 :: x1 :: s)
  | OP_3DUP, x3 :: x2 :: x1 :: s => some (x3 :: x2 :: x1 :: x3 :: x2 :: x1 :: s)
  | OP_2OVER, x4 :: x3 :: x2 :: x1 :: s => some (x2 :: x1 :: x4 :: x3 :: x2 :: x1 :: s)
  | OP_2ROT, x6 :: x5 :: x4 :: x3 :: x2 :: x1 :: s =>
    some (x2 :: x1 :: x6 :: x5 :: x4 :: x3 :: s)
  | OP_2SWAP, x4 :: x3 :: x2 :: x1 :: s => some (x2 :: x1 :: x4 :: x3 :: s)
  | OP_IFDUP, x :: s => some (if castToBool x then x :: x :: s else x :: s)
  | OP_DEPTH, s => some (bnGetvch s.length :: s)
  | OP_DROP, _ :: s => some s
  | OP_DUP, x :: s => some (x :: x :: s)
  | OP_NIP, x2 :: _ :: s => some (x2 :: s)
  | OP_OVER, x2 :: x1 :: s => some (x1 :: x2 :: x1 :: s)
  | OP_PICK, n :: x :: s => pickOp false n (x :: s)
  | OP_ROLL, n :: x :: s => pickOp true n (x :: s)
  | OP_ROT, x3 :: x2 :: x1 :: s => some (x1 :: x3 :: x2 :: s)
  | OP_SWAP, x2 :: x1 :: s => some (x1 :: x2 :: s)
  | OP_TUCK, x2 :: x1 :: s => some (x2 :: x1 :: x2 :: s)
  | OP_SIZE, x :: s => some (bnGetvch x.length :: x :: s)
  | OP_EQUAL, x2 :: x1 :: s => some (vchBool (x1 == x2) :: s)
  | OP_EQUALVERIFY, x2 :: x1 :: s => if x1 = x2 then some s else none
  | _, _ => none

def unaryOp (opcode : UInt8) (bn : Int) : Option Int :=
  match opcode with
  | OP_1ADD => some (bn + 1)
  | OP_1SUB => some (bn - 1)
  | OP_NEGATE => some (-bn)
  | OP_ABS => some (if bn < 0 then -bn else bn)
  | OP_NOT => some (if bn = 0 then 1 else 0)
  | OP_0NOTEQUAL => some (if bn ≠ 0 then 1 else 0)
  | _ => none

def binaryOp (opcode : UInt8) (bn1 bn2 : Int) : Option Int :=
  match opcode with
  | OP_ADD => some (bn1 + bn2)
  | OP_SUB => some (bn1 - bn2)
  | OP_BOOLAND => some (if bn1 ≠ 0 ∧ bn2 ≠ 0 then 1 else 0)
  | OP_BOOLOR => some (if bn1 ≠ 0 ∨ bn2 ≠ 0 then 1 else 0)
  | OP_NUMEQUAL => some (if bn1 = bn2 then 1 else 0)
  | OP_NUMEQUALVERIFY => some (if bn1 = bn2 then 1 else 0)
  | OP_NUMNOTEQUAL => some (if bn1 ≠ bn2 then 1 else 0)
  | OP_LESSTHAN => some (if bn1 < bn2 then 1 else 0)
  | OP_GREATERTHAN => some (if bn2 < bn1 then 1 else 0)
  | OP_LESSTHANOREQUAL => some (if bn1 ≤ bn2 then 1 else 0)
  | OP_GREATERTHANOREQUAL => some (if bn2 ≤ bn1 then 1 else 0)
  | OP_MIN => some (if bn1 < bn2 then bn1 else bn2)
  | OP_MAX => some (if bn2 < bn1 then bn1 else bn2)
  | _ => none

def numericOp (opcode : UInt8) (stack : List valtype) : Option (List valtype) :=
  if opcode ≤ OP_0NOTEQUAL then
    match stack with
    | x :: s => do
      let bn ← castToBigNum x
      let bn ← unaryOp opcode bn
      some (bnGetvch bn :: s)
    | _ => none
  else if opcode = OP_WITHIN then
    match stack with
    | x3 :: x2 :: x1 :: s => do
      let bn1 ← castToBigNum x1
      let bn2 ← castToBigNum x2
      let bn3 ← castToBigNum x3
      some (vchBool (decide (bn2 ≤ bn1 ∧ bn1 < bn3)) :: s)
    | _ => none
  else
    match stack with
    | x2 :: x1 :: s => do
      let bn1 ← castToBigNum x1
      let bn2 ← castToBigNum x2
      let bn ← binaryOp opcode bn1 bn2
      if opcode = OP_NUMEQUALVERIFY then if castToBool (bnGetvch bn) then some s else none
      else some (bnGetvch bn :: s)
    | _ => none

def hashOp (env : ScriptEnv) (opcode : UInt8) (stack : List valtype) : Option (List valtype) :=
  match opcode, stack with
  | OP_RIPEMD160, vch :: s => some (env.ripemd160 vch :: s)
  | OP_SHA1, vch :: s => some (env.sha1 vch :: s)
  | OP_SHA256, vch :: s => some (env.sha256 vch :: s)
  | OP_HASH160, vch :: s => some (env.ripemd160 (env.sha256 vch) :: s)
  | OP_HASH256, vch :: s => some (env.sha256 (env.sha256 vch) :: s)
  | _, _ => none

def plainOp (env : ScriptEnv) (fExec : Bool) (opcode : UInt8) (pc : CScript) (s : EvalState) :
    Option EvalState :=
  if opcode ≤ OP_16 then pushNumber opcode s
  else if opcode ≤ OP_RETURN then controlOp fExec opcode s
  else if opcode ≤ OP_FROMALTSTACK then altStackOp opcode s
  else if opcode ≤ OP_EQUALVERIFY then
    (stackOp opcode s.stack).map fun stack => { s with stack := stack }
  else if opcode ≤ OP_WITHIN then
    (numericOp opcode s.stack).map fun stack => { s with stack := stack }
  else if opcode ≤ OP_HASH256 then
    (hashOp env opcode s.stack).map fun stack => { s with stack := stack }
  else if opcode = OP_CODESEPARATOR then some { s with pbegincodehash := pc }
  else if OP_NOP1 ≤ opcode ∧ opcode ≤ OP_NOP10 then some s
  else none

def checkSigOp (env : ScriptEnv) (input : TxInput) (opcode : UInt8) (s : EvalState) :
    Interp EvalState :=
  match s.stack with
  | vchPubKey :: vchSig :: stack => do
    let scriptCode := findAndDelete s.pbegincodehash (pushData vchSig)
    let fSuccess ← checkOne env input scriptCode vchSig vchPubKey
    ofOption (pushResult s (opcode == OP_CHECKSIGVERIFY) fSuccess stack)
  | _ => throw ()

/-- The operands of `OP_CHECKMULTISIG`: the number of keys, the keys, the signatures and the
stack below the extra item. -/
def multiSigOperands (nOpCount : Nat) (stack : List valtype) :
    Option (Nat × List valtype × List valtype × List valtype) :=
  match stack with
  | [] => none
  | vch :: stack => do
    let nKeysCount ← castToBigNum vch
    guard (0 ≤ nKeysCount ∧ nKeysCount ≤ 20)
    guard (nOpCount + nKeysCount.toNat ≤ 201)
    match stack.drop nKeysCount.toNat with
    | [] => none
    | vch :: rest => do
      let nSigsCount ← castToBigNum vch
      guard (0 ≤ nSigsCount ∧ nSigsCount ≤ nKeysCount)
      match rest.drop nSigsCount.toNat with
      | [] => none
      | _ :: below =>
        some (nKeysCount.toNat, stack.take nKeysCount.toNat, rest.take nSigsCount.toNat, below)

def checkMultiSigOp (env : ScriptEnv) (input : TxInput) (opcode : UInt8) (s : EvalState) :
    Interp EvalState :=
  match multiSigOperands s.nOpCount s.stack with
  | none => throw ()
  | some (nKeysCount, keys, sigs, below) => do
    let scriptCode := sigs.foldl (fun code vchSig => findAndDelete code (pushData vchSig))
      s.pbegincodehash
    let fSuccess ← checkMultiSig env input scriptCode sigs keys
    ofOption (pushResult { s with nOpCount := s.nOpCount + nKeysCount }
      (opcode == OP_CHECKMULTISIGVERIFY) fSuccess below)

def isDisabled (opcode : UInt8) : Bool :=
  opcode ∈ [OP_CAT, OP_SUBSTR, OP_LEFT, OP_RIGHT, OP_INVERT, OP_AND, OP_OR, OP_XOR, OP_2MUL,
    OP_2DIV, OP_MUL, OP_DIV, OP_MOD, OP_LSHIFT, OP_RSHIFT]

def execOp (env : ScriptEnv) (input : TxInput) (fExec : Bool) (opcode : UInt8) (pc : CScript)
    (s : EvalState) : Interp EvalState :=
  if opcode = OP_CHECKSIG ∨ opcode = OP_CHECKSIGVERIFY then checkSigOp env input opcode s
  else if opcode = OP_CHECKMULTISIG ∨ opcode = OP_CHECKMULTISIGVERIFY then
    checkMultiSigOp env input opcode s
  else ofOption (plainOp env fExec opcode pc s)

def EvalState.fExec (s : EvalState) : Bool := s.vfExec.all id

def countOp (opcode : UInt8) (vchPushValue : valtype) (s : EvalState) : Option EvalState :=
  let nOpCount := if OP_16 < opcode then s.nOpCount + 1 else s.nOpCount
  if 520 < vchPushValue.length ∨ OP_16 < opcode ∧ 201 < nOpCount ∨ isDisabled opcode then none
  else some { s with nOpCount := nOpCount }

def limitSize (s : EvalState) : Option EvalState :=
  if 1000 < s.stack.length + s.altstack.length then none else some s

def runOp (env : ScriptEnv) (input : TxInput) (opcode : UInt8) (vchPushValue : valtype)
    (pc : CScript) (s : EvalState) : Interp EvalState :=
  if s.fExec ∧ opcode ≤ OP_PUSHDATA4 then pure { s with stack := vchPushValue :: s.stack }
  else if s.fExec ∨ OP_IF ≤ opcode ∧ opcode ≤ OP_ENDIF then
    execOp env input s.fExec opcode pc s
  else pure s

def evalOp (env : ScriptEnv) (input : TxInput) (opcode : UInt8) (vchPushValue : valtype)
    (pc : CScript) (s : EvalState) : Interp EvalState := do
  let s ← ofOption (countOp opcode vchPushValue s)
  let s ← runOp env input opcode vchPushValue pc s
  ofOption (limitSize s)

/-- The loop of `EvalScript`. Every opcode takes at least one byte, so the script's length bounds
the number of rounds. -/
def evalLoop (env : ScriptEnv) (input : TxInput) : Nat → CScript → EvalState → Interp EvalState
  | _, [], s => pure s
  | 0, _ :: _, _ => throw ()
  | rounds + 1, op :: pc, s =>
    match getOp (op :: pc) with
    | none => throw ()
    | some (opcode, vchPushValue, rest) => do
      let s ← evalOp env input opcode vchPushValue rest s
      evalLoop env input rounds rest s

/-- `EvalScript`: the stack it leaves. -/
def evalScript (env : ScriptEnv) (input : TxInput) (stack : List valtype) (script : CScript) :
    Interp (List valtype) :=
  if 10000 < script.length then throw ()
  else do
    let s ← evalLoop env input script.length script { stack := stack, pbegincodehash := script }
    if s.vfExec.isEmpty then pure s.stack else throw ()

structure VerifyRun where
  fValid : Bool
  scriptSigCalls : Nat := 0
  scriptPubKeyCalls : Nat := 0
  redeemCalls : Nat := 0
deriving DecidableEq, Repr

/-- The last part of `VerifyScript`: the script that the signature script ends with, run on the
stack below it. -/
def verifyRedeem (env : ScriptEnv) (input : TxInput) (scriptSig : CScript)
    (stackCopy : List valtype) (run : VerifyRun) : VerifyRun :=
  if !isPushOnly scriptSig then run
  else
    match stackCopy with
    | [] => run
    | pubKeySerialized :: stack =>
      match evalScript env input stack pubKeySerialized 0 with
      | .error _ n => { run with redeemCalls := n }
      | .ok stack n =>
        { run with fValid := castToBool (stack.headD []), redeemCalls := n }

def verifyScript (env : ScriptEnv) (input : TxInput) (scriptSig scriptPubKey : CScript) :
    VerifyRun :=
  match evalScript env input [] scriptSig 0 with
  | .error _ n => { fValid := false, scriptSigCalls := n }
  | .ok stackCopy n =>
    match evalScript env input stackCopy scriptPubKey 0 with
    | .error _ n' => { fValid := false, scriptSigCalls := n, scriptPubKeyCalls := n' }
    | .ok stack n' =>
      let run : VerifyRun := { fValid := false, scriptSigCalls := n, scriptPubKeyCalls := n' }
      if !castToBool (stack.headD []) then run
      else if isPayToScriptHash scriptPubKey then verifyRedeem env input scriptSig stackCopy run
      else { run with fValid := true }

/-! Numbers written on a script: machine integers through the byte format of big numbers, and the
`<<` that pushes them. -/

/-- `BN_mpi2bn` of a body that the four bytes in front give the length of. `setvch` hands it the
same bytes the other way round. -/
def mpiValue (body : List UInt8) : Int := setvch body.reverse

/-- The loop of `setint64` and `setuint64` over the bytes of `n`, the first byte highest. -/
def wordMpi (fNegative : Bool) : Nat → Nat → Bool → List UInt8
  | 0, _, _ => []
  | rounds + 1, n, fLeadingZeroes =>
    let c := UInt8.ofNat (n / 2 ^ 56 % 256)
    let left := n * 2 ^ 8 % 2 ^ 64
    if fLeadingZeroes then
      if c = 0 then wordMpi fNegative rounds left true
      else if c &&& 0x80 ≠ 0 then
        (if fNegative then 0x80 else 0) :: c :: wordMpi fNegative rounds left false
      else (if fNegative then c ||| 0x80 else c) :: wordMpi fNegative rounds left false
    else c :: wordMpi fNegative rounds left false

/-- `CBigNum::setint64`. A negative number is raised by one before its sign changes, so that the
least one has no overflow. -/
def CBigNum.setint64 (sn : Int) : Int :=
  if sn < 0 then mpiValue (wordMpi true 8 ((-(sn + 1)).toNat + 1) true)
  else mpiValue (wordMpi false 8 sn.toNat true)

def CBigNum.setuint64 (n : Nat) : Int := mpiValue (wordMpi false 8 n true)

/-- `CScript::push_int64`. Where `int64_t` is a `long`, a number that is not negative is set as one
word, to the same effect. -/
def CScript.pushInt64 (script : CScript) (n : Int) : CScript :=
  if n = -1 ∨ 1 ≤ n ∧ n ≤ 16 then script ++ [UInt8.ofInt (n + (OP_1.toNat - 1))]
  else script ++ pushData (bnGetvch (CBigNum.setint64 n))

def CScript.pushUInt64 (script : CScript) (n : Nat) : CScript :=
  if 1 ≤ n ∧ n ≤ 16 then script ++ [UInt8.ofNat (n + (OP_1.toNat - 1))]
  else script ++ pushData (bnGetvch (CBigNum.setuint64 n))

end Triangles
