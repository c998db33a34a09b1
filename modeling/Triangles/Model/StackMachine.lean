import Triangles.Model.Interpreter

/-! `EvalScript` once more, access by access: every read, removal and insertion on the two
stacks is made where the source makes it, and can fail there. -/

namespace Triangles

/-- What ends a run before the end of the script: `return false`, an exception, which is caught,
or an iterator outside the stack. -/
inductive Fault where
  | returnsFalse
  | throws
  | outOfBounds
deriving DecidableEq, Repr

abbrev Exec := EStateM Fault EvalState

def require (p : Prop) [Decidable p] : Exec Unit := if p then pure () else throw .returnsFalse

def stackSize : Exec Nat := return (← get).stack.length

def topOf (stack : List valtype) (i : Nat) : Exec valtype :=
  match i with
  | 0 => throw .throws
  | i + 1 =>
    match stack[i]? with
    | none => throw .throws
    | some vch => pure vch

def stacktop (i : Nat) : Exec valtype := do topOf (← get).stack i

def altstacktop (i : Nat) : Exec valtype := do topOf (← get).altstack i

def setStack (stack : List valtype) : Exec Unit := modify fun s => { s with stack := stack }

def popstack : Exec Unit := do
  match (← get).stack with
  | [] => throw .throws
  | _ :: stack => setStack stack

def popaltstack : Exec Unit := do
  match (← get).altstack with
  | [] => throw .throws
  | _ :: altstack => modify fun s => { s with altstack := altstack }

def pushBack (vch : valtype) : Exec Unit := do setStack (vch :: (← get).stack)

def eraseTop (first last : Nat) : Exec Unit := do
  let stack := (← get).stack
  if last ≤ first ∧ first ≤ stack.length then setStack (stack.take last ++ stack.drop first)
  else throw .outOfBounds

def insertTop (i : Nat) (vch : valtype) : Exec Unit := do
  let stack := (← get).stack
  if i ≤ stack.length then setStack (stack.take i ++ vch :: stack.drop i) else throw .outOfBounds

def swapTop (i j : Nat) : Exec Unit := do
  let vch1 ← stacktop i
  let vch2 ← stacktop j
  setStack (((← get).stack.set (i - 1) vch2).set (j - 1) vch1)

def castNum (vch : valtype) : Exec Int :=
  match castToBigNum vch with
  | none => throw .throws
  | some n => pure n

def popTimes : Nat → Exec Unit
  | 0 => pure ()
  | i + 1 => do
    popstack
    popTimes i

def pushCheck (fVerify fSuccess : Bool) : Exec Unit := do
  pushBack (vchBool fSuccess)
  if fVerify then
    if fSuccess then popstack else throw .returnsFalse

/-! The opcodes, in the groups of `plainOp`. -/

def pushNumberExec (opcode : UInt8) : Exec Unit := do
  require (opcode = OP_1NEGATE ∨ OP_1 ≤ opcode ∧ opcode ≤ OP_16)
  pushBack (bnGetvch ((opcode.toNat : Int) - (OP_1.toNat - 1)))

def controlExec (fExec : Bool) (opcode : UInt8) : Exec Unit := do
  match opcode with
  | OP_NOP => pure ()
  | OP_IF | OP_NOTIF =>
    if fExec then
      require (1 ≤ (← stackSize))
      let vch ← stacktop 1
      let fValue := if opcode = OP_NOTIF then !castToBool vch else castToBool vch
      popstack
      modify fun s => { s with vfExec := fValue :: s.vfExec }
    else modify fun s => { s with vfExec := false :: s.vfExec }
  | OP_ELSE =>
    match (← get).vfExec with
    | [] => throw .returnsFalse
    | f :: vfExec => modify fun s => { s with vfExec := (!f) :: vfExec }
  | OP_ENDIF =>
    match (← get).vfExec with
    | [] => throw .returnsFalse
    | _ :: vfExec => modify fun s => { s with vfExec := vfExec }
  | OP_VERIFY =>
    require (1 ≤ (← stackSize))
    if castToBool (← stacktop 1) then popstack else throw .returnsFalse
  | _ => throw .returnsFalse

def altStackExec (opcode : UInt8) : Exec Unit := do
  match opcode with
  | OP_TOALTSTACK =>
    require (1 ≤ (← stackSize))
    let vch ← stacktop 1
    modify fun s => { s with altstack := vch :: s.altstack }
    popstack
  | OP_FROMALTSTACK =>
    require (1 ≤ (← get).altstack.length)
    pushBack (← altstacktop 1)
    popaltstack
  | _ => throw .returnsFalse

def pickExec (fRoll : Bool) : Exec Unit := do
  require (2 ≤ (← stackSize))
  let n ← castNum (← stacktop 1)
  popstack
  require (0 ≤ n ∧ n < (← stackSize))
  let vch ← stacktop (n.toNat + 1)
  if fRoll then eraseTop (n.toNat + 1) n.toNat
  pushBack vch

def stackExec (opcode : UInt8) : Exec Unit := do
  match opcode with
  | OP_2DROP =>
    require (2 ≤ (← stackSize))
    popstack
    popstack
  | OP_2DUP =>
    require (2 ≤ (← stackSize))
    let vch1 ← stacktop 2
    let vch2 ← stacktop 1
    pushBack vch1
    pushBack vch2
  | OP_3DUP =>
    require (3 ≤ (← stackSize))
    let vch1 ← stacktop 3
    let vch2 ← stacktop 2
    let vch3 ← stacktop 1
    pushBack vch1
    pushBack vch2
    pushBack vch3
  | OP_2OVER =>
    require (4 ≤ (← stackSize))
    let vch1 ← stacktop 4
    let vch2 ← stacktop 3
    pushBack vch1
    pushBack vch2
  | OP_2ROT =>
    require (6 ≤ (← stackSize))
    let vch1 ← stacktop 6
    let vch2 ← stacktop 5
    eraseTop 6 4
    pushBack vch1
    pushBack vch2
  | OP_2SWAP =>
    require (4 ≤ (← stackSize))
    swapTop 4 2
    swapTop 3 1
  | OP_IFDUP =>
    require (1 ≤ (← stackSize))
    let vch ← stacktop 1
    if castToBool vch then pushBack vch
  | OP_DEPTH => pushBack (bnGetvch (← stackSize))
  | OP_DROP =>
    require (1 ≤ (← stackSize))
    popstack
  | OP_DUP =>
    require (1 ≤ (← stackSize))
    pushBack (← stacktop 1)
  | OP_NIP =>
    require (2 ≤ (← stackSize))
    eraseTop 2 1
  | OP_OVER =>
    require (2 ≤ (← stackSize))
    pushBack (← stacktop 2)
  | OP_PICK => pickExec false
  | OP_ROLL => pickExec true
  | OP_ROT =>
    require (3 ≤ (← stackSize))
    swapTop 3 2
    swapTop 2 1
  | OP_SWAP =>
    require (2 ≤ (← stackSize))
    swapTop 2 1
  | OP_TUCK =>
    require (2 ≤ (← stackSize))
    insertTop 2 (← stacktop 1)
  | OP_SIZE =>
    require (1 ≤ (← stackSize))
    pushBack (bnGetvch (← stacktop 1).length)
  | OP_EQUAL | OP_EQUALVERIFY =>
    require (2 ≤ (← stackSize))
    let vch1 ← stacktop 2
    let vch2 ← stacktop 1
    popstack
    popstack
    pushCheck (opcode == OP_EQUALVERIFY) (vch1 == vch2)
  | _ => throw .returnsFalse

/-- The numeric opcodes. Those without a result here are disabled, or no opcodes of the group. -/
def numericExec (opcode : UInt8) : Exec Unit := do
  if opcode ≤ OP_0NOTEQUAL then
    require (OP_1ADD ≤ opcode)
    require (1 ≤ (← stackSize))
    let bn ← castNum (← stacktop 1)
    match unaryOp opcode bn with
    | none => throw .returnsFalse
    | some bn =>
      popstack
      pushBack (bnGetvch bn)
  else if opcode = OP_WITHIN then
    require (3 ≤ (← stackSize))
    let bn1 ← castNum (← stacktop 3)
    let bn2 ← castNum (← stacktop 2)
    let bn3 ← castNum (← stacktop 1)
    popstack
    popstack
    popstack
    pushBack (vchBool (decide (bn2 ≤ bn1 ∧ bn1 < bn3)))
  else
    require (2 ≤ (← stackSize))
    let bn1 ← castNum (← stacktop 2)
    let bn2 ← castNum (← stacktop 1)
    match binaryOp opcode bn1 bn2 with
    | none => throw .returnsFalse
    | some bn =>
      popstack
      popstack
      pushBack (bnGetvch bn)
      if opcode = OP_NUMEQUALVERIFY then
        if castToBool (← stacktop 1) then popstack else throw .returnsFalse

def hashExec (env : ScriptEnv) (opcode : UInt8) : Exec Unit := do
  require (1 ≤ (← stackSize))
  let vch ← stacktop 1
  match opcode with
  | OP_RIPEMD160 =>
    popstack
    pushBack (env.ripemd160 vch)
  | OP_SHA1 =>
    popstack
    pushBack (env.sha1 vch)
  | OP_SHA256 =>
    popstack
    pushBack (env.sha256 vch)
  | OP_HASH160 =>
    popstack
    pushBack (env.ripemd160 (env.sha256 vch))
  | OP_HASH256 =>
    popstack
    pushBack (env.sha256 (env.sha256 vch))
  | _ => throw .returnsFalse

def validSig (env : ScriptEnv) (input : TxInput) (scriptCode : CScript)
    (vchSig vchPubKey : valtype) : Bool :=
  isCanonicalSignature env.nHeightBest vchSig && isCanonicalPubKey vchPubKey &&
    checkSig env input vchSig vchPubKey scriptCode

def checkSigExec (env : ScriptEnv) (input : TxInput) (opcode : UInt8) : Exec Unit := do
  require (2 ≤ (← stackSize))
  let vchSig ← stacktop 2
  let vchPubKey ← stacktop 1
  let scriptCode := findAndDelete (← get).pbegincodehash (pushData vchSig)
  let fSuccess := validSig env input scriptCode vchSig vchPubKey
  popstack
  popstack
  pushCheck (opcode == OP_CHECKSIGVERIFY) fSuccess

def dropSignatures : (n i : Nat) → CScript → Exec CScript
  | 0, _, scriptCode => pure scriptCode
  | n + 1, i, scriptCode => do
    let vchSig ← stacktop i
    dropSignatures n (i + 1) (findAndDelete scriptCode (pushData vchSig))

/-- The loop of `OP_CHECKMULTISIG`. It ends before there are more signatures than keys left, so
the keys do not run out first. -/
def multiSigLoop (env : ScriptEnv) (input : TxInput) (scriptCode : CScript) :
    (nKeysCount nSigsCount ikey isig : Nat) → Exec Bool
  | _, 0, _, _ => pure true
  | 0, _ + 1, _, _ => pure false
  | nKeysCount + 1, nSigsCount + 1, ikey, isig => do
    let vchSig ← stacktop isig
    let vchPubKey ← stacktop ikey
    let fOk := validSig env input scriptCode vchSig vchPubKey
    let isig := if fOk then isig + 1 else isig
    let nSigsCount := if fOk then nSigsCount else nSigsCount + 1
    if nKeysCount < nSigsCount then pure false
    else multiSigLoop env input scriptCode nKeysCount nSigsCount (ikey + 1) isig

def checkMultiSigExec (env : ScriptEnv) (input : TxInput) (opcode : UInt8) : Exec Unit := do
  let i := 1
  require (i ≤ (← stackSize))
  let nKeysCount ← castNum (← stacktop i)
  require (0 ≤ nKeysCount ∧ nKeysCount ≤ 20)
  modify fun s => { s with nOpCount := s.nOpCount + nKeysCount.toNat }
  require ((← get).nOpCount ≤ 201)
  let ikey := i + 1
  let i := ikey + nKeysCount.toNat
  require (i ≤ (← stackSize))
  let nSigsCount ← castNum (← stacktop i)
  require (0 ≤ nSigsCount ∧ nSigsCount ≤ nKeysCount)
  let isig := i + 1
  let i := isig + nSigsCount.toNat
  require (i ≤ (← stackSize))
  let scriptCode ← dropSignatures nSigsCount.toNat isig (← get).pbegincodehash
  let fSuccess ← multiSigLoop env input scriptCode nKeysCount.toNat nSigsCount.toNat ikey isig
  popTimes i
  pushCheck (opcode == OP_CHECKMULTISIGVERIFY) fSuccess

def plainExec (env : ScriptEnv) (fExec : Bool) (opcode : UInt8) (pc : CScript) : Exec Unit :=
  if opcode ≤ OP_16 then pushNumberExec opcode
  else if opcode ≤ OP_RETURN then controlExec fExec opcode
  else if opcode ≤ OP_FROMALTSTACK then altStackExec opcode
  else if opcode ≤ OP_EQUALVERIFY then stackExec opcode
  else if opcode ≤ OP_WITHIN then numericExec opcode
  else if opcode ≤ OP_HASH256 then hashExec env opcode
  else if opcode = OP_CODESEPARATOR then modify fun s => { s with pbegincodehash := pc }
  else require (OP_NOP1 ≤ opcode ∧ opcode ≤ OP_NOP10)

def switchExec (env : ScriptEnv) (input : TxInput) (fExec : Bool) (opcode : UInt8)
    (pc : CScript) : Exec Unit :=
  if opcode = OP_CHECKSIG ∨ opcode = OP_CHECKSIGVERIFY then checkSigExec env input opcode
  else if opcode = OP_CHECKMULTISIG ∨ opcode = OP_CHECKMULTISIGVERIFY then
    checkMultiSigExec env input opcode
  else plainExec env fExec opcode pc

def countExec (opcode : UInt8) (vchPushValue : valtype) : Exec Unit := do
  require (vchPushValue.length ≤ 520)
  if OP_16 < opcode then
    modify fun s => { s with nOpCount := s.nOpCount + 1 }
    require ((← get).nOpCount ≤ 201)
  require (isDisabled opcode = false)

def runExec (env : ScriptEnv) (input : TxInput) (fExec : Bool) (opcode : UInt8)
    (vchPushValue : valtype) (pc : CScript) : Exec Unit :=
  if fExec ∧ opcode ≤ OP_PUSHDATA4 then pushBack vchPushValue
  else if fExec ∨ OP_IF ≤ opcode ∧ opcode ≤ OP_ENDIF then
    switchExec env input fExec opcode pc
  else pure ()

def limitExec : Exec Unit := do
  let s ← get
  require (s.stack.length + s.altstack.length ≤ 1000)

def instructionExec (env : ScriptEnv) (input : TxInput) (opcode : UInt8) (vchPushValue : valtype)
    (pc : CScript) : Exec Unit := do
  let fExec := (← get).fExec
  countExec opcode vchPushValue
  runExec env input fExec opcode vchPushValue pc
  limitExec

def loopExec (env : ScriptEnv) (input : TxInput) : Nat → CScript → Exec Unit
  | _, [] => pure ()
  | 0, _ :: _ => throw .returnsFalse
  | rounds + 1, op :: pc =>
    match getOp (op :: pc) with
    | none => throw .returnsFalse
    | some (opcode, vchPushValue, rest) => do
      instructionExec env input opcode vchPushValue rest
      loopExec env input rounds rest

def scriptExec (env : ScriptEnv) (input : TxInput) (script : CScript) : Exec Unit := do
  require (script.length ≤ 10000)
  loopExec env input script.length script
  require ((← get).vfExec.isEmpty = true)

/-- What the caller sees of `EvalScript(stack, script)`: the result and the stack, which it takes
by reference. -/
def runScript (env : ScriptEnv) (input : TxInput) (stack : List valtype) (script : CScript) :
    Bool × List valtype :=
  match scriptExec env input script { stack := stack, pbegincodehash := script } with
  | .ok _ s => (true, s.stack)
  | .error _ s => (false, s.stack)

end Triangles
