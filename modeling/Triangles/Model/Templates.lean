import Triangles.Model.Standard
import Triangles.Lib.Memo
import Triangles.Model.StackMachine

/-! `Solver` with all it returns, also when it fails. -/

namespace Triangles

structure SolverRet where
  fRet : Bool
  typeRet : TxnOutType
  vSolutionsRet : List (List UInt8)
deriving DecidableEq, Repr

def badCounts (vSolutions : List (List UInt8)) : Bool :=
  let m := solutionNumber vSolutions.head?
  let n := solutionNumber vSolutions.getLast?
  decide (m < 1) || decide (n < 1) || decide (n < m) || vSolutions.length - 2 != n

/-- `Solver`. A script that matches the template of `TX_MULTISIG` and fails its additional checks
leaves the type and the solutions of the match. -/
def solverRet (scriptPubKey : CScript) : SolverRet :=
  if isPayToScriptHash scriptPubKey then ⟨true, .TX_SCRIPTHASH, [(scriptPubKey.drop 2).take 20]⟩
  else
    match matchTemplate templatePubKey scriptPubKey [] with
    | some vSolutions => ⟨true, .TX_PUBKEY, vSolutions⟩
    | none =>
      match matchTemplate templatePubKeyHash scriptPubKey [] with
      | some vSolutions => ⟨true, .TX_PUBKEYHASH, vSolutions⟩
      | none =>
        match matchTemplate templateMultisig scriptPubKey [] with
        | some vSolutions => ⟨!badCounts vSolutions, .TX_MULTISIG, vSolutions⟩
        | none => ⟨false, .TX_NONSTANDARD, []⟩

/-! The shapes, on the instructions of a script. -/

inductive HasOps : CScript → List (UInt8 × List UInt8) → Prop
  | nil : HasOps [] []
  | cons {script rest : CScript} {opcode : UInt8} {data : List UInt8}
      {ops : List (UInt8 × List UInt8)} (hop : getOp script = some (opcode, data, rest))
      (hrest : HasOps rest ops) : HasOps script ((opcode, data) :: ops)

def KeySize (data : List UInt8) : Prop := 33 ≤ data.length ∧ data.length ≤ 120

instance (data : List UInt8) : Decidable (KeySize data) := inferInstanceAs (Decidable (_ ∧ _))

def SmallInteger (opcode : UInt8) : Prop := opcode = OP_0 ∨ OP_1 ≤ opcode ∧ opcode ≤ OP_16

structure MultisigOps (script : CScript) (opM opN : UInt8) (keys : List (UInt8 × List UInt8)) :
    Prop where
  ops : HasOps script ((opM, []) :: (keys ++ [(opN, []), (OP_CHECKMULTISIG, [])]))
  required : SmallInteger opM
  total : SmallInteger opN
  keySizes : ∀ key ∈ keys, KeySize key.2

def RightCounts (opM opN : UInt8) (keys : List (UInt8 × List UInt8)) : Prop :=
  1 ≤ (decodeOP_N opM).toNat ∧ (decodeOP_N opM).toNat ≤ (decodeOP_N opN).toNat ∧
    keys.length = (decodeOP_N opN).toNat

inductive Shape : CScript → TxnOutType → List (List UInt8) → Prop
  | scriptHash {hash : List UInt8} (hlen : hash.length = 20) :
      Shape (OP_HASH160 :: 20 :: (hash ++ [OP_EQUAL])) .TX_SCRIPTHASH [hash]
  | pubKey {script : CScript} {push : UInt8} {key : List UInt8}
      (hops : HasOps script [(push, key), (OP_CHECKSIG, [])]) (hkey : KeySize key) :
      Shape script .TX_PUBKEY [key]
  | pubKeyHash {script : CScript} {push : UInt8} {hash : List UInt8}
      (hops : HasOps script [(OP_DUP, []), (OP_HASH160, []), (push, hash), (OP_EQUALVERIFY, []),
        (OP_CHECKSIG, [])]) (hlen : hash.length = 20) :
      Shape script .TX_PUBKEYHASH [hash]
  | multisig {script : CScript} {opM opN : UInt8} {keys : List (UInt8 × List UInt8)}
      (hops : MultisigOps script opM opN keys) (hcounts : RightCounts opM opN keys) :
      Shape script .TX_MULTISIG ([decodeOP_N opM] :: (keys.map Prod.snd ++ [[decodeOP_N opN]]))

/-! `CombineSignatures` (script.cpp): one script of two that sign a part each. Stacks have their
top first. -/

open ByteOrder

def pushAll (values : List valtype) : CScript := values.flatMap pushData

def allSigs (sigs1 sigs2 : List valtype) : Finset valtype :=
  (sigs1 ++ sigs2).toFinset.filter fun v => v ≠ []

def matchSig (accepts : valtype → valtype → Bool) (pubkeys : List valtype)
    (sigs : valtype → Option valtype) (sig : valtype) : valtype → Option valtype :=
  match pubkeys.find? fun pubkey => (sigs pubkey).isNone && accepts sig pubkey with
  | none => sigs
  | some pubkey => Function.update sigs pubkey (some sig)

/-- The signatures in the order of their keys, until there are as many as required. -/
def mergeSigs (sigs : valtype → Option valtype) : Nat → List valtype → List valtype
  | 0, _ => []
  | _ + 1, [] => []
  | nMissing + 1, pubkey :: pubkeys =>
    match sigs pubkey with
    | some sig => sig :: mergeSigs sigs nMissing pubkeys
    | none => mergeSigs sigs (nMissing + 1) pubkeys

def combineMultisig (env : ScriptEnv) (input : TxInput) (scriptPubKey : CScript)
    (vSolutions sigs1 sigs2 : List valtype) : CScript :=
  let nSigsRequired := solutionNumber vSolutions.head?
  let pubkeys := vSolutions.tail.dropLast
  let accepts sig pubkey := checkSig env input sig pubkey scriptPubKey
  let sigs := ((allSigs sigs1 sigs2).sort (· ≤ ·)).foldl (matchSig accepts pubkeys) fun _ => none
  let merged := mergeSigs sigs nSigsRequired pubkeys
  -- pop-one-too-many workaround, and OP_0 for what is missing
  OP_0 :: pushAll merged ++ List.replicate (nSigsRequired - merged.length) OP_0

def combineStacks (env : ScriptEnv) (input : TxInput) :
    List valtype → CScript → TxnOutType → List valtype → List valtype → CScript
  | sigs1, scriptPubKey, txType, vSolutions, sigs2 =>
    match txType with
    | .TX_NONSTANDARD =>
      if sigs2.length ≤ sigs1.length then pushAll sigs1.reverse else pushAll sigs2.reverse
    | .TX_PUBKEY | .TX_PUBKEYHASH =>
      if (sigs1.getLastD []).isEmpty then pushAll sigs2.reverse else pushAll sigs1.reverse
    | .TX_SCRIPTHASH =>
      match sigs1 with
      | [] => pushAll sigs2.reverse
      | spk :: rest1 =>
        if spk.isEmpty then pushAll sigs2.reverse
        else if (sigs2.headD []).isEmpty then pushAll (spk :: rest1).reverse
        else
          let solved := solverRet spk
          combineStacks env input rest1 spk solved.typeRet solved.vSolutionsRet sigs2.tail ++
            pushData spk
    | .TX_MULTISIG => combineMultisig env input scriptPubKey vSolutions sigs1 sigs2

/-- `CTransaction()`, without inputs, for scripts that do not look at it. -/
def noInput : TxInput := ⟨{ nTime := 0, vin := [], vout := [] }, 0, 0⟩

/-- `CombineSignatures`. What `EvalScript` leaves when it fails is used as well. -/
def combineSignatures (env : ScriptEnv) (txTo : CTransaction) (nIn : Nat)
    (scriptPubKey scriptSig1 scriptSig2 : CScript) : CScript :=
  let solved := solverRet scriptPubKey
  let stack1 := (runScript env noInput [] scriptSig1).2
  let stack2 := (runScript env noInput [] scriptSig2).2
  combineStacks env ⟨txTo, nIn, 0⟩ stack1 scriptPubKey solved.typeRet solved.vSolutionsRet stack2

end Triangles
