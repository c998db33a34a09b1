import Mathlib.Data.UInt
import Mathlib.Data.List.Nodup
import Triangles.Lib.Outcome

/-! Byte-level script scanning (script.h, script.cpp): what block validation
reads from a script without running it. -/

namespace Triangles

/-- Hashes and 256-bit words. Arithmetic on them is reduced where the source does arithmetic. -/
abbrev uint256 := Nat

abbrev CScript := List UInt8

def OP_PUSHDATA1 : UInt8 := 0x4c
def OP_PUSHDATA2 : UInt8 := 0x4d
def OP_PUSHDATA4 : UInt8 := 0x4e
def OP_1 : UInt8 := 0x51
def OP_16 : UInt8 := 0x60
@[match_pattern] def OP_EQUAL : UInt8 := 0x87
@[match_pattern] def OP_HASH160 : UInt8 := 0xa9
def OP_CHECKSIG : UInt8 := 0xac
def OP_CHECKSIGVERIFY : UInt8 := 0xad
def OP_CHECKMULTISIG : UInt8 := 0xae
def OP_CHECKMULTISIGVERIFY : UInt8 := 0xaf
def OP_INVALIDOPCODE : UInt8 := 0xff

def leValue : List UInt8 → Nat
  | [] => 0
  | b :: bs => b.toNat + 256 * leValue bs

def pushSize (opcode : UInt8) (pc : CScript) : Option (Nat × CScript) :=
  if opcode < OP_PUSHDATA1 then some (opcode.toNat, pc)
  else
    let width := if opcode = OP_PUSHDATA1 then 1 else if opcode = OP_PUSHDATA2 then 2 else 4
    if pc.length < width then none else some (leValue (pc.take width), pc.drop width)

def getOp : CScript → Option (UInt8 × List UInt8 × CScript)
  | [] => none
  | opcode :: pc =>
    if opcode ≤ OP_PUSHDATA4 then
      match pushSize opcode pc with
      | none => none
      | some (nSize, pc) =>
        if pc.length < nSize then none else some (opcode, pc.take nSize, pc.drop nSize)
    else some (opcode, [], pc)

theorem pushSize_suffix {opcode : UInt8} {pc rest : CScript} {nSize : Nat}
    (h : pushSize opcode pc = some (nSize, rest)) : rest <:+ pc := by
  unfold pushSize at h
  split at h
  · obtain ⟨-, rfl⟩ := Prod.mk.inj (Option.some.inj h)
    exact List.suffix_refl pc
  · dsimp only at h
    generalize (if opcode = OP_PUSHDATA1 then 1 else if opcode = OP_PUSHDATA2 then 2 else 4) = width
      at h
    split at h
    · cases h
    · obtain ⟨-, rfl⟩ := Prod.mk.inj (Option.some.inj h)
      exact List.drop_suffix _ pc

/-- An instruction is the opcode and some of the bytes behind it. -/
theorem getOp_suffix {op opcode : UInt8} {pc rest : CScript} {data : List UInt8}
    (h : getOp (op :: pc) = some (opcode, data, rest)) : opcode = op ∧ rest <:+ pc := by
  rw [getOp] at h
  split at h
  · split at h
    · cases h
    · rename_i hp
      have hs := pushSize_suffix hp
      split at h
      · cases h
      · simp only [Option.some.injEq, Prod.mk.injEq] at h
        obtain ⟨rfl, -, rfl⟩ := h
        exact ⟨rfl, (List.drop_suffix _ _).trans hs⟩
  · simp only [Option.some.injEq, Prod.mk.injEq] at h
    obtain ⟨rfl, -, rfl⟩ := h
    exact ⟨rfl, List.suffix_refl _⟩

theorem getOp_length {pc rest : CScript} {opcode : UInt8} {data : List UInt8}
    (h : getOp pc = some (opcode, data, rest)) : rest.length < pc.length := by
  cases pc with
  | nil => cases h
  | cons op pc => exact Nat.lt_succ_of_le (getOp_suffix h).2.length_le

/-- The counting loop of `GetSigOpCount(bool)`. Every opcode takes at least one byte,
so the script's length bounds the number of rounds. -/
def countSigOps (fAccurate : Bool) : Nat → UInt8 → CScript → Nat
  | 0, _, _ => 0
  | rounds + 1, lastOpcode, pc =>
    match getOp pc with
    | none => 0
    | some (opcode, _, pc) =>
      let n :=
        if opcode = OP_CHECKSIG ∨ opcode = OP_CHECKSIGVERIFY then 1
        else if opcode = OP_CHECKMULTISIG ∨ opcode = OP_CHECKMULTISIGVERIFY then
          if fAccurate ∧ OP_1 ≤ lastOpcode ∧ lastOpcode ≤ OP_16 then
            lastOpcode.toNat - (OP_1.toNat - 1)
          else 20
        else 0
      n + countSigOps fAccurate rounds opcode pc

def getSigOpCount (script : CScript) (fAccurate : Bool) : Nat :=
  countSigOps fAccurate script.length OP_INVALIDOPCODE script

def isPayToScriptHash (script : CScript) : Bool :=
  script.length == 23 && script.getD 0 0 == OP_HASH160 && script.getD 1 0 == 0x14 &&
    script.getD 22 0 == OP_EQUAL

/-- The last item a push-only script leaves on the stack, if it is push-only. -/
def lastPush : Nat → List UInt8 → CScript → Option (List UInt8)
  | _, data, [] => some data
  | 0, _, _ :: _ => none
  | rounds + 1, _, pc =>
    match getOp pc with
    | none => none
    | some (opcode, data, pc) => if opcode > OP_16 then none else lastPush rounds data pc

def getP2SHSigOps (scriptPubKey scriptSig : CScript) : Nat :=
  if isPayToScriptHash scriptPubKey then
    match lastPush scriptSig.length [] scriptSig with
    | none => 0
    | some subscript => getSigOpCount subscript true
  else getSigOpCount scriptPubKey true

def CRAPCHAIN_CUTOFF_BLOCK : Int := 17691

/-- `IsCanonicalSignature`. The S rule is waived while the current best block,
not the block being checked, is at or below the cutoff. -/
def isCanonicalSignature (nHeightBest : Int) (vchSig : List UInt8) : Bool :=
  let size := vchSig.length
  let at' (i : Nat) : UInt8 := vchSig.getD i 0
  let nHashType := at' (size - 1) &&& 0x7f
  let nLenR := (at' 3).toNat
  let nLenS := (at' (5 + nLenR)).toNat
  let r (i : Nat) := at' (4 + i)
  let s (i : Nat) := at' (6 + nLenR + i)
  decide (9 ≤ size) && decide (size ≤ 73) &&
  decide (1 ≤ nHashType) && decide (nHashType ≤ 3) &&
  at' 0 == 0x30 && (at' 1).toNat == size - 3 &&
  decide (5 + nLenR < size) && nLenR + nLenS + 7 == size &&
  at' 2 == 0x02 && nLenR != 0 && r 0 &&& 0x80 == 0 &&
  !(decide (1 < nLenR) && r 0 == 0 && r 1 &&& 0x80 == 0) &&
  at' (4 + nLenR) == 0x02 && nLenS != 0 && s 0 &&& 0x80 == 0 &&
  !(decide (1 < nLenS) && s 0 == 0 && s 1 &&& 0x80 == 0) &&
  !(decide (32 < nLenS) && decide (CRAPCHAIN_CUTOFF_BLOCK < nHeightBest))

/-- The low bytes of a number, least significant first, without leading zeros. -/
def leBytes : Nat → Nat → List UInt8
  | 0, _ => []
  | width + 1, n => if n = 0 then [] else UInt8.ofNat (n % 256) :: leBytes width (n / 256)

def getvch (n : Nat) : List UInt8 :=
  let vch := leBytes 8 n
  if 128 ≤ (vch.getLastD 0).toNat then vch ++ [0] else vch

def pushInt64 (n : Nat) : CScript :=
  if 1 ≤ n ∧ n ≤ 16 then [UInt8.ofNat n + (OP_1 - 1)]
  else UInt8.ofNat (getvch n).length :: getvch n

theorem leBytes_length : ∀ (width n : Nat), (leBytes width n).length ≤ width
  | 0, _ => le_rfl
  | width + 1, n => by
    unfold leBytes
    split
    · simp
    · simpa using leBytes_length width (n / 256)

theorem leValue_leBytes : ∀ {width n : Nat}, n < 256 ^ width → leValue (leBytes width n) = n
  | 0, n, h => by
    simp only [pow_zero, Nat.lt_one_iff] at h
    simp [leBytes, leValue, h]
  | width + 1, n, h => by
    unfold leBytes
    split
    · rename_i hz
      simp [leValue, hz]
    · have hdiv : n / 256 < 256 ^ width := Nat.div_lt_of_lt_mul (by rwa [pow_succ'] at h)
      simp only [leValue, leValue_leBytes hdiv, UInt8.toNat_ofNat']
      omega

theorem leValue_append_zero : ∀ l : List UInt8, leValue (l ++ [0]) = leValue l
  | [] => rfl
  | b :: l => by simp [leValue, leValue_append_zero l]

theorem leValue_lt (bytes : List UInt8) : leValue bytes < 256 ^ bytes.length := by
  induction bytes with
  | nil => exact Nat.one_pos
  | cons b bytes ih =>
    have hb := b.toNat_lt
    rw [leValue, List.length_cons, Nat.pow_succ]
    omega

theorem leValue_getvch {n : Nat} (h : n < 2 ^ 64) : leValue (getvch n) = n := by
  have hn : leValue (leBytes 8 n) = n := leValue_leBytes (by simpa using h)
  unfold getvch
  simp only
  split
  · rw [leValue_append_zero, hn]
  · exact hn

theorem getvch_length (n : Nat) : (getvch n).length ≤ 9 := by
  have := leBytes_length 8 n
  unfold getvch
  simp only
  split
  · rw [List.length_append, List.length_singleton]
    omega
  · omega

/-- Serialized heights are a prefix code: no script starts with two different ones. -/
theorem pushInt64_unique {a b : Nat} (ha : a < 2 ^ 64) (hb : b < 2 ^ 64) {script : CScript}
    (hpa : pushInt64 a <+: script) (hpb : pushInt64 b <+: script) : a = b := by
  have hla := getvch_length a
  have hlb := getvch_length b
  have hop : (OP_1 - 1).toNat = 80 := rfl
  obtain ⟨ta, rfl⟩ := hpa
  unfold pushInt64 at hpb
  obtain ⟨tb, htb⟩ := hpb
  split at htb <;> split at htb <;> simp only [List.cons_append, List.cons.injEq] at htb <;>
    have hhead := congrArg UInt8.toNat htb.1 <;>
    simp only [UInt8.toNat_add, UInt8.toNat_ofNat', hop] at hhead
  · omega
  · omega
  · omega
  · have hlen : (getvch b).length = (getvch a).length := by omega
    have hvch := List.append_inj_left htb.2 hlen
    rw [← leValue_getvch ha, ← leValue_getvch hb, hvch]

end Triangles

/-! Transactions and their context-free checks (main.h, main.cpp).

Amounts are `int64_t` in the source; the sums formed here stay far inside that range
because every summand is at most `MAX_MONEY`, so they are plain integers. -/

namespace Triangles

open Outcome

/-- Why a call failed: the text given to `error`, the misbehaviour score, and the
`fInvalid` flag of `FetchInputs`. -/
structure Reject where
  msg : String
  nDoS : Nat := 0
  fInvalid : Bool := false
deriving DecidableEq, Repr

def COIN : Int := 1000000
def CENT : Int := 10000
def MAX_BLOCK_SIZE : Nat := 1000000
def MAX_BLOCK_SIZE_GEN : Nat := MAX_BLOCK_SIZE / 2
def MAX_BLOCK_SIGOPS : Nat := MAX_BLOCK_SIZE / 50
def MIN_TX_FEE : Int := CENT / 100
def MIN_RELAY_TX_FEE : Int := CENT / 100
def MAX_MONEY : Int := 120000 * COIN

def moneyRange (nValue : Int) : Bool := decide (0 ≤ nValue) && decide (nValue ≤ MAX_MONEY)

structure COutPoint where
  hash : uint256
  n : UInt32
deriving DecidableEq, Repr

def COutPoint.isNull (o : COutPoint) : Bool := o.hash == 0 && o.n == 0xffffffff

structure CTxIn where
  prevout : COutPoint
  scriptSig : CScript
  nSequence : UInt32 := 0xffffffff
deriving DecidableEq, Repr

structure CTxOut where
  nValue : Int
  scriptPubKey : CScript
deriving DecidableEq, Repr

def CTxOut.isEmpty (o : CTxOut) : Bool := o.nValue == 0 && o.scriptPubKey.isEmpty

structure CTransaction where
  nVersion : Int := 1
  nTime : UInt32
  vin : List CTxIn
  vout : List CTxOut
  nLockTime : UInt32 := 0
deriving DecidableEq, Repr

def getSizeOfCompactSize (nSize : Nat) : Nat :=
  if nSize < 253 then 1 else if nSize ≤ 0xffff then 3 else if nSize ≤ 0xffffffff then 5 else 9

namespace CTransaction

def isCoinBase (tx : CTransaction) : Bool :=
  match tx.vin with
  | [txin] => txin.prevout.isNull && !tx.vout.isEmpty
  | _ => false

def isCoinStake (tx : CTransaction) : Bool :=
  match tx.vin, tx.vout with
  | txin :: _, txout :: _ :: _ => !txin.prevout.isNull && txout.isEmpty
  | _, _ => false

def getSerializeSize (tx : CTransaction) : Nat :=
  4 + 4 +
  getSizeOfCompactSize tx.vin.length +
  (tx.vin.map fun i => 36 + getSizeOfCompactSize i.scriptSig.length + i.scriptSig.length + 4).sum +
  getSizeOfCompactSize tx.vout.length +
  (tx.vout.map fun o =>
    8 + getSizeOfCompactSize o.scriptPubKey.length + o.scriptPubKey.length).sum + 4

def valueOut (tx : CTransaction) : Int := (tx.vout.map CTxOut.nValue).sum

def addTxOut (nValueOut : Int) (txout : CTxOut) : Except Reject Int := do
  check (moneyRange txout.nValue && moneyRange (nValueOut + txout.nValue))
    { msg := "CTransaction::GetValueOut() : value out of range" }
  pure (nValueOut + txout.nValue)

/-- `GetValueOut`, which throws on a value out of range. -/
def getValueOut (tx : CTransaction) : Except Reject Int := tx.vout.foldlM addTxOut 0

def getLegacySigOpCount (tx : CTransaction) : Nat :=
  (tx.vin.map fun i => getSigOpCount i.scriptSig false).sum +
  (tx.vout.map fun o => getSigOpCount o.scriptPubKey false).sum

def checkTxOut (tx : CTransaction) (nValueOut : Int) (txout : CTxOut) : Except Reject Int := do
  check (!(txout.isEmpty && !tx.isCoinBase && !tx.isCoinStake))
    { msg := "CTransaction::CheckTransaction() : txout empty for user transaction", nDoS := 100 }
  check (decide (0 ≤ txout.nValue))
    { msg := "CTransaction::CheckTransaction() : txout.nValue negative", nDoS := 100 }
  check (decide (txout.nValue ≤ MAX_MONEY))
    { msg := "CTransaction::CheckTransaction() : txout.nValue too high", nDoS := 100 }
  check (moneyRange (nValueOut + txout.nValue))
    { msg := "CTransaction::CheckTransaction() : txout total out of range", nDoS := 100 }
  pure (nValueOut + txout.nValue)

def checkTransaction (tx : CTransaction) : Except Reject Unit := do
  check (!tx.vin.isEmpty) { msg := "CTransaction::CheckTransaction() : vin empty", nDoS := 10 }
  check (!tx.vout.isEmpty) { msg := "CTransaction::CheckTransaction() : vout empty", nDoS := 10 }
  check (decide (tx.getSerializeSize ≤ MAX_BLOCK_SIZE))
    { msg := "CTransaction::CheckTransaction() : size limits failed", nDoS := 100 }
  let _ ← tx.vout.foldlM tx.checkTxOut 0
  check (decide (tx.vin.map CTxIn.prevout).Nodup) { msg := "" }
  if tx.isCoinBase then
    check (tx.vin.all fun i => decide (2 ≤ i.scriptSig.length) && decide (i.scriptSig.length ≤ 100))
      { msg := "CTransaction::CheckTransaction() : coinbase script size is invalid", nDoS := 100 }
  else
    check (tx.vin.all fun i => !i.prevout.isNull)
      { msg := "CTransaction::CheckTransaction() : prevout is null", nDoS := 10 }

end CTransaction

inductive GetMinFeeMode where
  | GMF_BLOCK
  | GMF_RELAY
  | GMF_SEND
deriving DecidableEq, Repr

def CTransaction.getMinFee (tx : CTransaction) (nBlockSize : Nat := 1)
    (mode : GetMinFeeMode := .GMF_BLOCK) (nBytes : Nat := 0) : Int :=
  let nBaseFee := if mode = .GMF_RELAY then MIN_RELAY_TX_FEE else MIN_TX_FEE
  let nNewBlockSize := nBlockSize + nBytes
  let nMinFee : Int := (1 + (nBytes / 1000 : Nat)) * nBaseFee
  let nMinFee :=
    if nMinFee < nBaseFee ∧ tx.vout.any (fun o => decide (o.nValue < CENT)) then nBaseFee
    else nMinFee
  let full := nBlockSize ≠ 1 ∧ MAX_BLOCK_SIZE_GEN / 2 ≤ nNewBlockSize
  if full ∧ MAX_BLOCK_SIZE_GEN ≤ nNewBlockSize then MAX_MONEY
  else
    let nMinFee :=
      if full then nMinFee * (MAX_BLOCK_SIZE_GEN / (MAX_BLOCK_SIZE_GEN - nNewBlockSize) : Nat)
      else nMinFee
    if moneyRange nMinFee then nMinFee else MAX_MONEY

theorem add_tx_outs_sum {l : List CTxOut} {a b : Int}
    (h : l.foldlM CTransaction.addTxOut a = .ok b) : b = a + (l.map CTxOut.nValue).sum := by
  induction l generalizing a with
  | nil => simpa [pure_ok] using (pure_ok.mp h).symm
  | cons o l ih =>
    simp only [List.foldlM_cons, CTransaction.addTxOut, bind_ok, check_ok, pure_ok,
      exists_const] at h
    obtain ⟨c, ⟨_, rfl⟩, hl⟩ := h
    rw [ih hl, List.map_cons, List.sum_cons]
    omega

/-- When `GetValueOut` does not throw it is the sum of the outputs. -/
theorem get_value_out_ok {tx : CTransaction} {n : Int} (h : tx.getValueOut = .ok n) :
    n = tx.valueOut := by
  simpa [CTransaction.valueOut] using add_tx_outs_sum h

/-! Amounts as text (util.cpp). Strings are lists of characters. -/

def isSpaceChar (c : Char) : Bool :=
  c = ' ' || c = '\t' || c = '\n' || c = '\u000b' || c = '\u000c' || c = '\r'

/-- The loop that trims zeros, on the string from its end: it stops two characters behind anything
that is no digit. -/
def trimZeros : List Char → List Char
  | c :: d :: e :: str =>
    if c = '0' && e.isDigit then trimZeros (d :: e :: str) else c :: d :: e :: str
  | str => str

def formatMoney (n : Int) (fPlus : Bool) : List Char :=
  let n_abs := if 0 < n then n else -n
  let quotient := n_abs / COIN
  let remainder := n_abs % COIN
  -- "%d.%08d"
  let str := Nat.toDigits 10 quotient.toNat ++
    '.' :: List.leftpad 8 '0' (Nat.toDigits 10 remainder.toNat)
  let trimmed := (trimZeros str.reverse).reverse
  if n < 0 then '-' :: trimmed else if fPlus && decide (0 < n) then '+' :: trimmed else trimmed

def scanUnits : Nat → Nat → List Char → Nat × List Char
  | _, nUnits, [] => (nUnits, [])
  | nMult, nUnits, c :: p =>
    if c.isDigit && decide (0 < nMult) then
      scanUnits (nMult / 10) (nUnits + nMult * (c.toNat - '0'.toNat)) p
    else (nUnits, c :: p)

def scanMoney : List Char → List Char → Option (List Char × Nat × List Char)
  | strWhole, [] => some (strWhole, 0, [])
  | strWhole, c :: p =>
    if c = '.' then some (strWhole, scanUnits (CENT * 10).toNat 0 p)
    else if isSpaceChar c then some (strWhole, 0, c :: p)
    else if !c.isDigit then none
    else scanMoney (strWhole ++ [c]) p

/-- `ParseMoney`, nothing when it returns false. Ten digits times `COIN` fit in 64 bits. -/
def parseMoney (str : List Char) : Option Int :=
  -- c_str() ends at the first zero character
  let pszIn := str.takeWhile (· ≠ '\x00')
  match scanMoney [] (pszIn.dropWhile isSpaceChar) with
  | none => none
  | some (strWhole, nUnits, p) =>
    if !p.all isSpaceChar then none
    else if 10 < strWhole.length then none
    else if COIN < nUnits then none
    else some (Nat.ofDigitChars 10 strWhole 0 * COIN + nUnits)

end Triangles
