import Triangles.Lib.Sums
import Triangles.Model.CoinStake

/-! Spending: signing with the wallet's keys (script.cpp), the choice of coins and
`CreateTransaction` (wallet.cpp). -/

namespace Triangles

/-- Keys and redeem scripts, with `Hash` and `Hash160`. Signatures are DER sequences and public keys
one of the two encodings of a point. -/
structure CKeyStore where
  getKey : uint160 → Option CKey
  getCScript : uint160 → Option CScript
  Hash : List UInt8 → uint256
  hash160 : List UInt8 → uint160
  pubKey_length : ∀ {address key}, getKey address = some key →
    key.pubKey.length = 33 ∨ key.pubKey.length = 65
  sign_length : ∀ {address key hash vchSig}, getKey address = some key →
    key.sign hash = some vchSig → 8 ≤ vchSig.length ∧ vchSig.length ≤ 72

namespace CKeyStore

def sign1 (keystore : CKeyStore) (address : uint160) (hash : uint256) (nHashType : UInt8)
    (scriptSigRet : CScript) : Option CScript :=
  match keystore.getKey address with
  | none => none
  | some key =>
    match key.sign hash with
    | none => none
    | some vchSig => some (scriptSigRet ++ pushData (vchSig ++ [nHashType]))

def signKeys (keystore : CKeyStore) (hash : uint256) (nHashType : UInt8) (nRequired : Nat) :
    List (List UInt8) → Nat → CScript → Nat × CScript
  | [], nSigned, scriptSigRet => (nSigned, scriptSigRet)
  | pubkey :: rest, nSigned, scriptSigRet =>
    if nRequired ≤ nSigned then (nSigned, scriptSigRet)
    else
      match keystore.sign1 (keystore.hash160 pubkey) hash nHashType scriptSigRet with
      | none => keystore.signKeys hash nHashType nRequired rest nSigned scriptSigRet
      | some scriptSigRet =>
        keystore.signKeys hash nHashType nRequired rest (nSigned + 1) scriptSigRet

def signN (keystore : CKeyStore) (multisigdata : List (List UInt8)) (hash : uint256)
    (nHashType : UInt8) (scriptSigRet : CScript) : Option CScript :=
  let nRequired := solutionNumber multisigdata.head?
  let (nSigned, scriptSigRet) :=
    keystore.signKeys hash nHashType nRequired multisigdata.tail.dropLast 0 scriptSigRet
  if nSigned = nRequired then some scriptSigRet else none

def solver (keystore : CKeyStore) (scriptPubKey : CScript) (hash : uint256) (nHashType : UInt8) :
    Option (TxnOutType × CScript) :=
  match Triangles.solver scriptPubKey with
  | none => none
  | some (whichType, vSolutions) =>
    let scriptSig :=
      match whichType with
      | .TX_NONSTANDARD => none
      | .TX_PUBKEY =>
        keystore.sign1 (keystore.hash160 (vSolutions.headD [])) hash nHashType []
      | .TX_PUBKEYHASH =>
        let keyID := vSolutions.headD []
        (keystore.sign1 keyID hash nHashType []).map fun scriptSig =>
          scriptSig ++ pushData (((keystore.getKey keyID).map CKey.pubKey).getD [])
      | .TX_SCRIPTHASH => keystore.getCScript (vSolutions.headD [])
      | .TX_MULTISIG => keystore.signN vSolutions hash nHashType [OP_0]
    scriptSig.map fun scriptSig => (whichType, scriptSig)

def signScript (keystore : CKeyStore) (fromPubKey : CScript) (txTo : CTransaction) (nIn : Nat)
    (nHashType : Int32) : Option CScript :=
  let nHashByte := UInt8.ofNat nHashType.toUInt32.toNat
  match keystore.solver fromPubKey (signatureHash keystore.Hash fromPubKey txTo nIn nHashType)
      nHashByte with
  | none => none
  | some (.TX_SCRIPTHASH, subscript) =>
    match keystore.solver subscript (signatureHash keystore.Hash subscript txTo nIn nHashType)
        nHashByte with
    | none => none
    | some (.TX_SCRIPTHASH, _) => none
    | some (_, scriptSig) => some (scriptSig ++ pushData subscript)
  | some (_, scriptSig) => some scriptSig

def signSignature (env : Env) (nHeightBest : Int) (keystore : CKeyStore) (fromPubKey : CScript)
    (txTo : CTransaction) (nIn : Nat) (nHashType : Int32 := SIGHASH_ALL) : Option CScript :=
  match keystore.signScript fromPubKey txTo nIn nHashType with
  | none => none
  | some scriptSig =>
    if env.verifyScript (isCanonicalSignature nHeightBest) scriptSig fromPubKey
        { txTo with vin := txTo.vin.modify nIn fun txin => { txin with scriptSig := scriptSig } }
        nIn then
      some scriptSig
    else none

end CKeyStore

/-- What chance decides while a transaction is made, and the orders that the source leaves open:
`random_shuffle` and `rand() % 2` in each attempt to choose coins, `GetRandInt`, the order in
which `sort` leaves coins of one value and that of the pointers in a set. -/
structure CoinChance where
  shuffle : Nat → List COutput → List COutput
  rand : Nat → Nat → Nat → Bool
  getRandInt : Nat → Nat
  sort : List COutput → List COutput
  pointerOrder : List COutput → List COutput
  shuffle_perm : ∀ attempt l, (shuffle attempt l).Perm l
  getRandInt_lt : ∀ nMax, 0 < nMax → getRandInt nMax < nMax
  sort_perm : ∀ l, (sort l).Perm l
  sort_sorted : ∀ l, (sort l).Pairwise fun a b => b.txout.nValue ≤ a.txout.nValue
  pointerOrder_perm : ∀ l, (pointerOrder l).Perm l

structure Subset where
  vfIncluded : List Bool
  nTotal : Int
  fReachedTarget : Bool
  vfBest : List Bool
  nBest : Int

section Subset

variable (vValue : List Int) (nTargetValue : Int)

/-- A coin is tried: it stays unless the target is reached with it. -/
def tryCoin (s : Subset) (i : Nat) : Subset :=
  let nTotal := s.nTotal + vValue.getD i 0
  if nTargetValue ≤ nTotal then
    { s with
      vfIncluded := s.vfIncluded.set i false
      fReachedTarget := true
      vfBest := if nTotal < s.nBest then s.vfIncluded.set i true else s.vfBest
      nBest := if nTotal < s.nBest then nTotal else s.nBest }
  else { s with vfIncluded := s.vfIncluded.set i true, nTotal := nTotal }

def subsetPass (wanted : Subset → Nat → Bool) (s : Subset) : Subset :=
  (List.range vValue.length).foldl
    (fun s i => if wanted s i then tryCoin vValue nTargetValue s i else s) s

/-- One repetition: coins by chance, then all others unless the target is reached. -/
def subsetRep (rand : Nat → Bool) (s : Subset) : Subset :=
  let s := subsetPass vValue nTargetValue (fun _ i => rand i)
    { s with
      vfIncluded := List.replicate vValue.length false
      nTotal := 0
      fReachedTarget := false }
  if s.fReachedTarget then s
  else subsetPass vValue nTargetValue (fun s i => !s.vfIncluded.getD i false) s

def approximateBestSubset (rand : Nat → Nat → Bool) (nTotalLower : Int)
    (iterations : Nat := 1000) : List Bool × Int :=
  let s := (List.range iterations).foldl
    (fun s nRep =>
      if s.nBest = nTargetValue then s else subsetRep vValue nTargetValue (rand nRep) s)
    { vfIncluded := []
      nTotal := 0
      fReachedTarget := false
      vfBest := List.replicate vValue.length true
      nBest := nTotalLower }
  (s.vfBest, s.nBest)

end Subset

structure CoinSort where
  vValue : List COutput := []
  nTotalLower : Int := 0
  coinLowestLarger : Option COutput := none

def valueSum (coins : List COutput) : Int := (coins.map fun o => o.txout.nValue).sum

section SelectCoins

variable (chance : CoinChance) (w : CWallet) (nTargetValue : Int) (nSpendTime : UInt32)

/-- The loop over the coins: it ends with a coin of just the target value, if there is one. -/
def sortCoins (nConfMine nConfTheirs : Int) : List COutput → CoinSort → COutput ⊕ CoinSort
  | [], s => .inr s
  | output :: rest, s =>
    if output.nDepth < (if w.isFromMe output.wtx.tx then nConfMine else nConfTheirs) then
      sortCoins nConfMine nConfTheirs rest s
    else if nSpendTime < output.wtx.tx.nTime then sortCoins nConfMine nConfTheirs rest s
    else
      let n := output.txout.nValue
      if n = nTargetValue then .inl output
      else if n < nTargetValue + CENT then
        sortCoins nConfMine nConfTheirs rest
          { s with vValue := s.vValue ++ [output], nTotalLower := s.nTotalLower + n }
      else if n < (s.coinLowestLarger.map fun o => o.txout.nValue).getD (2 ^ 63 - 1) then
        sortCoins nConfMine nConfTheirs rest { s with coinLowestLarger := some output }
      else sortCoins nConfMine nConfTheirs rest s

def bestSubset (attempt : Nat) (vValue : List COutput) (nTotalLower : Int) : List Bool × Int :=
  let values := vValue.map fun o => o.txout.nValue
  let best := approximateBestSubset values nTargetValue (chance.rand (2 * attempt)) nTotalLower
  if best.2 ≠ nTargetValue ∧ nTargetValue + CENT ≤ nTotalLower then
    approximateBestSubset values (nTargetValue + CENT) (chance.rand (2 * attempt + 1)) nTotalLower
  else best

/-- `SelectCoinsMinConf`. A wallet offers no coin twice, so the set is the list of what was
inserted. -/
def selectCoinsMinConf (attempt : Nat) (nConfMine nConfTheirs : Int) (vCoins : List COutput) :
    Option (List COutput × Int) :=
  match sortCoins w nTargetValue nSpendTime nConfMine nConfTheirs (chance.shuffle attempt vCoins)
      {} with
  | .inl coin => some ([coin], valueSum [coin])
  | .inr s =>
    if s.nTotalLower = nTargetValue then some (s.vValue, valueSum s.vValue)
    else if s.nTotalLower < nTargetValue then
      s.coinLowestLarger.map fun coin => ([coin], valueSum [coin])
    else
      let vValue := chance.sort s.vValue
      let (vfBest, nBest) := bestSubset chance nTargetValue attempt vValue s.nTotalLower
      let subset := Mask.chosen vValue vfBest
      match s.coinLowestLarger with
      | none => some (subset, valueSum subset)
      | some coin =>
        if (nBest ≠ nTargetValue ∧ nBest < nTargetValue + CENT) ∨ coin.txout.nValue ≤ nBest then
          some ([coin], valueSum [coin])
        else some (subset, valueSum subset)

end SelectCoins

structure CCoinControl where
  destChange : CTxDestination := .noDestination
  setSelected : List COutPoint := []
  destChange_length : ∀ id, destChange = .keyID id ∨ destChange = .scriptID id → id.length = 20 := by
    simp

/-- A wallet that pays: its records in the order of their keys, what the chain says of them, the
keys, the fee set by the user and the key it has reserved for change. -/
structure Payer where
  wallet : CWallet
  keys : List uint256
  view : CoinView
  keystore : CKeyStore
  nHeightBest : Int
  nTransactionFee : Int := MIN_TX_FEE
  reservedKey : uint160
  reservedKey_length : reservedKey.length = 20

inductive Attempt where
  | refused
  | again (nFeeRet : Int)
  | created (tx : CTransaction) (nFeeRet : Int)

section CreateTransaction

variable (env : Env) (p : Payer) (chance : CoinChance) (coinControl : Option CCoinControl)

def Payer.offered : List COutput :=
  p.wallet.availableCoins p.view p.keys true (coinControl.map CCoinControl.setSelected)

def selectCoins (nTargetValue : Int) (nSpendTime : UInt32) : Option (List COutput × Int) :=
  let vCoins := p.offered coinControl
  if coinControl.any fun c => !c.setSelected.isEmpty then
    if nTargetValue ≤ valueSum vCoins then some (vCoins, valueSum vCoins) else none
  else
    let select := selectCoinsMinConf chance p.wallet nTargetValue nSpendTime
    (select 0 1 6 vCoins).or ((select 1 1 1 vCoins).or (select 2 0 1 vCoins))

def stepBack (vout : List CTxOut) : Nat → Nat
  | 0 => 0
  | position + 1 =>
    if (vout.getD (position + 1) .null).nValue ≠ 0 then position + 1 else stepBack vout position

/-- Where the change goes. -/
def changePosition (vout : List CTxOut) (position : Nat) : Nat :=
  if 0 < position ∧ position < vout.length then stepBack vout position else position

def scriptChange : CScript :=
  match coinControl with
  | none => setDestination (.keyID p.reservedKey)
  | some c =>
    if c.destChange = .noDestination then setDestination (.keyID p.reservedKey)
    else setDestination c.destChange

def paymentOutputs (vecSend : List (CScript × Int)) (nChange : Int) : List CTxOut :=
  let vout := vecSend.map fun s => ⟨s.2, s.1⟩
  if 0 < nChange then
    vout.insertIdx (changePosition vout (chance.getRandInt (vout.length + 1)))
      ⟨nChange, scriptChange p coinControl⟩
  else vout

def moveToFee (nFeeRet nChange : Int) : Int :=
  if nFeeRet < MIN_TX_FEE ∧ 0 < nChange ∧ nChange < CENT then
    min nChange (int64 (MIN_TX_FEE - nFeeRet))
  else 0

def signCoin (tx : CTransaction) (coin : COutput × Nat) : Option CTransaction :=
  (p.keystore.signSignature env p.nHeightBest coin.1.txout.scriptPubKey tx coin.2).map
    fun scriptSig => { tx with
      vin := tx.vin.modify coin.2 fun txin => { txin with scriptSig := scriptSig } }

def createAttempt (vecSend : List (CScript × Int)) (nValue : Int) (wtxNew : CTransaction)
    (nFeeRet : Int) : Attempt :=
  let nTotalValue := int64 (nValue + nFeeRet)
  match selectCoins p chance coinControl nTotalValue wtxNew.nTime with
  | none => .refused
  | some (setCoins, nValueIn) =>
    let setCoins := chance.pointerOrder setCoins
    let nChange := int64 (nValueIn - nValue - nFeeRet)
    let nMoveToFee := moveToFee nFeeRet nChange
    let nChange := int64 (nChange - nMoveToFee)
    let nFeeRet := int64 (nFeeRet + nMoveToFee)
    let unsigned := { wtxNew with
      vin := setCoins.map fun coin =>
        ⟨⟨coin.wtx.tx.getHash env, UInt32.ofNat coin.i⟩, [], 0xffffffff⟩
      vout := paymentOutputs p chance coinControl vecSend nChange }
    match setCoins.zipIdx.foldlM (signCoin env p) unsigned with
    | none => .refused
    | some tx =>
      let nBytes := tx.getSerializeSize
      if MAX_BLOCK_SIZE_GEN / 5 ≤ nBytes then .refused
      else
        let nPayFee := int64 (p.nTransactionFee * (1 + (nBytes / 1000 : Nat)))
        let nMinFee := tx.getMinFee 1 .GMF_SEND nBytes
        if nFeeRet < max nPayFee nMinFee then .again (max nPayFee nMinFee)
        else .created tx nFeeRet

end CreateTransaction

section Loop

variable (env : Env) (p : Payer) (chance : Nat → CoinChance) (coinControl : Option CCoinControl)

def createLoop (vecSend : List (CScript × Int)) (nValue : Int) (wtxNew : CTransaction) :
    Nat → Nat → Int → Option (Option (CTransaction × Int))
  | 0, _, _ => none
  | rounds + 1, round, nFeeRet =>
    match createAttempt env p (chance round) coinControl vecSend nValue wtxNew nFeeRet with
    | .refused => some none
    | .again nFeeRet => createLoop vecSend nValue wtxNew rounds (round + 1) nFeeRet
    | .created tx nFeeRet => some (some (tx, nFeeRet))

def totalSent : List (CScript × Int) → Int → Option Int
  | [], nValue => if nValue < 0 then none else some nValue
  | s :: rest, nValue => if nValue < 0 then none else totalSent rest (int64 (nValue + s.2))

/-- The rounds that suffice: each but the first asks for the fee of another number of bytes. -/
def createRounds : Nat := MAX_BLOCK_SIZE_GEN / 5 / 1000 + 1

def createTransactionMany (vecSend : List (CScript × Int)) (wtxNew : CTransaction) :
    Option (CTransaction × Int) :=
  match totalSent vecSend 0 with
  | none => none
  | some nValue =>
    if vecSend.isEmpty then none
    else
      (createLoop env p chance coinControl vecSend nValue wtxNew createRounds 0
        p.nTransactionFee).join

def narrationScript (sNarr : List UInt8) : CScript :=
  [OP_RETURN] ++ pushData [110, 112] ++ [OP_RETURN] ++ pushData sNarr

def createTransaction (scriptPubKey : CScript) (nValue : Int) (sNarr : List UInt8)
    (wtxNew : CTransaction) : Option (CTransaction × Int) :=
  createTransactionMany env p chance coinControl
    ((scriptPubKey, nValue) :: if 0 < sNarr.length then [(narrationScript sNarr, 0)] else [])
    wtxNew

end Loop

end Triangles
