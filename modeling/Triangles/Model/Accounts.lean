import Mathlib.Data.List.AList
import Mathlib.Data.Finset.Sort
import Mathlib.Data.Finset.Union
import Triangles.Model.CoinStake
import Triangles.Model.Standard
import Triangles.Model.WalletRecord

/-! Balances: what a transaction means for the accounts of a wallet, and the calls that add it up
(script.cpp, wallet.h, wallet.cpp, walletdb.cpp, rpcwallet.cpp). Values that are computed once and
kept are computed every time. -/

namespace Triangles

open Codec Outcome
open Std (ExtTreeMap)

/-! Keys. -/

structure KeyLookup where
  hash160 : List UInt8 → uint160
  haveKey : uint160 → Bool
  mapScripts : List (uint160 × CScript) := []

namespace KeyLookup

def getCScript (keystore : KeyLookup) (id : uint160) : Option CScript := keystore.mapScripts.lookup id

def isMineDest (keystore : KeyLookup) : CTxDestination → Bool
  | .noDestination => false
  | .keyID id => keystore.haveKey id
  | .scriptID id => (keystore.getCScript id).isSome

/-- `IsMine` of a script, with as many scripts behind it as there are rounds. -/
def isMineRounds (keystore : KeyLookup) : Nat → CScript → Bool
  | 0, _ => false
  | rounds + 1, scriptPubKey =>
    match solver scriptPubKey with
    | some (.TX_PUBKEY, vSolutions) => keystore.haveKey (keystore.hash160 (vSolutions.headD []))
    | some (.TX_PUBKEYHASH, vSolutions) => keystore.haveKey (vSolutions.headD [])
    | some (.TX_SCRIPTHASH, vSolutions) =>
      match keystore.getCScript (vSolutions.headD []) with
      | none => false
      | some subscript => isMineRounds keystore rounds subscript
    | some (.TX_MULTISIG, vSolutions) =>
      ((vSolutions.drop 1).dropLast).all fun key => keystore.haveKey (keystore.hash160 key)
    | _ => false

/-- `IsMine` of a script. No script is behind itself, so there are fewer rounds than scripts. -/
def isMine (keystore : KeyLookup) (scriptPubKey : CScript) : Bool :=
  keystore.isMineRounds (keystore.mapScripts.length + 1) scriptPubKey

end KeyLookup

/-- What the chain and the memory pool say of a transaction, and how many transactions there can be
behind an unconfirmed one. -/
structure ChainView where
  isFinal : CTransaction → Bool
  getDepthInMainChain : CMerkleTx → Int
  nCoinbaseMaturity : Int
  fConfChange : Bool := false
  rounds : Nat := 0

def ChainView.getBlocksToMaturity (view : ChainView) (mtx : CMerkleTx) : Int :=
  if !(mtx.tx.isCoinBase || mtx.tx.isCoinStake) then 0
  else max 0 (view.nCoinbaseMaturity - view.getDepthInMainChain mtx)

structure AccountWallet where
  keystore : KeyLookup
  mapWallet : ExtTreeMap uint256 WalletRecord compare
  mapAddressBook : AList (fun _ : CTxDestination => List UInt8) := ∅

structure Amounts where
  listReceived : List (CTxDestination × Int) := []
  listSent : List (CTxDestination × Int) := []
  nFee : Int := 0
  strSentAccount : List UInt8 := []

namespace AccountWallet

def coins (w : AccountWallet) : CWallet where
  ownsScript := w.keystore.isMine
  mapWallet hash := w.mapWallet[hash]?.map WalletRecord.walletTx

def isMine (w : AccountWallet) (txout : CTxOut) : Bool := w.keystore.isMine txout.scriptPubKey

def isChange (w : AccountWallet) (txout : CTxOut) : Bool :=
  match extractDestination w.keystore.hash160 txout.scriptPubKey with
  | none => false
  | some address => w.keystore.isMineDest address && (w.mapAddressBook.lookup address).isNone

def debitOf (w : AccountWallet) (txin : CTxIn) : Int := ((w.coins.ownPrevout txin).map CTxOut.nValue).getD 0

/-- One round of `GetDebit`, which throws on a value out of range. -/
def addDebit (w : AccountWallet) (nDebit : Int) (txin : CTxIn) : Except Reject Int := do
  check (moneyRange (nDebit + w.debitOf txin)) { msg := "CWallet::GetDebit() : value out of range" }
  pure (nDebit + w.debitOf txin)

def getDebit (w : AccountWallet) (tx : CTransaction) : Except Reject Int := tx.vin.foldlM w.addDebit 0

/-- `IsFromMe`; where it throws the answer does not matter. -/
def isFromMe (w : AccountWallet) (tx : CTransaction) : Bool :=
  match w.getDebit tx with
  | .ok nDebit => decide (0 < nDebit)
  | .error _ => false

def findPrev (env : Env) (vtxPrev : List CMerkleTx) (hash : uint256) : Option CMerkleTx :=
  vtxPrev.reverse.find? fun mtx => mtx.tx.getHash env == hash

def trustQueue (env : Env) (view : ChainView) (w : AccountWallet) (vtxPrev : List CMerkleTx) :
    Nat → List CMerkleTx → Bool
  | _, [] => true
  | 0, _ :: _ => false
  | rounds + 1, ptx :: queue =>
    if !view.isFinal ptx.tx then false
    else if 1 ≤ view.getDepthInMainChain ptx then trustQueue env view w vtxPrev rounds queue
    else if view.getDepthInMainChain ptx < 0 then false
    else if !w.isFromMe ptx.tx then false
    else
      match ptx.tx.vin.mapM fun txin => findPrev env vtxPrev txin.prevout.hash with
      | none => false
      | some prevs => trustQueue env view w vtxPrev rounds (queue ++ prevs)

def isTrusted (env : Env) (view : ChainView) (w : AccountWallet) (wtx : WalletRecord) : Bool :=
  let nDepth := view.getDepthInMainChain wtx.toCMerkleTx
  if !view.isFinal wtx.tx then false
  else if 4 ≤ nDepth then true
  else if nDepth < 0 then false
  else if view.fConfChange || !w.isFromMe wtx.tx then false
  else trustQueue env view w wtx.vtxPrev view.rounds [wtx.toCMerkleTx]

/-! The amounts of a transaction. -/

def addAmount (w : AccountWallet) (nDebit : Int) (amounts : Amounts) (txout : CTxOut) : Amounts :=
  let fIsMine := w.isMine txout
  if txout.scriptPubKey.isEmpty then amounts
  else if 0 < nDebit ∧ w.isChange txout then amounts
  else if ¬ 0 < nDebit ∧ !fIsMine then amounts
  else
    let address := (extractDestination w.keystore.hash160 txout.scriptPubKey).getD .noDestination
    let amounts :=
      if 0 < nDebit then { amounts with listSent := amounts.listSent ++ [(address, txout.nValue)] }
      else amounts
    if fIsMine then { amounts with listReceived := amounts.listReceived ++ [(address, txout.nValue)] }
    else amounts

def getFee (nDebit : Int) (tx : CTransaction) : Except Reject Int :=
  if 0 < nDebit then do
    let nValueOut ← tx.getValueOut
    pure (nDebit - nValueOut)
  else pure 0

def getAmounts (w : AccountWallet) (wtx : WalletRecord) : Except Reject Amounts := do
  let nDebit ← w.getDebit wtx.tx
  let nFee ← getFee nDebit wtx.tx
  pure (wtx.tx.vout.foldl (w.addAmount nDebit) { nFee := nFee, strSentAccount := wtx.strFromAccount })

def accountOf (w : AccountWallet) (address : CTxDestination) : List UInt8 :=
  (w.mapAddressBook.lookup address).getD []

def addReceived (w : AccountWallet) (strAccount : List UInt8) (nReceived : Int)
    (r : CTxDestination × Int) : Int :=
  match w.mapAddressBook.lookup r.1 with
  | some strName => if strName = strAccount then nReceived + r.2 else nReceived
  | none => if strAccount.isEmpty then nReceived + r.2 else nReceived

def getAccountAmounts (w : AccountWallet) (strAccount : List UInt8) (wtx : WalletRecord) :
    Except Reject (Int × Int × Int) := do
  let amounts ← w.getAmounts wtx
  let nReceived := amounts.listReceived.foldl (w.addReceived strAccount) 0
  if strAccount = amounts.strSentAccount then
    pure (nReceived, amounts.listSent.foldl (fun nSent s => nSent + s.2) 0, amounts.nFee)
  else pure (nReceived, 0, 0)

/-! Balances. -/

def addToTotal (env : Env) (view : ChainView) (w : AccountWallet) (nMinDepth nBalance : Int)
    (wtx : WalletRecord) : Except Reject Int :=
  if !w.isTrusted env view wtx then .ok nBalance
  else do
    let amounts ← w.getAmounts wtx
    let nBalance :=
      if nMinDepth ≤ view.getDepthInMainChain wtx.toCMerkleTx ∧
          view.getBlocksToMaturity wtx.toCMerkleTx = 0 then
        amounts.listReceived.foldl (fun nBalance r => nBalance + r.2) nBalance
      else nBalance
    pure (amounts.listSent.foldl (fun nBalance r => nBalance - r.2) nBalance - amounts.nFee)

def getBalanceTotal (env : Env) (view : ChainView) (w : AccountWallet) (nMinDepth : Int) :
    Except Reject Int :=
  (w.mapWallet.toList.map Prod.snd).foldlM (w.addToTotal env view nMinDepth) 0

def getAvailableCredit (view : ChainView) (w : AccountWallet) (wtx : WalletRecord) :
    Except Reject Int :=
  if (wtx.tx.isCoinBase || wtx.tx.isCoinStake) &&
      decide (0 < view.getBlocksToMaturity wtx.toCMerkleTx) then .ok 0
  else wtx.tx.vout.zipIdx.foldlM (w.coins.addCredit wtx.walletTx) 0

def getBalance (env : Env) (view : ChainView) (w : AccountWallet) : Except Reject Int :=
  (w.mapWallet.toList.map Prod.snd).foldlM (fun nTotal wtx =>
    if w.isTrusted env view wtx then do
      let nCredit ← w.getAvailableCredit view wtx
      pure (nTotal + nCredit)
    else .ok nTotal) 0

/-! Accounting entries in the wallet file. -/

abbrev WalletDb := ExtTreeMap (List UInt8) (List UInt8) compare

/-- What a reader of the file throws. -/
def streamReject : StreamError → Reject
  | .endOfData => { msg := "CDataStream::read() : end of data" }
  | .sizeTooLarge => { msg := "ReadCompactSize() : size too large" }

def entryKey (strAccount : List UInt8) (nEntryNo : UInt64) : List UInt8 :=
  serializeBytes (ascii "acentry") ++ (serializeBytes strAccount ++ wordBytes 8 nEntryNo.toNat)

def readEntries (fAllAccounts : Bool) (strAccount : List UInt8) :
    List (List UInt8 × List UInt8) → Except StreamError (List CAccountingEntry)
  | [] => .ok []
  | (ssKey, ssValue) :: records => do
    let (strType, ssKey) ← unserializeString ssKey
    if strType ≠ ascii "acentry" then pure []
    else do
      let (account, ssKey) ← unserializeString ssKey
      if !fAllAccounts && account != strAccount then pure []
      else do
        let (acentry, _) ← CAccountingEntry.unserialize { strAccount := account } ssValue
        let (nEntryNo, _) ← readLE 8 ssKey
        let entries ← readEntries fAllAccounts strAccount records
        pure ({ acentry with nEntryNo := UInt64.ofNat nEntryNo } :: entries)

def listAccountCreditDebit (db : WalletDb) (strAccount : List UInt8) :
    Except Reject (List CAccountingEntry) :=
  let fAllAccounts := strAccount == ascii "*"
  let start := entryKey (if fAllAccounts then [] else strAccount) 0
  (readEntries fAllAccounts strAccount
    (db.toList.dropWhile fun record => compare record.1 start == .lt)).mapError streamReject

def getAccountCreditDebit (db : WalletDb) (strAccount : List UInt8) : Except Reject Int := do
  let entries ← listAccountCreditDebit db strAccount
  pure (entries.foldl (fun nCreditDebit entry => nCreditDebit + entry.nCreditDebit) 0)

/-! Accounts. -/

def addToAccount (view : ChainView) (w : AccountWallet) (strAccount : List UInt8)
    (nMinDepth nBalance : Int) (wtx : WalletRecord) : Except Reject Int :=
  let nDepth := view.getDepthInMainChain wtx.toCMerkleTx
  if !view.isFinal wtx.tx || decide (nDepth < 0) then .ok nBalance
  else do
    let (nReceived, nSent, nFee) ← w.getAccountAmounts strAccount wtx
    let nBalance :=
      if nReceived ≠ 0 ∧ nMinDepth ≤ nDepth ∧ view.getBlocksToMaturity wtx.toCMerkleTx = 0 then
        nBalance + nReceived
      else nBalance
    pure (nBalance - (nSent + nFee))

def getAccountBalance (view : ChainView) (w : AccountWallet) (db : WalletDb)
    (strAccount : List UInt8) (nMinDepth : Int) : Except Reject Int := do
  let nBalance ← (w.mapWallet.toList.map Prod.snd).foldlM (w.addToAccount view strAccount nMinDepth) 0
  let nCreditDebit ← getAccountCreditDebit db strAccount
  pure (nBalance + nCreditDebit)

abbrev Balances := ExtTreeMap (List UInt8) Int compare

def credit (balances : Balances) (strAccount : List UInt8) (nAmount : Int) : Balances :=
  balances.insert strAccount (balances.getD strAccount 0 + nAmount)

def creditAmounts (view : ChainView) (w : AccountWallet) (nMinDepth : Int) (balances : Balances)
    (wtx : WalletRecord) : Except Reject Balances :=
  let nDepth := view.getDepthInMainChain wtx.toCMerkleTx
  if nDepth < 0 then .ok balances
  else do
    let amounts ← w.getAmounts wtx
    let balances := credit balances amounts.strSentAccount (-amounts.nFee)
    let balances := amounts.listSent.foldl
      (fun balances s => credit balances amounts.strSentAccount (-s.2)) balances
    if nMinDepth ≤ nDepth ∧ view.getBlocksToMaturity wtx.toCMerkleTx = 0 then
      pure (amounts.listReceived.foldl (fun balances r => credit balances (w.accountOf r.1) r.2) balances)
    else pure balances

def ownAccounts (w : AccountWallet) : Balances :=
  w.mapAddressBook.entries.foldl (fun balances entry =>
    if w.keystore.isMineDest entry.1 then balances.insert entry.2 0 else balances) ∅

def listAccounts (view : ChainView) (w : AccountWallet) (db : WalletDb) (nMinDepth : Int) :
    Except Reject (List (List UInt8 × Int)) := do
  let balances ← (w.mapWallet.toList.map Prod.snd).foldlM (w.creditAmounts view nMinDepth) w.ownAccounts
  let acentries ← listAccountCreditDebit db (ascii "*")
  let balances := acentries.foldl
    (fun balances entry => credit balances entry.strAccount entry.nCreditDebit) balances
  pure balances.toList

end AccountWallet

end Triangles

/-! Address groupings: the addresses that transactions use together, merged through pointers to sets
on the heap (wallet.cpp). -/

namespace Triangles

open Std (ExtTreeMap)

abbrev Grouping := Finset CTxDestination

namespace AccountWallet

def isMineIn (w : AccountWallet) (txin : CTxIn) : Bool := (w.coins.ownPrevout txin).isSome

/-- `mapWallet[prevout.hash].vout[prevout.n]`, which has to be there. -/
def prevOut (w : AccountWallet) (txin : CTxIn) : Option CTxOut := do
  let prev ← w.mapWallet[txin.prevout.hash]?
  prev.tx.vout[txin.prevout.n.toNat]?

def groupOut (w : AccountWallet) (grouping : Grouping) (txout : CTxOut) : Grouping :=
  match extractDestination w.keystore.hash160 txout.scriptPubKey with
  | none => grouping
  | some address => insert address grouping

def groupInputs (w : AccountWallet) (tx : CTransaction) : Option Grouping := do
  let grouping ← tx.vin.foldlM (fun grouping txin => do
    let txout ← w.prevOut txin
    pure (w.groupOut grouping txout)) ∅
  pure (tx.vout.foldl
    (fun grouping txout => if w.isChange txout then w.groupOut grouping txout else grouping) grouping)

def groupLone (w : AccountWallet) (groupings : Finset Grouping) (txout : CTxOut) : Finset Grouping :=
  if w.isMine txout then
    match extractDestination w.keystore.hash160 txout.scriptPubKey with
    | none => groupings
    | some address => insert {address} groupings
  else groupings

def collectTx (w : AccountWallet) (groupings : Finset Grouping) (tx : CTransaction) :
    Option (Finset Grouping) := do
  let groupings ←
    if (tx.vin.head?.map w.isMineIn).getD false then do
      let grouping ← w.groupInputs tx
      pure (insert grouping groupings)
    else pure groupings
  pure (tx.vout.foldl w.groupLone groupings)

def collectGroupings (w : AccountWallet) : Option (Finset Grouping) :=
  (w.mapWallet.toList.map fun e => e.2.tx).foldlM w.collectTx ∅

end AccountWallet

abbrev GroupHeap := ExtTreeMap Nat Grouping compare

structure GroupState where
  heap : GroupHeap := ∅
  uniqueGroupings : Finset Nat := ∅
  setmap : CTxDestination → Option Nat := fun _ => none

namespace GroupState

def hits (s : GroupState) (grouping : Grouping) : Finset Nat :=
  grouping.biUnion fun address =>
    match s.setmap address with
    | none => ∅
    | some p => {p}

def absorbHit (merged : Nat) (s : GroupState) (hit : Nat) : Option GroupState := do
  let group ← s.heap[merged]?
  let other ← s.heap[hit]?
  pure { s with
    heap := (s.heap.insert merged (group ∪ other)).erase hit
    uniqueGroupings := s.uniqueGroupings.erase hit }

/-- One grouping; `alloc` says where a new object goes. -/
def addGrouping (alloc : GroupHeap → Nat) (s : GroupState) (grouping : Grouping) :
    Option GroupState := do
  let hits := (s.hits grouping).sort (· ≤ ·)
  let merged := alloc s.heap
  let s ← hits.foldlM (absorbHit merged) { s with heap := s.heap.insert merged grouping }
  let group ← s.heap[merged]?
  pure { s with
    uniqueGroupings := insert merged s.uniqueGroupings
    setmap := fun address => if address ∈ group then some merged else s.setmap address }

def groups (s : GroupState) : Option (Finset Grouping) := do
  let groups ← (s.uniqueGroupings.sort (· ≤ ·)).mapM fun p => s.heap[p]?
  pure groups.toFinset

end GroupState

def AccountWallet.getAddressGroupings (alloc : GroupHeap → Nat)
    (visit : Finset Grouping → List Grouping) (w : AccountWallet) : Option (Finset Grouping) := do
  let groupings ← w.collectGroupings
  let s ← (visit groupings).foldlM (GroupState.addGrouping alloc) {}
  s.groups

end Triangles
