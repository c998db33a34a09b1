import Triangles.Model.Accounts

/-! `ReorderTransactions`: the transactions of the wallet and the entries of the default account are
given positions in the order of their times (walletdb.cpp). -/

namespace Triangles

open AccountWallet
open Std (ExtTreeMap)

inductive DBErrors where
  | DB_LOAD_OK
  | DB_CORRUPT
  | DB_NONCRITICAL_ERROR
  | DB_TOO_NEW
  | DB_LOAD_FAIL
  | DB_NEED_REWRITE
deriving DecidableEq, Repr

inductive TxPair where
  | wtx (hash : uint256)
  | acentry (n : Nat)
deriving DecidableEq, Repr

structure Reordering where
  mapWallet : ExtTreeMap uint256 WalletRecord compare
  acentries : List CAccountingEntry
  db : WalletDb
  nOrderPosNext : Int := 0
  nOrderPosOffsets : List Int := []
  nWrites : Nat := 0

namespace Reordering

def nOrderPos (s : Reordering) : TxPair → Int
  | .wtx hash => (s.mapWallet[hash]?.map WalletRecord.nOrderPos).getD (-1)
  | .acentry n => (s.acentries[n]?.map CAccountingEntry.nOrderPos).getD (-1)

def setOrderPos (s : Reordering) (nOrderPos : Int) : TxPair → Reordering
  | .wtx hash =>
    { s with mapWallet := s.mapWallet.modify hash fun wtx => { wtx with nOrderPos := nOrderPos } }
  | .acentry n =>
    { s with acentries := s.acentries.modify n fun entry => { entry with nOrderPos := nOrderPos } }

def insertByTime (item : Int × TxPair) : List (Int × TxPair) → List (Int × TxPair)
  | [] => [item]
  | other :: l =>
    if item.1 < other.1 then item :: other :: l else other :: insertByTime item l

def timed (s : Reordering) : List (Int × TxPair) :=
  (s.mapWallet.toList.map fun e => ((e.2.nTimeReceived.toNat : Int), .wtx e.1)) ++
    s.acentries.zipIdx.map fun e => (e.1.nTime, .acentry e.2)

def txByTime (s : Reordering) : List TxPair :=
  (s.timed.foldl (fun l item => insertByTime item l) []).map Prod.snd

/-- `WriteTx`, which leaves the object as the writing does. -/
def writeTx (env : Env) (s : Reordering) (hash : uint256) : Reordering :=
  match s.mapWallet[hash]? with
  | none => s
  | some wtx =>
    { s with
      mapWallet := s.mapWallet.insert hash wtx.serialize.2
      db := s.db.insert (serializeBytes (ascii "tx") ++ uint256Bytes (wtx.tx.getHash env)) wtx.serialize.1 }

/-- `WriteAccountingEntry`, which leaves the object as the writing does. -/
def writeAccountingEntry (nVersion : Int) (s : Reordering) (n : Nat) : Reordering :=
  match s.acentries[n]? with
  | none => s
  | some entry =>
    { s with
      acentries := s.acentries.set n (entry.serialize nVersion).2
      db := s.db.insert (entryKey entry.strAccount entry.nEntryNo) (entry.serialize nVersion).1 }

def writeBack (env : Env) (nVersion : Int) (takes : Nat → Bool) (s : Reordering) (p : TxPair) :
    Bool × Reordering :=
  let next := { s with nWrites := s.nWrites + 1 }
  if takes s.nWrites then
    match p with
    | .wtx hash => (true, next.writeTx env hash)
    | .acentry n => (true, next.writeAccountingEntry nVersion n)
  else (false, next)

def reorderItem (env : Env) (nVersion : Int) (takes : Nat → Bool) (s : Reordering) (p : TxPair) :
    Bool × Reordering :=
  let nOrderPos := s.nOrderPos p
  if nOrderPos = -1 then
    let s := { s.setOrderPos s.nOrderPosNext p with
      nOrderPosNext := int64 (s.nOrderPosNext + 1)
      nOrderPosOffsets := s.nOrderPosOffsets ++ [s.nOrderPosNext] }
    -- transactions are kept in memory and not written here
    match p with
    | .wtx _ => (true, s)
    | .acentry _ => s.writeBack env nVersion takes p
  else
    let nOrderPosOff := s.nOrderPosOffsets.foldl
      (fun nOrderPosOff nOffsetStart => if nOffsetStart ≤ nOrderPos then nOrderPosOff + 1 else nOrderPosOff)
      (0 : Int)
    let nOrderPos := int64 (nOrderPos + nOrderPosOff)
    let s := { s.setOrderPos nOrderPos p with
      nOrderPosNext := max s.nOrderPosNext (int64 (nOrderPos + 1)) }
    if nOrderPosOff = 0 then (true, s) else s.writeBack env nVersion takes p

def reorderLoop (env : Env) (nVersion : Int) (takes : Nat → Bool) :
    List TxPair → Reordering → DBErrors × Reordering
  | [], s => (.DB_LOAD_OK, s)
  | p :: txByTime, s =>
    match s.reorderItem env nVersion takes p with
    | (true, s) => reorderLoop env nVersion takes txByTime s
    | (false, s) => (.DB_LOAD_FAIL, s)

end Reordering

def reorderStart (mapWallet : ExtTreeMap uint256 WalletRecord compare) (db : WalletDb) :
    Except Reject Reordering := do
  let acentries ← listAccountCreditDebit db []
  pure { mapWallet := mapWallet, acentries := acentries, db := db }

def reorderTransactions (env : Env) (nVersion : Int) (takes : Nat → Bool)
    (mapWallet : ExtTreeMap uint256 WalletRecord compare) (db : WalletDb) :
    Except Reject (DBErrors × Reordering) := do
  let s ← reorderStart mapWallet db
  pure (Reordering.reorderLoop env nVersion takes s.txByTime s)

end Triangles
