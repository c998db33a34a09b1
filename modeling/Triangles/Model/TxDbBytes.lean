import Triangles.Model.LevelLog
import Triangles.Model.SmsgSettings
import Triangles.Model.TxDb

/-! The transaction database over the database files (txdb-leveldb.h, txdb-leveldb.cpp): what its
calls do with bytes. -/

namespace Triangles.LevelDb

open Batch

def keyBytes : DbKey → List UInt8
  | .tx hash => serializeBytes (ascii "tx") ++ uint256Bytes hash
  | .blockindex hash => serializeBytes (ascii "blockindex") ++ uint256Bytes hash
  | .hashBestChain => serializeBytes (ascii "hashBestChain")
  | .bnBestInvalidTrust => serializeBytes (ascii "bnBestInvalidTrust")
  | .hashSyncCheckpoint => serializeBytes (ascii "hashSyncCheckpoint")
  | .strCheckpointPubKey => serializeBytes (ascii "strCheckpointPubKey")
  | .version => serializeBytes (ascii "version")

structure CBatchScanner where
  needle : List UInt8
  deleted : Bool := false
  foundValue : List UInt8 := []
  foundEntry : Bool := false
deriving DecidableEq

def CBatchScanner.handle (s : CBatchScanner) : BatchOp → CBatchScanner
  | .put key value =>
    if key = s.needle then { s with foundEntry := true, deleted := false, foundValue := value }
    else s
  | .delete key => if key = s.needle then { s with foundEntry := true, deleted := true } else s

/-- `ScanBatch`; a batch that cannot be read is thrown. -/
def scanBatch (activeBatch : WriteBatch) (key : List UInt8) : Except Status CBatchScanner :=
  let (status, scanner) := activeBatch.iterate CBatchScanner.handle { needle := key }
  if status = .ok then .ok scanner else .error status

def DBImpl.find (db : DBImpl) (key : List UInt8) : Option (List UInt8) := (db.get key).getD none

structure CTxDB where
  pdb : DBImpl
  activeBatch : Option WriteBatch

inductive DbCall where
  | txnBegin
  | write (k : DbKey) (v : DbVal k) (heights : List Nat)
  | erase (k : DbKey) (heights : List Nat)
  | txnCommit (heights : List Nat)
  | txnAbort

namespace CTxDB

def read (d : CTxDB) (key : List UInt8) : Except Status (Option (List UInt8)) :=
  match d.activeBatch with
  | none => .ok (d.pdb.find key)
  | some activeBatch =>
    match scanBatch activeBatch key with
    | .error status => .error status
    | .ok scanner =>
      if scanner.deleted then .ok none
      else if scanner.foundEntry then .ok (some scanner.foundValue)
      else .ok (d.pdb.find key)

def existsKey (d : CTxDB) (key : List UInt8) : Except Status Bool :=
  match d.activeBatch with
  | none => .ok (d.pdb.find key).isSome
  | some activeBatch =>
    match scanBatch activeBatch key with
    | .error status => .error status
    | .ok scanner =>
      if scanner.foundEntry && !scanner.deleted then .ok true else .ok (d.pdb.find key).isSome

section Calls

variable (crc : List UInt8 → UInt32) (usage : MemTable → Nat)
  (ser : (k : DbKey) → DbVal k → List UInt8)

def change (d : CTxDB) (op : BatchOp) (heights : List Nat) : Option CTxDB :=
  match d.activeBatch with
  | some activeBatch => some { d with activeBatch := some (activeBatch.change op) }
  | none =>
    (d.pdb.write crc usage ⟨WriteBatch.clear.change op, false⟩ [] heights).map fun r =>
      { d with pdb := r.1 }

/-- Nothing where an `assert` fails, or the database has no room for a write. -/
def call (d : CTxDB) : DbCall → Option CTxDB
  | .txnBegin => if d.activeBatch.isSome then none else some { d with activeBatch := some .clear }
  | .write k v heights => d.change crc usage (.put (keyBytes k) (ser k v)) heights
  | .erase k heights => d.change crc usage (.delete (keyBytes k)) heights
  | .txnCommit heights =>
    match d.activeBatch with
    | none => none
    | some activeBatch =>
      (d.pdb.write crc usage ⟨activeBatch, false⟩ [] heights).map fun r => ⟨r.1, none⟩
  | .txnAbort => some { d with activeBatch := none }

def run (calls : List DbCall) : Option CTxDB := calls.foldlM (call crc usage ser) ⟨DBImpl.new, none⟩

end Calls

end CTxDB

def DbCall.apply (d : Triangles.CTxDB) : DbCall → Triangles.CTxDB
  | .txnBegin => d.start
  | .write k v _ => d.write k v
  | .erase k _ => d.erase k
  | .txnCommit _ => d.commit
  | .txnAbort => d.abort

end Triangles.LevelDb
