import Triangles.Model.SmsgEncrypt

/-! The send queue (smessage.cpp): `SecureMsgSend` puts messages into a database, from which the
proof-of-work thread takes them. The database is the "qm" and "sm" records with their keys in the
order of their bytes; the texts of errors and what is shown to the user are left out. -/

namespace Triangles

open Std (ExtTreeMap)

structure SecMsgStored where
  timeReceived : Int
  status : UInt8
  folderId : UInt16
  sAddrTo : List UInt8
  sAddrOutbox : List UInt8
  vchMessage : List UInt8
deriving DecidableEq

def SecMsgStored.timestamp (smsg : SecMsgStored) : Int := int64Of (slice smsg.vchMessage 7 8)

abbrev SendDb := ExtTreeMap (List UInt8) SecMsgStored compare

def queuePrefix : List UInt8 := [0x71, 0x6d]

def sentPrefix : List UInt8 := [0x73, 0x6d]

/-- What making a record finds besides: the address that the allocator gave the payload, the clock,
the fields that are not initialized, and whether the database opens and takes the record. -/
structure RecordChance extends EncryptChance where
  pPayload : UInt64
  timeReceived : Int
  status : UInt8
  folderId : UInt16
  fWritten : Bool

def recordKey (sPrefix : List UInt8) (header : SmsgHeader) (pPayload : UInt64) : List UInt8 :=
  sPrefix ++ (slice header.bytes 7 8 ++ wordBytes 8 pPayload.toNat)

def storedMessage (chance : RecordChance) (sAddrTo sAddrOutbox : List UInt8)
    (r : SmsgHeader × List UInt8) : SecMsgStored where
  timeReceived := chance.timeReceived
  status := chance.status
  folderId := chance.folderId
  sAddrTo := sAddrTo
  sAddrOutbox := sAddrOutbox
  vchMessage := r.1.bytes ++ r.2

def writeSmesg (db : SendDb) (fWritten : Bool) (chKey : List UInt8) (smsg : SecMsgStored) : SendDb :=
  if fWritten then db.insert chKey smsg else db

/-- A call of `SecureMsgSend`. `outbox` is the first owned address of the address book, with what
the copy for it finds. -/
structure SendCall (lib : SenderLib) where
  node : SmsgSender lib
  fLocked : Bool
  addressFrom : List UInt8
  addressTo : List UInt8
  message : List UInt8
  chance : RecordChance
  outbox : Option (List UInt8 × RecordChance)

namespace SendCall

variable {lib : SenderLib}

def encrypted (call : SendCall lib) : Except SmsgFailure (SmsgHeader × List UInt8) :=
  secureMsgEncrypt call.node call.chance.toEncryptChance call.addressFrom call.addressTo call.message

def sendCopy (call : SendCall lib) (db : SendDb) : Except SmsgFailure Unit × SendDb :=
  match call.outbox with
  | none => (.ok (), db)
  | some (addressOutbox, chance) =>
    match secureMsgEncrypt call.node chance.toEncryptChance call.addressFrom addressOutbox
      call.message with
    | .error (.code _) => (.ok (), db)
    | .error e => (.error e, db)
    | .ok r =>
      if !call.node.resizes (SMSG_HDR_LEN + r.2.length) then (.error (.code 8), db)
      else
        (.ok (), writeSmesg db chance.fWritten (recordKey sentPrefix r.1 chance.pPayload)
          (storedMessage chance call.addressTo addressOutbox r))

/-- `SecureMsgSend`: how it returns, and the database it leaves. -/
def secureMsgSend (call : SendCall lib) (db : SendDb) : Except SmsgFailure Unit × SendDb :=
  if call.fLocked then (.error (.code 1), db)
  else if SMSG_MAX_MSG_BYTES < call.message.length then (.error (.code 1), db)
  else
    match call.encrypted with
    | .error e => (.error e, db)
    | .ok r =>
      if !call.node.resizes (SMSG_HDR_LEN + r.2.length) then (.error (.code 8), db)
      else
        call.sendCopy (writeSmesg db call.chance.fWritten
          (recordKey queuePrefix r.1 call.chance.pPayload)
          (storedMessage call.chance call.addressTo [] r))

def sendAll : List (SendCall lib) → SendDb → Except SmsgFailure SendDb
  | [], db => .ok db
  | call :: calls, db =>
    match call.secureMsgSend db with
    | (.error e, _) => .error e
    | (.ok (), db) => sendAll calls db

end SendCall

/-! The proof-of-work thread. -/

/-- An iterator over the database as it was: the entries from the current one on, none when the
iterator is not valid. -/
structure SmsgIterator where
  entries : List (List UInt8 × SecMsgStored)
  rest : List (List UInt8 × SecMsgStored) := []

def newIterator (db : SendDb) : SmsgIterator := ⟨db.toList, []⟩

def hasPrefix (sPrefix : List UInt8) (e : List UInt8 × SecMsgStored) : Bool :=
  e.1.length == 18 && e.1.take 2 == sPrefix.take 2

def nextSmesg (it : SmsgIterator) (sPrefix : List UInt8) :
    SmsgIterator × Option (List UInt8 × SecMsgStored) :=
  let rest :=
    if it.rest.isEmpty then it.entries.dropWhile fun e => compare e.1 sPrefix == .lt
    else it.rest.tail
  match rest with
  | [] => ({ it with rest := [] }, none)
  | e :: rest =>
    ({ it with rest := e :: rest }, if hasPrefix sPrefix e then some e else none)

/-- The inner loop of `ThreadSecureMsgPow`: the entries it visits, and the database it leaves. `pow`
is what `SecureMsgSetHash` returns for an entry; 2 means that the node shuts down. -/
def powLoop (pow : SecMsgStored → Nat) :
    Nat → SmsgIterator → SendDb → List (List UInt8 × SecMsgStored) × SendDb
  | 0, _, db => ([], db)
  | rounds + 1, it, db =>
    match nextSmesg it queuePrefix with
    | (_, none) => ([], db)
    | (it, some e) =>
      if pow e.2 = 2 then ([e], db)
      else
        let r := powLoop pow rounds it (db.erase e.1)
        (e :: r.1, r.2)

/-- One pass of the thread. A round visits an entry, so the number of entries bounds the rounds. -/
def powPass (pow : SecMsgStored → Nat) (db : SendDb) :
    List (List UInt8 × SecMsgStored) × SendDb :=
  powLoop pow (db.toList.length + 1) (newIterator db) db

end Triangles
