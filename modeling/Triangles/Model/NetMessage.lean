import Triangles.Model.Serialize
import Triangles.Model.SigCache
import Triangles.Model.SmsgSettings

/-! Messages on a connection (protocol.h, protocol.cpp, net.h, net.cpp): the header, how received
bytes become messages, and the queue of messages to send. The time of receipt and the debug output
are left out. -/

namespace Triangles.Net

open Codec

/-- What must not happen: a `memcpy` beyond its buffers, a loop that does not end, an assertion. -/
inductive Fault where
  | outOfBounds
  | outOfRounds
  /-- `assert(ssSend.size() == 0)`. -/
  | ssSendInUse
  /-- `assert(ssSend.size() >= CHECKSUM_OFFSET + sizeof(nChecksum))`. -/
  | ssSendShort
  /-- `assert(data.size() > nSendOffset)`. -/
  | offsetBeyond
  /-- `assert(nSendOffset == 0)`. -/
  | offsetLeft
  /-- `assert(nSendSize == 0)`. -/
  | sizeLeft
deriving DecidableEq, Repr

def memcpy (buf : List UInt8) (pos : Nat) (src : List UInt8) (n : Nat) : Except Fault (List UInt8) :=
  if pos + n ≤ buf.length ∧ n ≤ src.length then
    .ok (buf.take pos ++ src.take n ++ buf.drop (pos + n))
  else .error .outOfBounds

def resize (v : List UInt8) (n : Nat) : List UInt8 := v.take n ++ List.replicate (n - v.length) 0

/-! The header. -/

def MESSAGE_START_SIZE : Nat := 4
def COMMAND_SIZE : Nat := 12
def MESSAGE_SIZE_OFFSET : Nat := MESSAGE_START_SIZE + COMMAND_SIZE
def CHECKSUM_OFFSET : Nat := MESSAGE_SIZE_OFFSET + 4
def HEADER_SIZE : Nat := MESSAGE_START_SIZE + COMMAND_SIZE + 4 + 4

abbrev MessageStart := { bytes : List UInt8 // bytes.length = MESSAGE_START_SIZE }

structure CMessageHeader where
  pchMessageStart : List UInt8
  pchCommand : List UInt8
  nMessageSize : UInt32
  nChecksum : UInt32
deriving DecidableEq, Repr

namespace CMessageHeader

def strncpy (psz : List UInt8) (n : Nat) : List UInt8 :=
  let chars := (psz.takeWhile (· != 0)).take n
  chars ++ List.replicate (n - chars.length) 0

/-- The constructor without arguments. -/
def empty (start : MessageStart) : CMessageHeader where
  pchMessageStart := start.1
  pchCommand := (List.replicate COMMAND_SIZE 0).set 1 1
  nMessageSize := -1
  nChecksum := 0

def new (start : MessageStart) (pszCommand : List UInt8) (nMessageSizeIn : UInt32) :
    CMessageHeader where
  pchMessageStart := start.1
  pchCommand := strncpy pszCommand COMMAND_SIZE
  nMessageSize := nMessageSizeIn
  nChecksum := 0

def getCommand (hdr : CMessageHeader) : List UInt8 :=
  if hdr.pchCommand.getLast? = some 0 then hdr.pchCommand.takeWhile (· != 0) else hdr.pchCommand

def serialize (hdr : CMessageHeader) : List UInt8 :=
  hdr.pchMessageStart ++ (hdr.pchCommand ++
    (wordBytes 4 hdr.nMessageSize.toNat ++ wordBytes 4 hdr.nChecksum.toNat))

def unserialize : Reader StreamError CMessageHeader := do
  let pchMessageStart ← readBytes .endOfData MESSAGE_START_SIZE
  let pchCommand ← readBytes .endOfData COMMAND_SIZE
  let nMessageSize ← readUInt32
  let nChecksum ← readUInt32
  pure ⟨pchMessageStart, pchCommand, nMessageSize, nChecksum⟩

end CMessageHeader

/-! Receiving. -/

structure CNetMessage where
  in_data : Bool
  hdrbuf : List UInt8
  hdr : CMessageHeader
  nHdrPos : UInt32
  vRecv : List UInt8
  nDataPos : UInt32
deriving DecidableEq, Repr

def asInt (n : Nat) : Int := (n : Int).bmod (2 ^ 32)

namespace CNetMessage

def new (start : MessageStart) : CNetMessage where
  in_data := false
  hdrbuf := resize [] 24
  hdr := CMessageHeader.empty start
  nHdrPos := 0
  vRecv := []
  nDataPos := 0

def complete (msg : CNetMessage) : Bool :=
  if msg.in_data = false then false else msg.hdr.nMessageSize == msg.nDataPos

def readHeader (msg : CNetMessage) (pch : List UInt8) : Except Fault (CNetMessage × Int) := do
  let nRemaining := 24 - msg.nHdrPos
  let nCopy := min nRemaining.toNat pch.length
  let hdrbuf ← memcpy msg.hdrbuf msg.nHdrPos.toNat pch nCopy
  let msg := { msg with hdrbuf := hdrbuf, nHdrPos := msg.nHdrPos + UInt32.ofNat nCopy }
  if msg.nHdrPos < 24 then return (msg, asInt nCopy)
  match CMessageHeader.unserialize msg.hdrbuf with
  | .error _ => return (msg, -1)
  | .ok (hdr, hdrbuf) =>
    let msg := { msg with hdr := hdr, hdrbuf := hdrbuf }
    if MAX_SIZE < hdr.nMessageSize.toNat then return (msg, -1)
    return ({ msg with in_data := true, vRecv := resize msg.vRecv hdr.nMessageSize.toNat },
      asInt nCopy)

def readData (msg : CNetMessage) (pch : List UInt8) : Except Fault (CNetMessage × Int) := do
  let nRemaining := msg.hdr.nMessageSize - msg.nDataPos
  let nCopy := min nRemaining.toNat pch.length
  let vRecv ← memcpy msg.vRecv msg.nDataPos.toNat pch nCopy
  return ({ msg with vRecv := vRecv, nDataPos := msg.nDataPos + UInt32.ofNat nCopy }, asInt nCopy)

def absorb (msg : CNetMessage) (pch : List UInt8) : Except Fault (CNetMessage × Int) :=
  if !msg.in_data then msg.readHeader pch else msg.readData pch

end CNetMessage

/-- The messages and the incomplete one behind them: a new one if there is none. -/
def currentMessage (start : MessageStart) (vRecvMsg : List CNetMessage) :
    List CNetMessage × CNetMessage :=
  match vRecvMsg.getLast? with
  | none => (vRecvMsg, CNetMessage.new start)
  | some msg =>
    if msg.complete then (vRecvMsg, CNetMessage.new start) else (vRecvMsg.dropLast, msg)

/-- The loop of `ReceiveMsgBytes`: what it returns and the messages it leaves. -/
def receiveLoop (start : MessageStart) :
    Nat → List CNetMessage → List UInt8 → Except Fault (Bool × List CNetMessage)
  | _, vRecvMsg, [] => .ok (true, vRecvMsg)
  | 0, _, _ => .error .outOfRounds
  | rounds + 1, vRecvMsg, pch => do
    let (before, msg) := currentMessage start vRecvMsg
    let (msg, handled) ← msg.absorb pch
    if handled < 0 then return (false, before ++ [msg])
    receiveLoop start rounds (before ++ [msg]) (pch.drop handled.toNat)

/-- `ReceiveMsgBytes`. A call gets fewer than 2^32 bytes in the source. Every round should handle a
byte at least. -/
def receiveMsgBytes (start : MessageStart) (vRecvMsg : List CNetMessage) (pch : List UInt8) :
    Except Fault (Bool × List CNetMessage) :=
  receiveLoop start pch.length vRecvMsg pch

/-- Calls of `ReceiveMsgBytes` one after the other. The first that returns false closes the socket;
with the result come the chunks that are not received any more. -/
def receiveChunks (start : MessageStart) (vRecvMsg : List CNetMessage) :
    List (List UInt8) → Except Fault (Bool × List CNetMessage × List (List UInt8))
  | [] => .ok (true, vRecvMsg, [])
  | chunk :: chunks => do
    let (fRet, vRecvMsg) ← receiveMsgBytes start vRecvMsg chunk
    if fRet then receiveChunks start vRecvMsg chunks else return (false, vRecvMsg, chunks)

/-! Sending. -/

def setSizeAndChecksum (hash : List UInt8 → uint256) (ssSend : List UInt8) :
    Except Fault (List UInt8) := do
  let nSize := UInt32.ofNat ssSend.length - UInt32.ofNat HEADER_SIZE
  let ssSend ← memcpy ssSend MESSAGE_SIZE_OFFSET (wordBytes 4 nSize.toNat) 4
  let nChecksum := UInt32.ofNat (hash (ssSend.drop HEADER_SIZE))
  if ssSend.length < CHECKSUM_OFFSET + 4 then throw .ssSendShort
  memcpy ssSend CHECKSUM_OFFSET (wordBytes 4 nChecksum.toNat) 4

def WSAEINTR : Int := 4
def WSAEWOULDBLOCK : Int := 11
def WSAEMSGSIZE : Int := 90
def WSAEINPROGRESS : Int := 115

/-- What the calls of `send` answer, by their number: the result for the bytes that are handed over,
which is never more than there are, and the error. -/
structure SendAnswers where
  send : Nat → List UInt8 → Int
  send_le : ∀ call data, send call data ≤ data.length
  nErr : Nat → Int

/-- The part of `CNode` that sends. `calls` numbers the calls of `send`; `sent` is what the socket has
taken and `queued` what `EndMessage` has put into the queue, since the start. -/
structure CNode where
  hSocket : Bool := true
  fDisconnect : Bool := false
  ssSend : List UInt8 := []
  nSendSize : UInt64 := 0
  nSendOffset : Nat := 0
  vSendMsg : List (List UInt8) := []
  nSendBytes : UInt64 := 0
  calls : Nat := 0
  sent : List UInt8 := []
  queued : List (List UInt8) := []
deriving DecidableEq

namespace CNode

variable (answers : SendAnswers)

/-- `CloseSocketDisconnect`, without the queue of received messages that it clears. -/
def closeSocketDisconnect (pnode : CNode) : CNode := { pnode with fDisconnect := true, hSocket := false }

def send (pnode : CNode) (data : List UInt8) : Int × CNode :=
  let nBytes := if pnode.hSocket then answers.send pnode.calls data else -1
  (nBytes, { pnode with calls := pnode.calls + 1, sent := pnode.sent ++ data.take nBytes.toNat })

def sendLoop : List (List UInt8) → CNode → Except Fault (List (List UInt8) × CNode)
  | [], pnode => .ok ([], pnode)
  | data :: it, pnode => do
    if ¬ pnode.nSendOffset < data.length then throw .offsetBeyond
    let (nBytes, pnode') := pnode.send answers (data.drop pnode.nSendOffset)
    if 0 < nBytes then
      let nSendOffset := pnode'.nSendOffset + nBytes.toNat
      let nSendBytes := pnode'.nSendBytes + UInt64.ofNat nBytes.toNat
      if nSendOffset = data.length then
        sendLoop it { pnode' with
          nSendOffset := 0
          nSendBytes := nSendBytes
          nSendSize := pnode'.nSendSize - UInt64.ofNat data.length }
      else return (data :: it, { pnode' with nSendOffset := nSendOffset, nSendBytes := nSendBytes })
    else if nBytes < 0 then
      let nErr := answers.nErr pnode.calls
      if nErr ≠ WSAEWOULDBLOCK ∧ nErr ≠ WSAEMSGSIZE ∧ nErr ≠ WSAEINTR ∧ nErr ≠ WSAEINPROGRESS then
        return (data :: it, pnode'.closeSocketDisconnect)
      else return (data :: it, pnode')
    else return (data :: it, pnode')

def socketSendData (pnode : CNode) : Except Fault CNode := do
  let (it, pnode) ← sendLoop answers pnode.vSendMsg pnode
  if it = [] ∧ pnode.nSendOffset ≠ 0 then throw .offsetLeft
  if it = [] ∧ pnode.nSendSize ≠ 0 then throw .sizeLeft
  return { pnode with vSendMsg := it }

variable (start : MessageStart) (hash : List UInt8 → uint256)

def beginMessage (pszCommand : List UInt8) (pnode : CNode) : Except Fault CNode :=
  if pnode.ssSend ≠ [] then .error .ssSendInUse
  else .ok { pnode with ssSend := (CMessageHeader.new start pszCommand 0).serialize }

def abortMessage (pnode : CNode) : CNode := { pnode with ssSend := [] }

def endMessage (fDrop : Bool) (pnode : CNode) : Except Fault CNode := do
  if fDrop then return pnode.abortMessage
  if pnode.ssSend = [] then return pnode
  let ssSend ← setSizeAndChecksum hash pnode.ssSend
  let fEmpty := pnode.vSendMsg.isEmpty
  let pnode := { pnode with
    ssSend := []
    vSendMsg := pnode.vSendMsg ++ [ssSend]
    nSendSize := pnode.nSendSize + UInt64.ofNat ssSend.length
    queued := pnode.queued ++ [ssSend] }
  if fEmpty then pnode.socketSendData answers else return pnode

inductive Call where
  | beginMessage (pszCommand : List UInt8)
  /-- `ssSend << a`: the bytes of `a`. -/
  | write (bytes : List UInt8)
  | abortMessage
  | endMessage (fDrop : Bool)
  | socketSendData

def step (pnode : CNode) : Call → Except Fault CNode
  | .beginMessage pszCommand => pnode.beginMessage start pszCommand
  | .write bytes => .ok { pnode with ssSend := pnode.ssSend ++ bytes }
  | .abortMessage => .ok pnode.abortMessage
  | .endMessage fDrop => pnode.endMessage answers hash fDrop
  | .socketSendData => pnode.socketSendData answers

def run (pnode : CNode) (calls : List Call) : Except Fault CNode :=
  calls.foldlM (step answers start hash) pnode

end CNode

end Triangles.Net

/-! Alerts (alert.h, alert.cpp). The notices to the user interface and the command of `-alertnotify`
are left out. -/

namespace Triangles.Alert

open Std (ExtTreeMap)
open Codec

structure CUnsignedAlert where
  nVersion : Int
  nRelayUntil : Int
  nExpiration : Int
  nID : Int
  nCancel : Int
  setCancel : Finset Int
  nMinVer : Int
  nMaxVer : Int
  setSubVer : Finset (List UInt8)
  nPriority : Int
  strComment : List UInt8
  strStatusBar : List UInt8
  strReserved : List UInt8
deriving DecidableEq

structure CAlert extends CUnsignedAlert where
  vchMsg : List UInt8
  vchSig : List UInt8
deriving DecidableEq

def unserializeSet {α : Type} [DecidableEq α] (r : Reader StreamError α) :
    Reader StreamError (Finset α) := do
  let nSize ← readCompactSize
  let keys ← readMany r nSize
  pure keys.toFinset

def unserializeString : Reader StreamError (List UInt8) := do
  let nSize ← readCompactSize
  readBytes .endOfData nSize

def CUnsignedAlert.unserialize : Reader StreamError CUnsignedAlert := do
  let nVersion ← readSigned 4
  let nRelayUntil ← readSigned 8
  let nExpiration ← readSigned 8
  let nID ← readSigned 4
  let nCancel ← readSigned 4
  let setCancel ← unserializeSet (readSigned 4)
  let nMinVer ← readSigned 4
  let nMaxVer ← readSigned 4
  let setSubVer ← unserializeSet unserializeString
  let nPriority ← readSigned 4
  let strComment ← unserializeString
  let strStatusBar ← unserializeString
  let strReserved ← unserializeString
  pure { nVersion, nRelayUntil, nExpiration, nID, nCancel, setCancel, nMinVer, nMaxVer, setSubVer,
         nPriority, strComment, strStatusBar, strReserved }

def phexdigit (c : UInt8) : Option UInt8 :=
  if 48 ≤ c ∧ c ≤ 57 then some (c - 48)
  else if 65 ≤ c ∧ c ≤ 70 then some (c - 55)
  else if 97 ≤ c ∧ c ≤ 102 then some (c - 87)
  else none

def parseHex : List UInt8 → List UInt8
  | [] => []
  | [_] => []
  | c :: d :: rest =>
    if isSpace c then parseHex (d :: rest)
    else
      match phexdigit c, phexdigit d with
      | some hi, some lo => (hi <<< 4 ||| lo) :: parseHex rest
      | _, _ => []

def pszMainKey : List UInt8 :=
  ascii "a68b432b54018c4b1f653c2dbe0d3507b6b3939af8e97fdbee543dee3fd64bf590404330cf0c0e76bb8591011dcb61ad4f28c48940a09db1f3588e35827c89c09a"

def pszTestKey : List UInt8 :=
  ascii "a68b432b54018c4b1f653c2dbe0d3507b6b3939af8e97fdbee543dee3fd64bf590404330cf0c0e76bb8591011dcb61ad4f28c48940a09db1f3588e35827c89c09a"

def alertKey (fTestNet : Bool) : List UInt8 := parseHex (if fTestNet then pszTestKey else pszMainKey)

structure AlertEnv (K : Type) where
  hash : List UInt8 → uint256
  keys : KeyOps K

abbrev AlertMap := ExtTreeMap uint256 CAlert compare

variable {K : Type} (env : AlertEnv K) (vchKey : List UInt8) (now : Int)

namespace CAlert

def getHash (alert : CAlert) : uint256 := env.hash alert.vchMsg

def isInEffect (alert : CAlert) : Bool := decide (now < alert.nExpiration)

def cancels (self alert : CAlert) : Bool :=
  if !self.isInEffect now then false
  else decide (alert.nID ≤ self.nCancel) || decide (alert.nID ∈ self.setCancel)

/-- `CheckSignature` with the key that these bytes encode: the fields come out of the message. A message
that is not one of an alert throws an exception. -/
def checkSignature (vchMsg vchSig : List UInt8) : Except StreamError (Option CAlert) :=
  if !env.keys.check vchKey (env.hash vchMsg) vchSig then .ok none
  else do
    let (fields, _) ← CUnsignedAlert.unserialize vchMsg
    return some { toCUnsignedAlert := fields, vchMsg := vchMsg, vchSig := vchSig }

end CAlert

def maxInt : Int := 2 ^ 31 - 1

def isFinal (alert : CAlert) : Bool :=
  alert.nExpiration = maxInt && alert.nCancel = maxInt - 1 && alert.nMinVer = 0 &&
    alert.nMaxVer = maxInt && alert.setSubVer = ∅ && alert.nPriority = maxInt &&
    alert.strStatusBar = ascii "URGENT: Alert key compromised, upgrade required"

def cancelPrevious (self : CAlert) (mapAlerts : AlertMap) : AlertMap :=
  mapAlerts.toList.foldl (fun mapAlerts mi =>
    if self.cancels now mi.2 then mapAlerts.erase mi.1
    else if !mi.2.isInEffect now then mapAlerts.erase mi.1
    else mapAlerts) mapAlerts

def processSigned (alert : CAlert) (mapAlerts : AlertMap) : Bool × AlertMap :=
  if !alert.isInEffect now then (false, mapAlerts)
  else if alert.nID = maxInt ∧ isFinal alert = false then (false, mapAlerts)
  else
    let mapAlerts := cancelPrevious now alert mapAlerts
    if mapAlerts.toList.any fun item => item.2.cancels now alert then (false, mapAlerts)
    else (true, mapAlerts.insertIfNew (alert.getHash env) alert)

def processAlert (vchMsg vchSig : List UInt8) (mapAlerts : AlertMap) :
    Except StreamError (Bool × AlertMap) := do
  match ← CAlert.checkSignature env vchKey vchMsg vchSig with
  | none => return (false, mapAlerts)
  | some alert => return processSigned env now alert mapAlerts

structure Arrival where
  now : Int
  vchMsg : List UInt8
  vchSig : List UInt8

/-- An exception leaves the map as it is. -/
def arrive (mapAlerts : AlertMap) (a : Arrival) : AlertMap :=
  match processAlert env vchKey a.now a.vchMsg a.vchSig mapAlerts with
  | .ok (_, mapAlerts) => mapAlerts
  | .error _ => mapAlerts

def run (arrivals : List Arrival) : AlertMap := arrivals.foldl (arrive env vchKey) ∅

end Triangles.Alert
