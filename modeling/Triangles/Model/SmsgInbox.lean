import Triangles.Model.SendQueue

/-! The inbox (smessage.cpp): which messages `SecureMsgScanMessage` keeps, and what the scan of the
files of a locked wallet counts. The inbox is the "im" records of the database, which opens and takes
what is written; the public keys that decryption inserts there, the messages to the user and the flag
that turns these off are left out. -/

namespace Triangles

open Std (ExtTreeMap)
open Outcome

structure SecMsgAddress where
  sAddress : List UInt8
  fReceiveEnabled : Bool
  fReceiveAnon : Bool
deriving DecidableEq

def SecMsgAddress.addressTo (lib : SmsgLib) (it : SecMsgAddress) : List UInt8 :=
  (CTrianglesAddress.setString lib.hash it.sAddress).toString lib.hash

abbrev InboxDb := ExtTreeMap (List UInt8) SecMsgStored compare

def inboxPrefix : List UInt8 := [0x69, 0x6d]

def inboxKey (header : SmsgHeader) (sample : List UInt8) : List UInt8 :=
  inboxPrefix ++ (slice header.bytes 7 8 ++ sample)

def SMSG_MASK_UNREAD : UInt8 := 1

def inboxRecord (now : Int) (folderId : UInt16) (addressTo : List UInt8) (m : Smsg) : SecMsgStored where
  timeReceived := now
  status := SMSG_MASK_UNREAD
  folderId := folderId
  sAddrTo := addressTo
  sAddrOutbox := []
  vchMessage := m.bytes

/-- `ExistsSmesg`, and `WriteSmesg` when there is no record. -/
def addSmesg (db : InboxDb) (chKey : List UInt8) (smsgInbox : SecMsgStored) : InboxDb :=
  if db.contains chKey then db else db.insert chKey smsgInbox

section Scan

variable (lib : SmsgLib) (host : SmsgHost)

def scanAddresses (m : Smsg) : List SecMsgAddress → Except SmsgFailure (Option (List UInt8))
  | [] => .ok none
  | it :: smsgAddresses =>
    if !it.fReceiveEnabled then scanAddresses m smsgAddresses
    else if !it.fReceiveAnon then
      match secureMsgDecrypt lib host false (it.addressTo lib) m.header.message m.payload with
      | .error (.code _) => scanAddresses m smsgAddresses
      | .error e => .error e
      -- the loop ends whoever the sender is
      | .ok msg =>
        .ok (if msg.any (fun r => r.1.sFromAddress != anonAddress) then some (it.addressTo lib)
          else none)
    else
      match secureMsgDecrypt lib host true (it.addressTo lib) m.header.message m.payload with
      | .error (.code _) => scanAddresses m smsgAddresses
      | .error e => .error e
      | .ok _ => .ok (some (it.addressTo lib))

def secureMsgStoreUnscanned (now : Int) (m : Smsg) (wl : ExtTreeMap Int (List UInt8) compare) :
    Nat × ExtTreeMap Int (List UInt8) compare :=
  let timestamp := m.header.timestamp
  if now + SMSG_TIME_LEEWAY < timestamp then (1, wl)
  else if timestamp < now - SMSG_RETENTION then (1, wl)
  else
    let bucket := bucketOf timestamp
    (0, wl.insert bucket ((wl[bucket]?).getD [] ++ m.bytes))

/-- The messages that are the user's: the inbox, and the `_wl.dat` files by the time in their
names. -/
structure SmsgInbox where
  db : InboxDb := ∅
  wl : ExtTreeMap Int (List UInt8) compare := ∅

variable (fLocked : Bool) (smsgAddresses : List SecMsgAddress) (now : Int) (folderId : UInt16)

/-- `SecureMsgScanMessage`: the code, and the inbox. `behind` is what lies behind the payload in
memory: eight bytes of the payload go into the key, however many it has. -/
def secureMsgScanMessage (m : Smsg) (behind : Nat → UInt8) (inbox : SmsgInbox) :
    Except SmsgFailure (Nat × SmsgInbox) :=
  if fLocked then
    match secureMsgStoreUnscanned now m inbox.wl with
    | (0, wl) => .ok (3, { inbox with wl })
    | (_ + 1, wl) => .ok (1, { inbox with wl })
  else do
    match ← scanAddresses lib host m smsgAddresses with
    | none => pure (0, inbox)
    | some addressTo =>
      if !host.resizes ((SMSG_HDR_LEN + m.payload.length) % 2 ^ 32) then pure (1, inbox)
      else do
        -- the copy lies in the vector unless the size wrapped around
        check (decide (SMSG_HDR_LEN + m.payload.length < 2 ^ 32)) .outOfBounds
        let chKey := inboxKey m.header (readMemory m.payload behind 0 8)
        pure (0, { inbox with db := addSmesg inbox.db chKey (inboxRecord now folderId addressTo m) })

structure ScanCount where
  nMessages : Nat := 0
  nFoundMessages : Nat := 0
deriving DecidableEq

end Scan

/-! A bunch, with the scan of each message that is stored. -/

/-- What `SecureMsgScanMessage` comes to in the loop: the address a message is kept for, or an
exception. A locked wallet keeps a copy. -/
def scanResult (lib : SmsgLib) (host : SmsgHost) (fLocked : Bool)
    (smsgAddresses : List SecMsgAddress) (m : Smsg) : Except SmsgFailure (Option (List UInt8)) :=
  if fLocked then .ok none else scanAddresses lib host m smsgAddresses

/-- What `SecureMsgReceive` leaves: the store, the calls of `Misbehaving` with the offset of the record
and the score, and whether an exception went through it. -/
structure ScannedBunch where
  store : SmsgStore
  scores : List (Nat × Nat) := []
  fThrown : Bool := false

section Receive

variable (xxh32 : List UInt8 → UInt32) (now : Int) (lib : SmsgLib)
  (scan : Smsg → Except SmsgFailure (Option (List UInt8))) (vchData : List UInt8)
  (beyond : Nat → UInt8)

def receiveScans : Nat → Nat → SmsgStore → ScannedBunch
  | 0, _, s => { store := s }
  | rounds + 1, n, s =>
    if n ≤ vchData.length ∧ vchData.length - n < SMSG_HDR_LEN then { store := s }
    else
      let m := smsgAt vchData beyond n
      let rv := secureMsgValidate lib m
      if rv ≠ 0 then
        let r := receiveScans rounds n s
        { r with scores := (n, if rv = 2 then 10 else 1) :: r.scores }
      else
        match secureMsgStore xxh32 now false m s with
        | (0, s) =>
          match scan m with
          | .error _ => { store := s, fThrown := true }
          | .ok _ => receiveScans rounds (n + SMSG_HDR_LEN + m.payload.length) s
        | (_ + 1, s) => { store := s }

def secureMsgReceiveScans (s : SmsgStore) : ScannedBunch :=
  if vchData.length < 12 then { store := s }
  else
    let nBunch := leValue (slice vchData 0 4)
    let bktTime := int64Of (slice vchData 4 8)
    if now + SMSG_TIME_LEEWAY < bktTime then { store := s }
    else if bktTime < now - SMSG_RETENTION then { store := s }
    else if nBunch = 0 ∨ 500 < nBunch then
      { store := s.updateBucket bktTime fun b => { b with nLockCount := 0 }
        scores := [(0, 1)] }
    else
      let r := receiveScans xxh32 now lib scan vchData beyond nBunch 12 s
      if r.fThrown then r
      else
        { r with store := r.store.updateBucket bktTime fun b =>
            { b with nLockCount := 0, nLockPeerId := 0 }.hashBucket xxh32 now }

end Receive

/-! The loop of `SecureMsgWalletUnlocked` (smessage.cpp) over a file, round by round. The wallet may be
locked and unlocked between two rounds; the addresses and the other files do not change, as the loop
holds `cs_smsg`. -/

inductive WlEnd where
  /-- At the end of the file, which is removed. -/
  | scanned
  /-- There is no memory for a payload: the call returns 1. -/
  | failed
  /-- An exception of `SecureMsgScanMessage`. -/
  | thrown
deriving DecidableEq

/-- The loop over a file: where `fp` stands, what was counted, and how the loop was left. -/
structure WlScan where
  inbox : SmsgInbox
  fLocked : Bool
  now : Int
  fileTime : Int
  offset : Nat := 0
  count : ScanCount := {}
  ended : Option WlEnd := none

/-- `SecureMsgWalletUnlocked` up to the loop over a file: nothing while the wallet is locked, and for
a file that has expired or is not there. -/
def openWl (fSecMsgEnabled fLocked : Bool) (now fileTime : Int) (inbox : SmsgInbox) :
    Option WlScan :=
  if !fSecMsgEnabled then none
  else if fLocked then none
  else if fileTime < now - SMSG_RETENTION then none
  else if inbox.wl.contains fileTime then some { inbox, fLocked, now, fileTime }
  else none

namespace WlScan

def file (s : WlScan) : List UInt8 := (s.inbox.wl[s.fileTime]?).getD []

def remove (s : WlScan) : WlScan :=
  { s with
    inbox := { s.inbox with wl := s.inbox.wl.erase s.fileTime }
    ended := some .scanned }

def advance (s : WlScan) (m : Smsg) (rv : Nat) (inbox : SmsgInbox) : WlScan :=
  { s with
    inbox := inbox
    offset := s.offset + m.bytes.length
    count :=
      { nMessages := s.count.nMessages + 1
        nFoundMessages :=
          if rv = 0 then s.count.nFoundMessages + 1 else s.count.nFoundMessages } }

section Rounds

variable (lib : SmsgLib) (host : SmsgHost) (smsgAddresses : List SecMsgAddress)
  (folderId : UInt16) (behind : Nat → UInt8)

def next (s : WlScan) : WlScan :=
  if s.ended.isSome then s
  else if h : (slice s.file s.offset SMSG_HDR_LEN).length = SMSG_HDR_LEN then
    let header : SmsgHeader := ⟨slice s.file s.offset SMSG_HDR_LEN, h⟩
    if !host.resizes header.nPayload then { s with ended := some .failed }
    else
      match readFile s.file s.offset with
      | none => s.remove
      | some m =>
        match secureMsgScanMessage lib host s.fLocked smsgAddresses s.now folderId m behind
          s.inbox with
        | .error _ => { s with ended := some .thrown }
        | .ok (rv, inbox) => s.advance m rv inbox
  else s.remove

end Rounds

end WlScan

/-- What happens while a file is scanned: the wallet is locked or unlocked, time goes by, or a round of
the loop. -/
inductive WlEvent where
  | lock
  | unlock
  | time (now : Int)
  | next
deriving DecidableEq

section Events

variable (lib : SmsgLib) (host : SmsgHost) (smsgAddresses : List SecMsgAddress)
  (folderId : UInt16) (behind : Nat → UInt8)

def WlEvent.step (s : WlScan) : WlEvent → WlScan
  | .lock => { s with fLocked := true }
  | .unlock => { s with fLocked := false }
  | .time now => { s with now }
  | .next => s.next lib host smsgAddresses folderId behind

def WlEvent.run (s : WlScan) (events : List WlEvent) : WlScan :=
  events.foldl (WlEvent.step lib host smsgAddresses folderId behind) s

end Events

end Triangles
