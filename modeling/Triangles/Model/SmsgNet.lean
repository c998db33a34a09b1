import Triangles.Lib.Slots
import Triangles.Model.SmsgInbox
import Triangles.Model.SmsgStore

/-! The messages between nodes that keep their buckets in step (smessage.cpp): `SecureMsgSendData`
and `SecureMsgReceiveData`. The vector in a message is taken as it arrives. -/

namespace Triangles

inductive SmsgCommand where
  | smsgInv
  | smsgShow
  | smsgHave
  | smsgWant
  | smsgMsg
  | smsgMatch
  | smsgPing
  | smsgPong
  | smsgDisabled
  | smsgIgnore
deriving DecidableEq, Repr

structure SecMsgNode where
  lastSeen : Int := 0
  lastMatched : Int := 0
  ignoreUntil : Int := 0
  nWakeCounter : Nat := 0
  nPeerId : Nat := 0
  fEnabled : Bool := false
deriving DecidableEq, Repr

/-- What handling a message does: to the store, to the node's notes on the peer, the result, the
scores given to the peer, the messages pushed to it, and those given to `SecureMsgScanMessage`. -/
structure SmsgReply where
  store : SmsgStore
  peer : SecMsgNode
  fResult : Bool := true
  scores : List Nat := []
  pushed : List (SmsgCommand × List UInt8) := []
  scanned : List Smsg := []

def pushedData (strCommand : SmsgCommand) (pushed : List (SmsgCommand × List UInt8)) :
    List (List UInt8) :=
  (pushed.filter fun p => decide (p.1 = strCommand)).map Prod.snd

def tokenAt (v : List UInt8) (offset : Nat) : TokenKey :=
  ⟨int64Of (slice v offset 8), eightBytes (slice v (offset + 8) 8), int64Of_range _,
    eightBytes_length _⟩

def TokenKey.bytes (t : TokenKey) : List UInt8 := signedBytes 8 t.timestamp ++ t.sample

/-! `smsgInv`. -/

def inventoryEntry (time : Int) (b : SecMsgBucket) : List UInt8 :=
  signedBytes 8 time ++ wordBytes 4 b.setTokens.size ++ wordBytes 4 b.hash.toNat

def shownBuckets (lastMatched : Int) (s : SmsgStore) : List (Int × SecMsgBucket) :=
  s.smsgBuckets.toList.filter fun (_, b) =>
    !(decide (b.timeChanged < lastMatched) || decide (b.setTokens.size % 2 ^ 32 < 1))

def inventory (lastMatched : Int) (s : SmsgStore) : List UInt8 :=
  wordBytes 4 (shownBuckets lastMatched s).length ++
    (shownBuckets lastMatched s).flatMap fun (time, b) => inventoryEntry time b

def wake (nRand : Nat) (peer : SecMsgNode) : SecMsgNode :=
  let peer :=
    if peer.nWakeCounter < 1 then { peer with lastMatched := 0, nWakeCounter := 10 + nRand }
    else peer
  { peer with nWakeCounter := peer.nWakeCounter - 1 }

/-- `SecureMsgSendData`: the notes on the peer, and what is pushed to it. `nRand` is
`GetRandInt(300)`. -/
def secureMsgSendData (now : Int) (nPeerIdCounter nRand : Nat) (s : SmsgStore)
    (peer : SecMsgNode) : SecMsgNode × List (SmsgCommand × List UInt8) :=
  if peer.lastSeen = 0 then
    ({ peer with nPeerId := nPeerIdCounter, lastSeen := now }, [(.smsgPing, [])])
  else if peer.fEnabled = false ∨ now - peer.lastSeen < SMSG_SEND_DELAY ∨ now < peer.ignoreUntil then (peer, [])
  else
    let peer := wake nRand peer
    ({ peer with lastSeen := now },
      if (shownBuckets peer.lastMatched s).isEmpty then []
      else [(.smsgInv, inventory peer.lastMatched s)])

structure InvState where
  store : SmsgStore
  shown : List Int := []
  nLocked : Nat := 0
  scores : List Nat := []

def receiveInvEntry (now : Int) (r : InvState) (p : List UInt8) : InvState :=
  let time := int64Of (slice p 0 8)
  let ncontent := leValue (slice p 8 4)
  let hash := UInt32.ofNat (leValue (slice p 12 4))
  if time < now - SMSG_RETENTION then
    if time < now - SMSG_RETENTION - SMSG_TIME_LEEWAY then { r with scores := r.scores ++ [1] }
    else r
  else if now + SMSG_TIME_LEEWAY < time then { r with scores := r.scores ++ [1] }
  else if ncontent < 1 then r
  else
    let b := r.store.bucket time
    let r := { r with store := r.store.setBucket time b }
    if 0 < b.nLockCount then { r with nLocked := r.nLocked + 1 }
    else if b.setTokens.size < ncontent ∨ (b.setTokens.size = ncontent ∧ b.hash ≠ hash) then
      { r with shown := r.shown ++ [time] }
    else r

section Handlers

variable (now : Int) (peer : SecMsgNode) (s : SmsgStore)

def receiveInv (vchData : List UInt8) : SmsgReply :=
  if vchData.length < 4 then { store := s, peer, fResult := false, scores := [1] }
  else if now < peer.ignoreUntil then { store := s, peer, fResult := false }
  else
    let nInvBuckets := leValue (slice vchData 0 4)
    if SMSG_RETENTION / SMSG_BUCKET_LEN + 1 < nInvBuckets then
      { store := s, peer, fResult := false, scores := [1] }
    else if vchData.length < 4 + nInvBuckets * 16 then
      { store := s, peer, fResult := false, scores := [1] }
    else
      let r := (List.range nInvBuckets).foldl
        (fun r i => receiveInvEntry now r (slice vchData (4 + 16 * i) 16)) { store := s }
      { store := r.store
        peer
        scores := r.scores
        pushed :=
          if !r.shown.isEmpty then
            [(.smsgShow, wordBytes 4 r.shown.length ++ r.shown.flatMap (signedBytes 8))]
          else if r.nLocked < 1 then [(.smsgMatch, signedBytes 8 now)]
          else [] }

/-! `smsgShow`. -/

def tokenList (time : Int) (tokenSet : TokenSet) : List UInt8 :=
  signedBytes 8 time ++ tokenSet.keys.flatMap TokenKey.bytes

def receiveShow (vchData : List UInt8) (beyond : Nat → UInt8) : SmsgReply :=
  let nBuckets := leValue (slice vchData 0 4)
  if vchData.length < 4 then { store := s, peer, fResult := false }
  else if vchData.length < (4 + nBuckets * 8) % 2 ^ 32 then { store := s, peer, fResult := false }
  else
    { store := s
      peer
      pushed := (List.range nBuckets).filterMap fun i =>
        let time := int64Of (readMemory vchData beyond (4 + 8 * i) 8)
        (s.smsgBuckets[time]?).map fun b => (.smsgHave, tokenList time b.setTokens) }

/-! `smsgHave`. -/

def wantedTokens (vchData : List UInt8) (tokenSet : TokenSet) : List (List UInt8) :=
  ((List.range ((vchData.length - 8) / 16)).filter fun i =>
    !tokenSet.contains (tokenAt vchData (8 + 16 * i))).map fun i => slice vchData (8 + 16 * i) 16

def receiveHave (vchData : List UInt8) : SmsgReply :=
  let time := int64Of (slice vchData 0 8)
  if vchData.length < 8 then { store := s, peer, fResult := false }
  else if time < now - SMSG_RETENTION then { store := s, peer, fResult := false }
  else if now + SMSG_TIME_LEEWAY < time then
    { store := s, peer, fResult := false, scores := [1] }
  else
    let b := s.bucket time
    if 0 < b.nLockCount then { store := s.setBucket time b, peer, fResult := false }
    else
      let wanted := wantedTokens vchData b.setTokens
      if wanted.isEmpty then { store := s.setBucket time b, peer }
      else
        { store := s.setBucket time { b with nLockCount := 3, nLockPeerId := peer.nPeerId }
          peer
          pushed := [(.smsgWant, slice vchData 0 8 ++ wanted.flatten)] }

/-! `smsgWant`. -/

def bunchLoop (tokenSet : TokenSet) : List TokenKey → Nat × List UInt8 → Nat × List UInt8
  | [], r => r
  | token :: rest, r =>
    match tokenSet[token]? with
    | none => bunchLoop tokenSet rest r
    | some offset =>
      let r :=
        match secureMsgRetrieve s token.timestamp offset with
        | none => r
        | some vchOne => (r.1 + 1, r.2 ++ vchOne)
      if 500 ≤ r.1 ∨ 96000 ≤ 12 + r.2.length then r else bunchLoop tokenSet rest r

def receiveWant (vchData : List UInt8) : SmsgReply :=
  let time := int64Of (slice vchData 0 8)
  if vchData.length < 8 then { store := s, peer, fResult := false }
  else
    match s.smsgBuckets[time]? with
    | none => { store := s, peer, fResult := false }
    | some b =>
      let tokens := (List.range ((vchData.length - 8) / 16)).map fun i =>
        tokenAt vchData (8 + 16 * i)
      let r := bunchLoop s b.setTokens tokens (0, [])
      { store := s
        peer
        pushed :=
          if 0 < r.1 then [(.smsgMsg, wordBytes 4 r.1 ++ signedBytes 8 time ++ r.2)] else [] }

/-! The other messages. -/

def receiveMsg (xxh32 : List UInt8 → UInt32) (lib : SmsgLib) (vchData : List UInt8)
    (beyond : Nat → UInt8) : SmsgReply :=
  let r := secureMsgReceive xxh32 now lib vchData beyond s
  { store := r.store, peer, scores := r.scores, scanned := r.scanned }

def receiveMatch (vchData : List UInt8) : SmsgReply :=
  if vchData.length < 8 then { store := s, peer, fResult := false, scores := [1] }
  else
    let time := int64Of (slice vchData 0 8)
    { store := s
      peer := { peer with lastMatched := if now + SMSG_TIME_LEEWAY < time then now else time } }

def receiveIgnore (vchData : List UInt8) : SmsgReply :=
  if vchData.length < 8 then { store := s, peer, fResult := false, scores := [1] }
  else { store := s, peer := { peer with ignoreUntil := int64Of (slice vchData 0 8) } }

def secureMsgReceiveData (xxh32 : List UInt8 → UInt32) (lib : SmsgLib) (strCommand : SmsgCommand)
    (vchData : List UInt8) (beyond : Nat → UInt8) : SmsgReply :=
  match strCommand with
  | .smsgInv => receiveInv now peer s vchData
  | .smsgShow => receiveShow peer s vchData beyond
  | .smsgHave => receiveHave now peer s vchData
  | .smsgWant => receiveWant peer s vchData
  | .smsgMsg => receiveMsg now peer s xxh32 lib vchData beyond
  | .smsgMatch => receiveMatch now peer s vchData
  | .smsgPing => { store := s, peer, pushed := [(.smsgPong, [])] }
  | .smsgPong => { store := s, peer := { peer with fEnabled := true } }
  | .smsgDisabled => { store := s, peer := { peer with fEnabled := false } }
  | .smsgIgnore => receiveIgnore peer s vchData

end Handlers

def ignorePeer (ignoreUntil : Int) (nPeerId : Nat) : List SecMsgNode → List SecMsgNode
  | [] => []
  | pnode :: vNodes =>
    if pnode.nPeerId ≠ nPeerId then pnode :: ignorePeer ignoreUntil nPeerId vNodes
    else { pnode with ignoreUntil } :: vNodes

def threadSecureMsg (now : Int) (s : SmsgStore) (vNodes : List SecMsgNode) :
    SmsgStore × List SecMsgNode × List (Nat × SmsgCommand × List UInt8) :=
  let (s, timedOut) := expiryPass now s
  let ignoreUntil := now + SMSG_TIME_IGNORE
  (s, timedOut.foldl (fun vNodes nPeerId => ignorePeer ignoreUntil nPeerId vNodes) vNodes,
    timedOut.filterMap fun nPeerId =>
      (vNodes.findIdx? fun pnode => decide (pnode.nPeerId = nPeerId)).map fun i =>
        (i, .smsgIgnore, signedBytes 8 ignoreUntil))

end Triangles

/-! Which bytes of a message from a peer the code reads (smessage.cpp). Each function here takes the
branches of the one it is about and says what that reads. -/

namespace Triangles

open Spans

/-! `smsgMsg`. -/

/-- A round of the loop of `SecureMsgReceive`: its offset, what is read of the vector, and the score
given to the peer. -/
structure BunchRound where
  n : Nat
  reads : List (Nat × Nat) := []
  score : Option Nat := none
deriving DecidableEq, Repr

def headerReads (n : Nat) : List (Nat × Nat) := [(n + 4, 1), (n + 100, 4)]

/-- The rounds of the loop of `SecureMsgReceive`. The HMAC goes over the whole message, unless the
version or the length is wrong. A message that is kept has eight bytes of its
payload copied into its key. -/
def receiveRounds (xxh32 : List UInt8 → UInt32) (now : Int) (lib : SmsgLib)
    (scan : Smsg → Except SmsgFailure (Option (List UInt8))) (vchData : List UInt8)
    (beyond : Nat → UInt8) : Nat → Nat → SmsgStore → List BunchRound
  | 0, _, _ => []
  | rounds + 1, n, s =>
    if n ≤ vchData.length ∧ vchData.length - n < SMSG_HDR_LEN then [{ n }]
    else
      let m := smsgAt vchData beyond n
      let whole := headerReads n ++ [(n, SMSG_HDR_LEN + m.payload.length)]
      let rv := secureMsgValidate lib m
      if rv ≠ 0 then
        { n
          reads := if rv = 4 ∨ rv = 5 then headerReads n else whole
          score := some (if rv = 2 then 10 else 1) } ::
            receiveRounds xxh32 now lib scan vchData beyond rounds n s
      else
        match secureMsgStore xxh32 now false m s with
        | (0, s) =>
          match scan m with
          | .error _ => [{ n, reads := whole }]
          | .ok addressTo =>
            { n, reads := if addressTo.isSome then whole ++ [(n + SMSG_HDR_LEN, 8)] else whole } ::
              receiveRounds xxh32 now lib scan vchData beyond rounds
                (n + SMSG_HDR_LEN + m.payload.length) s
        | (_ + 1, _) => [{ n, reads := whole }]

def secureMsgReceiveReads (xxh32 : List UInt8 → UInt32) (now : Int) (lib : SmsgLib)
    (scan : Smsg → Except SmsgFailure (Option (List UInt8))) (vchData : List UInt8)
    (beyond : Nat → UInt8) (s : SmsgStore) : List (Nat × Nat) × List BunchRound :=
  if vchData.length < 12 then ([], [])
  else
    let nBunch := leValue (slice vchData 0 4)
    let bktTime := int64Of (slice vchData 4 8)
    if now + SMSG_TIME_LEEWAY < bktTime then ([(0, 4), (4, 8)], [])
    else if bktTime < now - SMSG_RETENTION then ([(0, 4), (4, 8)], [])
    else if nBunch = 0 ∨ 500 < nBunch then ([(0, 4), (4, 8)], [])
    else ([(0, 4), (4, 8)], receiveRounds xxh32 now lib scan vchData beyond nBunch 12 s)

/-! The other messages with a vector. -/

/-- What a handler reads of its vector, the sizes that it computes with 32 bits and goes on with, as
they would be without a bound, and how often its loop runs. -/
structure ControlReads where
  reads : List (Nat × Nat) := []
  sizes : List Nat := []
  rounds : Nat := 0
deriving DecidableEq, Repr

section Control

variable (now : Int) (peer : SecMsgNode) (s : SmsgStore) (vchData : List UInt8)

def invReads : ControlReads :=
  if vchData.length < 4 then {}
  else if now < peer.ignoreUntil then {}
  else
    let nInvBuckets := leValue (slice vchData 0 4)
    if SMSG_RETENTION / SMSG_BUCKET_LEN + 1 < nInvBuckets then { reads := [(0, 4)] }
    else if vchData.length < (4 + nInvBuckets * 16) % 2 ^ 32 then { reads := [(0, 4)] }
    else
      { reads := (0, 4) :: (table 4 16 8 nInvBuckets ++ table 12 16 4 nInvBuckets ++
          table 16 16 4 nInvBuckets)
        sizes := [4 + nInvBuckets * 16]
        rounds := nInvBuckets }

def showReads : ControlReads :=
  if vchData.length < 4 then {}
  else
    let nBuckets := leValue (slice vchData 0 4)
    if vchData.length < (4 + nBuckets * 8) % 2 ^ 32 then { reads := [(0, 4)] }
    else
      { reads := (0, 4) :: table 4 8 8 nBuckets
        sizes := [4 + nBuckets * 8]
        rounds := nBuckets }

def tokenReads (n : Nat) : List (Nat × Nat) := table 8 16 8 n ++ table 16 16 8 n

def haveReads : ControlReads :=
  if vchData.length < 8 then {}
  else
    let time := int64Of (slice vchData 0 8)
    if time < now - SMSG_RETENTION ∨ now + SMSG_TIME_LEEWAY < time ∨
        0 < (s.bucket time).nLockCount then { reads := [(0, 8)] }
    else
      let n := (vchData.length - 8) / 16
      { reads := (0, 8) :: (tokenReads n ++ table 8 16 16 n), rounds := n }

def addToBunch (token : TokenKey) (offset : Nat) (r : Nat × List UInt8) : Nat × List UInt8 :=
  match secureMsgRetrieve s token.timestamp offset with
  | none => r
  | some vchOne => (r.1 + 1, r.2 ++ vchOne)

def bunchFull (r : Nat × List UInt8) : Bool := decide (500 ≤ r.1 ∨ 96000 ≤ 12 + r.2.length)

def bunchRounds (tokenSet : TokenSet) : List TokenKey → Nat × List UInt8 → Nat
  | [], _ => 0
  | token :: rest, r =>
    match tokenSet[token]? with
    | none => bunchRounds tokenSet rest r + 1
    | some offset =>
      let r := addToBunch s token offset r
      if bunchFull r then 1 else bunchRounds tokenSet rest r + 1

def wantReads : ControlReads :=
  if vchData.length < 8 then {}
  else
    match s.smsgBuckets[int64Of (slice vchData 0 8)]? with
    | none => { reads := [(0, 8)] }
    | some b =>
      let tokens := (List.range ((vchData.length - 8) / 16)).map fun i =>
        tokenAt vchData (8 + 16 * i)
      let rounds := bunchRounds s b.setTokens tokens (0, [])
      { reads := (0, 8) :: tokenReads rounds, rounds }

def timeReads : ControlReads := if vchData.length < 8 then {} else { reads := [(0, 8)] }

def controlReads (strCommand : SmsgCommand) : ControlReads :=
  match strCommand with
  | .smsgInv => invReads now peer vchData
  | .smsgShow => showReads vchData
  | .smsgHave => haveReads now s vchData
  | .smsgWant => wantReads s vchData
  | .smsgMatch | .smsgIgnore => timeReads vchData
  | .smsgMsg | .smsgPing | .smsgPong | .smsgDisabled => {}

end Control

/-! The payload of a message, decrypted. -/

/-- An index into a vector of some size, and how many bytes are read from there. -/
structure Access where
  size : Nat
  index : Nat
  nBytes : Nat
deriving DecidableEq, Repr

def Access.Valid (a : Access) : Prop := a.index < a.size ∧ a.index + a.nBytes ≤ a.size

instance (a : Access) : Decidable a.Valid :=
  inferInstanceAs (Decidable (a.index < a.size ∧ a.index + a.nBytes ≤ a.size))

/-- `SecMsgCrypter::Decrypt` takes the address of the first byte of the vector, which has the size of
the ciphertext. -/
def crypterAccesses (payload : List UInt8) : List Access := [⟨payload.length, 0, 0⟩]

/-- Where the text of a payload begins. -/
def textOffset (vchPayload : List UInt8) : Nat :=
  if vchPayload.head? = some 250 then 9 else SMSG_PL_HDR_LEN

/-- What `SecureMsgDecrypt` does with a decrypted payload: its indexes, the two numbers that it computes
with 32 bits as they would be without a bound, and how many bytes of the text are read out of how
many. -/
structure PayloadWalk where
  accesses : List Access
  lenData : Int
  nMessage : Nat
  nRead : Nat
deriving DecidableEq, Repr

/-- The sender is looked at when the payload is signed and has its text, and the signature when the
sender has an address. -/
def senderAccesses (lib : SmsgLib) (host : SmsgHost) (vchPayload : List UInt8) : List Access :=
  if vchPayload.head? = some 250 then []
  else
    match payloadText lib host vchPayload SMSG_PL_HDR_LEN with
    | .error _ => []
    | .ok _ =>
      ⟨vchPayload.length, 1, 20⟩ ::
        if (CTrianglesAddress.ofKeyID host.fTestNet (slice vchPayload 1 20)).isValid host.fTestNet then
          [⟨vchPayload.length, 1 + 20, 65⟩]
        else []

def payloadWalk (lib : SmsgLib) (host : SmsgHost) (vchPayload : List UInt8) (beyond : Nat → UInt8) :
    PayloadWalk :=
  let offset := textOffset vchPayload
  let lenData : Int := vchPayload.length - offset
  let lenPlain := leValue (readMemory vchPayload beyond (offset - 4) 4)
  let nRead :=
    if !host.resizes ((lenPlain + 1) % 2 ^ 32) then 0
    else if 128 < lenPlain then (lenData % 2 ^ 32).toNat
    else lenPlain
  { accesses := ⟨vchPayload.length, 0, 1⟩ :: ⟨vchPayload.length, offset - 4, 4⟩ ::
      ⟨vchPayload.length, offset, nRead⟩ :: senderAccesses lib host vchPayload
    lenData
    nMessage := lenPlain + 1
    nRead }

end Triangles
