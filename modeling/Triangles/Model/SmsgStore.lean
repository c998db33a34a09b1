import Mathlib.Tactic.Common
import Triangles.Model.SecureMsg

/-! The message store (smessage.h, smessage.cpp): buckets of tokens in memory, bucket files on disk,
and the calls that write, read, scan and drop them. File operations succeed. The copies that a
locked wallet keeps in `_wl.dat` files, the inbox and the messages to the user are left out: no call
modelled here reads them. -/

namespace Triangles

open Std (ExtTreeMap)

def SMSG_HDR_LEN : Nat := 104
def SMSG_BUCKET_LEN : Int := 60 * 10
def SMSG_RETENTION : Int := 60 * 60 * 48
def SMSG_SEND_DELAY : Int := 2
def SMSG_TIME_LEEWAY : Int := 60
def SMSG_TIME_IGNORE : Int := 90
def SMSG_MAX_MSG_BYTES : Nat := 4096

def LZ4_COMPRESSBOUND (isize : Nat) : Nat := isize + isize / 255 + 16

/-- The most bytes of a payload: `LZ4_COMPRESSBOUND` of a text and the header of a payload. -/
def SMSG_MAX_MSG_WORST : Nat := LZ4_COMPRESSBOUND (SMSG_MAX_MSG_BYTES + SMSG_PL_HDR_LEN)

/-! Bytes in memory. -/

def int64Of (bytes : List UInt8) : Int :=
  let n := leValue (bytes.take 8)
  if n < 9223372036854775808 then (n : Int) else (n : Int) - 18446744073709551616

def slice (v : List UInt8) (offset n : Nat) : List UInt8 := (v.drop offset).take n

def readMemory (v : List UInt8) (beyond : Nat → UInt8) (offset n : Nat) : List UInt8 :=
  (List.range n).map fun i =>
    if offset + i < v.length then v.getD (offset + i) 0 else beyond (offset + i - v.length)

def eightBytes (v : List UInt8) : List UInt8 := (v ++ List.replicate 8 0).take 8

theorem eightBytes_length (v : List UInt8) : (eightBytes v).length = 8 := by
  simp [eightBytes]

theorem readMemory_length (v : List UInt8) (beyond : Nat → UInt8) (offset n : Nat) :
    (readMemory v beyond offset n).length = n := by
  simp [readMemory]

def InInt64 (n : Int) : Prop := -(2 ^ 63) ≤ n ∧ n < 2 ^ 63

theorem int64Of_range (bytes : List UInt8) : InInt64 (int64Of bytes) := by
  have hlt := leValue_lt (bytes.take 8)
  have hpow : 256 ^ (bytes.take 8).length ≤ 256 ^ 8 :=
    Nat.pow_le_pow_right (by decide) (List.length_take_le 8 bytes)
  unfold InInt64 int64Of
  simp only
  split <;> omega

/-! Messages. -/

structure SmsgHeader where
  bytes : List UInt8
  length : bytes.length = SMSG_HDR_LEN
deriving DecidableEq

namespace SmsgHeader

def hash (h : SmsgHeader) : List UInt8 := slice h.bytes 0 4
def version (h : SmsgHeader) : List UInt8 := slice h.bytes 4 2
def timestamp (h : SmsgHeader) : Int := int64Of (slice h.bytes 7 8)
def nonse (h : SmsgHeader) : List UInt8 := slice h.bytes 96 4
def nPayload (h : SmsgHeader) : Nat := leValue (slice h.bytes 100 4)

end SmsgHeader

structure Smsg where
  header : SmsgHeader
  payload : List UInt8
  nPayload_eq : payload.length = header.nPayload
deriving DecidableEq

def Smsg.bytes (m : Smsg) : List UInt8 := m.header.bytes ++ m.payload

def smsgAt (v : List UInt8) (beyond : Nat → UInt8) (n : Nat) : Smsg :=
  let header : SmsgHeader :=
    ⟨readMemory v beyond n SMSG_HDR_LEN, readMemory_length v beyond n SMSG_HDR_LEN⟩
  ⟨header, readMemory v beyond (n + SMSG_HDR_LEN) header.nPayload, readMemory_length ..⟩

def powHash (lib : SmsgLib) (header : SmsgHeader) (payload : List UInt8) : Option (List UInt8) :=
  lib.hmac (List.replicate 8 header.nonse).flatten
    (header.bytes.drop 4 ++ payload ++ payload)

def meetsWork (sha256Hash : List UInt8) : Bool :=
  sha256Hash.getD 31 0 == 0 && sha256Hash.getD 30 0 == 0 && (~~~sha256Hash.getD 29 0) &&& 1 != 0

def secureMsgValidate (lib : SmsgLib) (m : Smsg) : Nat :=
  if m.header.version.headD 0 ≠ 1 then 4
  else if SMSG_MAX_MSG_WORST < m.payload.length then 5
  else
    match powHash lib m.header m.payload with
    | none => 1
    | some sha256Hash =>
      if sha256Hash.length ≠ 32 then 1
      else if m.header.hash ≠ sha256Hash.take 4 then 3
      else if meetsWork sha256Hash then 0
      else 2

/-! Tokens and buckets. -/

structure TokenKey where
  timestamp : Int
  sample : List UInt8
  timestamp_range : InInt64 timestamp
  sample_length : sample.length = 8
deriving DecidableEq

def tokenCmp (x y : TokenKey) : Ordering :=
  (compare x.timestamp y.timestamp).then (compare x.sample y.sample)

instance : Std.TransCmp tokenCmp :=
  inferInstanceAs
    (Std.TransCmp (compareLex (compareOn TokenKey.timestamp) (compareOn TokenKey.sample)))

instance : Std.LawfulEqCmp tokenCmp where
  eq_of_compare {x y} h := by
    obtain ⟨htime, hsample⟩ := Ordering.then_eq_eq.mp h
    cases x
    cases y
    simp only [Std.LawfulEqOrd.compare_eq_iff_eq] at htime hsample
    subst htime hsample
    rfl

/-- `SecMsgToken(ts, p, np, o)`, without the offset. -/
def Smsg.token (m : Smsg) : TokenKey where
  timestamp := m.header.timestamp
  sample := if m.payload.length < 8 then List.replicate 8 0 else eightBytes m.payload
  timestamp_range := int64Of_range _
  sample_length := by
    split
    · rfl
    · exact eightBytes_length _

abbrev TokenSet := ExtTreeMap TokenKey Nat tokenCmp

structure SecMsgBucket where
  timeChanged : Int := 0
  hash : UInt32 := 0
  nLockCount : Nat := 0
  nLockPeerId : Nat := 0
  setTokens : TokenSet := ∅

def TokenSet.samples (t : TokenSet) : List UInt8 := t.keys.flatMap TokenKey.sample

def SecMsgBucket.hashBucket (xxh32 : List UInt8 → UInt32) (now : Int) (b : SecMsgBucket) :
    SecMsgBucket :=
  { b with timeChanged := now, hash := xxh32 b.setTokens.samples }

structure SmsgStore where
  smsgBuckets : ExtTreeMap Int SecMsgBucket compare := ∅
  files : ExtTreeMap Int (List UInt8) compare := ∅

namespace SmsgStore

/-- `smsgBuckets[time]` as it is read, a new bucket when there is none. -/
def bucket (s : SmsgStore) (time : Int) : SecMsgBucket := (s.smsgBuckets[time]?).getD {}

def setBucket (s : SmsgStore) (time : Int) (b : SecMsgBucket) : SmsgStore :=
  { s with smsgBuckets := s.smsgBuckets.insert time b }

def updateBucket (s : SmsgStore) (time : Int) (f : SecMsgBucket → SecMsgBucket) : SmsgStore :=
  match s.smsgBuckets[time]? with
  | none => s
  | some b => s.setBucket time (f b)

end SmsgStore

def bucketOf (timestamp : Int) : Int := timestamp - timestamp.tmod SMSG_BUCKET_LEN

section Calls

variable (xxh32 : List UInt8 → UInt32) (now : Int)

def secureMsgStore (fUpdateBucket : Bool) (m : Smsg) (s : SmsgStore) : Nat × SmsgStore :=
  let timestamp := m.header.timestamp
  if now + SMSG_TIME_LEEWAY < timestamp then (1, s)
  else if timestamp < now - SMSG_RETENTION then (1, s)
  else
    let time := bucketOf timestamp
    let b := s.bucket time
    if m.token ∈ b.setTokens then (1, s.setBucket time b)
    else
      let file := (s.files[time]?).getD []
      let b := { b with setTokens := b.setTokens.insert m.token file.length }
      (0, { (s.setBucket time (if fUpdateBucket then b.hashBucket xxh32 now else b)) with
        files := s.files.insert time (file ++ m.bytes) })

def readFile (file : List UInt8) (offset : Nat) : Option Smsg :=
  if h : (slice file offset SMSG_HDR_LEN).length = SMSG_HDR_LEN then
    let header : SmsgHeader := ⟨slice file offset SMSG_HDR_LEN, h⟩
    let payload := slice file (offset + SMSG_HDR_LEN) header.nPayload
    if hp : payload.length = header.nPayload then some ⟨header, payload, hp⟩ else none
  else none

def secureMsgRetrieve (s : SmsgStore) (timestamp : Int) (offset : Nat) : Option (List UInt8) :=
  match s.files[bucketOf timestamp]? with
  | none => none
  | some file => (readFile file offset).map Smsg.bytes

/-- What receiving a bunch does: to the store, the scores given to the peer, and the messages that
go on to `SecureMsgScanMessage`, which leaves the buckets alone. -/
structure Received where
  store : SmsgStore
  scores : List Nat := []
  scanned : List Smsg := []

def receiveLoop (lib : SmsgLib) (vchData : List UInt8) (beyond : Nat → UInt8) :
    Nat → Nat → SmsgStore → Received
  | 0, _, s => { store := s }
  | rounds + 1, n, s =>
    -- `vchData.size() - n` is unsigned
    if n ≤ vchData.length ∧ vchData.length - n < SMSG_HDR_LEN then { store := s }
    else
      let m := smsgAt vchData beyond n
      let rv := secureMsgValidate lib m
      if rv ≠ 0 then
        let r := receiveLoop lib vchData beyond rounds n s
        { r with scores := (if rv = 2 then 10 else 1) :: r.scores }
      else
        match secureMsgStore xxh32 now false m s with
        | (0, s) =>
          let r := receiveLoop lib vchData beyond rounds (n + SMSG_HDR_LEN + m.payload.length) s
          { r with scanned := m :: r.scanned }
        | (_ + 1, s) => { store := s }

def secureMsgReceive (lib : SmsgLib) (vchData : List UInt8) (beyond : Nat → UInt8)
    (s : SmsgStore) : Received :=
  if vchData.length < 12 then { store := s }
  else
    let nBunch := leValue (slice vchData 0 4)
    let bktTime := int64Of (slice vchData 4 8)
    if now + SMSG_TIME_LEEWAY < bktTime then { store := s }
    else if bktTime < now - SMSG_RETENTION then { store := s }
    else if nBunch = 0 ∨ 500 < nBunch then
      { store := s.updateBucket bktTime fun b => { b with nLockCount := 0 }
        scores := [1] }
    else
      let r := receiveLoop xxh32 now lib vchData beyond nBunch 12 s
      { r with store := r.store.updateBucket bktTime fun b =>
          { b with nLockCount := 0, nLockPeerId := 0 }.hashBucket xxh32 now }

def scanFile (file : List UInt8) : Nat → Nat → List Smsg
  | 0, _ => []
  | rounds + 1, offset =>
    match readFile file offset with
    | none => []
    | some m => m :: scanFile file rounds (offset + m.bytes.length)

/-- `SecureMsgScanBuckets`: the messages it gives to `SecureMsgScanMessage`, and the store. A file
is removed when it has expired, and when it has been scanned. -/
def secureMsgScanBuckets (fSecMsgEnabled fLocked : Bool) (s : SmsgStore) : List Smsg × SmsgStore :=
  if !fSecMsgEnabled || fLocked then ([], s)
  else
    (s.files.toList.flatMap fun (fileTime, file) =>
      if fileTime < now - SMSG_RETENTION then [] else scanFile file file.length 0,
     s.files.toList.foldl (fun s f => { s with files := s.files.erase f.1 }) s)

/-- The loop of `SecureMsgBuildBucketSet` over a file. A payload of fewer than eight bytes is not
skipped, and `fseek` may go behind the end. -/
def scanTokens (file : List UInt8) : Nat → Nat → TokenSet → TokenSet
  | 0, _, tokenSet => tokenSet
  | rounds + 1, ofs, tokenSet =>
    if h : (slice file ofs SMSG_HDR_LEN).length = SMSG_HDR_LEN then
      let header : SmsgHeader := ⟨slice file ofs SMSG_HDR_LEN, h⟩
      if header.nPayload < 8 then scanTokens file rounds (ofs + SMSG_HDR_LEN) tokenSet
      else
        if hs : (slice file (ofs + SMSG_HDR_LEN) 8).length = 8 then
          let token : TokenKey :=
            ⟨header.timestamp, slice file (ofs + SMSG_HDR_LEN) 8, int64Of_range _, hs⟩
          scanTokens file rounds (ofs + SMSG_HDR_LEN + header.nPayload)
            (tokenSet.insertIfNew token ofs)
        else tokenSet
    else tokenSet

def buildBucket (s : SmsgStore) (f : Int × List UInt8) : SmsgStore :=
  if f.1 < now - SMSG_RETENTION then { s with files := s.files.erase f.1 }
  else
    let b := s.bucket f.1
    s.setBucket f.1
      ({ b with setTokens := scanTokens f.2 f.2.length 0 b.setTokens }.hashBucket xxh32 now)

/-- `SecureMsgBuildBucketSet`. Each file fills a bucket of its own, so the order of the directory
does not matter. -/
def secureMsgBuildBucketSet (s : SmsgStore) : SmsgStore :=
  s.files.toList.foldl (buildBucket xxh32 now) s

end Calls

def SecMsgBucket.tick (b : SecMsgBucket) : SecMsgBucket :=
  if b.nLockCount = 0 then b
  else if b.nLockCount = 1 then { b with nLockCount := 0, nLockPeerId := 0 }
  else { b with nLockCount := b.nLockCount - 1 }

/-- A pass of `ThreadSecureMsg`: expired buckets go with their files, locks are counted down. The
second part are the peers whose locks have timed out, in order. -/
def expiryPass (now : Int) (s : SmsgStore) : SmsgStore × List Nat :=
  let cutoffTime := now - SMSG_RETENTION
  ({ smsgBuckets := (s.smsgBuckets.filter fun time _ => decide (cutoffTime ≤ time)).map
       fun _ b => b.tick
     files := s.files.filter fun time _ =>
       !decide (time < cutoffTime ∧ time ∈ s.smsgBuckets) },
   s.smsgBuckets.toList.filterMap fun (time, b) =>
     if cutoffTime ≤ time ∧ b.nLockCount = 1 then some b.nLockPeerId else none)

end Triangles
