import Triangles.Model.SmsgStore

/-! The sender of secure messages (smessage.cpp, key.cpp): encrypting a text, and the proof of work.
What a failed allocation throws outside a `try` is left out, and so are the memory and the random
bytes that the header is made of, which are arguments. -/

namespace Triangles

open Outcome

structure SenderLib extends SmsgLib where
  /-- The public key of a secret. -/
  pub : List UInt8 → Point
  hash_length : ∀ v, (hash v).length = 32
  /-- AES-256 encryption of one block. -/
  aesEncrypt : List UInt8 → List UInt8 → List UInt8
  aesEncrypt_length : ∀ key block, (aesEncrypt key block).length = 16
  /-- `ECDSA_do_sign` of a hash with a secret: r and s, 32 bytes each. -/
  ecdsaSign : List UInt8 → List UInt8 → Option (List UInt8)
  ecdsaSign_length : ∀ secret hash rs, ecdsaSign secret hash = some rs → rs.length = 64
  /-- What `LZ4_compress` writes; nothing when it fails. -/
  lz4Compress : List UInt8 → List UInt8

/-- What is assumed of the libraries: ECDH is symmetric, AES decryption inverts encryption, compact
signatures recover the signer's key, and LZ4 decompression inverts a compression whose output is
bounded. -/
structure SenderLib.Sound (lib : SenderLib) : Prop where
  computeKey_symm : ∀ r k, lib.computeKey r (lib.pub k) = lib.computeKey k (lib.pub r)
  aesDecrypt_encrypt : ∀ key block : List UInt8, block.length = 16 →
    lib.aesDecrypt key (lib.aesEncrypt key block) = block
  recovers : ∀ secret hash, ∃ rs, lib.ecdsaSign secret hash = some rs ∧
    ∃ nRecId < 4, lib.recover hash rs nRecId = some (lib.pub secret)
  lz4_bound : ∀ v : List UInt8, (lib.lz4Compress v).length ≤ v.length + v.length / 255 + 2
  lz4_inverse : ∀ v : List UInt8, lib.lz4Compress v ≠ [] →
    lib.lz4Decompress (lib.lz4Compress v) v.length = ((v.length : Int), v)

structure SecretKey where
  secret : List UInt8
  fCompressed : Bool
deriving DecidableEq

def SecretKey.pubKey (lib : SenderLib) (key : SecretKey) : List UInt8 :=
  lib.i2o key.fCompressed (lib.pub key.secret)

/-- The node that sends: its network, its wallet, which gives keys that belong to the address they
are asked for, its directory of public keys, and for which sizes a vector can be allocated. -/
structure SmsgSender (lib : SenderLib) where
  fTestNet : Bool
  getKey : uint160 → Option SecretKey
  getKey_id : ∀ id key, getKey id = some key → lib.hash160 (key.pubKey lib) = id
  /-- `SecureMsgGetStoredKey`. -/
  readPK : SmsgDb
  resizes : Nat → Bool

/-- What a call finds: the clock, random bytes, the secret that `MakeNewKey` draws, what an
uninitialized header holds, and whether the calls of the cipher succeed. -/
structure EncryptChance where
  now : Int
  now_range : InInt64 now
  iv : List UInt8
  iv_length : iv.length = 16
  keyR : List UInt8
  hash : List UInt8
  hash_length : hash.length = 4
  flags : UInt8
  nonse : List UInt8
  nonse_length : nonse.length = 4
  fEncrypted : Bool

/-! The cipher. -/

def cbcEncrypt (encryptBlock : List UInt8 → List UInt8) :
    Nat → List UInt8 → List UInt8 → List UInt8
  | 0, _, _ => []
  | rounds + 1, prev, plain =>
    if plain.isEmpty then []
    else
      let block := encryptBlock (xorBytes (plain.take 16) prev)
      block ++ cbcEncrypt encryptBlock rounds block (plain.drop 16)

def pkcsPad (plain : List UInt8) : List UInt8 :=
  let n := 16 - plain.length % 16
  plain ++ List.replicate n (UInt8.ofNat n)

def crypterEncrypt (lib : SenderLib) (fEncrypted : Bool) (key iv plain : List UInt8) :
    Option (List UInt8) :=
  if fEncrypted then
    some (cbcEncrypt (lib.aesEncrypt key) (pkcsPad plain).length iv (pkcsPad plain))
  else none

/-! The parts of `SecureMsgEncrypt`. -/

def senderAddress (lib : SenderLib) (fTestNet : Bool) (addressFrom : List UInt8) :
    Except SmsgFailure (Option (CTrianglesAddress × uint160)) :=
  if addressFrom = anonAddress then .ok none
  else
    let coinAddrFrom := CTrianglesAddress.setString lib.hash addressFrom
    if !CTrianglesAddress.setStringOk lib.hash addressFrom then .error (.code 3)
    else
      match coinAddrFrom.getKeyID fTestNet with
      | none => .error (.code 3)
      | some ckidFrom => .ok (some (coinAddrFrom, ckidFrom))

def destKeyID (lib : SenderLib) (fTestNet : Bool) (addressTo : List UInt8) :
    Except SmsgFailure uint160 :=
  let coinAddrDest := CTrianglesAddress.setString lib.hash addressTo
  if !CTrianglesAddress.setStringOk lib.hash addressTo then .error (.code 4)
  else
    match coinAddrDest.getKeyID fTestNet with
    | none => .error (.code 4)
    | some ckidDest => .ok ckidDest

def secureMsgGetLocalKey {lib : SenderLib} (node : SmsgSender lib) (ckid : uint160) :
    Option (List UInt8) :=
  match node.getKey ckid with
  | none => none
  | some key =>
    let cpkOut := { key with fCompressed := true : SecretKey }.pubKey lib
    if cpkOut.length = 33 then some cpkOut else none

def destPubKey {lib : SenderLib} (node : SmsgSender lib) (ckidDest : uint160) :
    Except SmsgFailure (List UInt8) :=
  match node.readPK ckidDest with
  | some cpkDestK => .ok cpkDestK
  | none =>
    match secureMsgGetLocalKey node ckidDest with
    | some cpkDestK => .ok cpkDestK
    | none => .error (.code 5)

def senderKeys (lib : SenderLib) (keyR cpkDestK : List UInt8) :
    Except SmsgFailure (List UInt8 × List UInt8) :=
  match lib.o2i cpkDestK with
  | none => .error (.code 4)
  | some K =>
    match lib.computeKey keyR K with
    | none => .error (.code 6)
    | some vchP => .ok ((lib.sha512 vchP).take 32, (lib.sha512 vchP).drop 32)

def messageData (lib : SenderLib) (resizes : Nat → Bool) (message : List UInt8) :
    Except SmsgFailure (List UInt8) :=
  if 128 < message.length then
    if !resizes (LZ4_COMPRESSBOUND message.length) then .error (.code 8)
    else if (lib.lz4Compress message).length < 1 then .error (.code 9)
    else .ok (lib.lz4Compress message)
  else .ok message

/-- `CKey::SignCompact` into a vector of 65 zeros, which stays as it is when signing fails. -/
def signCompact (lib : SenderLib) (key : SecretKey) (hash : List UInt8) :
    Except SmsgFailure (List UInt8) :=
  match lib.ecdsaSign key.secret hash with
  | none => .ok (List.replicate 65 0)
  | some rs =>
    match (List.range 4).find? fun i =>
      (lib.recover hash rs i).map (lib.i2o key.fCompressed) == some (key.pubKey lib) with
    | none => .error .thrown
    | some nRecId => .ok (UInt8.ofNat (nRecId + 27 + if key.fCompressed then 4 else 0) :: rs)

def anonymousPayload (resizes : Nat → Bool) (lenMsg : Nat) (data : List UInt8) :
    Except SmsgFailure (List UInt8) :=
  if !resizes (9 + data.length) then .error (.code 8)
  else .ok (250 :: (List.replicate 4 0 ++ (wordBytes 4 lenMsg ++ data)))

def signedPayload {lib : SenderLib} (node : SmsgSender lib) (coinAddrFrom : CTrianglesAddress)
    (ckidFrom : uint160) (message data : List UInt8) : Except SmsgFailure (List UInt8) :=
  if !node.resizes (SMSG_PL_HDR_LEN + data.length) then .error (.code 8)
  else
    match node.getKey ckidFrom with
    | none => .error (.code 7)
    | some keyFrom => do
      let vchSignature ← signCompact lib keyFrom (lib.hash message)
      .ok (coinAddrFrom.nVersion ::
        (ckidFrom ++ (vchSignature ++ (wordBytes 4 message.length ++ data))))

def messagePayload {lib : SenderLib} (node : SmsgSender lib)
    (sender : Option (CTrianglesAddress × uint160)) (message data : List UInt8) :
    Except SmsgFailure (List UInt8) :=
  match sender with
  | none => anonymousPayload node.resizes message.length data
  | some (coinAddrFrom, ckidFrom) => signedPayload node coinAddrFrom ckidFrom message data

def packHeader (chance : EncryptChance) (cpkR mac : List UInt8) (nPayload : Nat) : List UInt8 :=
  chance.hash ++ ([1, 1, chance.flags] ++ (signedBytes 8 chance.now ++ (chance.iv ++
    (cpkR ++ (mac ++ (chance.nonse ++ wordBytes 4 nPayload))))))

theorem packHeader_length (chance : EncryptChance) {cpkR mac : List UInt8} (hR : cpkR.length = 33)
    (hmac : mac.length = 32) (nPayload : Nat) :
    (packHeader chance cpkR mac nPayload).length = SMSG_HDR_LEN := by
  simp only [packHeader, List.length_append, List.length_cons, List.length_nil, hR, hmac,
    chance.hash_length, chance.iv_length, chance.nonse_length, signedBytes, wordBytes_length]
  rfl

def sealMessage (lib : SenderLib) (resizes : Nat → Bool) (chance : EncryptChance)
    (cpkR key_m vchCiphertext : List UInt8) (hR : cpkR.length = 33) :
    Except SmsgFailure (SmsgHeader × List UInt8) :=
  if !resizes vchCiphertext.length then .error (.code 8)
  else
    match lib.hmac key_m (signedBytes 8 chance.now ++ vchCiphertext) with
    | none => .error (.code 10)
    | some mac =>
      if hmac : mac.length = 32 then
        .ok (⟨packHeader chance cpkR mac vchCiphertext.length,
          packHeader_length chance hR hmac _⟩, vchCiphertext)
      else .error (.code 10)

def secureMsgEncrypt {lib : SenderLib} (node : SmsgSender lib) (chance : EncryptChance)
    (addressFrom addressTo message : List UInt8) :
    Except SmsgFailure (SmsgHeader × List UInt8) := do
  check (decide (message.length ≤ SMSG_MAX_MSG_BYTES)) (.code 2)
  let sender ← senderAddress lib node.fTestNet addressFrom
  let ckidDest ← destKeyID lib node.fTestNet addressTo
  let cpkDestK ← destPubKey node ckidDest
  let keys ← senderKeys lib chance.keyR cpkDestK
  -- the key that `MakeNewKey(true)` makes is compressed
  let cpkR := lib.i2o true (lib.pub chance.keyR)
  let data ← messageData lib node.resizes message
  let vchPayload ← messagePayload node sender message data
  match crypterEncrypt lib chance.fEncrypted keys.1 chance.iv vchPayload with
  | none => .error (.code 11)
  | some vchCiphertext =>
    sealMessage lib node.resizes chance cpkR keys.2 vchCiphertext (lib.i2o_length true _)

/-! The proof of work. -/

def overwrite (v : List UInt8) (offset : Nat) (bytes : List UInt8) : List UInt8 :=
  v.take offset ++ (bytes ++ v.drop (offset + bytes.length))

theorem overwrite_length {v bytes : List UInt8} {offset : Nat}
    (h : offset + bytes.length ≤ v.length) : (overwrite v offset bytes).length = v.length := by
  simp only [overwrite, List.length_append, List.length_take, List.length_drop]
  omega

namespace SmsgHeader

def setNonse (h : SmsgHeader) (nonse : Nat) : SmsgHeader :=
  ⟨overwrite h.bytes 96 (wordBytes 4 nonse), by
    rw [overwrite_length (by rw [wordBytes_length, h.length]; decide), h.length]⟩

def setHash (h : SmsgHeader) (sha256Hash : List UInt8) (hlen : sha256Hash.length = 32) :
    SmsgHeader :=
  ⟨overwrite h.bytes 0 (sha256Hash.take 4), by
    rw [overwrite_length (by rw [List.length_take, hlen, h.length]; decide), h.length]⟩

def message (h : SmsgHeader) : SecureMessage where
  hash := h.hash
  version0 := h.version.getD 0 0
  version1 := h.version.getD 1 0
  flags := (slice h.bytes 6 1).getD 0 0
  timestamp := h.timestamp
  iv := slice h.bytes 15 16
  cpkR := slice h.bytes 31 33
  mac := slice h.bytes 64 32
  nonse := h.nonse
  iv_length := by rw [slice, List.length_take, List.length_drop, h.length]; decide
  cpkR_length := by rw [slice, List.length_take, List.length_drop, h.length]; decide
  mac_length := by rw [slice, List.length_take, List.length_drop, h.length]; decide

end SmsgHeader

abbrev WorkHash := { sha256Hash : List UInt8 // sha256Hash.length = 32 }

/-- The loop of `SecureMsgSetHash` over the nonces, with the header it leaves and the hash it finds.
`fSecMsgEnabled` is what the flag is in each round. -/
def setHashLoop (lib : SmsgLib) (payload : List UInt8) (fSecMsgEnabled : Nat → Bool) :
    Nat → Nat → SmsgHeader → SmsgHeader × Option WorkHash
  | 0, _, header => (header, none)
  | rounds + 1, nonse, header =>
    if !fSecMsgEnabled nonse then (header, none)
    else
      match powHash lib (header.setNonse nonse) payload with
      | none => (header.setNonse nonse, none)
      | some sha256Hash =>
        if h : sha256Hash.length = 32 then
          if meetsWork sha256Hash then (header.setNonse nonse, some ⟨sha256Hash, h⟩)
          else if 4294967295 ≤ nonse then (header.setNonse nonse, none)
          else setHashLoop lib payload fSecMsgEnabled rounds (nonse + 1) (header.setNonse nonse)
        else (header.setNonse nonse, none)

/-- `SecureMsgSetHash`: the code, and the header it leaves. `fEnabledAfter` is the flag after the
loop. -/
def secureMsgSetHash (lib : SmsgLib) (fSecMsgEnabled : Nat → Bool) (fEnabledAfter : Bool)
    (header : SmsgHeader) (payload : List UInt8) : Nat × SmsgHeader :=
  let r := setHashLoop lib payload fSecMsgEnabled 4294967296 0 header
  if !fEnabledAfter then (2, r.1)
  else
    match r.2 with
    | none => (1, r.1)
    | some sha256Hash => (0, r.1.setHash sha256Hash.1 sha256Hash.2)

end Triangles
