import Triangles.Model.Base58
import Triangles.Model.Block
import Triangles.Model.Serialize

/-! Secure messages (smessage.h, smessage.cpp): decrypting a message, and the directory of
public keys that the three sources of keys fill. -/

namespace Triangles

open Outcome

def SMSG_PL_HDR_LEN : Nat := 1 + 20 + 65 + 4

structure SmsgLib where
  /-- Points of the curve. -/
  Point : Type
  /-- `o2i_ECPublicKey`. -/
  o2i : List UInt8 → Option Point
  /-- `i2o_ECPublicKey`, compressed or not. -/
  i2o : Bool → Point → List UInt8
  o2i_i2o : ∀ fCompressed P, o2i (i2o fCompressed P) = some P
  i2o_length : ∀ fCompressed P, (i2o fCompressed P).length = if fCompressed then 33 else 65
  /-- `ECDSA_SIG_recover_key_GFp` for a hash, the 64 bytes of r and s, and a recovery number. -/
  recover : List UInt8 → List UInt8 → Nat → Option Point
  /-- `Hash`, as the bytes of the number. -/
  hash : List UInt8 → List UInt8
  hash160 : List UInt8 → uint160
  hash160_length : ∀ v, (hash160 v).length = 20
  /-- `ECDH_compute_key` of a secret and a point, when it gives 32 bytes. -/
  computeKey : List UInt8 → Point → Option (List UInt8)
  sha512 : List UInt8 → List UInt8
  sha512_length : ∀ v, (sha512 v).length = 64
  /-- HMAC-SHA256 under a key. -/
  hmac : List UInt8 → List UInt8 → Option (List UInt8)
  /-- AES-256 decryption of one block. -/
  aesDecrypt : List UInt8 → List UInt8 → List UInt8
  aesDecrypt_length : ∀ key block, (aesDecrypt key block).length = 16
  /-- `LZ4_decompress_safe` into a buffer of the given size: what it returns and leaves there. -/
  lz4Decompress : List UInt8 → Nat → Int × List UInt8
  lz4Decompress_length : ∀ v n, (lz4Decompress v n).2.length = n

/-- The header of a message, without the payload. -/
structure SecureMessage where
  hash : List UInt8 := []
  version0 : UInt8 := 1
  version1 : UInt8 := 1
  flags : UInt8 := 0
  timestamp : Int
  iv : List UInt8
  cpkR : List UInt8
  mac : List UInt8
  nonse : List UInt8 := []
  iv_length : iv.length = 16
  cpkR_length : cpkR.length = 33
  mac_length : mac.length = 32

structure MessageData where
  timestamp : Int
  sFromAddress : List UInt8
  vchMessage : List UInt8
deriving DecidableEq, Repr

/-- How a call ends that does not return 0: the code it returns, an exception, or a read or
write outside a vector. -/
inductive SmsgFailure where
  | code (n : Nat)
  | thrown
  | outOfBounds
deriving DecidableEq, Repr

/-- The node around the messages: its network, the secret keys of the wallet, and for which
sizes a vector can be allocated. -/
structure SmsgHost where
  fTestNet : Bool
  getKey : uint160 → Option (List UInt8)
  resizes : Nat → Bool

def xorBytes (a b : List UInt8) : List UInt8 := List.zipWith (· ^^^ ·) a b

def cbcDecrypt (decryptBlock : List UInt8 → List UInt8) :
    Nat → List UInt8 → List UInt8 → List UInt8
  | 0, _, _ => []
  | rounds + 1, prev, ciphertext =>
    if ciphertext.isEmpty then []
    else xorBytes (decryptBlock (ciphertext.take 16)) prev ++
      cbcDecrypt decryptBlock rounds (ciphertext.take 16) (ciphertext.drop 16)

/-- `SecMsgCrypter::Decrypt`: whole blocks, at least one, and PKCS padding at the end. -/
def crypterDecrypt (lib : SmsgLib) (key iv ciphertext : List UInt8) : Option (List UInt8) :=
  if ciphertext.length = 0 ∨ ciphertext.length % 16 ≠ 0 then none
  else
    let plain := cbcDecrypt (lib.aesDecrypt key) ciphertext.length iv ciphertext
    let n := (plain.getLastD 0).toNat
    if n = 0 ∨ 16 < n ∨ (plain.drop (plain.length - n)).any (·.toNat != n) then none
    else some (plain.take (plain.length - n))

def bytesAt (v : List UInt8) (offset n : Nat) : Except SmsgFailure (List UInt8) :=
  if offset + n ≤ v.length then .ok ((v.drop offset).take n) else .error .outOfBounds

def plainText (lib : SmsgLib) (vchPayload : List UInt8) (offset lenPlain : Nat) :
    Except SmsgFailure (List UInt8) :=
  if 128 < lenPlain then
    let out := lib.lz4Decompress (vchPayload.drop offset) lenPlain
    if out.1 ≠ (lenPlain : Int).bmod (2 ^ 32) then .error (.code 1) else .ok out.2
  else bytesAt vchPayload offset lenPlain

def payloadText (lib : SmsgLib) (host : SmsgHost) (vchPayload : List UInt8) (offset : Nat) :
    Except SmsgFailure (List UInt8) := do
  let lenBytes ← bytesAt vchPayload (offset - 4) 4
  let lenPlain := leValue lenBytes
  check (host.resizes ((lenPlain + 1) % 2 ^ 32)) (.code 8)
  let text ← plainText lib vchPayload offset lenPlain
  -- the terminating zero lies in the vector unless its size wrapped around
  check (decide (lenPlain + 1 < 2 ^ 32)) .outOfBounds
  pure (text ++ [0])

/-- `CKey::SetCompactSignature` and `GetPubKey`, which throws when no key was recovered. -/
def recoverPubKey (lib : SmsgLib) (hash vchSig : List UInt8) : Except SmsgFailure (List UInt8) :=
  let nV := (vchSig.headD 0).toNat
  if vchSig.length ≠ 65 ∨ nV < 27 ∨ 35 ≤ nV then .error .thrown
  else
    let fCompressed := decide (31 ≤ nV)
    match lib.recover hash vchSig.tail (if fCompressed then nV - 4 - 27 else nV - 27) with
    | none => .error .thrown
    | some P => .ok (lib.i2o fCompressed P)

def pubKeyIsValid (vchPubKey : List UInt8) : Bool :=
  vchPubKey.length == 33 || vchPubKey.length == 65

def payloadSender (lib : SmsgLib) (host : SmsgHost) (vchPayload vchMessage : List UInt8) :
    Except SmsgFailure (uint160 × List UInt8) := do
  let ckidFrom ← bytesAt vchPayload 1 20
  let coinAddrFrom := CTrianglesAddress.ofKeyID host.fTestNet ckidFrom
  check (coinAddrFrom.isValid host.fTestNet) (.code 1)
  let vchSig ← bytesAt vchPayload (1 + 20) 65
  let cpkFromSig ← recoverPubKey lib (lib.hash vchMessage.dropLast) vchSig
  check (pubKeyIsValid cpkFromSig) (.code 1)
  let coinAddrFromSig := CTrianglesAddress.ofKeyID host.fTestNet (lib.hash160 cpkFromSig)
  check (coinAddrFrom == coinAddrFromSig) (.code 1)
  pure (ckidFrom, cpkFromSig)

def anonAddress : List UInt8 := [0x61, 0x6e, 0x6f, 0x6e]

def parseAnonymous (lib : SmsgLib) (host : SmsgHost) (timestamp : Int) (vchPayload : List UInt8) :
    Except SmsgFailure (MessageData × Option (uint160 × List UInt8)) := do
  let vchMessage ← payloadText lib host vchPayload 9
  pure (⟨timestamp, anonAddress, vchMessage⟩, none)

def parseSigned (lib : SmsgLib) (host : SmsgHost) (timestamp : Int) (vchPayload : List UInt8) :
    Except SmsgFailure (MessageData × Option (uint160 × List UInt8)) := do
  let vchMessage ← payloadText lib host vchPayload SMSG_PL_HDR_LEN
  let pair ← payloadSender lib host vchPayload vchMessage
  let sFromAddress := (CTrianglesAddress.ofKeyID host.fTestNet pair.1).toString lib.hash
  pure (⟨timestamp, sFromAddress, vchMessage⟩, some pair)

/-- Text and sender of a decrypted payload. First byte 250 marks an anonymous sender. -/
def parsePayload (lib : SmsgLib) (host : SmsgHost) (timestamp : Int) (vchPayload : List UInt8) :
    Except SmsgFailure (MessageData × Option (uint160 × List UInt8)) := do
  let first ← bytesAt vchPayload 0 1
  if first = [250] then parseAnonymous lib host timestamp vchPayload
  else parseSigned lib host timestamp vchPayload

def decryptKey (lib : SmsgLib) (host : SmsgHost) (address : List UInt8) :
    Except SmsgFailure (List UInt8) :=
  let coinAddrDest := CTrianglesAddress.setString lib.hash address
  if !CTrianglesAddress.setStringOk lib.hash address then .error (.code 3)
  else
    match coinAddrDest.getKeyID host.fTestNet with
    | none => .error (.code 3)
    | some ckidDest =>
      match host.getKey ckidDest with
      | none => .error (.code 3)
      | some keyDest => .ok keyDest

def sharedKeys (lib : SmsgLib) (keyDest cpkR : List UInt8) :
    Except SmsgFailure (List UInt8 × List UInt8) :=
  if !pubKeyIsValid cpkR then .error (.code 1)
  else
    match lib.o2i cpkR with
    | none => .error (.code 1)
    | some R =>
      if (lib.i2o (cpkR.length == 33) R).length ≠ 33 then .error (.code 1)
      else
        match lib.computeKey keyDest R with
        | none => .error (.code 1)
        | some vchP => .ok ((lib.sha512 vchP).take 32, (lib.sha512 vchP).drop 32)

def messageMac (lib : SmsgLib) (key_m : List UInt8) (timestamp : Int) (payload : List UInt8) :
    Except SmsgFailure (List UInt8) :=
  match lib.hmac key_m (signedBytes 8 timestamp ++ payload) with
  | none => .error (.code 1)
  | some MAC => .ok MAC

def openPayload (lib : SmsgLib) (host : SmsgHost) (key_e : List UInt8) (timestamp : Int)
    (iv payload : List UInt8) :
    Except SmsgFailure (MessageData × Option (uint160 × List UInt8)) :=
  match crypterDecrypt lib key_e iv payload with
  | none => .error (.code 1)
  | some vchPayload => parsePayload lib host timestamp vchPayload

def secureMsgDecrypt (lib : SmsgLib) (host : SmsgHost) (fTestOnly : Bool) (address : List UInt8)
    (smsg : SecureMessage) (payload : List UInt8) :
    Except SmsgFailure (Option (MessageData × Option (uint160 × List UInt8))) := do
  check (smsg.version0 == 1) (.code 2)
  let keyDest ← decryptKey lib host address
  let keys ← sharedKeys lib keyDest smsg.cpkR
  let MAC ← messageMac lib keys.2 smsg.timestamp payload
  check (MAC == smsg.mac) (.code 1)
  if fTestOnly then pure none
  else do
    let r ← openPayload lib host keys.1 smsg.timestamp smsg.iv payload
    pure (some r)

/-! The directory of public keys. -/

abbrev SmsgDb := uint160 → Option (List UInt8)

def insertAddress (db : SmsgDb) (hashKey : uint160) (pubKey : List UInt8) (fWritten : Bool) :
    SmsgDb × Nat :=
  match db hashKey with
  | some _ => (db, 4)
  | none => if !fWritten then (db, 1) else (Function.update db hashKey (some pubKey), 0)

/-- The checks of `SecureMsgAddAddress`: the pair it goes on to insert, or the code it returns.
`addressT` is made from the text of the address. -/
def addAddressPair (lib : SmsgLib) (fTestNet : Bool) (address publicKey : List UInt8) :
    Except Nat (uint160 × List UInt8) :=
  let coinAddress := CTrianglesAddress.setString lib.hash address
  if !coinAddress.isValid fTestNet then .error 5
  else
    match coinAddress.getKeyID fTestNet with
    | none => .error 5
    | some hashKey =>
      let pubKey := (decodeBase58 publicKey).getD []
      match lib.o2i pubKey with
      | none => .error 2
      | some _ =>
        let addressT := CTrianglesAddress.setString lib.hash address
        if addressT.toString lib.hash ≠ address then .error 3 else .ok (hashKey, pubKey)

/-- The while loop of `ScanBlock` over one script. `spent` is the output the input spends, if it
can be read. A 33-byte push that is no point makes `GetPubKey` throw. -/
def scanScript (lib : SmsgLib) (fTestNet : Bool) (spent : Option CTxOut) :
    Nat → CScript → Except SmsgFailure (Option (uint160 × List UInt8))
  | 0, _ => pure none
  | rounds + 1, pc =>
    match getOp pc with
    | none => pure none
    | some (opcode, vch, pc) =>
      if opcode ≠ 33 then scanScript lib fTestNet spent rounds pc
      else
        match lib.o2i vch with
        | none => .error .thrown
        | some P =>
          let pubKey := lib.i2o true P
          if pubKey.length ≠ 33 then scanScript lib fTestNet spent rounds pc
          else
            match spent with
            | none => scanScript lib fTestNet spent rounds pc
            | some txOut =>
              match extractDestination lib.hash160 txOut.scriptPubKey with
              | none => pure none
              | some addressRet =>
                match (CTrianglesAddress.ofDestination fTestNet addressRet).getKeyID fTestNet with
                | none => pure none
                | some hashKey => pure (some (hashKey, pubKey))

structure ScanView where
  fEnforceCanonical : Bool
  readDiskTx : uint256 → Option CTransaction

def ScanView.spentOutput (view : ScanView) (txin : CTxIn) : Option CTxOut :=
  match view.readDiskTx txin.prevout.hash with
  | none => none
  | some txOfPrevOutput => txOfPrevOutput.vout[txin.prevout.n.toNat]?

def scannedInputs (view : ScanView) (blocks : List CBlock) : List CTxIn :=
  ((blocks.flatMap CBlock.vtx).filter (CTransaction.isStandard view.fEnforceCanonical)).flatMap
    CTransaction.vin

def scanPairs (lib : SmsgLib) (fTestNet : Bool) (view : ScanView) (blocks : List CBlock) :
    Except SmsgFailure (List (uint160 × List UInt8)) := do
  let found ← (scannedInputs view blocks).mapM fun txin =>
    scanScript lib fTestNet (view.spentOutput txin) txin.scriptSig.length txin.scriptSig
  pure (found.filterMap id)

def insertAll (db : SmsgDb) (pairs : List (uint160 × List UInt8)) : SmsgDb :=
  pairs.foldl (fun db x => (insertAddress db x.1 x.2 true).1) db

/-- A call that may add public keys, with what opening and writing the database does. A scan
writes everything in one batch at its end. -/
inductive SmsgOp where
  | addAddress (address publicKey : List UInt8) (fOpened fWritten : Bool)
  | scanBlocks (view : ScanView) (blocks : List CBlock) (fOpened fCommitted : Bool)
  | decrypt (host : SmsgHost) (fTestOnly : Bool) (address : List UInt8) (smsg : SecureMessage)
      (payload : List UInt8) (fOpened fWritten : Bool)

def SmsgOp.inserts (lib : SmsgLib) (fTestNet : Bool) : SmsgOp → List (uint160 × List UInt8) × Bool
  | .addAddress address publicKey fOpened fWritten =>
    match addAddressPair lib fTestNet address publicKey with
    | .error _ => ([], false)
    | .ok pair => ([pair], fOpened && fWritten)
  | .scanBlocks view blocks fOpened fCommitted =>
    match scanPairs lib fTestNet view blocks with
    | .error _ => ([], false)
    | .ok pairs => (pairs, fOpened && fCommitted)
  | .decrypt host fTestOnly address smsg payload fOpened fWritten =>
    match secureMsgDecrypt lib host fTestOnly address smsg payload with
    | .ok (some (_, some pair)) => ([pair], fOpened && fWritten)
    | _ => ([], false)

def SmsgOp.run (lib : SmsgLib) (fTestNet : Bool) (db : SmsgDb) (op : SmsgOp) : SmsgDb :=
  if (op.inserts lib fTestNet).2 then insertAll db (op.inserts lib fTestNet).1 else db

end Triangles
