import Triangles.Model.Serialize
import Triangles.Model.SmsgEncrypt

/-! The class `CKey` with all that sets, copies and shows a key (key.h, key.cpp). Of OpenSSL, objects are
allocated and arithmetic succeeds. -/

namespace Triangles.Key

def POINT_CONVERSION_COMPRESSED : Nat := 2
def POINT_CONVERSION_UNCOMPRESSED : Nat := 4

structure EcKey (Point : Type) where
  priv_key : Option Nat := none
  pub_key : Option Point := none
  conv_form : Nat := POINT_CONVERSION_UNCOMPRESSED

structure EcLib where
  Point : Type
  isAtInfinity : Point → Bool
  /-- `EC_POINT_mul` of the generator. -/
  mul : Nat → Point
  /-- The private key that `EC_KEY_generate_key` draws. -/
  generate : Nat → Nat
  /-- `EC_POINT_point2oct` in a form, nothing when it fails. -/
  point2oct : Nat → Point → Option (List UInt8)
  oct2point : List UInt8 → Option Point
  /-- `EC_KEY_copy` onto the first key. -/
  copy : EcKey Point → EcKey Point → EcKey Point
  /-- `d2i_ECPrivateKey` into a key. -/
  d2i : EcKey Point → List UInt8 → Option (EcKey Point)
  checkKey : EcKey Point → Bool

def formOf (v : List UInt8) : Nat := (v.headD 0).toNat &&& 0xfe

structure CKey (lib : EcLib) where
  pkey : EcKey lib.Point := {}
  fSet : Bool := false
  fCompressedPubKey : Bool := false

namespace CKey

variable {lib : EcLib}

def setCompressedPubKey (key : CKey lib) : CKey lib :=
  { key with
    pkey := { key.pkey with conv_form := POINT_CONVERSION_COMPRESSED }
    fCompressedPubKey := true }

def reset : CKey lib := {}

/-- `CKey(const CKey& b)`. It says nothing of `fCompressedPubKey`, which is whatever is found there. -/
def copyConstruct (b : CKey lib) (indeterminate : Bool) : CKey lib where
  pkey := lib.copy {} b.pkey
  fSet := b.fSet
  fCompressedPubKey := indeterminate

def assign (key b : CKey lib) : CKey lib := { key with pkey := lib.copy key.pkey b.pkey, fSet := b.fSet }

def isCompressed (key : CKey lib) : Bool := key.fCompressedPubKey

def makeNewKey (key : CKey lib) (seed : Nat) (fCompressed : Bool) : CKey lib :=
  let key := { key with
    pkey := { key.pkey with
      priv_key := some (lib.generate seed)
      pub_key := some (lib.mul (lib.generate seed)) } }
  let key := if fCompressed then key.setCompressedPubKey else key
  { key with fSet := true }

def setPrivKey (key : CKey lib) (vchPrivKey : List UInt8) : Bool × CKey lib :=
  match lib.d2i key.pkey vchPrivKey with
  | some pkey => if lib.checkKey pkey then (true, { key with pkey := pkey, fSet := true }) else (false, reset)
  | none => (false, reset)

def bin2bn (v : List UInt8) : Nat := leValue v.reverse

def setSecret (key : CKey lib) (vchSecret : List UInt8) (fCompressed : Bool) : Except String (CKey lib) :=
  if vchSecret.length ≠ 32 then .error "CKey::SetSecret() : secret must be 32 bytes"
  else
    let bn := bin2bn vchSecret
    let pkey : EcKey lib.Point := { priv_key := some bn, pub_key := some (lib.mul bn) }
    let key := { key with pkey := pkey, fSet := true }
    .ok (if fCompressed || key.fCompressedPubKey then key.setCompressedPubKey else key)

def getSecret (key : CKey lib) : Except String (List UInt8 × Bool) :=
  match key.pkey.priv_key with
  | none => .error "CKey::GetSecret() : EC_KEY_get0_private_key failed"
  | some bn =>
    if 256 ^ 32 ≤ bn then .error "CKey::GetSecret(): BN_bn2bin failed"
    else .ok ((wordBytes 32 bn).reverse, key.fCompressedPubKey)

def setPubKey (key : CKey lib) (vchPubKey : List UInt8) : Bool × CKey lib :=
  match lib.oct2point vchPubKey with
  | some p =>
    -- `o2i_ECPublicKey` keeps the form that the point has
    let key := { key with
      pkey := { key.pkey with pub_key := some p, conv_form := formOf vchPubKey }
      fSet := true }
    (true, if vchPubKey.length = 33 then key.setCompressedPubKey else key)
  | none => (false, reset)

def getPubKey (key : CKey lib) : Except String (List UInt8) :=
  match key.pkey.pub_key.bind (lib.point2oct key.pkey.conv_form) with
  | none => .error "CKey::GetPubKey() : i2o_ECPublicKey failed"
  | some vchPubKey => .ok vchPubKey

end CKey

/-! Objects, and the calls on them. -/

inductive Call where
  | construct
  | reset (i : Nat)
  | makeNewKey (i seed : Nat) (fCompressed : Bool)
  | setSecret (i : Nat) (vchSecret : List UInt8) (fCompressed : Bool)
  | setPubKey (i : Nat) (vchPubKey : List UInt8)
  | setPrivKey (i : Nat) (vchPrivKey : List UInt8)
  | copyConstruct (b : Nat) (indeterminate : Bool)
  | assign (i b : Nat)
deriving DecidableEq

variable (lib : EcLib)

/-- The objects after a call that succeeds: one that returns true, or throws nothing. -/
def call (objects : List (CKey lib)) : Call → Option (List (CKey lib))
  | .construct => some (objects ++ [CKey.reset])
  | .reset i => do
    let _ ← objects[i]?
    return objects.set i CKey.reset
  | .makeNewKey i seed fCompressed => do
    let key ← objects[i]?
    return objects.set i (key.makeNewKey seed fCompressed)
  | .setSecret i vchSecret fCompressed => do
    let key ← objects[i]?
    let key ← (key.setSecret vchSecret fCompressed).toOption
    return objects.set i key
  | .setPubKey i vchPubKey => do
    let key ← objects[i]?
    let (fOk, key) := key.setPubKey vchPubKey
    if fOk then some (objects.set i key) else none
  | .setPrivKey i vchPrivKey => do
    let key ← objects[i]?
    let (fOk, key) := key.setPrivKey vchPrivKey
    if fOk then some (objects.set i key) else none
  | .copyConstruct b indeterminate => do
    let src ← objects[b]?
    return objects ++ [src.copyConstruct indeterminate]
  | .assign i b => do
    let key ← objects[i]?
    let src ← objects[b]?
    if i = b then none else some (objects.set i (key.assign src))

def run (calls : List Call) : Option (List (CKey lib)) := calls.foldlM (call lib) []

end Triangles.Key

/-! The key store of the wallet (keystore.h, keystore.cpp), with the key objects and the cipher that
it uses (key.h, key.cpp, crypter.cpp). Calls into OpenSSL succeed; scripts and the signal to the
user interface are left out. -/

namespace Triangles.Keystore

open Std (ExtTreeMap)

def WALLET_CRYPTO_KEY_SIZE : Nat := 32

/-! Key objects. -/

structure CKey (lib : SenderLib) where
  secret : Option (List UInt8) := none
  point : Option lib.Point := none
  fCompressedForm : Bool := false
  fSet : Bool := false
  fCompressedPubKey : Bool := false

namespace CKey

variable {lib : SenderLib}

def reset : CKey lib := {}

def setCompressedPubKey (key : CKey lib) : CKey lib :=
  { key with fCompressedForm := true, fCompressedPubKey := true }

def setSecret (key : CKey lib) (vchSecret : List UInt8) (fCompressed : Bool) : CKey lib :=
  let set : CKey lib :=
    { secret := some vchSecret
      point := some (lib.pub vchSecret)
      fCompressedForm := false
      fSet := true
      fCompressedPubKey := key.fCompressedPubKey }
  if fCompressed || key.fCompressedPubKey then set.setCompressedPubKey else set

/-- `SetPubKey`: reading a point sets the form that it has there. -/
def setPubKey (key : CKey lib) (vchPubKey : List UInt8) : Bool × CKey lib :=
  match lib.o2i vchPubKey with
  | none => (false, reset)
  | some P =>
    let set := { key with
      point := some P
      fCompressedForm := vchPubKey.length == 33
      fSet := true }
    (true, if vchPubKey.length = 33 then set.setCompressedPubKey else set)

/-- `GetPubKey`, nothing when it throws. -/
def getPubKey (key : CKey lib) : Option (List UInt8) := key.point.map (lib.i2o key.fCompressedForm)

def getID (key : CKey lib) : Option uint160 := key.getPubKey.map lib.hash160

end CKey

structure StoreKey extends SecretKey where
  secret_length : secret.length = 32

def StoreKey.id (lib : SenderLib) (key : StoreKey) : uint160 := lib.hash160 (key.pubKey lib)

/-! The cipher of secrets. AES-CBC uses sixteen bytes of the vector. -/

def encryptSecret (lib : SenderLib) (vMasterKey vchPlaintext nIV : List UInt8) :
    Option (List UInt8) :=
  if vMasterKey.length ≠ WALLET_CRYPTO_KEY_SIZE ∨ nIV.length ≠ WALLET_CRYPTO_KEY_SIZE then none
  else crypterEncrypt lib true vMasterKey (nIV.take 16) vchPlaintext

def decryptSecret (lib : SenderLib) (vMasterKey vchCiphertext nIV : List UInt8) :
    Option (List UInt8) :=
  if vMasterKey.length ≠ WALLET_CRYPTO_KEY_SIZE ∨ nIV.length ≠ WALLET_CRYPTO_KEY_SIZE then none
  else crypterDecrypt lib.toSmsgLib vMasterKey (nIV.take 16) vchCiphertext

/-! The store. -/

def keyIDCmp (a b : uint160) : Ordering := compare a.reverse b.reverse

instance : Std.TransCmp keyIDCmp :=
  inferInstanceAs (Std.TransCmp (compareOn (List.reverse : uint160 → uint160)))

instance : Std.LawfulEqCmp keyIDCmp where
  eq_of_compare h := List.reverse_injective (Std.LawfulEqOrd.eq_of_compare h)

abbrev KeyMap := ExtTreeMap uint160 (List UInt8 × Bool) keyIDCmp

abbrev CryptedKeyMap := ExtTreeMap uint160 (List UInt8 × List UInt8) keyIDCmp

structure CCryptoKeyStore where
  mapKeys : KeyMap := ∅
  mapCryptedKeys : CryptedKeyMap := ∅
  vMasterKey : List UInt8 := []
  fUseCrypto : Bool := false

namespace CCryptoKeyStore

variable {lib : SenderLib}

def isLocked (s : CCryptoKeyStore) : Bool := s.fUseCrypto && s.vMasterKey.isEmpty

def setCrypted (s : CCryptoKeyStore) : Bool × CCryptoKeyStore :=
  if s.fUseCrypto then (true, s)
  else if !s.mapKeys.isEmpty then (false, s)
  else (true, { s with fUseCrypto := true })

def lockKeyStore (s : CCryptoKeyStore) : Bool × CCryptoKeyStore :=
  match s.setCrypted with
  | (false, s) => (false, s)
  | (true, s) => (true, { s with vMasterKey := [] })

/-- The test of `Unlock`, which looks at the first key only. -/
def opensFirst (lib : SenderLib) (s : CCryptoKeyStore) (vMasterKeyIn : List UInt8) : Bool :=
  match s.mapCryptedKeys.toList with
  | [] => true
  | (_, vchPubKey, vchCryptedSecret) :: _ =>
    match decryptSecret lib vMasterKeyIn vchCryptedSecret (lib.hash vchPubKey) with
    | none => false
    | some vchSecret =>
      if vchSecret.length ≠ 32 then false
      else
        let key := ((CKey.reset : CKey lib).setPubKey vchPubKey).2.setSecret vchSecret false
        key.getPubKey == some vchPubKey

def unlock (lib : SenderLib) (s : CCryptoKeyStore) (vMasterKeyIn : List UInt8) :
    Bool × CCryptoKeyStore :=
  match s.setCrypted with
  | (false, s) => (false, s)
  | (true, s) =>
    if s.opensFirst lib vMasterKeyIn then (true, { s with vMasterKey := vMasterKeyIn })
    else (false, s)

def addCryptedKey (lib : SenderLib) (s : CCryptoKeyStore) (vchPubKey vchCryptedSecret : List UInt8) :
    Bool × CCryptoKeyStore :=
  match s.setCrypted with
  | (false, s) => (false, s)
  | (true, s) =>
    (true, { s with mapCryptedKeys :=
      s.mapCryptedKeys.insert (lib.hash160 vchPubKey) (vchPubKey, vchCryptedSecret) })

def addKey (lib : SenderLib) (s : CCryptoKeyStore) (key : StoreKey) : Bool × CCryptoKeyStore :=
  if !s.fUseCrypto then
    (true, { s with mapKeys := s.mapKeys.insert (key.id lib) (key.secret, key.fCompressed) })
  else if s.isLocked then (false, s)
  else
    let vchPubKey := key.pubKey lib
    match encryptSecret lib s.vMasterKey key.secret (lib.hash vchPubKey) with
    | none => (false, s)
    | some vchCryptedSecret => s.addCryptedKey lib vchPubKey vchCryptedSecret

def encryptLoop (lib : SenderLib) (vMasterKeyIn : List UInt8) :
    List (uint160 × (List UInt8 × Bool)) → CCryptoKeyStore → Bool × CCryptoKeyStore
  | [], s => (true, s)
  | (_, secret, fCompressed) :: rest, s =>
    let key := (CKey.reset : CKey lib).setSecret secret fCompressed
    let vchPubKey := key.getPubKey.getD []
    match encryptSecret lib vMasterKeyIn secret (lib.hash vchPubKey) with
    | none => (false, s)
    | some vchCryptedSecret =>
      match s.addCryptedKey lib vchPubKey vchCryptedSecret with
      | (false, s) => (false, s)
      | (true, s) => encryptLoop lib vMasterKeyIn rest s

def encryptKeys (lib : SenderLib) (s : CCryptoKeyStore) (vMasterKeyIn : List UInt8) :
    Bool × CCryptoKeyStore :=
  if !s.mapCryptedKeys.isEmpty || s.fUseCrypto then (false, s)
  else
    match encryptLoop lib vMasterKeyIn s.mapKeys.toList { s with fUseCrypto := true } with
    | (false, s) => (false, s)
    | (true, s) => (true, { s with mapKeys := ∅ })

def getKey (s : CCryptoKeyStore) (address : uint160) (keyOut : CKey lib) : Bool × CKey lib :=
  if !s.fUseCrypto then
    match s.mapKeys[address]? with
    | none => (false, keyOut)
    | some (secret, fCompressed) => (true, CKey.reset.setSecret secret fCompressed)
  else
    match s.mapCryptedKeys[address]? with
    | none => (false, keyOut)
    | some (vchPubKey, vchCryptedSecret) =>
      match decryptSecret lib s.vMasterKey vchCryptedSecret (lib.hash vchPubKey) with
      | none => (false, keyOut)
      | some vchSecret =>
        if vchSecret.length ≠ 32 then (false, keyOut)
        else (true, (keyOut.setPubKey vchPubKey).2.setSecret vchSecret false)

end CCryptoKeyStore

inductive KeyOp where
  | addKey (key : StoreKey)
  | encryptKeys
  | lockKeyStore
  | unlock

/-- A call under a master key: what it returns, and the store it leaves. -/
def KeyOp.run (lib : SenderLib) (vMasterKey : List UInt8) (op : KeyOp) (s : CCryptoKeyStore) :
    Bool × CCryptoKeyStore :=
  match op with
  | .addKey key => s.addKey lib key
  | .encryptKeys => s.encryptKeys lib vMasterKey
  | .lockKeyStore => s.lockKeyStore
  | .unlock => s.unlock lib vMasterKey

/-! The passphrase of the wallet (crypter.h, crypter.cpp, wallet.cpp): `Lock`, `Unlock` and
`ChangeWalletPassphrase`. The wallet file is left out. -/

def WALLET_CRYPTO_SALT_SIZE : Nat := 8

structure CMasterKey where
  vchCryptedKey : List UInt8
  vchSalt : List UInt8
  nDerivationMethod : UInt32 := 0
  nDeriveIterations : UInt32 := 25000
deriving DecidableEq

structure PassphraseLib extends SenderLib where
  /-- `EVP_BytesToKey` with AES-256-CBC and SHA-512, of a salt, the data and the rounds: the key
  and the vector. -/
  bytesToKey : List UInt8 → List UInt8 → UInt32 → List UInt8 × List UInt8
  /-- `scrypt_salted_multiround_hash` of the data, the salt and the rounds. -/
  scryptHash : List UInt8 → List UInt8 → UInt32 → List UInt8

def setKeyFromPassphrase (lib : PassphraseLib) (strKeyData chSalt : List UInt8)
    (nRounds nDerivationMethod : UInt32) : Option (List UInt8 × List UInt8) :=
  if nRounds < 1 ∨ chSalt.length ≠ WALLET_CRYPTO_SALT_SIZE then none
  else if nDerivationMethod = 0 then some (lib.bytesToKey chSalt strKeyData nRounds)
  else if nDerivationMethod = 1 then
    some (lib.bytesToKey chSalt (lib.scryptHash strKeyData chSalt nRounds) nRounds)
  else none

/-- The first two calls for a master key: the passphrase gives the key that it is decrypted
with. -/
def CMasterKey.decrypt (lib : PassphraseLib) (strWalletPassphrase : List UInt8) (k : CMasterKey) :
    Option (List UInt8) :=
  match setKeyFromPassphrase lib strWalletPassphrase k.vchSalt k.nDeriveIterations
      k.nDerivationMethod with
  | none => none
  | some (chKey, chIV) => crypterDecrypt lib.toSmsgLib chKey chIV k.vchCryptedKey

abbrev MasterKeyMap := List (UInt32 × CMasterKey)

structure CWallet extends CCryptoKeyStore where
  mapMasterKeys : MasterKeyMap := []

def CCryptoKeyStore.lock (s : CCryptoKeyStore) : Bool × CCryptoKeyStore :=
  if s.isLocked then (true, s) else s.lockKeyStore

/-- The loop of `CWallet::Unlock`. Behind it messages are read and success is returned. -/
def unlockLoop (lib : PassphraseLib) (strWalletPassphrase : List UInt8) :
    MasterKeyMap → CCryptoKeyStore → Bool × CCryptoKeyStore
  | [], s => (true, s)
  | (_, k) :: rest, s =>
    match k.decrypt lib strWalletPassphrase with
    | none => (false, s)
    | some vMasterKey =>
      match s.unlock lib.toSenderLib vMasterKey with
      | (true, s) => (true, s)
      | (false, s) => unlockLoop lib strWalletPassphrase rest s

def CWallet.unlock (lib : PassphraseLib) (w : CWallet) (strWalletPassphrase : List UInt8) :
    Bool × CWallet :=
  if !w.isLocked then (false, w)
  else
    let (fRet, s) := unlockLoop lib strWalletPassphrase w.mapMasterKeys w.toCCryptoKeyStore
    (fRet, { w with toCCryptoKeyStore := s })

/-- What the loop of `ChangeWalletPassphrase` does when the old passphrase has opened the store:
the iterations are written first, as the clock asks for and 25000 at least. `vchFailed` is what
OpenSSL leaves of the encrypted key where it fails. -/
def reencrypt (lib : PassphraseLib) (nTimed : UInt32 → UInt32) (vchFailed : Option (List UInt8))
    (strNewWalletPassphrase : List UInt8) (fWasLocked : Bool) (k : CMasterKey)
    (vMasterKey : List UInt8) (s : CCryptoKeyStore) : Bool × CMasterKey × CCryptoKeyStore :=
  let k := { k with nDeriveIterations := max (nTimed k.nDeriveIterations) 25000 }
  match setKeyFromPassphrase lib strNewWalletPassphrase k.vchSalt k.nDeriveIterations
      k.nDerivationMethod with
  | none => (false, k, s)
  | some (chKey, chIV) =>
    match crypterEncrypt lib.toSenderLib vchFailed.isNone chKey chIV vMasterKey with
    | none => (false, { k with vchCryptedKey := vchFailed.getD [] }, s)
    | some vchCryptedKey =>
      (true, { k with vchCryptedKey := vchCryptedKey }, if fWasLocked then s.lock.2 else s)

def changeLoop (lib : PassphraseLib) (nTimed : UInt32 → UInt32) (vchFailed : Option (List UInt8))
    (strOldWalletPassphrase strNewWalletPassphrase : List UInt8) (fWasLocked : Bool) :
    MasterKeyMap → CCryptoKeyStore → Bool × MasterKeyMap × CCryptoKeyStore
  | [], s => (false, [], s)
  | (n, k) :: rest, s =>
    match k.decrypt lib strOldWalletPassphrase with
    | none => (false, (n, k) :: rest, s)
    | some vMasterKey =>
      match s.unlock lib.toSenderLib vMasterKey with
      | (true, s) =>
        let (fRet, k, s) :=
          reencrypt lib nTimed vchFailed strNewWalletPassphrase fWasLocked k vMasterKey s
        (fRet, (n, k) :: rest, s)
      | (false, s) =>
        let (fRet, rest, s) :=
          changeLoop lib nTimed vchFailed strOldWalletPassphrase strNewWalletPassphrase fWasLocked rest s
        (fRet, (n, k) :: rest, s)

/-- `CWallet::ChangeWalletPassphrase`; `nTimed` is what two timed derivations make of the
iterations. -/
def CWallet.changeWalletPassphrase (lib : PassphraseLib) (nTimed : UInt32 → UInt32)
    (vchFailed : Option (List UInt8)) (w : CWallet)
    (strOldWalletPassphrase strNewWalletPassphrase : List UInt8) : Bool × CWallet :=
  let fWasLocked := w.isLocked
  let (fRet, mapMasterKeys, s) := changeLoop lib nTimed vchFailed strOldWalletPassphrase
    strNewWalletPassphrase fWasLocked w.mapMasterKeys w.toCCryptoKeyStore.lock.2
  (fRet, { toCCryptoKeyStore := s, mapMasterKeys := mapMasterKeys })

end Triangles.Keystore
