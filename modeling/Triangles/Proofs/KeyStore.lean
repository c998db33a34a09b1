import Triangles.Lib.Slots
import Triangles.Model.KeyStore
import Triangles.Proofs.SealedMessage

/-! The key store over whole runs: after any calls it holds the keys that were added, in the clear or
encrypted, and `GetKey` gives them back. The exact condition under which the key that is given back
also has the address it was asked for: the flag of a reused key object is not taken over. -/

namespace Triangles.Keystore

open Std (ExtTreeMap)
open Slots

section Cipher

variable {lib : SenderLib} {vMasterKey : List UInt8}

/-- Encrypting a secret succeeds under a whole master key, and decrypting gives it back. -/
theorem decryptSecret_encrypt
    (haes : ∀ key block : List UInt8, block.length = 16 →
      lib.aesDecrypt key (lib.aesEncrypt key block) = block)
    (hM : vMasterKey.length = WALLET_CRYPTO_KEY_SIZE) (secret vchPubKey : List UInt8) :
    ∃ c, encryptSecret lib vMasterKey secret (lib.hash vchPubKey) = some c ∧
      decryptSecret lib vMasterKey c (lib.hash vchPubKey) = some secret := by
  have hiv : (lib.hash vchPubKey).length = WALLET_CRYPTO_KEY_SIZE := lib.hash_length _
  have hvector : ((lib.hash vchPubKey).take 16).length = 16 := by
    rw [List.length_take, hiv]
    rfl
  have hok : ¬(vMasterKey.length ≠ WALLET_CRYPTO_KEY_SIZE ∨
      (lib.hash vchPubKey).length ≠ WALLET_CRYPTO_KEY_SIZE) := by
    rw [hM, hiv]
    exact fun h => h.elim (fun h => h rfl) fun h => h rfl
  obtain ⟨c, hc⟩ : ∃ c, crypterEncrypt lib true vMasterKey ((lib.hash vchPubKey).take 16) secret =
      some c := ⟨_, if_pos rfl⟩
  refine ⟨c, (if_neg hok).trans hc, ?_⟩
  unfold decryptSecret
  rw [if_neg hok]
  exact (crypterDecrypt_encrypt (haes vMasterKey) hvector hc).1

end Cipher

/-! Key objects. -/

section Keys

variable {lib : SenderLib}

/-- A secret set on an object: the flag of the object makes the key compressed as well. -/
theorem setSecret_spec (key : CKey lib) (vchSecret : List UInt8) (fCompressed : Bool) :
    (key.setSecret vchSecret fCompressed).secret = some vchSecret ∧
      (key.setSecret vchSecret fCompressed).getPubKey =
        some (lib.i2o (fCompressed || key.fCompressedPubKey) (lib.pub vchSecret)) := by
  unfold CKey.setSecret
  cases fCompressed <;> cases hflag : key.fCompressedPubKey <;> exact ⟨rfl, rfl⟩

/-- Reading a public key sets the flag when the key is compressed, and leaves it otherwise. -/
theorem setPubKey_flag (keyOut : CKey lib) (key : StoreKey) :
    (keyOut.setPubKey (key.pubKey lib)).2.fCompressedPubKey =
      (key.fCompressed || keyOut.fCompressedPubKey) := by
  have hread : lib.o2i (key.pubKey lib) = some (lib.pub key.secret) := lib.o2i_i2o _ _
  have hlen : (key.pubKey lib).length = if key.fCompressed then 33 else 65 := lib.i2o_length _ _
  unfold CKey.setPubKey
  rw [hread]
  cases hc : key.fCompressed with
  | true =>
    rw [hc, if_pos rfl] at hlen
    simp only [hlen, if_true]
    rfl
  | false =>
    rw [hc, if_neg (by decide)] at hlen
    simp only [hlen]
    rfl

/-- What `GetKey` makes of an object and a stored key. -/
theorem filled_spec (keyOut : CKey lib) (key : StoreKey) :
    ((keyOut.setPubKey (key.pubKey lib)).2.setSecret key.secret false).secret = some key.secret ∧
      ((keyOut.setPubKey (key.pubKey lib)).2.setSecret key.secret false).getPubKey =
        some (lib.i2o (key.fCompressed || keyOut.fCompressedPubKey) (lib.pub key.secret)) := by
  obtain ⟨hsecret, hpub⟩ := setSecret_spec (keyOut.setPubKey (key.pubKey lib)).2 key.secret false
  rw [Bool.false_or, setPubKey_flag] at hpub
  exact ⟨hsecret, hpub⟩

end Keys

section Objects

variable {lib : SenderLib} {ec : Key.EcLib}

/-! An object of the key store is one of the class in full. -/

def convForm (fCompressed : Bool) : Nat :=
  if fCompressed then Key.POINT_CONVERSION_COMPRESSED else Key.POINT_CONVERSION_UNCOMPRESSED

/-- The calls into the library that the two models of a key make are the same. -/
structure CallsInto (lib : SenderLib) (ec : Key.EcLib) where
  point : lib.Point → ec.Point
  mul : ∀ vchSecret, ec.isAtInfinity (ec.mul (Key.CKey.bin2bn vchSecret)) = false →
    ec.mul (Key.CKey.bin2bn vchSecret) = point (lib.pub vchSecret)
  oct2point : ∀ fCompressed P, ec.oct2point (lib.i2o fCompressed P) = some (point P)
  point2oct : ∀ fCompressed P,
    ec.point2oct (convForm fCompressed) (point P) = some (lib.i2o fCompressed P)
  form : ∀ fCompressed P, Key.formOf (lib.i2o fCompressed P) = convForm fCompressed

structure Stands (c : CallsInto lib ec) (key : CKey lib) (full : Key.CKey ec) : Prop where
  priv_key : full.pkey.priv_key = key.secret.map Key.CKey.bin2bn
  pub_key : full.pkey.pub_key = key.point.map c.point
  conv_form : full.pkey.conv_form = convForm key.fCompressedForm
  fSet : full.fSet = key.fSet
  fCompressedPubKey : full.fCompressedPubKey = key.fCompressedPubKey

variable {c : CallsInto lib ec} {key : CKey lib} {full : Key.CKey ec}

theorem stands_reset (c : CallsInto lib ec) : Stands c CKey.reset Key.CKey.reset :=
  ⟨rfl, rfl, rfl, rfl, rfl⟩

theorem Stands.setCompressedPubKey (h : Stands c key full) :
    Stands c key.setCompressedPubKey full.setCompressedPubKey where
  priv_key := h.priv_key
  pub_key := h.pub_key
  conv_form := rfl
  fSet := h.fSet
  fCompressedPubKey := rfl

/-- A stored secret has 32 bytes, so that `SetSecret` does not throw. -/
theorem Stands.setSecret (h : Stands c key full) {vchSecret : List UInt8}
    (hlength : vchSecret.length = 32)
    (hfinite : ec.isAtInfinity (ec.mul (Key.CKey.bin2bn vchSecret)) = false) (fCompressed : Bool) :
    ∃ full', full.setSecret vchSecret fCompressed = .ok full' ∧
      Stands c (key.setSecret vchSecret fCompressed) full' := by
  have hset : Stands c
      { secret := some vchSecret, point := some (lib.pub vchSecret), fCompressedForm := false,
        fSet := true, fCompressedPubKey := key.fCompressedPubKey }
      { full with
        pkey := { priv_key := some (Key.CKey.bin2bn vchSecret)
                  pub_key := some (ec.mul (Key.CKey.bin2bn vchSecret)) }
        fSet := true } :=
    ⟨rfl, congrArg some (c.mul vchSecret hfinite), rfl, rfl, h.fCompressedPubKey⟩
  refine ⟨_, by rw [Key.CKey.setSecret, if_neg (not_not.mpr hlength)], ?_⟩
  dsimp only
  by_cases hflag : (fCompressed || key.fCompressedPubKey) = true
  · rw [CKey.setSecret, if_pos hflag, if_pos (by rwa [h.fCompressedPubKey])]
    exact hset.setCompressedPubKey
  · rw [CKey.setSecret, if_neg hflag, if_neg (by rwa [h.fCompressedPubKey])]
    exact hset

theorem Stands.setPubKey (h : Stands c key full) (fCompressed : Bool) (P : lib.Point) :
    Stands c (key.setPubKey (lib.i2o fCompressed P)).2 (full.setPubKey (lib.i2o fCompressed P)).2 := by
  rw [CKey.setPubKey, Key.CKey.setPubKey, c.oct2point, lib.o2i_i2o]
  have hlength : ((lib.i2o fCompressed P).length == 33) = fCompressed := by
    rw [lib.i2o_length]
    cases fCompressed <;> rfl
  have hset : Stands c
      { key with point := some P, fCompressedForm := (lib.i2o fCompressed P).length == 33, fSet := true }
      { full with
        pkey := { full.pkey with
          pub_key := some (c.point P), conv_form := Key.formOf (lib.i2o fCompressed P) }
        fSet := true } :=
    ⟨h.priv_key, rfl, by rw [c.form, hlength], rfl, h.fCompressedPubKey⟩
  dsimp only
  split
  · exact hset.setCompressedPubKey
  · exact hset

theorem Stands.getPubKey (h : Stands c key full) : full.getPubKey.toOption = key.getPubKey := by
  rw [Key.CKey.getPubKey, CKey.getPubKey, h.pub_key, h.conv_form]
  cases key.point with
  | none => rfl
  | some P =>
    rw [Option.map_some, Option.bind_some, c.point2oct]
    rfl

/-- The class makes of an object and a stored key what the store hands out. -/
theorem Stands.filled {keyOut : CKey lib} (h : Stands c keyOut full) (key : StoreKey)
    (hfinite : ec.isAtInfinity (ec.mul (Key.CKey.bin2bn key.secret)) = false) :
    ∃ full', (full.setPubKey (key.pubKey lib)).2.setSecret key.secret false = .ok full' ∧
      full'.getPubKey.toOption =
        some (lib.i2o (key.fCompressed || keyOut.fCompressedPubKey) (lib.pub key.secret)) := by
  obtain ⟨full', hfull, hstands⟩ :=
    (h.setPubKey key.fCompressed (lib.pub key.secret)).setSecret key.secret_length hfinite false
  exact ⟨full', hfull, hstands.getPubKey.trans (filled_spec keyOut key).2⟩

end Objects

/-! What the store holds. -/

abbrev Added := uint160 → Option StoreKey

def cryptedKey (lib : SenderLib) (vMasterKey secret : List UInt8) (fCompressed : Bool) :
    List UInt8 × List UInt8 :=
  let vchPubKey := lib.i2o fCompressed (lib.pub secret)
  (vchPubKey, (encryptSecret lib vMasterKey secret (lib.hash vchPubKey)).getD [])

/-- The store holds the keys that were added, in one of its two forms. -/
structure Holds (lib : SenderLib) (vMasterKey : List UInt8) (s : CCryptoKeyStore) (added : Added) :
    Prop where
  own : ∀ id key, added id = some key → key.id lib = id
  plain : s.fUseCrypto = false → s.mapCryptedKeys = ∅ ∧ s.vMasterKey = [] ∧
    ∀ id, s.mapKeys[id]? = (added id).map fun key => (key.secret, key.fCompressed)
  crypted : s.fUseCrypto = true → (s.vMasterKey = [] ∨ s.vMasterKey = vMasterKey) ∧
    ∀ id, s.mapCryptedKeys[id]? =
      (added id).map fun key => cryptedKey lib vMasterKey key.secret key.fCompressed

section Steps

variable {lib : SenderLib} {vMasterKey : List UInt8} {s : CCryptoKeyStore} {added : Added}

theorem holds_start : Holds lib vMasterKey {} fun _ => none where
  own := nofun
  plain _ := ⟨rfl, rfl, fun _ => ExtTreeMap.getElem?_empty⟩
  crypted h := by cases h

theorem Holds.own_update (h : Holds lib vMasterKey s added) (key : StoreKey) (id : uint160)
    (k : StoreKey) (hk : Function.update added (key.id lib) (some key) id = some k) :
    k.id lib = id := by
  by_cases hid : id = key.id lib
  · rw [hid, Function.update_self] at hk
    rw [← Option.some.inj hk, hid]
  · rw [Function.update_of_ne hid] at hk
    exact h.own id k hk

/-- A map of what is stored for each key, after one more key. -/
theorem getElem?_insert_key {V : Type} {m : ExtTreeMap uint160 V keyIDCmp} {f : StoreKey → V}
    (hm : ∀ id, m[id]? = (added id).map f) (key : StoreKey) (id₀ id : uint160) :
    (m.insert id₀ (f key))[id]? = (Function.update added id₀ (some key) id).map f := by
  refine (getElem?_insert_eq m id₀ id (f key)).trans ?_
  split
  · rename_i hid
    rw [← hid, Function.update_self]
    rfl
  · rename_i hid
    rw [Function.update_of_ne fun h => hid h.symm]
    exact hm id

/-- A store without keys becomes an encrypted one. -/
theorem Holds.setCrypted (h : Holds lib vMasterKey s added) :
    Holds lib vMasterKey s.setCrypted.2 added ∧
      (s.setCrypted.1 = true → s.setCrypted.2.fUseCrypto = true) := by
  unfold CCryptoKeyStore.setCrypted
  split
  · rename_i hcrypted
    exact ⟨h, fun _ => hcrypted⟩
  · split
    · exact ⟨h, nofun⟩
    · rename_i hplain hempty
      rw [Bool.not_eq_true] at hplain
      obtain ⟨hnone, hkey, hkeys⟩ := h.plain hplain
      have hadded : ∀ id, added id = none := fun id => by
        have hid := hkeys id
        rw [Bool.not_eq_true', Bool.not_eq_false, ExtTreeMap.isEmpty_iff] at hempty
        rw [hempty, ExtTreeMap.getElem?_empty] at hid
        exact Option.map_eq_none_iff.mp hid.symm
      refine ⟨⟨h.own, nofun, fun _ => ⟨.inl hkey, fun id => ?_⟩⟩, fun _ => rfl⟩
      rw [hnone, hadded id, ExtTreeMap.getElem?_empty]
      rfl

/-- An encrypted store takes the master key or drops it. -/
theorem Holds.setMaster (h : Holds lib vMasterKey s added) (hcrypted : s.fUseCrypto = true)
    {key : List UInt8} (hkey : key = [] ∨ key = vMasterKey) :
    Holds lib vMasterKey { s with vMasterKey := key } added := by
  refine ⟨h.own, fun hplain => ?_, fun _ => ⟨hkey, (h.crypted hcrypted).2⟩⟩
  have hboth : true = false := hcrypted.symm.trans hplain
  cases hboth

theorem Holds.lockKeyStore (h : Holds lib vMasterKey s added) :
    Holds lib vMasterKey s.lockKeyStore.2 added := by
  obtain ⟨hset, hcrypted⟩ := h.setCrypted
  unfold CCryptoKeyStore.lockKeyStore
  revert hset hcrypted
  rcases s.setCrypted with ⟨_ | _, s'⟩
  · exact fun hset _ => hset
  · exact fun hset hcrypted => hset.setMaster (hcrypted rfl) (.inl rfl)

theorem Holds.addCryptedKey (h : Holds lib vMasterKey s added) (hcrypted : s.fUseCrypto = true)
    (key : StoreKey) :
    let r := s.addCryptedKey lib (cryptedKey lib vMasterKey key.secret key.fCompressed).1
      (cryptedKey lib vMasterKey key.secret key.fCompressed).2
    r.1 = true ∧ Holds lib vMasterKey r.2 (Function.update added (key.id lib) (some key)) := by
  have hset : s.setCrypted = (true, s) := if_pos hcrypted
  unfold CCryptoKeyStore.addCryptedKey
  rw [hset]
  refine ⟨rfl, h.own_update key, fun hplain => ?_, fun _ => ⟨(h.crypted hcrypted).1, ?_⟩⟩
  · have hboth : true = false := hcrypted.symm.trans hplain
    cases hboth
  · exact getElem?_insert_key (h.crypted hcrypted).2 key (key.id lib)

def insertCrypted (lib : SenderLib) (vMasterKey : List UInt8)
    (l : List (uint160 × (List UInt8 × Bool))) (m : CryptedKeyMap) : CryptedKeyMap :=
  (l.map fun p => (p.1, cryptedKey lib vMasterKey p.2.1 p.2.2)).foldl
    (fun m p => m.insert p.1 p.2) m

section Plain

variable {m : KeyMap}
  (hm : ∀ id, m[id]? = (added id).map fun key => (key.secret, key.fCompressed))
include hm

theorem mem_toList_added {p : uint160 × (List UInt8 × Bool)} (hp : p ∈ m.toList) :
    ∃ key, added p.1 = some key ∧ p.2 = (key.secret, key.fCompressed) := by
  have hget := ExtTreeMap.mem_toList_iff_getElem?_eq_some.mp hp
  rw [hm] at hget
  obtain ⟨key, hadded, hpair⟩ := Option.map_eq_some_iff.mp hget
  exact ⟨key, hadded, hpair.symm⟩

/-- Encrypting all entries of `mapKeys` gives the records of the same keys. -/
theorem insertCrypted_toList (id : uint160) :
    (insertCrypted lib vMasterKey m.toList ∅)[id]? =
      (added id).map fun key => cryptedKey lib vMasterKey key.secret key.fCompressed := by
  have hnodup : ((m.toList.map fun p =>
      (p.1, cryptedKey lib vMasterKey p.2.1 p.2.2)).map Prod.fst).Nodup := by
    rw [List.map_map]
    exact toList_keys_nodup m
  unfold insertCrypted
  cases hadded : added id with
  | none =>
    rw [Option.map_none, Option.eq_none_iff_forall_ne_some]
    intro v hv
    rcases getElem?_foldl_insert_some _ (∅ : CryptedKeyMap) hv with hold | hmem
    · rw [ExtTreeMap.getElem?_empty] at hold
      cases hold
    · obtain ⟨p, hp, hpv⟩ := List.mem_map.mp hmem
      obtain ⟨key, hkey, -⟩ := mem_toList_added hm hp
      rw [(Prod.mk.inj hpv).1, hadded] at hkey
      cases hkey
  | some key =>
    have hget : m[id]? = some (key.secret, key.fCompressed) := by
      rw [hm, hadded]
      rfl
    have hp := ExtTreeMap.mem_toList_iff_getElem?_eq_some.mpr hget
    exact getElem?_foldl_insert_mem _ hnodup (∅ : CryptedKeyMap)
      (List.mem_map_of_mem (f := fun p : uint160 × (List UInt8 × Bool) =>
        (p.1, cryptedKey lib vMasterKey p.2.1 p.2.2)) hp)

end Plain

end Steps

section Secrets

variable {lib : SenderLib} {vMasterKey : List UInt8} {s : CCryptoKeyStore} {added : Added}
variable (haes : ∀ key block : List UInt8, block.length = 16 →
  lib.aesDecrypt key (lib.aesEncrypt key block) = block)
  (hM : vMasterKey.length = WALLET_CRYPTO_KEY_SIZE)
include haes hM

/-- The record of an encrypted key: its public key, and a secret that opens. -/
theorem cryptedKey_opens (key : SecretKey) :
    ∃ c, encryptSecret lib vMasterKey key.secret (lib.hash (key.pubKey lib)) = some c ∧
      cryptedKey lib vMasterKey key.secret key.fCompressed = (key.pubKey lib, c) ∧
      decryptSecret lib vMasterKey c (lib.hash (key.pubKey lib)) = some key.secret := by
  obtain ⟨c, hc, hopen⟩ := decryptSecret_encrypt haes hM key.secret (key.pubKey lib)
  refine ⟨c, hc, ?_, hopen⟩
  change (key.pubKey lib, (encryptSecret lib vMasterKey key.secret
    (lib.hash (key.pubKey lib))).getD []) = _
  rw [hc]
  rfl

/-- What `AddKey` returns tells whether the key was added. -/
theorem Holds.addKey (h : Holds lib vMasterKey s added) (key : StoreKey) :
    Holds lib vMasterKey (s.addKey lib key).2
      (if (s.addKey lib key).1 then Function.update added (key.id lib) (some key) else added) := by
  unfold CCryptoKeyStore.addKey
  cases hcrypted : s.fUseCrypto with
  | false =>
    obtain ⟨hnone, hkey, hkeys⟩ := h.plain hcrypted
    simp only [Bool.not_false, if_true]
    refine ⟨h.own_update key, fun _ => ⟨hnone, hkey, ?_⟩, fun hc => ?_⟩
    · exact getElem?_insert_key hkeys key (key.id lib)
    · cases hc
  | true =>
    simp only [Bool.not_true, Bool.false_eq_true, if_false]
    cases hlocked : s.isLocked with
    | true => exact h
    | false =>
      have hmaster : s.vMasterKey = vMasterKey := by
        refine (h.crypted hcrypted).1.resolve_left fun hnil => ?_
        unfold CCryptoKeyStore.isLocked at hlocked
        rw [hcrypted, hnil] at hlocked
        cases hlocked
      obtain ⟨c, hc, hrecord, -⟩ := cryptedKey_opens haes hM key.toSecretKey
      obtain ⟨hok, hadd⟩ := h.addCryptedKey hcrypted key
      rw [hrecord] at hok hadd
      simp only [Bool.false_eq_true, if_false, hmaster, hc, hok, if_true]
      exact hadd

theorem encryptLoop_eq (l : List (uint160 × (List UInt8 × Bool)))
    (hl : ∀ p ∈ l, p.1 = lib.hash160 (lib.i2o p.2.2 (lib.pub p.2.1)))
    (hcrypted : s.fUseCrypto = true) :
    CCryptoKeyStore.encryptLoop lib vMasterKey l s =
      (true, { s with mapCryptedKeys := insertCrypted lib vMasterKey l s.mapCryptedKeys }) := by
  induction l generalizing s with
  | nil => rfl
  | cons p l ih =>
    obtain ⟨id, secret, fCompressed⟩ := p
    have hid : id = lib.hash160 (lib.i2o fCompressed (lib.pub secret)) := hl _ List.mem_cons_self
    have hpub := (setSecret_spec (CKey.reset : CKey lib) secret fCompressed).2
    have hflag : (CKey.reset : CKey lib).fCompressedPubKey = false := rfl
    rw [hflag, Bool.or_false] at hpub
    obtain ⟨c, hc, hrecord, -⟩ := cryptedKey_opens haes hM ⟨secret, fCompressed⟩
    change encryptSecret lib vMasterKey secret (lib.hash (lib.i2o fCompressed (lib.pub secret))) =
      _ at hc
    change cryptedKey lib vMasterKey secret fCompressed = (lib.i2o fCompressed (lib.pub secret), c)
      at hrecord
    have hset : s.setCrypted = (true, s) := if_pos hcrypted
    unfold CCryptoKeyStore.encryptLoop CCryptoKeyStore.addCryptedKey
    simp only [hpub, Option.getD_some, hc, hset]
    have hrest := fun m => ih (s := { s with mapCryptedKeys := m })
      (fun q hq => hl q (List.mem_cons_of_mem _ hq)) hcrypted
    rw [hrest, insertCrypted, insertCrypted, List.map_cons, List.foldl_cons, hrecord, hid]

/-- Encrypting the keys of a store leaves it locked, with the same keys. -/
theorem Holds.encryptKeys (h : Holds lib vMasterKey s added) :
    Holds lib vMasterKey (s.encryptKeys lib vMasterKey).2 added := by
  unfold CCryptoKeyStore.encryptKeys
  split
  · exact h
  · rename_i hplain
    rw [Bool.or_eq_true, not_or, Bool.not_eq_true, Bool.not_eq_true] at hplain
    obtain ⟨hnone, hkey, hkeys⟩ := h.plain hplain.2
    have hown : ∀ p ∈ s.mapKeys.toList, p.1 = lib.hash160 (lib.i2o p.2.2 (lib.pub p.2.1)) :=
      fun p hp => by
        obtain ⟨key, hadded, hpair⟩ := mem_toList_added hkeys hp
        rw [hpair, ← h.own _ _ hadded]
        rfl
    rw [encryptLoop_eq haes hM s.mapKeys.toList hown rfl]
    refine ⟨h.own, nofun, fun _ => ⟨.inl hkey, fun id => ?_⟩⟩
    change (insertCrypted lib vMasterKey s.mapKeys.toList s.mapCryptedKeys)[id]? = _
    rw [hnone]
    exact insertCrypted_toList hkeys id

/-- The test of `Unlock` succeeds under the master key that encrypted the keys. -/
theorem Holds.opensFirst (h : Holds lib vMasterKey s added) (hcrypted : s.fUseCrypto = true) :
    s.opensFirst lib vMasterKey = true := by
  unfold CCryptoKeyStore.opensFirst
  cases hl : s.mapCryptedKeys.toList with
  | nil => rfl
  | cons e rest =>
    obtain ⟨id, vchPubKey, vchCryptedSecret⟩ := e
    have hget := ExtTreeMap.mem_toList_iff_getElem?_eq_some.mp (hl ▸ List.mem_cons_self)
    rw [(h.crypted hcrypted).2] at hget
    obtain ⟨key, -, hrecord⟩ := Option.map_eq_some_iff.mp hget
    obtain ⟨c, -, hc, hopen⟩ := cryptedKey_opens haes hM key.toSecretKey
    obtain ⟨rfl, rfl⟩ := Prod.mk.inj (hrecord.symm.trans hc)
    have hpub := (filled_spec (CKey.reset : CKey lib) key).2
    have hflag : (CKey.reset : CKey lib).fCompressedPubKey = false := rfl
    rw [hflag, Bool.or_false] at hpub
    change _ = some (key.pubKey lib) at hpub
    simp only [hopen, key.secret_length, ne_eq, not_true, if_false, hpub]
    exact beq_self_eq_true _

/-- `Unlock` opens every store that is encrypted or can be. -/
theorem Holds.unlock (h : Holds lib vMasterKey s added) :
    Holds lib vMasterKey (s.unlock lib vMasterKey).2 added ∧
      (s.unlock lib vMasterKey).1 = s.setCrypted.1 := by
  obtain ⟨hset, hcrypted⟩ := h.setCrypted
  unfold CCryptoKeyStore.unlock
  revert hset hcrypted
  rcases s.setCrypted with ⟨_ | _, s'⟩
  · exact fun hset _ => ⟨hset, rfl⟩
  · intro hset hcrypted
    have hopens : s'.opensFirst lib vMasterKey = true := hset.opensFirst haes hM (hcrypted rfl)
    simp only [hopens, if_true]
    exact ⟨hset.setMaster (hcrypted rfl) (.inr rfl), trivial⟩

end Secrets

/-! Runs. -/

section Runs

variable {lib : SenderLib} {vMasterKey : List UInt8}

def KeyOp.step (lib : SenderLib) (vMasterKey : List UInt8) (st : CCryptoKeyStore × Added)
    (op : KeyOp) : CCryptoKeyStore × Added :=
  let r := op.run lib vMasterKey st.1
  match op with
  | .addKey key =>
    (r.2, if r.1 then Function.update st.2 (key.id lib) (some key) else st.2)
  | _ => (r.2, st.2)

def runKeys (lib : SenderLib) (vMasterKey : List UInt8) (ops : List KeyOp) :
    CCryptoKeyStore × Added :=
  ops.foldl (KeyOp.step lib vMasterKey) ({}, fun _ => none)

variable (haes : ∀ key block : List UInt8, block.length = 16 →
  lib.aesDecrypt key (lib.aesEncrypt key block) = block)
  (hM : vMasterKey.length = WALLET_CRYPTO_KEY_SIZE)
include haes hM

theorem step_holds
    {st : CCryptoKeyStore × Added}
    (h : Holds lib vMasterKey st.1 st.2) (op : KeyOp) :
    Holds lib vMasterKey (op.step lib vMasterKey st).1 (op.step lib vMasterKey st).2 := by
  cases op with
  | addKey key => exact h.addKey haes hM key
  | encryptKeys => exact h.encryptKeys haes hM
  | lockKeyStore => exact h.lockKeyStore
  | unlock => exact (h.unlock haes hM).1

/-- After any calls the store holds the keys that were added. -/
theorem run_holds
    (ops : List KeyOp) :
    Holds lib vMasterKey (runKeys lib vMasterKey ops).1 (runKeys lib vMasterKey ops).2 := by
  refine List.foldlRecOn (motive := fun st : CCryptoKeyStore × Added =>
    Holds lib vMasterKey st.1 st.2) ops _ holds_start ?_
  exact fun st h op _ => step_holds haes hM h op

/-- `GetKey` returns the right key for an address: it returns true exactly when the key was added and
the store is not locked, and then the object has the secret and the address. -/
structure GetsRight (lib : SenderLib) (s : CCryptoKeyStore) (added : Added) (id : uint160)
    (keyOut : CKey lib) : Prop where
  found : (s.getKey id keyOut).1 = true ↔ added id ≠ none ∧ s.isLocked = false
  right : (s.getKey id keyOut).1 = true → ∃ key, added id = some key ∧
    (s.getKey id keyOut).2.secret = some key.secret ∧ (s.getKey id keyOut).2.getID = some id

/-- The one case that goes wrong: an open encrypted store, an uncompressed key, and an object that
held a compressed one; unless both forms of the public key have one hash. -/
def StickyFlag (lib : SenderLib) (s : CCryptoKeyStore) (added : Added) (id : uint160)
    (keyOut : CKey lib) : Prop :=
  s.fUseCrypto = true ∧ s.isLocked = false ∧ keyOut.fCompressedPubKey = true ∧
    ∃ key, added id = some key ∧ key.fCompressed = false ∧
      lib.hash160 (lib.i2o true (lib.pub key.secret)) ≠ id

section Get

variable {s : CCryptoKeyStore} {added : Added} {id : uint160}

omit haes hM in
/-- A key that was not added is not found. -/
theorem Holds.getKey_none (h : Holds lib vMasterKey s added) (hadded : added id = none)
    (keyOut : CKey lib) : (s.getKey id keyOut).1 = false := by
  unfold CCryptoKeyStore.getKey
  cases hcrypted : s.fUseCrypto with
  | false =>
    have hkey := (h.plain hcrypted).2.2 id
    rw [hadded, Option.map_none] at hkey
    simp only [hkey]
    rfl
  | true =>
    have hkey := (h.crypted hcrypted).2 id
    rw [hadded, Option.map_none] at hkey
    simp only [hkey]
    rfl

omit haes hM in
/-- A locked store has no master key to decrypt with. -/
theorem getKey_locked (hlocked : s.isLocked = true) (id : uint160) (keyOut : CKey lib) :
    (s.getKey id keyOut).1 = false := by
  unfold CCryptoKeyStore.isLocked at hlocked
  rw [Bool.and_eq_true, List.isEmpty_iff] at hlocked
  obtain ⟨hcrypted, hnil⟩ := hlocked
  have hnone : ∀ c vchPubKey, decryptSecret lib s.vMasterKey c (lib.hash vchPubKey) = none :=
    fun c vchPubKey => if_pos (.inl (by rw [hnil]; decide))
  unfold CCryptoKeyStore.getKey
  simp only [hcrypted, hnone]
  cases s.mapCryptedKeys[id]? <;> rfl

/-- A key that was added is found in an open store; the flag of the object comes into its address
when the store is encrypted. -/
theorem Holds.getKey_some (h : Holds lib vMasterKey s added) {key : StoreKey}
    (hadded : added id = some key) (hopen : s.isLocked = false) (keyOut : CKey lib) :
    (s.getKey id keyOut).1 = true ∧ (s.getKey id keyOut).2.secret = some key.secret ∧
      (s.getKey id keyOut).2.getID = some (lib.hash160 (lib.i2o
        (key.fCompressed || (s.fUseCrypto && keyOut.fCompressedPubKey)) (lib.pub key.secret))) := by
  unfold CCryptoKeyStore.isLocked at hopen
  unfold CCryptoKeyStore.getKey CKey.getID
  cases hcrypted : s.fUseCrypto with
  | false =>
    have hkey := (h.plain hcrypted).2.2 id
    rw [hadded, Option.map_some] at hkey
    obtain ⟨hsecret, hpub⟩ := setSecret_spec (CKey.reset : CKey lib) key.secret key.fCompressed
    have hflag : (CKey.reset : CKey lib).fCompressedPubKey = false := rfl
    rw [hflag] at hpub
    simp only [hkey, Bool.not_false, if_true, hsecret, hpub, Bool.false_and]
    exact ⟨trivial, trivial, rfl⟩
  | true =>
    obtain ⟨hmaster, hkeys⟩ := h.crypted hcrypted
    have hkey := hkeys id
    obtain ⟨c, -, hc, hdecrypt⟩ := cryptedKey_opens haes hM key.toSecretKey
    rw [hadded, Option.map_some, hc] at hkey
    have hM' : s.vMasterKey = vMasterKey := hmaster.resolve_left fun hnil => by
      rw [hcrypted, hnil] at hopen
      cases hopen
    obtain ⟨hsecret, hpub⟩ := filled_spec keyOut key
    simp only [hkey, hM', hdecrypt, key.secret_length, hsecret, hpub, Bool.not_true,
      Bool.false_eq_true, Bool.true_and, if_false, ne_eq, not_true]
    exact ⟨trivial, trivial, rfl⟩

/-- For a store that holds the keys that were added, `GetKey` is right unless the flag of the object
makes an uncompressed key compressed. -/
theorem Holds.right_iff (h : Holds lib vMasterKey s added) (id : uint160) (keyOut : CKey lib) :
    GetsRight lib s added id keyOut ↔ ¬StickyFlag lib s added id keyOut := by
  cases hadded : added id with
  | none =>
    have hfalse := h.getKey_none hadded keyOut
    refine ⟨fun _ ⟨_, _, _, key, hkey, _⟩ => ?_, fun _ => ⟨?_, fun htrue => ?_⟩⟩
    · rw [hadded] at hkey
      cases hkey
    · simp [hfalse, hadded]
    · rw [hfalse] at htrue
      cases htrue
  | some key =>
    cases hlocked : s.isLocked with
    | true =>
      have hfalse := getKey_locked hlocked id keyOut
      refine ⟨fun _ ⟨_, hopen, _⟩ => ?_, fun _ => ⟨?_, fun htrue => ?_⟩⟩
      · rw [hlocked] at hopen
        cases hopen
      · simp [hfalse, hlocked]
      · rw [hfalse] at htrue
        cases htrue
    | false =>
      obtain ⟨htrue, hsecret, hid⟩ := h.getKey_some haes hM hadded hlocked keyOut
      constructor
      · intro hright hsticky
        obtain ⟨hcrypted, -, hflag, key', hkey', hform, hhash⟩ := hsticky
        obtain rfl := Option.some.inj (hadded.symm.trans hkey')
        obtain ⟨-, -, -, haddress⟩ := hright.right htrue
        rw [hid, hform, hcrypted, hflag] at haddress
        exact hhash (Option.some.inj haddress)
      · intro hsticky
        refine ⟨by simp [htrue, hadded, hlocked], fun _ => ⟨key, hadded, hsecret, ?_⟩⟩
        rw [hid]
        by_cases hform : (key.fCompressed || (s.fUseCrypto && keyOut.fCompressedPubKey)) =
          key.fCompressed
        · rw [hform]
          exact congrArg some (h.own id key hadded)
        · -- the object makes an uncompressed key compressed
          have hplain : key.fCompressed = false := by
            cases hc : key.fCompressed with
            | false => rfl
            | true => rw [hc] at hform; exact absurd rfl hform
          rw [hplain, Bool.false_or, Bool.not_eq_false, Bool.and_eq_true] at hform
          rw [hplain, hform.1, hform.2]
          by_contra hne
          exact hsticky ⟨hform.1, hlocked, hform.2, key, hadded, hplain,
            fun heq => hne (congrArg some heq)⟩

end Get

end Runs

/-- After any calls `GetKey` returns the right key exactly when the flag of the object does not get in
the way. -/
theorem getKey_right_iff {lib : SenderLib}
    (haes : ∀ key block : List UInt8, block.length = 16 →
      lib.aesDecrypt key (lib.aesEncrypt key block) = block)
    {vMasterKey : List UInt8} (hM : vMasterKey.length = WALLET_CRYPTO_KEY_SIZE)
    (ops : List KeyOp) (id : uint160) (keyOut : CKey lib) :
    GetsRight lib (runKeys lib vMasterKey ops).1 (runKeys lib vMasterKey ops).2 id keyOut ↔
      ¬StickyFlag lib (runKeys lib vMasterKey ops).1 (runKeys lib vMasterKey ops).2 id keyOut :=
  (run_holds haes hM ops).right_iff haes hM id keyOut

namespace Sample

def formLib : SenderLib where
  toSmsgLib := { Triangles.Sample.smsgLib with
    hash160 := fun v => List.replicate 18 0 ++ [UInt8.ofNat v.length, v.getLastD 0]
    hash160_length := fun _ => rfl }
  pub := Triangles.Sample.senderLib.pub
  hash_length := Triangles.Sample.senderLib.hash_length
  aesEncrypt := Triangles.Sample.senderLib.aesEncrypt
  aesEncrypt_length := Triangles.Sample.senderLib.aesEncrypt_length
  ecdsaSign := Triangles.Sample.senderLib.ecdsaSign
  ecdsaSign_length := Triangles.Sample.senderLib.ecdsaSign_length
  lz4Compress := Triangles.Sample.senderLib.lz4Compress

theorem formLib_aes (key block : List UInt8) (h : block.length = 16) :
    formLib.aesDecrypt key (formLib.aesEncrypt key block) = block :=
  Triangles.Sample.senderLib_sound.aesDecrypt_encrypt key block h

def masterKey : List UInt8 := List.replicate 32 1

def plainKey : StoreKey where
  secret := List.replicate 31 0 ++ [7]
  fCompressed := false
  secret_length := rfl

def keyOps : List KeyOp := [.addKey plainKey, .encryptKeys, .unlock]

def usedKey : CKey formLib := CKey.reset.setSecret (List.replicate 31 0 ++ [8]) true

end Sample

/-- The key that comes back is compressed, with another address. -/
theorem reused_key_wrong :
    ¬GetsRight Sample.formLib (runKeys Sample.formLib Sample.masterKey Sample.keyOps).1
      (runKeys Sample.formLib Sample.masterKey Sample.keyOps).2
      (Sample.plainKey.id Sample.formLib) Sample.usedKey := by
  intro h
  obtain ⟨_, _, _, haddress⟩ := h.right (by decide)
  revert haddress
  decide

theorem fresh_key_right :
    GetsRight Sample.formLib (runKeys Sample.formLib Sample.masterKey Sample.keyOps).1
      (runKeys Sample.formLib Sample.masterKey Sample.keyOps).2
      (Sample.plainKey.id Sample.formLib) CKey.reset :=
  (getKey_right_iff Sample.formLib_aes (by decide) Sample.keyOps
    (Sample.plainKey.id Sample.formLib) CKey.reset).mpr fun h => absurd h.2.2.1 (by decide)

end Triangles.Keystore
