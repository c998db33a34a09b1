import Triangles.Model.KeyStore
import Triangles.Proofs.KeyStore

/-! What `Unlock` and `ChangeWalletPassphrase` return against the lock that they leave. -/

namespace Triangles.Keystore

variable {lib : PassphraseLib} {strWalletPassphrase : List UInt8} {s : CCryptoKeyStore}

/-- In an encrypted store the test of the first key decides, and a failure changes nothing. -/
theorem unlock_encrypted (hcrypted : s.fUseCrypto = true) (vMasterKeyIn : List UInt8) :
    s.unlock lib.toSenderLib vMasterKeyIn =
      if s.opensFirst lib.toSenderLib vMasterKeyIn then
        (true, { s with vMasterKey := vMasterKeyIn })
      else (false, s) := by
  have hset : s.setCrypted = (true, s) := by rw [CCryptoKeyStore.setCrypted, if_pos hcrypted]
  rw [CCryptoKeyStore.unlock, hset]

/-- A master key settles a loop over the master keys: it is not decrypted, or the store opens
with it. -/
def settles (lib : PassphraseLib) (strWalletPassphrase : List UInt8) (s : CCryptoKeyStore)
    (pMasterKey : UInt32 × CMasterKey) : Bool :=
  ((pMasterKey.2.decrypt lib strWalletPassphrase).map (s.opensFirst lib.toSenderLib)).getD true

theorem settles_none {pMasterKey : UInt32 × CMasterKey}
    (h : pMasterKey.2.decrypt lib strWalletPassphrase = none) :
    settles lib strWalletPassphrase s pMasterKey = true := by
  rw [settles, h]
  rfl

theorem settles_some {pMasterKey : UInt32 × CMasterKey} {vMasterKey : List UInt8}
    (h : pMasterKey.2.decrypt lib strWalletPassphrase = some vMasterKey) :
    settles lib strWalletPassphrase s pMasterKey = s.opensFirst lib.toSenderLib vMasterKey := by
  rw [settles, h]
  rfl

def settled (lib : PassphraseLib) (strWalletPassphrase : List UInt8) (s : CCryptoKeyStore) :
    Option (UInt32 × CMasterKey) → Bool × CCryptoKeyStore
  | none => (true, s)
  | some pMasterKey =>
    ((pMasterKey.2.decrypt lib strWalletPassphrase).map fun vMasterKey =>
      (true, { s with vMasterKey := vMasterKey })).getD (false, s)

variable (lib strWalletPassphrase) in
/-- The first master key that settles the loop decides. -/
theorem unlockLoop_eq (hcrypted : s.fUseCrypto = true) (mapMasterKeys : MasterKeyMap) :
    unlockLoop lib strWalletPassphrase mapMasterKeys s =
      settled lib strWalletPassphrase s
        (mapMasterKeys.find? (settles lib strWalletPassphrase s)) := by
  induction mapMasterKeys with
  | nil => rfl
  | cons pMasterKey rest ih =>
    rw [unlockLoop]
    cases hdec : pMasterKey.2.decrypt lib strWalletPassphrase with
    | none =>
      rw [List.find?_cons_of_pos (settles_none hdec)]
      simp only [settled, hdec, Option.map_none, Option.getD_none]
    | some vMasterKey =>
      simp only [unlock_encrypted hcrypted]
      by_cases hopen : s.opensFirst lib.toSenderLib vMasterKey = true
      · rw [List.find?_cons_of_pos (by rwa [settles_some hdec]), if_pos hopen]
        simp only [settled, hdec, Option.map_some, Option.getD_some]
      · rw [List.find?_cons_of_neg (by rwa [settles_some hdec]), if_neg hopen]
        exact ih

theorem isLocked_iff : s.isLocked = true ↔ s.fUseCrypto = true ∧ s.vMasterKey = [] := by
  simp [CCryptoKeyStore.isLocked]

/-- What `Unlock` returns is whether the wallet is unlocked, exactly when some master key
settles the loop and is not decrypted to nothing. -/
theorem unlock_tells_truth_iff (lib : PassphraseLib) (w : CWallet)
    (strWalletPassphrase : List UInt8) (hlocked : w.isLocked = true) :
    ((w.unlock lib strWalletPassphrase).1 = true ↔
        (w.unlock lib strWalletPassphrase).2.isLocked = false) ↔
      ∃ pMasterKey, w.mapMasterKeys.find?
          (settles lib strWalletPassphrase w.toCCryptoKeyStore) = some pMasterKey ∧
        pMasterKey.2.decrypt lib strWalletPassphrase ≠ some [] := by
  obtain ⟨hcrypted, -⟩ := isLocked_iff.mp hlocked
  have hloop := unlockLoop_eq lib strWalletPassphrase hcrypted w.mapMasterKeys
  have hunlock : w.unlock lib strWalletPassphrase =
      ((unlockLoop lib strWalletPassphrase w.mapMasterKeys w.toCCryptoKeyStore).1,
        { w with toCCryptoKeyStore :=
          (unlockLoop lib strWalletPassphrase w.mapMasterKeys w.toCCryptoKeyStore).2 }) := by
    rw [CWallet.unlock, hlocked]
    rfl
  rw [hunlock, hloop]
  cases hfind : w.mapMasterKeys.find?
      (settles lib strWalletPassphrase w.toCCryptoKeyStore) with
  | none =>
    -- no master key settles it: the wallet is locked and success is returned
    simp [settled, hlocked]
  | some pMasterKey =>
    simp only [Option.some.injEq, exists_eq_left']
    cases hdec : pMasterKey.2.decrypt lib strWalletPassphrase with
    | none => simp [settled, hdec, hlocked]
    | some vMasterKey =>
      simp only [settled, hdec, Option.map_some, Option.getD_some, true_iff, ne_eq,
        Option.some.injEq]
      simp [CCryptoKeyStore.isLocked, hcrypted]

namespace Sample

def addKeyBytes (key block : List UInt8) : List UInt8 :=
  (List.range 16).map fun i => block.getD i 0 ^^^ key.getD i 0

def passLib : PassphraseLib where
  toSmsgLib := { formLib.toSmsgLib with
    aesDecrypt := addKeyBytes
    aesDecrypt_length := fun _ _ => by simp [addKeyBytes] }
  pub := formLib.pub
  hash_length := formLib.hash_length
  aesEncrypt := addKeyBytes
  aesEncrypt_length := fun _ _ => by simp [addKeyBytes]
  ecdsaSign := formLib.ecdsaSign
  ecdsaSign_length := formLib.ecdsaSign_length
  lz4Compress := formLib.lz4Compress
  bytesToKey _ data _ := (List.replicate 32 9, (List.range 16).map fun i => data.getD i 0)
  scryptHash data _ _ := data

def masterRecord (strWalletPassphrase : List UInt8) : CMasterKey where
  vchCryptedKey :=
    let (chKey, chIV) := passLib.bytesToKey [] strWalletPassphrase 25000
    (crypterEncrypt passLib.toSenderLib true chKey chIV masterKey).getD []
  vchSalt := List.replicate 8 0

def lockedWallet : CWallet where
  toCCryptoKeyStore :=
    (runKeys passLib.toSenderLib masterKey [.addKey plainKey, .encryptKeys]).1
  mapMasterKeys := [(1, masterRecord [112])]

end Sample

theorem unlock_tells_truth_right :
    (Sample.lockedWallet.unlock Sample.passLib [112]).1 = true ↔
      (Sample.lockedWallet.unlock Sample.passLib [112]).2.isLocked = false :=
  (unlock_tells_truth_iff Sample.passLib Sample.lockedWallet [112] (by decide)).mpr
    ⟨(1, Sample.masterRecord [112]), by decide, by decide⟩

/-- The passphrase `q` decrypts the record of `p` to a wrong master key, which opens nothing:
`Unlock` returns true, and the wallet is locked. -/
theorem unlock_wrong_passphrase :
    Sample.lockedWallet.isLocked = true ∧
    (Sample.lockedWallet.unlock Sample.passLib [113]).1 = true ∧
    (Sample.lockedWallet.unlock Sample.passLib [113]).2.isLocked = true := by
  refine ⟨?_, ?_, ?_⟩ <;> decide

/-! The change of the passphrase. -/

/-- The old passphrase opens the store: the master key that settles the loop is decrypted. -/
def OpensStore (lib : PassphraseLib) (strWalletPassphrase : List UInt8) (s : CCryptoKeyStore)
    (mapMasterKeys : MasterKeyMap) : Prop :=
  ∃ pMasterKey, mapMasterKeys.find? (settles lib strWalletPassphrase s) = some pMasterKey ∧
    (pMasterKey.2.decrypt lib strWalletPassphrase).isSome = true

theorem not_opensStore_cons {n : UInt32} {k : CMasterKey}
    (hdec : k.decrypt lib strWalletPassphrase = none) (rest : MasterKeyMap) :
    ¬ OpensStore lib strWalletPassphrase s ((n, k) :: rest) := by
  rintro ⟨p, hfind, hsome⟩
  rw [List.find?_cons_of_pos (settles_none hdec)] at hfind
  cases hfind
  rw [hdec] at hsome
  cases hsome

/-- The first key settles the loop, or leaves it to the rest. -/
theorem opensStore_cons {n : UInt32} {k : CMasterKey} {vMasterKey : List UInt8}
    (hdec : k.decrypt lib strWalletPassphrase = some vMasterKey) (rest : MasterKeyMap) :
    OpensStore lib strWalletPassphrase s ((n, k) :: rest) ↔
      s.opensFirst lib.toSenderLib vMasterKey = true ∨ OpensStore lib strWalletPassphrase s rest := by
  unfold OpensStore
  by_cases hopen : s.opensFirst lib.toSenderLib vMasterKey = true
  · rw [List.find?_cons_of_pos (by rwa [settles_some hdec])]
    simp [hdec, hopen]
  · rw [List.find?_cons_of_neg (by rwa [settles_some hdec])]
    simp [hopen]

variable (lib) in
theorem setKeyFromPassphrase_isSome (strKeyData : List UInt8) {chSalt : List UInt8}
    {nRounds nDerivationMethod : UInt32} :
    (setKeyFromPassphrase lib strKeyData chSalt nRounds nDerivationMethod).isSome = true ↔
      ¬ nRounds < 1 ∧ chSalt.length = WALLET_CRYPTO_SALT_SIZE ∧
        (nDerivationMethod = 0 ∨ nDerivationMethod = 1) := by
  unfold setKeyFromPassphrase
  by_cases hbad : nRounds < 1 ∨ chSalt.length ≠ WALLET_CRYPTO_SALT_SIZE
  · rw [if_pos hbad]
    simp only [Option.isSome_none, Bool.false_eq_true, false_iff]
    rintro ⟨hrounds, hsalt, -⟩
    exact hbad.elim hrounds fun hne => hne hsalt
  · rw [if_neg hbad]
    rw [not_or, not_not] at hbad
    by_cases hzero : nDerivationMethod = 0
    · simp [hzero, hbad]
    · by_cases hone : nDerivationMethod = 1 <;> simp [hzero, hone, hbad]

/-- A master key that was derived and decrypted with one passphrase is derived with every other: the
iterations are 25000 at least. -/
theorem setKeyFromPassphrase_new {k : CMasterKey} {vMasterKey : List UInt8}
    (h : k.decrypt lib strWalletPassphrase = some vMasterKey) (nTimed : UInt32 → UInt32)
    (strNewWalletPassphrase : List UInt8) :
    ∃ key, setKeyFromPassphrase lib strNewWalletPassphrase k.vchSalt
      (max (nTimed k.nDeriveIterations) 25000) k.nDerivationMethod = some key := by
  have hold : (setKeyFromPassphrase lib strWalletPassphrase k.vchSalt k.nDeriveIterations
      k.nDerivationMethod).isSome = true := by
    unfold CMasterKey.decrypt at h
    split at h
    · cases h
    · rename_i hkey
      rw [hkey]
      rfl
  obtain ⟨-, hsalt, hmethod⟩ := (setKeyFromPassphrase_isSome lib _).mp hold
  have hrounds : ¬ max (nTimed k.nDeriveIterations) 25000 < 1 := by
    have hle : (25000 : UInt32).toNat ≤ (max (nTimed k.nDeriveIterations) 25000).toNat := by
      simp only [max]
      split
      · exact le_rfl
      · rename_i hnot
        exact (UInt32.lt_iff_toNat_lt.mp (UInt32.not_le.mp hnot)).le
    rw [UInt32.lt_iff_toNat_lt]
    have h25000 : (25000 : UInt32).toNat = 25000 := rfl
    have hone : (1 : UInt32).toNat = 1 := rfl
    omega
  exact Option.isSome_iff_exists.mp
    ((setKeyFromPassphrase_isSome lib strNewWalletPassphrase).mpr ⟨hrounds, hsalt, hmethod⟩)

theorem reencrypt_succeeds {k : CMasterKey} {vMasterKey : List UInt8}
    (h : k.decrypt lib strWalletPassphrase = some vMasterKey) (nTimed : UInt32 → UInt32)
    (strNewWalletPassphrase : List UInt8) (fWasLocked : Bool) (s : CCryptoKeyStore) :
    (reencrypt lib nTimed none strNewWalletPassphrase fWasLocked k vMasterKey s).1 = true := by
  obtain ⟨key, hnew⟩ := setKeyFromPassphrase_new h nTimed strNewWalletPassphrase
  unfold reencrypt
  simp only [hnew, crypterEncrypt, Option.isNone_none, if_true]

/-- A master key after an encryption that fails. -/
def spoiled (nTimed : UInt32 → UInt32) (vchFailed : List UInt8) (k : CMasterKey) : CMasterKey :=
  { k with
    nDeriveIterations := max (nTimed k.nDeriveIterations) 25000
    vchCryptedKey := vchFailed }

theorem reencrypt_fails {k : CMasterKey} {vMasterKey : List UInt8}
    (h : k.decrypt lib strWalletPassphrase = some vMasterKey) (nTimed : UInt32 → UInt32)
    (vchFailed strNewWalletPassphrase : List UInt8) (fWasLocked : Bool) (s : CCryptoKeyStore) :
    reencrypt lib nTimed (some vchFailed) strNewWalletPassphrase fWasLocked k vMasterKey s =
      (false, spoiled nTimed vchFailed k, s) := by
  obtain ⟨key, hnew⟩ := setKeyFromPassphrase_new h nTimed strNewWalletPassphrase
  unfold reencrypt
  simp only [hnew, crypterEncrypt, Option.isNone_some, Bool.false_eq_true, if_false]
  rfl

/-- What the loop does where the old passphrase opens the store. -/
inductive Reencrypted (lib : PassphraseLib) (nTimed : UInt32 → UInt32) (strWalletPassphrase : List UInt8)
    (s : CCryptoKeyStore) (mapMasterKeys : MasterKeyMap) :
    Option (List UInt8) → Bool × MasterKeyMap × CCryptoKeyStore → Prop
  | done {r : Bool × MasterKeyMap × CCryptoKeyStore} (h : r.1 = true) :
    Reencrypted lib nTimed strWalletPassphrase s mapMasterKeys none r
  | failed (before after : MasterKeyMap) {n : UInt32} {k : CMasterKey}
      {vMasterKey vchFailed : List UInt8} (hkeys : mapMasterKeys = before ++ (n, k) :: after)
      (hfind : mapMasterKeys.find? (settles lib strWalletPassphrase s) = some (n, k))
      (hdec : k.decrypt lib strWalletPassphrase = some vMasterKey) :
    Reencrypted lib nTimed strWalletPassphrase s mapMasterKeys (some vchFailed)
      (false, before ++ (n, spoiled nTimed vchFailed k) :: after, { s with vMasterKey := vMasterKey })

variable (lib strWalletPassphrase) in
/-- In an encrypted store the loop encrypts the master key anew when the old passphrase opens it, and
otherwise changes nothing. -/
theorem changeLoop_spec (hcrypted : s.fUseCrypto = true) (nTimed : UInt32 → UInt32)
    (vchFailed : Option (List UInt8)) (strNewWalletPassphrase : List UInt8) (fWasLocked : Bool)
    (mapMasterKeys : MasterKeyMap) :
    OpensStore lib strWalletPassphrase s mapMasterKeys ∧
      Reencrypted lib nTimed strWalletPassphrase s mapMasterKeys vchFailed
        (changeLoop lib nTimed vchFailed strWalletPassphrase strNewWalletPassphrase fWasLocked
          mapMasterKeys s) ∨
    ¬ OpensStore lib strWalletPassphrase s mapMasterKeys ∧
      changeLoop lib nTimed vchFailed strWalletPassphrase strNewWalletPassphrase fWasLocked
        mapMasterKeys s = (false, mapMasterKeys, s) := by
  induction mapMasterKeys with
  | nil =>
    refine .inr ⟨?_, rfl⟩
    rintro ⟨_, hfind, -⟩
    cases hfind
  | cons pMasterKey rest ih =>
    obtain ⟨n, k⟩ := pMasterKey
    rw [changeLoop]
    cases hdec : k.decrypt lib strWalletPassphrase with
    | none => exact .inr ⟨not_opensStore_cons hdec rest, rfl⟩
    | some vMasterKey =>
      simp only [unlock_encrypted hcrypted, opensStore_cons hdec rest]
      by_cases hopen : s.opensFirst lib.toSenderLib vMasterKey = true
      · rw [if_pos hopen]
        refine .inl ⟨.inl hopen, ?_⟩
        dsimp only
        cases vchFailed with
        | none => exact .done (reencrypt_succeeds hdec nTimed strNewWalletPassphrase fWasLocked _)
        | some v =>
          rw [reencrypt_fails hdec]
          have hfind : ((n, k) :: rest).find? (settles lib strWalletPassphrase s) = some (n, k) :=
            List.find?_cons_of_pos (by rwa [settles_some hdec])
          exact .failed [] rest rfl hfind hdec
      · rw [if_neg hopen]
        rcases ih with ⟨hopens, hrest⟩ | ⟨hnot, hsame⟩
        · refine .inl ⟨.inr hopens, ?_⟩
          dsimp only
          generalize changeLoop lib nTimed vchFailed strWalletPassphrase strNewWalletPassphrase
            fWasLocked rest s = r at hrest
          cases hrest with
          | done h => exact .done h
          | @failed before after n' k' _ _ hkeys hfind hdec' =>
            refine .failed ((n, k) :: before) after (by rw [hkeys, List.cons_append]) ?_ hdec'
            rw [List.find?_cons_of_neg (by rwa [settles_some hdec])]
            exact hfind
        · refine .inr ⟨not_or.mpr ⟨hopen, hnot⟩, ?_⟩
          simp only [hsame]

variable (lib strWalletPassphrase) in
/-- A store that cannot be encrypted opens for nobody, and the loop changes nothing. -/
theorem changeLoop_plain (hplain : s.setCrypted = (false, s)) (nTimed : UInt32 → UInt32)
    (vchFailed : Option (List UInt8)) (strNewWalletPassphrase : List UInt8) (fWasLocked : Bool)
    (mapMasterKeys : MasterKeyMap) :
    changeLoop lib nTimed vchFailed strWalletPassphrase strNewWalletPassphrase fWasLocked
      mapMasterKeys s = (false, mapMasterKeys, s) := by
  have hunlock : ∀ vMasterKey, s.unlock lib.toSenderLib vMasterKey = (false, s) := by
    intro vMasterKey
    rw [CCryptoKeyStore.unlock, hplain]
  induction mapMasterKeys with
  | nil => rfl
  | cons pMasterKey rest ih =>
    rw [changeLoop]
    split
    · rfl
    · simp only [hunlock, ih]

/-- `Lock` fails on an unencrypted store with keys, and leaves any other encrypted and locked;
the encrypted keys stay. -/
theorem lock_spec (s : CCryptoKeyStore) :
    (s.fUseCrypto = false ∧ s.mapKeys.isEmpty = false ∧ s.lock.2 = s ∧
      s.setCrypted = (false, s)) ∨
    (¬ (s.fUseCrypto = false ∧ s.mapKeys.isEmpty = false) ∧ s.lock.2.fUseCrypto = true ∧
      s.lock.2.isLocked = true ∧ s.lock.2.mapCryptedKeys = s.mapCryptedKeys) := by
  by_cases hlocked : s.isLocked = true
  · have hsame : s.lock = (true, s) := by rw [CCryptoKeyStore.lock, if_pos hlocked]
    obtain ⟨hcrypted, -⟩ := isLocked_iff.mp hlocked
    rw [hsame]
    exact .inr ⟨by simp [hcrypted], hcrypted, hlocked, rfl⟩
  · have hlock : s.lock = s.lockKeyStore := by rw [CCryptoKeyStore.lock, if_neg hlocked]
    cases hcrypted : s.fUseCrypto with
    | true =>
      have hset : s.setCrypted = (true, s) := by rw [CCryptoKeyStore.setCrypted, if_pos hcrypted]
      have hcleared : s.lock = (true, { s with vMasterKey := [] }) := by
        rw [hlock, CCryptoKeyStore.lockKeyStore, hset]
      rw [hcleared]
      exact .inr ⟨by simp, hcrypted, isLocked_iff.mpr ⟨hcrypted, rfl⟩, rfl⟩
    | false =>
      cases hkeys : s.mapKeys.isEmpty with
      | true =>
        have hset : s.setCrypted = (true, { s with fUseCrypto := true }) := by
          simp [CCryptoKeyStore.setCrypted, hcrypted, hkeys]
        have hcleared : s.lock = (true, { s with fUseCrypto := true, vMasterKey := [] }) := by
          rw [hlock, CCryptoKeyStore.lockKeyStore, hset]
        rw [hcleared]
        exact .inr ⟨by simp, rfl, isLocked_iff.mpr ⟨rfl, rfl⟩, rfl⟩
      | false =>
        have hset : s.setCrypted = (false, s) := by
          simp [CCryptoKeyStore.setCrypted, hcrypted, hkeys]
        have hsame : s.lock = (false, s) := by rw [hlock, CCryptoKeyStore.lockKeyStore, hset]
        exact .inl ⟨rfl, rfl, by rw [hsame], hset⟩

theorem settles_lock (hcrypted : s.lock.2.mapCryptedKeys = s.mapCryptedKeys) :
    settles lib strWalletPassphrase s.lock.2 = settles lib strWalletPassphrase s := by
  have hopens : ∀ vMasterKey, s.lock.2.opensFirst lib.toSenderLib vMasterKey =
      s.opensFirst lib.toSenderLib vMasterKey := by
    intro vMasterKey
    unfold CCryptoKeyStore.opensFirst
    rw [hcrypted]
  funext pMasterKey
  unfold settles
  rw [funext hopens]

/-- The encryption failed behind the old passphrase, and yet nothing is changed by it. -/
def SpoilsNothing (lib : PassphraseLib) (nTimed : UInt32 → UInt32) (vchFailed : Option (List UInt8))
    (w : CWallet) (strWalletPassphrase : List UInt8) : Prop :=
  ∃ v pMasterKey vMasterKey, vchFailed = some v ∧
    w.mapMasterKeys.find? (settles lib strWalletPassphrase w.toCCryptoKeyStore) = some pMasterKey ∧
    pMasterKey.2.decrypt lib strWalletPassphrase = some vMasterKey ∧
    spoiled nTimed v pMasterKey.2 = pMasterKey.2 ∧ vMasterKey.isEmpty = w.isLocked

/-- A change of the passphrase that fails leaves the master keys and the lock as they were, exactly
when the wallet was unencrypted with a key, or the old passphrase does not open it and it was locked,
or it opens it and the encryption does not fail, so that the change does not, or fails without a
trace. -/
theorem change_failure_keeps_iff (lib : PassphraseLib) (nTimed : UInt32 → UInt32)
    (vchFailed : Option (List UInt8)) (w : CWallet)
    (strOldWalletPassphrase strNewWalletPassphrase : List UInt8) :
    ((w.changeWalletPassphrase lib nTimed vchFailed strOldWalletPassphrase
        strNewWalletPassphrase).1 = false →
      (w.changeWalletPassphrase lib nTimed vchFailed strOldWalletPassphrase
          strNewWalletPassphrase).2.mapMasterKeys = w.mapMasterKeys ∧
        (w.changeWalletPassphrase lib nTimed vchFailed strOldWalletPassphrase
          strNewWalletPassphrase).2.isLocked = w.isLocked) ↔
      (w.fUseCrypto = false ∧ w.mapKeys.isEmpty = false) ∨
        (w.isLocked = true ∧
          ¬ OpensStore lib strOldWalletPassphrase w.toCCryptoKeyStore w.mapMasterKeys) ∨
        (OpensStore lib strOldWalletPassphrase w.toCCryptoKeyStore w.mapMasterKeys ∧
          vchFailed = none) ∨
        SpoilsNothing lib nTimed vchFailed w strOldWalletPassphrase := by
  rcases lock_spec w.toCCryptoKeyStore with ⟨hplain, hkeys, hsame, hset⟩ |
    ⟨hother, hcrypted, hlocked, hcrypted_keys⟩
  · have hloop := changeLoop_plain lib strOldWalletPassphrase hset nTimed vchFailed
      strNewWalletPassphrase w.isLocked w.mapMasterKeys
    simp [CWallet.changeWalletPassphrase, hsame, hloop, hplain, hkeys]
  · have hsettles := @settles_lock lib strOldWalletPassphrase _ hcrypted_keys
    have hopens : OpensStore lib strOldWalletPassphrase w.toCCryptoKeyStore.lock.2
        w.mapMasterKeys ↔
        OpensStore lib strOldWalletPassphrase w.toCCryptoKeyStore w.mapMasterKeys := by
      unfold OpensStore
      rw [hsettles]
    rcases changeLoop_spec lib strOldWalletPassphrase hcrypted nTimed vchFailed
        strNewWalletPassphrase w.isLocked w.mapMasterKeys with
      ⟨hopen, hdone⟩ | ⟨hnot, hloop⟩
    · rw [hopens] at hopen
      unfold CWallet.changeWalletPassphrase
      dsimp only
      generalize changeLoop lib nTimed vchFailed strOldWalletPassphrase strNewWalletPassphrase
        w.isLocked w.mapMasterKeys w.toCCryptoKeyStore.lock.2 = r at hdone
      cases hdone with
      | done h =>
        refine iff_of_true (fun hfalse => ?_) (.inr (.inr (.inl ⟨hopen, rfl⟩)))
        rw [h] at hfalse
        cases hfalse
      | @failed before after n k vMasterKey v hkeys hfind hdec =>
        rw [hsettles] at hfind
        have hnow : CCryptoKeyStore.isLocked { w.toCCryptoKeyStore.lock.2 with
            vMasterKey := vMasterKey } = vMasterKey.isEmpty := by
          rw [CCryptoKeyStore.isLocked, hcrypted, Bool.true_and]
        have hspoiled : before ++ (n, spoiled nTimed v k) :: after = w.mapMasterKeys ↔
            spoiled nTimed v k = k := by
          rw [hkeys]
          simp
        dsimp only
        rw [hspoiled, hnow, imp_iff_right rfl]
        constructor
        · rintro ⟨hsame, hlock⟩
          exact .inr (.inr (.inr ⟨v, (n, k), vMasterKey, rfl, hfind, hdec, hsame, hlock⟩))
        · rintro (hplain | ⟨-, hnot⟩ | ⟨-, hnone⟩ | ⟨v', p, m, hv, hfind', hdec', hsame, hlock⟩)
          · exact absurd hplain hother
          · exact absurd hopen hnot
          · cases hnone
          · obtain rfl := Option.some.inj hv
            obtain rfl := Option.some.inj (hfind.symm.trans hfind')
            obtain rfl := Option.some.inj (hdec.symm.trans hdec')
            exact ⟨hsame, hlock⟩
    · rw [hopens] at hnot
      have hspoils : ¬ SpoilsNothing lib nTimed vchFailed w strOldWalletPassphrase := by
        rintro ⟨_, p, m, -, hfind, hdec, -⟩
        exact hnot ⟨p, hfind, by rw [hdec]; rfl⟩
      simp only [CWallet.changeWalletPassphrase, hloop, hlocked, hother, hnot, hspoils, or_false,
        false_or, false_and, not_false_eq_true, and_true, true_and, forall_const]
      exact eq_comm

/-- The wallet is open. A change with the wrong old passphrase fails, and locks it; one that OpenSSL
fails leaves other iterations behind. -/
theorem change_locks :
    let w := (Sample.lockedWallet.unlock Sample.passLib [112]).2
    w.isLocked = false ∧
      (w.changeWalletPassphrase Sample.passLib id none [113] [114]).1 = false ∧
      (w.changeWalletPassphrase Sample.passLib id none [113] [114]).2.isLocked = true ∧
      (w.changeWalletPassphrase Sample.passLib (fun _ => 30000) (some []) [112] [114]).1 = false ∧
      (w.changeWalletPassphrase Sample.passLib (fun _ => 30000) (some []) [112]
        [114]).2.mapMasterKeys.map (fun p => p.2.nDeriveIterations) = [30000] := by
  refine ⟨?_, ?_, ?_, ?_, ?_⟩ <;> decide

end Triangles.Keystore
