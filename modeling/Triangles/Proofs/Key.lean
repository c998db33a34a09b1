import Triangles.Model.KeyStore

/-! Copies of keys, and the flag that says whether a public key is compressed. -/

namespace Triangles.Key

open Key.CKey

variable {lib : EcLib} {key src new : CKey lib} {objects objects' : List (CKey lib)} {i b : Nat}

/-- What OpenSSL says of its functions: the sizes of written points, compressed or not, that no key it
draws or has checked is at infinity, and what a copy has: the parts of the source, and of the target
those that the source does not have. -/
structure EcLib.Documented (lib : EcLib) : Prop where
  generate_finite : ∀ seed, lib.isAtInfinity (lib.mul (lib.generate seed)) = false
  check_finite : ∀ pkey, lib.checkKey pkey = true →
    ∃ p, pkey.pub_key = some p ∧ lib.isAtInfinity p = false
  compressed : ∀ p, lib.isAtInfinity p = false →
    ∃ v, lib.point2oct POINT_CONVERSION_COMPRESSED p = some v ∧ v.length = 33
  infinity : ∀ form p v, lib.isAtInfinity p = true → lib.point2oct form p = some v → v.length = 1
  otherForm : ∀ form p v, form ≠ POINT_CONVERSION_COMPRESSED → lib.point2oct form p = some v → v.length ≠ 33
  uncompressed : ∀ p, ∃ v, lib.point2oct POINT_CONVERSION_UNCOMPRESSED p = some v
  oct2point_form : ∀ v p, lib.oct2point v = some p →
    (formOf v = POINT_CONVERSION_COMPRESSED ↔ v.length = 33) ∧ (v.length = 33 → lib.isAtInfinity p = false)
  copy_eq : ∀ target source, lib.copy target source =
    { priv_key := source.priv_key.or target.priv_key
      pub_key := source.pub_key.or target.pub_key
      conv_form := source.conv_form }

/-! What is to hold. -/

/-- `IsCompressed()` is true exactly when `GetPubKey()` has 33 bytes. -/
def Consistent (key : CKey lib) : Prop :=
  key.isCompressed = true ↔ ∃ v, key.getPubKey = .ok v ∧ v.length = 33

/-- The same public key, secret and flag. -/
def SameKey (key src : CKey lib) : Prop :=
  key.getPubKey = src.getPubKey ∧ key.getSecret.map Prod.fst = src.getSecret.map Prod.fst ∧
    key.isCompressed = src.isCompressed

/-- A copy is the same as its source. -/
def Copied (objects : List (CKey lib)) (c : Call) (objects' : List (CKey lib)) : Prop :=
  match c with
  | .copyConstruct b _ => ∀ key src, objects'[objects.length]? = some key → objects[b]? = some src →
    SameKey key src
  | .assign i b => ∀ key src, objects'[i]? = some key → objects[b]? = some src → SameKey key src
  | _ => True

/-- After the call every object is consistent, and a copy is the same as its source. -/
def Right (lib : EcLib) (objects : List (CKey lib)) (c : Call) : Prop :=
  ∀ objects', call lib objects c = some objects' →
    (∀ key ∈ objects', Consistent key) ∧ Copied objects c objects'

/-- The calls that the flag survives: a secret that is to be compressed is not a multiple of the group
order; a public key that is not compressed goes only to an object whose flag is off, and a private key
to one with the flag of its form; the memory of a copy has the flag of the source by chance; and an
object is assigned only to one with the same flag and no part of a key that the source has not. -/
def Meets (lib : EcLib) (objects : List (CKey lib)) : Call → Prop
  | .setSecret i vchSecret fCompressed => ∀ key, objects[i]? = some key →
    (fCompressed || key.fCompressedPubKey) = true → lib.isAtInfinity (lib.mul (bin2bn vchSecret)) = false
  | .setPubKey i vchPubKey => ∀ key, objects[i]? = some key →
    vchPubKey.length = 33 ∨ key.fCompressedPubKey = false
  | .setPrivKey i vchPrivKey => ∀ key pkey, objects[i]? = some key →
    lib.d2i key.pkey vchPrivKey = some pkey →
    (key.fCompressedPubKey = true ↔ pkey.conv_form = POINT_CONVERSION_COMPRESSED)
  | .copyConstruct b indeterminate => ∀ src, objects[b]? = some src → indeterminate = src.fCompressedPubKey
  | .assign i b => ∀ key src, objects[i]? = some key → objects[b]? = some src →
    key.fCompressedPubKey = src.fCompressedPubKey ∧
      (src.pkey.pub_key = none → key.pkey.pub_key = none) ∧
      (src.pkey.priv_key = none → key.pkey.priv_key = none)
  | _ => True

/-! One object. -/

/-- The flag is that of the form, a compressed key can be written in 33 bytes, and a key without a public
part is like a new one. -/
structure Kept (key : CKey lib) : Prop where
  flag : key.fCompressedPubKey = true ↔ key.pkey.conv_form = POINT_CONVERSION_COMPRESSED
  finite : key.pkey.conv_form = POINT_CONVERSION_COMPRESSED →
    ∃ p, key.pkey.pub_key = some p ∧ lib.isAtInfinity p = false
  empty : key.pkey.pub_key = none → key.pkey.conv_form = POINT_CONVERSION_UNCOMPRESSED

theorem uncompressed_ne : POINT_CONVERSION_UNCOMPRESSED ≠ POINT_CONVERSION_COMPRESSED := by decide

theorem kept_reset : Kept (reset : CKey lib) where
  flag := by simp [reset, uncompressed_ne]
  finite h := absurd h uncompressed_ne
  empty _ := rfl

/-- With a public part that is not at infinity it is enough that the flag is that of the form. -/
theorem kept_of_finite {p : lib.Point} (hpub : key.pkey.pub_key = some p) (hp : lib.isAtInfinity p = false)
    (hflag : key.fCompressedPubKey = true ↔ key.pkey.conv_form = POINT_CONVERSION_COMPRESSED) : Kept key :=
  ⟨hflag, fun _ => ⟨p, hpub, hp⟩, fun h => by simp [hpub] at h⟩

/-! Lists of objects. -/

theorem all_set_iff {P : CKey lib → Prop} (h : objects[i]? = some key) (hall : ∀ key ∈ objects, P key) :
    (∀ k ∈ objects.set i new, P k) ↔ P new := by
  obtain ⟨hlt, -⟩ := List.getElem?_eq_some_iff.mp h
  constructor
  · exact fun hset => hset new (List.mem_set hlt new)
  · intro hnew k hk
    rcases List.mem_or_eq_of_mem_set hk with hk | rfl
    · exact hall k hk
    · exact hnew

theorem all_append_iff {P : CKey lib → Prop} (hall : ∀ key ∈ objects, P key) :
    (∀ k ∈ objects ++ [new], P k) ↔ P new := by
  constructor
  · exact fun h => h new (by simp)
  · intro hnew k hk
    rcases List.mem_append.mp hk with hk | hk
    · exact hall k hk
    · rw [List.mem_singleton.mp hk]
      exact hnew

theorem right_iff {c : Call} (h : call lib objects c = some objects') :
    Right lib objects c ↔ (∀ key ∈ objects', Consistent key) ∧ Copied objects c objects' := by
  constructor
  · exact fun hright => hright objects' h
  · intro hright objects'' h'
    rw [h] at h'
    cases h'
    exact hright

/-! The calls on one object. -/

section

variable (hlib : lib.Documented)
include hlib

theorem getPubKey_compressed (hform : key.pkey.conv_form = POINT_CONVERSION_COMPRESSED) {p : lib.Point}
    (hpub : key.pkey.pub_key = some p) (hp : lib.isAtInfinity p = false) :
    ∃ v, key.getPubKey = .ok v ∧ v.length = 33 := by
  obtain ⟨v, hv, hlen⟩ := hlib.compressed p hp
  refine ⟨v, ?_, hlen⟩
  simp [getPubKey, hpub, hform, hv]

/-- A key in another form is not written in 33 bytes. -/
theorem consistent_of_form (hform : key.pkey.conv_form ≠ POINT_CONVERSION_COMPRESSED) :
    Consistent key ↔ key.fCompressedPubKey = false := by
  have hno : ¬ ∃ v, key.getPubKey = .ok v ∧ v.length = 33 := by
    rintro ⟨v, hv, hlen⟩
    unfold getPubKey at hv
    cases hpub : key.pkey.pub_key.bind (lib.point2oct key.pkey.conv_form) with
    | none => simp [hpub] at hv
    | some w =>
      have hw : w = v := by simpa [hpub] using hv
      obtain ⟨p, -, hp⟩ := Option.bind_eq_some_iff.mp hpub
      exact hlib.otherForm _ p w hform hp (hw ▸ hlen)
  rw [Consistent, iff_false_right hno, Bool.not_eq_true]
  rfl

theorem consistent_of_finite {p : lib.Point} (hpub : key.pkey.pub_key = some p)
    (hp : lib.isAtInfinity p = false) : Consistent key ↔
      (key.fCompressedPubKey = true ↔ key.pkey.conv_form = POINT_CONVERSION_COMPRESSED) := by
  by_cases hform : key.pkey.conv_form = POINT_CONVERSION_COMPRESSED
  · rw [Consistent, iff_true_right (getPubKey_compressed hlib hform hpub hp), iff_true_right hform]
    rfl
  · rw [consistent_of_form hlib hform, iff_false_right hform, Bool.not_eq_true]

theorem Kept.consistent (h : Kept key) : Consistent key := by
  by_cases hform : key.pkey.conv_form = POINT_CONVERSION_COMPRESSED
  · obtain ⟨p, hpub, hp⟩ := h.finite hform
    exact (consistent_of_finite hlib hpub hp).mpr h.flag
  · rw [consistent_of_form hlib hform, ← Bool.not_eq_true, h.flag]
    exact hform

theorem Kept.makeNewKey (h : Kept key) (seed : Nat) (fCompressed : Bool) :
    Kept (key.makeNewKey seed fCompressed) := by
  have hp := hlib.generate_finite seed
  cases fCompressed with
  | true => exact kept_of_finite rfl hp (iff_of_true rfl rfl)
  | false => exact kept_of_finite rfl hp h.flag

theorem setSecret_iff {vchSecret : List UInt8} {fCompressed : Bool}
    (h : key.setSecret vchSecret fCompressed = .ok new) :
    (Consistent new ↔ ((fCompressed || key.fCompressedPubKey) = true →
        lib.isAtInfinity (lib.mul (bin2bn vchSecret)) = false)) ∧
      (((fCompressed || key.fCompressedPubKey) = true →
        lib.isAtInfinity (lib.mul (bin2bn vchSecret)) = false) → Kept new) := by
  unfold setSecret at h
  dsimp only at h
  split_ifs at h with hlen hflag
  · -- compressed: the public key has 33 bytes unless it is at infinity
    cases h
    cases hp : lib.isAtInfinity (lib.mul (bin2bn vchSecret)) with
    | false =>
      have hkept : Kept (CKey.setCompressedPubKey { key with
          pkey := { priv_key := some (bin2bn vchSecret), pub_key := some (lib.mul (bin2bn vchSecret)) }
          fSet := true }) := kept_of_finite rfl hp (iff_of_true rfl rfl)
      exact ⟨iff_of_true (hkept.consistent hlib) fun _ => rfl, fun _ => hkept⟩
    | true =>
      refine ⟨iff_of_false (fun hcons => ?_) fun hmeets => ?_, fun hmeets => ?_⟩
      · obtain ⟨v, hv, hlen33⟩ := hcons.mp rfl
        simp only [getPubKey, setCompressedPubKey, Option.bind_some] at hv
        cases hoct : lib.point2oct POINT_CONVERSION_COMPRESSED (lib.mul (bin2bn vchSecret)) with
        | none => simp [hoct] at hv
        | some w =>
          have hw : w = v := by simpa [hoct] using hv
          have hone := hlib.infinity _ _ _ hp hoct
          rw [hw, hlen33] at hone
          cases hone
      · exact absurd (hmeets hflag) (by simp)
      · exact absurd (hmeets hflag) (by simp)
  · cases h
    have hoff : key.fCompressedPubKey = false := by
      cases hkey : key.fCompressedPubKey with
      | false => rfl
      | true => simp [hkey] at hflag
    have hkept : Kept ({ key with
        pkey := { priv_key := some (bin2bn vchSecret), pub_key := some (lib.mul (bin2bn vchSecret)) }
        fSet := true } : CKey lib) := by
      refine ⟨?_, fun hform => absurd hform uncompressed_ne, fun hpub => by cases hpub⟩
      simp [hoff, uncompressed_ne]
    exact ⟨iff_of_true (hkept.consistent hlib) fun hon => absurd hon hflag, fun _ => hkept⟩

theorem setPubKey_iff {vchPubKey : List UInt8} (h : key.setPubKey vchPubKey = (true, new)) :
    (Consistent new ↔ (vchPubKey.length = 33 ∨ key.fCompressedPubKey = false)) ∧
      ((vchPubKey.length = 33 ∨ key.fCompressedPubKey = false) → Kept new) := by
  unfold setPubKey at h
  cases hoct : lib.oct2point vchPubKey with
  | none => simp [hoct] at h
  | some p =>
    obtain ⟨hform, hfinite⟩ := hlib.oct2point_form _ _ hoct
    simp only [hoct] at h
    have hnew := (Prod.mk.inj h).2
    subst hnew
    split_ifs with hlen
    · have hkept : Kept (CKey.setCompressedPubKey { key with
          pkey := { key.pkey with pub_key := some p, conv_form := formOf vchPubKey }
          fSet := true }) := kept_of_finite rfl (hfinite hlen) (iff_of_true rfl rfl)
      exact ⟨iff_of_true (hkept.consistent hlib) (.inl hlen), fun _ => hkept⟩
    · have hother : formOf vchPubKey ≠ POINT_CONVERSION_COMPRESSED := mt hform.mp hlen
      refine ⟨?_, fun hmeets => ?_⟩
      · rw [consistent_of_form hlib hother]
        simp [hlen]
      · have hoff := hmeets.resolve_left hlen
        refine ⟨?_, fun h => absurd h hother, fun h => by cases h⟩
        simp [hoff, hother]

theorem setPrivKey_iff {vchPrivKey : List UInt8} (h : key.setPrivKey vchPrivKey = (true, new)) :
    (Consistent new ↔ ∀ pkey, lib.d2i key.pkey vchPrivKey = some pkey →
        (key.fCompressedPubKey = true ↔ pkey.conv_form = POINT_CONVERSION_COMPRESSED)) ∧
      ((∀ pkey, lib.d2i key.pkey vchPrivKey = some pkey →
        (key.fCompressedPubKey = true ↔ pkey.conv_form = POINT_CONVERSION_COMPRESSED)) → Kept new) := by
  unfold setPrivKey at h
  cases hread : lib.d2i key.pkey vchPrivKey with
  | none => simp [hread] at h
  | some pkey =>
    simp only [hread] at h
    split_ifs at h with hcheck
    · have hnew := (Prod.mk.inj h).2
      subst hnew
      obtain ⟨p, hpub, hp⟩ := hlib.check_finite pkey hcheck
      refine ⟨?_, fun hmeets => kept_of_finite hpub hp (hmeets pkey rfl)⟩
      rw [consistent_of_finite hlib hpub hp]
      simp
    · cases h

theorem copyConstruct_eq (b : CKey lib) (indeterminate : Bool) :
    b.copyConstruct indeterminate = { b with fCompressedPubKey := indeterminate } := by
  have hcopy : lib.copy {} b.pkey = b.pkey := by simp [hlib.copy_eq]
  rw [copyConstruct, hcopy]

theorem copyConstruct_iff (hb : Kept src) {indeterminate : Bool} :
    (Consistent (src.copyConstruct indeterminate) ∧ SameKey (src.copyConstruct indeterminate) src ↔
        indeterminate = src.fCompressedPubKey) ∧
      (indeterminate = src.fCompressedPubKey → Kept (src.copyConstruct indeterminate)) := by
  rw [copyConstruct_eq hlib]
  refine ⟨⟨fun h => h.2.2.2, ?_⟩, ?_⟩
  · rintro rfl
    exact ⟨hb.consistent hlib, rfl, rfl, rfl⟩
  · rintro rfl
    exact hb

theorem getPubKey_assign (hb : Kept src) (h : (key.assign src).getPubKey = src.getPubKey)
    (hnone : src.pkey.pub_key = none) : key.pkey.pub_key = none := by
  cases hpub : key.pkey.pub_key with
  | none => rfl
  | some p =>
    obtain ⟨v, hv⟩ := hlib.uncompressed p
    have hform := hb.empty hnone
    have hnew : (key.assign src).getPubKey = .ok v := by
      simp [getPubKey, assign, hlib.copy_eq, hnone, hpub, hform, hv]
    have hsrc : src.getPubKey = .error "CKey::GetPubKey() : i2o_ECPublicKey failed" := by
      simp [getPubKey, hnone]
    rw [hnew, hsrc] at h
    cases h

theorem getSecret_assign (h : (key.assign src).getSecret.map Prod.fst = src.getSecret.map Prod.fst)
    (hnone : src.pkey.priv_key = none) : key.pkey.priv_key = none := by
  cases hpriv : key.pkey.priv_key with
  | none => rfl
  | some bn =>
    have hsrc : src.getSecret.map Prod.fst = .error "CKey::GetSecret() : EC_KEY_get0_private_key failed" := by
      simp [getSecret, hnone, Except.map]
    rw [hsrc] at h
    simp only [getSecret, assign, hlib.copy_eq, hnone, Option.none_or, hpriv] at h
    split_ifs at h
    · simp [Except.map] at h
    · simp [Except.map] at h

theorem assign_iff (hb : Kept src) :
    (Consistent (key.assign src) ∧ SameKey (key.assign src) src ↔
      (key.fCompressedPubKey = src.fCompressedPubKey ∧ (src.pkey.pub_key = none → key.pkey.pub_key = none) ∧
        (src.pkey.priv_key = none → key.pkey.priv_key = none))) ∧
      ((key.fCompressedPubKey = src.fCompressedPubKey ∧
        (src.pkey.pub_key = none → key.pkey.pub_key = none) ∧
        (src.pkey.priv_key = none → key.pkey.priv_key = none)) → Kept (key.assign src)) := by
  have hsame : (key.fCompressedPubKey = src.fCompressedPubKey ∧
      (src.pkey.pub_key = none → key.pkey.pub_key = none) ∧
      (src.pkey.priv_key = none → key.pkey.priv_key = none)) → key.assign src = src := by
    rintro ⟨hflag, hpub, hpriv⟩
    have hpub' : src.pkey.pub_key.or key.pkey.pub_key = src.pkey.pub_key := by
      cases hs : src.pkey.pub_key with
      | none => rw [Option.none_or, hpub hs]
      | some p => rfl
    have hpriv' : src.pkey.priv_key.or key.pkey.priv_key = src.pkey.priv_key := by
      cases hs : src.pkey.priv_key with
      | none => rw [Option.none_or, hpriv hs]
      | some p => rfl
    rw [assign, hlib.copy_eq, hpub', hpriv', hflag]
  refine ⟨⟨fun h => ⟨h.2.2.2, getPubKey_assign hlib hb h.2.1, getSecret_assign hlib h.2.2.1⟩, fun h => ?_⟩,
    fun h => ?_⟩
  · rw [hsame h]
    exact ⟨hb.consistent hlib, rfl, rfl, rfl⟩
  · rw [hsame h]
    exact hb

/-! One call. -/

/-- A call that only sets one object. -/
theorem set_step {c : Call} {M : Prop} (hkept : ∀ key ∈ objects, Kept key) (h : objects[i]? = some key)
    (hcall : call lib objects c = some (objects.set i new))
    (hcopied : Copied objects c (objects.set i new)) (hmeets : Meets lib objects c ↔ M)
    (hnew : (Consistent new ↔ M) ∧ (M → Kept new)) :
    (Right lib objects c ↔ Meets lib objects c) ∧
      (Meets lib objects c → ∀ k ∈ objects.set i new, Kept k) := by
  rw [right_iff hcall, all_set_iff h fun k hk => (hkept k hk).consistent hlib, hmeets]
  exact ⟨(and_iff_left hcopied).trans hnew.1, fun hm => (all_set_iff h hkept).mpr (hnew.2 hm)⟩

/-- From objects that are kept, a call is right exactly when it meets its condition, and then they are
kept. -/
theorem call_step {c : Call} (hkept : ∀ key ∈ objects, Kept key)
    (hcall : call lib objects c = some objects') :
    (Right lib objects c ↔ Meets lib objects c) ∧ (Meets lib objects c → ∀ k ∈ objects', Kept k) := by
  have hcons : ∀ key ∈ objects, Consistent key := fun key hkey => (hkept key hkey).consistent hlib
  cases c with
  | construct =>
    cases hcall
    rw [right_iff rfl, all_append_iff hcons, all_append_iff hkept]
    exact ⟨iff_of_true ⟨kept_reset.consistent hlib, trivial⟩ trivial, fun _ => kept_reset⟩
  | reset i =>
    obtain ⟨key, hkey, hset⟩ := Option.bind_eq_some_iff.mp hcall
    cases hset
    exact set_step hlib hkept hkey hcall trivial (Iff.refl True)
      ⟨iff_of_true (kept_reset.consistent hlib) trivial, fun _ => kept_reset⟩
  | makeNewKey i seed fCompressed =>
    obtain ⟨key, hkey, hset⟩ := Option.bind_eq_some_iff.mp hcall
    cases hset
    have hnew := (hkept key (List.mem_of_getElem? hkey)).makeNewKey hlib seed fCompressed
    exact set_step hlib hkept hkey hcall trivial (Iff.refl True)
      ⟨iff_of_true (hnew.consistent hlib) trivial, fun _ => hnew⟩
  | setSecret i vchSecret fCompressed =>
    obtain ⟨key, hkey, hrest⟩ := Option.bind_eq_some_iff.mp hcall
    obtain ⟨new, hnew, hset⟩ := Option.bind_eq_some_iff.mp hrest
    cases hset
    have hok : key.setSecret vchSecret fCompressed = .ok new := by
      cases hs : key.setSecret vchSecret fCompressed with
      | error e => simp [hs, Except.toOption] at hnew
      | ok k => simpa [hs, Except.toOption] using hnew
    exact set_step hlib hkept hkey hcall trivial (by simp [Meets, hkey]) (setSecret_iff hlib hok)
  | setPubKey i vchPubKey =>
    obtain ⟨key, hkey, hrest⟩ := Option.bind_eq_some_iff.mp hcall
    cases hs : key.setPubKey vchPubKey with
    | mk fOk new =>
      rw [hs] at hrest
      cases fOk with
      | false => cases hrest
      | true =>
        cases hrest
        exact set_step hlib hkept hkey hcall trivial (by simp [Meets, hkey]) (setPubKey_iff hlib hs)
  | setPrivKey i vchPrivKey =>
    obtain ⟨key, hkey, hrest⟩ := Option.bind_eq_some_iff.mp hcall
    cases hs : key.setPrivKey vchPrivKey with
    | mk fOk new =>
      rw [hs] at hrest
      cases fOk with
      | false => cases hrest
      | true =>
        cases hrest
        have hmeets : Meets lib objects (.setPrivKey i vchPrivKey) ↔
            ∀ pkey, lib.d2i key.pkey vchPrivKey = some pkey →
              (key.fCompressedPubKey = true ↔ pkey.conv_form = POINT_CONVERSION_COMPRESSED) := by
          refine ⟨fun h pkey hread => h key pkey hkey hread, fun h k pkey hk hread => ?_⟩
          rw [hkey] at hk
          cases hk
          exact h pkey hread
        exact set_step hlib hkept hkey hcall trivial hmeets (setPrivKey_iff hlib hs)
  | copyConstruct b indeterminate =>
    obtain ⟨src, hsrc, hset⟩ := Option.bind_eq_some_iff.mp hcall
    cases hset
    have hb := hkept src (List.mem_of_getElem? hsrc)
    have hmeets : Meets lib objects (.copyConstruct b indeterminate) ↔
        indeterminate = src.fCompressedPubKey := by simp [Meets, hsrc]
    have hcopied : Copied objects (.copyConstruct b indeterminate)
        (objects ++ [src.copyConstruct indeterminate]) ↔
        SameKey (src.copyConstruct indeterminate) src := by simp [Copied, hsrc]
    rw [right_iff hcall, all_append_iff hcons, all_append_iff hkept, hcopied, hmeets]
    exact copyConstruct_iff hlib hb
  | assign i b =>
    obtain ⟨key, hkey, hrest⟩ := Option.bind_eq_some_iff.mp hcall
    obtain ⟨src, hsrc, hset⟩ := Option.bind_eq_some_iff.mp hrest
    have hne : i ≠ b := by
      rintro rfl
      simp at hset
    rw [if_neg hne] at hset
    cases hset
    have hlt := (List.getElem?_eq_some_iff.mp hkey).1
    have hmeets : Meets lib objects (.assign i b) ↔
        (key.fCompressedPubKey = src.fCompressedPubKey ∧
          (src.pkey.pub_key = none → key.pkey.pub_key = none) ∧
          (src.pkey.priv_key = none → key.pkey.priv_key = none)) := by simp [Meets, hkey, hsrc]
    have hcopied : Copied objects (.assign i b) (objects.set i (key.assign src)) ↔
        SameKey (key.assign src) src := by simp [Copied, hsrc, hlt]
    rw [right_iff hcall, all_set_iff hkey hcons, all_set_iff hkey hkept, hcopied, hmeets]
    exact assign_iff hlib (hkept src (List.mem_of_getElem? hsrc))

end

/-! Runs. -/

theorem run_concat {calls : List Call} {c : Call} : run lib (calls ++ [c]) = some objects' ↔
    ∃ objects, run lib calls = some objects ∧ call lib objects c = some objects' := by
  rw [run, List.foldlM_append]
  simp [run, Option.bind_eq_some_iff]

/-- Something holds of every call of a run and the objects before it. -/
def Throughout (lib : EcLib) (calls : List Call) (Q : List (CKey lib) → Call → Prop) : Prop :=
  ∀ before c after objects, calls = before ++ c :: after → run lib before = some objects → Q objects c

/-- What keeps the objects in every call, keeps them in every run. -/
theorem run_kept (hlib : lib.Documented) {Q : List (CKey lib) → Call → Prop} {calls : List Call}
    (hrun : Throughout lib calls Q)
    (hQ : ∀ {objects objects' : List (CKey lib)} {c}, (∀ key ∈ objects, Kept key) →
      call lib objects c = some objects' → Q objects c → Meets lib objects c)
    (before after : List Call) (hsplit : calls = before ++ after) (objects : List (CKey lib))
    (h : run lib before = some objects) : ∀ key ∈ objects, Kept key := by
  induction before using List.reverseRecOn generalizing after objects with
  | nil =>
    cases h
    simp
  | append_singleton before c ih =>
    obtain ⟨objects₀, hbefore, hcall⟩ := run_concat.mp h
    have hsplit₀ : calls = before ++ c :: after := by simp [hsplit]
    have hkept := ih (c :: after) hsplit₀ objects₀ hbefore
    exact (call_step hlib hkept hcall).2 (hQ hkept hcall (hrun before c after objects₀ hsplit₀ hbefore))

/-- Every call of a run that succeeds, succeeds. -/
theorem call_of_run {calls before after : List Call} {c : Call} {final : List (CKey lib)}
    (h : run lib calls = some final) (hsplit : calls = before ++ c :: after)
    (hbefore : run lib before = some objects) : ∃ objects', call lib objects c = some objects' := by
  rw [hsplit, run, List.foldlM_append] at h
  obtain ⟨objects₀, h₀, hrest⟩ := Option.bind_eq_some_iff.mp h
  have hsame : objects₀ = objects := Option.some.inj (h₀.symm.trans hbefore)
  subst hsame
  rw [List.foldlM_cons] at hrest
  obtain ⟨objects', hcall, -⟩ := Option.bind_eq_some_iff.mp hrest
  exact ⟨objects', hcall⟩

/-- For every sequence of calls that succeed: after each of them `IsCompressed()` of every object is true
exactly when its public key has 33 bytes, and a copy is the same as its source, if and only if every call
meets its condition. -/
theorem run_right_iff (lib : EcLib) (hlib : lib.Documented) (calls : List Call) (final : List (CKey lib))
    (h : run lib calls = some final) :
    Throughout lib calls (Right lib) ↔ Throughout lib calls (Meets lib) := by
  constructor
  · intro hright before c after objects hsplit hbefore
    obtain ⟨objects', hcall⟩ := call_of_run h hsplit hbefore
    have hkept := run_kept hlib hright (fun hkept hcall => (call_step hlib hkept hcall).1.mp)
      before (c :: after) hsplit objects hbefore
    exact (call_step hlib hkept hcall).1.mp (hright before c after objects hsplit hbefore)
  · intro hmeets before c after objects hsplit hbefore
    obtain ⟨objects', hcall⟩ := call_of_run h hsplit hbefore
    have hkept := run_kept hlib hmeets (fun _ _ h => h) before (c :: after) hsplit objects hbefore
    exact (call_step hlib hkept hcall).1.mpr (hmeets before c after objects hsplit hbefore)

namespace Sample

def order : Nat := 0xfffffffffffffffffffffffffffffffebaaedce6af48a03bbfd25e8cd0364141

def generator : Nat × Nat :=
  (0x79be667ef9dcbbac55a06295ce870b07029bfcdb2dce28d959f2815b16f81798,
   0x483ada7726a3c4655da4fbfc0e1108a8fd17b448a68554199c47d08ffb10d4b8)

def bytes (n : Nat) : List UInt8 := (wordBytes 32 n).reverse

def ecLib : EcLib where
  Point := Option (Nat × Nat)
  isAtInfinity p := p.isNone
  mul n := if n % order = 0 then none else if n = 1 then some generator else some (n, 0)
  generate _ := 1
  point2oct form p :=
    match p with
    | none => if form = 2 ∨ form = 4 ∨ form = 6 then some [0] else none
    | some (x, y) =>
      if form = 2 then some (UInt8.ofNat (2 + y % 2) :: bytes x)
      else if form = 4 then some (4 :: bytes x ++ bytes y)
      else if form = 6 then some (UInt8.ofNat (6 + y % 2) :: bytes x ++ bytes y)
      else none
  oct2point v :=
    if v.length = 33 ∧ formOf v = 2 then some (some (bin2bn (v.drop 1), 0))
    else if v.length = 65 ∧ (formOf v = 4 ∨ formOf v = 6) then
      some (some (bin2bn ((v.drop 1).take 32), bin2bn (v.drop 33)))
    else if v = [0] then some none
    else none
  copy target source :=
    { priv_key := source.priv_key.or target.priv_key
      pub_key := source.pub_key.or target.pub_key
      conv_form := source.conv_form }
  d2i _ _ := none
  checkKey pkey := pkey.pub_key.any fun p => p.isSome

@[simp] theorem bytes_length (n : Nat) : (bytes n).length = 32 := by simp [bytes]

theorem documented : ecLib.Documented where
  generate_finite _ := rfl
  check_finite pkey h := by
    cases hpub : pkey.pub_key with
    | none => simp [ecLib, hpub] at h
    | some p =>
      have hfinite : ecLib.checkKey pkey = Option.isSome p := by simp only [ecLib, hpub]; rfl
      rw [hfinite] at h
      exact ⟨p, rfl, Option.isNone_eq_false_iff.mpr h⟩
  compressed p hp := by
    cases p with
    | none => cases hp
    | some q => exact ⟨_, rfl, by simp⟩
  infinity form p v hp hv := by
    cases p with
    | none =>
      simp only [ecLib] at hv
      split_ifs at hv
      cases hv
      rfl
    | some q => cases hp
  otherForm form p v hform hv := by
    have hform2 : form ≠ 2 := hform
    cases p with
    | none =>
      simp only [ecLib] at hv
      split_ifs at hv
      cases hv
      decide
    | some q =>
      simp only [ecLib, if_neg hform2] at hv
      split_ifs at hv
      · cases hv
        simp
      · cases hv
        simp
  uncompressed p := by
    cases p with
    | none => exact ⟨_, rfl⟩
    | some q => exact ⟨_, rfl⟩
  oct2point_form v p hv := by
    simp only [ecLib] at hv
    split_ifs at hv with hshort hlong hzero
    · cases hv
      exact ⟨iff_of_true hshort.2 hshort.1, fun _ => rfl⟩
    · have hform : formOf v ≠ 2 := by rcases hlong.2 with h | h <;> omega
      have hlen : v.length ≠ 33 := by omega
      exact ⟨iff_of_false hform hlen, fun h => absurd h hlen⟩
    · subst hzero
      exact ⟨by decide, fun h => by cases h⟩
  copy_eq _ _ := rfl

def one : List UInt8 := List.replicate 31 0 ++ [1]

def assigned : List Call := [.construct, .setSecret 0 one true, .construct, .assign 1 0]

end Sample

theorem assigned_right_iff : Throughout Sample.ecLib Sample.assigned (Right Sample.ecLib) ↔
    Throughout Sample.ecLib Sample.assigned (Meets Sample.ecLib) :=
  run_right_iff Sample.ecLib Sample.documented Sample.assigned _ rfl

/-- The copy has the key in 33 bytes, and the flag of the new object. -/
theorem assigned_loses_flag : (run Sample.ecLib Sample.assigned).isSome = true ∧
    ¬ Throughout Sample.ecLib Sample.assigned (Right Sample.ecLib) := by
  refine ⟨rfl, fun h => ?_⟩
  have hright := h [.construct, .setSecret 0 Sample.one true, .construct] (.assign 1 0) [] _ rfl rfl
  have hcopied := (hright _ rfl).2 _ _ rfl rfl
  cases hcopied.2.2

end Triangles.Key
