import Triangles.Model.SmsgEncrypt
import Triangles.Proofs.MessageFile
import Triangles.Proofs.MessageIntegrity

/-! What the sender makes can be taken apart again: the ciphertext decrypts, the fields of the header
are read back, and the proof of work holds. -/

namespace Triangles

open Outcome

/-! The cipher. -/

section Cipher

variable {E D : List UInt8 → List UInt8}

theorem xorBytes_cancel : ∀ {a b : List UInt8}, a.length = b.length →
    xorBytes (xorBytes a b) b = a
  | [], [], _ => rfl
  | x :: a, y :: b, h => by
    have ih : xorBytes (xorBytes a b) b = a := xorBytes_cancel (by simpa using h)
    unfold xorBytes at ih ⊢
    rw [List.zipWith_cons_cons, List.zipWith_cons_cons, ih, UInt8.xor_assoc, UInt8.xor_self,
      UInt8.xor_zero]

/-- Chained blocks decrypt to what they encrypt, by induction on the number of blocks. -/
theorem cbcDecrypt_encrypt (hlen : ∀ block, (E block).length = 16)
    (hinv : ∀ block : List UInt8, block.length = 16 → D (E block) = block) (k : Nat) :
    ∀ (rounds rounds' : Nat) (prev plain : List UInt8), k ≤ rounds → k ≤ rounds' →
      prev.length = 16 → plain.length = 16 * k →
      (cbcEncrypt E rounds prev plain).length = 16 * k ∧
        cbcDecrypt D rounds' prev (cbcEncrypt E rounds prev plain) = plain := by
  induction k with
  | zero =>
    intro rounds rounds' prev plain _ _ _ hplain
    obtain rfl : plain = [] := List.eq_nil_of_length_eq_zero hplain
    have hnil : cbcEncrypt E rounds prev [] = [] := by cases rounds <;> rfl
    rw [hnil]
    cases rounds' <;> exact ⟨rfl, rfl⟩
  | succ k ih =>
    intro rounds rounds' prev plain hr hr' hprev hplain
    obtain ⟨r, rfl⟩ : ∃ r, rounds = r + 1 := ⟨rounds - 1, by omega⟩
    obtain ⟨r', rfl⟩ : ∃ r', rounds' = r' + 1 := ⟨rounds' - 1, by omega⟩
    have htake : (plain.take 16).length = 16 := by
      rw [List.length_take]
      omega
    have hx : (xorBytes (plain.take 16) prev).length = 16 := by
      rw [xorBytes_length (htake.trans hprev.symm), htake]
    have hblock := hlen (xorBytes (plain.take 16) prev)
    obtain ⟨hrest, hopen⟩ := ih r r' (E (xorBytes (plain.take 16) prev)) (plain.drop 16)
      (by omega) (by omega) hblock (by rw [List.length_drop]; omega)
    have hne : plain.isEmpty = false := by
      rw [List.isEmpty_eq_false_iff_exists_mem]
      exact List.exists_mem_of_length_pos (by omega)
    have hcipher : cbcEncrypt E (r + 1) prev plain = E (xorBytes (plain.take 16) prev) ++
        cbcEncrypt E r (E (xorBytes (plain.take 16) prev)) (plain.drop 16) := by
      rw [cbcEncrypt, hne]
      rfl
    rw [hcipher]
    refine ⟨by rw [List.length_append, hblock, hrest]; omega, ?_⟩
    have hsome : (E (xorBytes (plain.take 16) prev) ++
        cbcEncrypt E r (E (xorBytes (plain.take 16) prev)) (plain.drop 16)).isEmpty = false := by
      rw [List.isEmpty_eq_false_iff_exists_mem]
      exact List.exists_mem_of_length_pos (by rw [List.length_append, hblock]; omega)
    rw [cbcDecrypt, hsome, List.take_left' hblock, List.drop_left' hblock, hopen, hinv _ hx,
      xorBytes_cancel (htake.trans hprev.symm)]
    exact List.take_append_drop 16 plain

end Cipher

theorem pkcsPad_length (plain : List UInt8) :
    (pkcsPad plain).length = 16 * (plain.length / 16 + 1) := by
  simp only [pkcsPad, List.length_append, List.length_replicate]
  omega

/-- The ciphertext has up to sixteen bytes more than the plaintext, and decrypts to it. -/
theorem crypterDecrypt_encrypt {lib : SenderLib} {fEncrypted : Bool}
    {key iv plain ciphertext : List UInt8}
    (haes : ∀ block : List UInt8, block.length = 16 →
      lib.aesDecrypt key (lib.aesEncrypt key block) = block) (hiv : iv.length = 16)
    (h : crypterEncrypt lib fEncrypted key iv plain = some ciphertext) :
    crypterDecrypt lib.toSmsgLib key iv ciphertext = some plain ∧
      ciphertext.length = 16 * (plain.length / 16 + 1) := by
  unfold crypterEncrypt at h
  split at h
  · have hpad := pkcsPad_length plain
    have hcbc := fun rounds' => cbcDecrypt_encrypt (lib.aesEncrypt_length key)
      haes (plain.length / 16 + 1) (pkcsPad plain).length rounds' iv (pkcsPad plain) (by omega)
    rw [Option.some.inj h] at hcbc
    obtain ⟨hlen, hopen⟩ := hcbc ciphertext.length
      (by have := (hcbc (plain.length / 16 + 1) (Nat.le_refl _) hiv hpad).1; omega) hiv hpad
    refine ⟨?_, hlen⟩
    have hn : 0 < 16 - plain.length % 16 ∧ 16 - plain.length % 16 ≤ 16 := by omega
    have hlast : ((pkcsPad plain).getLastD 0).toNat = 16 - plain.length % 16 := by
      obtain ⟨n, hn'⟩ : ∃ n, 16 - plain.length % 16 = n + 1 := ⟨15 - plain.length % 16, by omega⟩
      rw [pkcsPad, hn', List.replicate_succ', ← List.append_assoc, List.getLastD_concat,
        UInt8.toNat_ofNat']
      omega
    have hdrop : (pkcsPad plain).length - (16 - plain.length % 16) = plain.length := by omega
    have htail : (pkcsPad plain).drop plain.length =
        List.replicate (16 - plain.length % 16) (UInt8.ofNat (16 - plain.length % 16)) :=
      List.drop_left
    have hall : ((pkcsPad plain).drop plain.length).any
        (·.toNat != 16 - plain.length % 16) = false := by
      rw [htail, List.any_eq_false]
      intro b hb
      rw [List.eq_of_mem_replicate hb, bne_iff_ne, not_not, UInt8.toNat_ofNat']
      omega
    have hwhole : ¬(ciphertext.length = 0 ∨ ciphertext.length % 16 ≠ 0) := by omega
    unfold crypterDecrypt
    rw [if_neg hwhole]
    simp only [hopen, hlast, hdrop, hall]
    rw [if_neg (by simp; omega)]
    exact congrArg some List.take_left
  · cases h

/-! Bytes put in place of others. -/

section Overwrite

variable {v bytes : List UInt8} {offset a n : Nat}

theorem slice_overwrite_at (v bytes : List UInt8) (h : offset ≤ v.length) :
    slice (overwrite v offset bytes) offset bytes.length = bytes := by
  have hpre : (v.take offset).length = offset := by
    rw [List.length_take]
    omega
  unfold overwrite
  have hslice := slice_right (v.take offset) (l := bytes ++ v.drop (offset + bytes.length))
    (k := bytes.length) 0 hpre
  rw [Nat.add_zero] at hslice
  rw [hslice, slice_left rfl]

theorem slice_overwrite_before (h : a + n ≤ offset) (hv : offset ≤ v.length) :
    slice (overwrite v offset bytes) a n = slice v a n := by
  unfold slice overwrite
  rw [List.drop_append_of_le_length (by rw [List.length_take]; omega),
    List.take_append_of_le_length (by rw [List.length_drop, List.length_take]; omega),
    List.drop_take, List.take_take, Nat.min_eq_left (by omega)]

theorem drop_overwrite_after (h : offset + bytes.length ≤ a) (hv : offset + bytes.length ≤ v.length) :
    (overwrite v offset bytes).drop a = v.drop a := by
  obtain ⟨k, rfl⟩ : ∃ k, a = offset + bytes.length + k := ⟨a - (offset + bytes.length), by omega⟩
  have hpre : (v.take offset ++ bytes).length = offset + bytes.length := by
    rw [List.length_append, List.length_take]
    omega
  unfold overwrite
  rw [← List.append_assoc, ← List.drop_drop, List.drop_left' hpre, List.drop_drop]

theorem slice_overwrite_after (h : offset + bytes.length ≤ a)
    (hv : offset + bytes.length ≤ v.length) :
    slice (overwrite v offset bytes) a n = slice v a n := by
  unfold slice
  rw [drop_overwrite_after h hv]

end Overwrite

/-! The proof of work. -/

/-- Headers that differ in the hash and the nonce only. -/
structure SmsgHeader.Same (h h' : SmsgHeader) : Prop where
  body : slice h'.bytes 4 92 = slice h.bytes 4 92
  size : slice h'.bytes 100 4 = slice h.bytes 100 4

namespace SmsgHeader

variable {h h' h'' : SmsgHeader}

theorem Same.trans (hs : h.Same h') (hs' : h'.Same h'') : h.Same h'' :=
  ⟨hs'.body.trans hs.body, hs'.size.trans hs.size⟩

theorem Same.field (hs : h.Same h') {a n : Nat} (ha : 4 ≤ a) (hn : a + n ≤ 96) :
    slice h'.bytes a n = slice h.bytes a n := by
  obtain ⟨k, rfl⟩ : ∃ k, a = 4 + k := ⟨a - 4, by omega⟩
  rw [← slice_slice h'.bytes 4 (w := 92) (by omega), hs.body, slice_slice h.bytes 4 (by omega)]

theorem setNonse_same (h : SmsgHeader) (nonse : Nat) : h.Same (h.setNonse nonse) := by
  have hlen := h.length
  unfold SMSG_HDR_LEN at hlen
  constructor
  · exact slice_overwrite_before (by decide) (by omega)
  · exact slice_overwrite_after (by rw [wordBytes_length]) (by rw [wordBytes_length]; omega)

theorem setHash_same (h : SmsgHeader) {sha256Hash : List UInt8} (hlen : sha256Hash.length = 32) :
    h.Same (h.setHash sha256Hash hlen) := by
  have hbytes := h.length
  unfold SMSG_HDR_LEN at hbytes
  have htake : (sha256Hash.take 4).length = 4 := by rw [List.length_take, hlen]; rfl
  constructor
  · exact slice_overwrite_after (by omega) (by omega)
  · exact slice_overwrite_after (by omega) (by omega)

theorem Same.version (hs : h.Same h') : h'.version = h.version := hs.field (by decide) (by decide)

theorem Same.nPayload (hs : h.Same h') : h'.nPayload = h.nPayload := congrArg leValue hs.size

/-- What `SecureMsgDecrypt` reads does not depend on the proof of work. -/
theorem Same.message (hs : h.Same h') :
    h'.message.version0 = h.message.version0 ∧ h'.message.timestamp = h.message.timestamp ∧
      h'.message.iv = h.message.iv ∧ h'.message.cpkR = h.message.cpkR ∧
      h'.message.mac = h.message.mac :=
  ⟨congrArg (List.getD · 0 0) hs.version, congrArg int64Of (hs.field (by decide) (by decide)),
    hs.field (by decide) (by decide), hs.field (by decide) (by decide),
    hs.field (by decide) (by decide)⟩

/-- The work is done on what the first four bytes do not change. -/
theorem powHash_setHash (lib : SmsgLib) (h : SmsgHeader) {sha256Hash : List UInt8}
    (hlen : sha256Hash.length = 32) (payload : List UInt8) :
    powHash lib (h.setHash sha256Hash hlen) payload = powHash lib h payload := by
  have hbytes := h.length
  unfold SMSG_HDR_LEN at hbytes
  have htake : (sha256Hash.take 4).length = 4 := by rw [List.length_take, hlen]; rfl
  have hnonse : (h.setHash sha256Hash hlen).nonse = h.nonse :=
    slice_overwrite_after (by omega) (by omega)
  have hdrop : (h.setHash sha256Hash hlen).bytes.drop 4 = h.bytes.drop 4 :=
    drop_overwrite_after (by omega) (by omega)
  unfold powHash
  rw [hnonse, hdrop]

theorem setHash_hash (h : SmsgHeader) {sha256Hash : List UInt8} (hlen : sha256Hash.length = 32) :
    (h.setHash sha256Hash hlen).hash = sha256Hash.take 4 := by
  have htake : (sha256Hash.take 4).length = 4 := by rw [List.length_take, hlen]; rfl
  have hslice := slice_overwrite_at h.bytes (sha256Hash.take 4) (Nat.zero_le _)
  rwa [htake] at hslice

end SmsgHeader

/-- The loop leaves the header as it is but for the nonce, and what it finds is the hash of that
header. -/
theorem setHashLoop_spec (lib : SmsgLib) (payload : List UInt8) (fSecMsgEnabled : Nat → Bool)
    (rounds : Nat) : ∀ (nonse : Nat) (h : SmsgHeader),
    let r := setHashLoop lib payload fSecMsgEnabled rounds nonse h
    h.Same r.1 ∧ ∀ sha256Hash, r.2 = some sha256Hash →
      powHash lib r.1 payload = some sha256Hash.1 ∧ meetsWork sha256Hash.1 = true := by
  induction rounds with
  | zero => exact fun nonse h => ⟨⟨rfl, rfl⟩, fun _ hr => by cases hr⟩
  | succ rounds ih =>
    intro nonse h
    have hsame := h.setNonse_same nonse
    unfold setHashLoop
    split
    · exact ⟨⟨rfl, rfl⟩, fun _ hr => by cases hr⟩
    · split
      · exact ⟨hsame, fun _ hr => by cases hr⟩
      · rename_i sha256Hash hpow
        split
        · split
          · rename_i hwork
            refine ⟨hsame, fun _ hr => ?_⟩
            obtain rfl := Option.some.inj hr
            exact ⟨hpow, hwork⟩
          · split
            · exact ⟨hsame, fun _ hr => by cases hr⟩
            · obtain ⟨hrest, hfound⟩ := ih (nonse + 1) (h.setNonse nonse)
              exact ⟨hsame.trans hrest, hfound⟩
        · exact ⟨hsame, fun _ hr => by cases hr⟩

/-- A message whose proof of work succeeded is valid when its version is 1 and its payload is not
too large. -/
theorem setHash_valid {lib : SmsgLib} {fSecMsgEnabled : Nat → Bool} {fEnabledAfter : Bool}
    {header header' : SmsgHeader} {payload : List UInt8}
    (h : secureMsgSetHash lib fSecMsgEnabled fEnabledAfter header payload = (0, header'))
    (hversion : header.version.headD 0 = 1) (hsize : payload.length ≤ SMSG_MAX_MSG_WORST)
    (hpayload : payload.length = header.nPayload) :
    header.Same header' ∧ ∃ hn : payload.length = header'.nPayload,
      secureMsgValidate lib ⟨header', payload, hn⟩ = 0 := by
  obtain ⟨hsame, hfound⟩ := setHashLoop_spec lib payload fSecMsgEnabled 4294967296 0 header
  unfold secureMsgSetHash at h
  simp only at h
  split at h
  · cases h
  · split at h
    · cases h
    · rename_i sha256Hash hsome
      obtain ⟨hpow, hwork⟩ := hfound sha256Hash hsome
      obtain rfl := (Prod.mk.inj h).2
      have hall := hsame.trans (SmsgHeader.setHash_same _ sha256Hash.2)
      refine ⟨hall, hpayload.trans hall.nPayload.symm, ?_⟩
      unfold secureMsgValidate
      simp only [hall.version, hversion, SmsgHeader.powHash_setHash, hpow, sha256Hash.2,
        SmsgHeader.setHash_hash, hwork]
      simp [hsize]

/-! The fields of the header. -/

section Header

variable (chance : EncryptChance) {cpkR mac : List UInt8}

theorem packHeader_fields (hR : cpkR.length = 33) (hmac : mac.length = 32) (nPayload : Nat) :
    let b := packHeader chance cpkR mac nPayload
    slice b 4 2 = [1, 1] ∧ slice b 7 8 = signedBytes 8 chance.now ∧ slice b 15 16 = chance.iv ∧
      slice b 31 33 = cpkR ∧ slice b 64 32 = mac ∧ slice b 100 4 = wordBytes 4 nPayload := by
  have hhash := fun {l} (offset k : Nat) =>
    slice_right chance.hash (l := l) (k := k) offset chance.hash_length
  have hversion := fun {l} (offset k : Nat) =>
    slice_right [1, 1, chance.flags] (l := l) (k := k) offset (n := 3) rfl
  have htime := fun {l} (offset k : Nat) =>
    slice_right (signedBytes 8 chance.now) (l := l) (k := k) offset (signedBytes_length 8 _)
  have hiv := fun {l} (offset k : Nat) =>
    slice_right chance.iv (l := l) (k := k) offset chance.iv_length
  have hkey := fun {l} (offset k : Nat) => slice_right cpkR (l := l) (k := k) offset hR
  have hcode := fun {l} (offset k : Nat) => slice_right mac (l := l) (k := k) offset hmac
  have hnonse := fun {l} (offset k : Nat) =>
    slice_right chance.nonse (l := l) (k := k) offset chance.nonse_length
  unfold packHeader
  simp only
  refine ⟨?_, ?_, ?_, ?_, ?_, ?_⟩
  · exact (hhash 0 2).trans rfl
  · exact (hhash 3 8).trans ((hversion 0 8).trans (slice_left (signedBytes_length 8 _)))
  · exact (hhash 11 16).trans ((hversion 8 16).trans ((htime 0 16).trans
      (slice_left chance.iv_length)))
  · exact (hhash 27 33).trans ((hversion 24 33).trans ((htime 16 33).trans ((hiv 0 33).trans
      (slice_left hR))))
  · exact (hhash 60 32).trans ((hversion 57 32).trans ((htime 49 32).trans ((hiv 33 32).trans
      ((hkey 0 32).trans (slice_left hmac)))))
  · refine (hhash 96 4).trans ((hversion 93 4).trans ((htime 85 4).trans ((hiv 69 4).trans
      ((hkey 36 4).trans ((hcode 4 4).trans ((hnonse 0 4).trans ?_))))))
    rw [slice, List.drop_zero]
    exact List.take_of_length_le (wordBytes_length 4 _).le

end Header

end Triangles

/-! A message arrives: what `SecureMsgEncrypt` makes and `SecureMsgSetHash` completes is valid, and
`SecureMsgDecrypt` reads the text, the time and the sender from it. -/

namespace Triangles

open Outcome

/-! The text. -/

section Text

variable {lib : SenderLib} {host : SmsgHost} {message data : List UInt8} {resizes : Nat → Bool}

theorem bytesAt_after (pre l post : List UInt8) {offset n : Nat} (hpre : pre.length = offset)
    (hl : l.length = n) : bytesAt (pre ++ (l ++ post)) offset n = .ok l := by
  subst hpre hl
  rw [bytesAt_ok]
  refine ⟨?_, by rw [List.drop_left, List.take_left]⟩
  simp only [List.length_append]
  omega

theorem bytesAt_head (x : UInt8) (v : List UInt8) : bytesAt (x :: v) 0 1 = .ok [x] := by
  simp [bytesAt_ok]

/-- Compressed or not, the text is no longer than LZ4 makes it. -/
theorem messageData_length (hlib : lib.Sound) (h : messageData lib resizes message = .ok data) :
    data.length ≤ message.length + message.length / 255 + 2 := by
  unfold messageData at h
  split at h
  · split at h
    · cases h
    · split at h
      · cases h
      · obtain rfl := Except.ok.inj h
        exact hlib.lz4_bound message
  · obtain rfl := Except.ok.inj h
    omega

theorem plainText_data (hlib : lib.Sound) (hsize : message.length ≤ SMSG_MAX_MSG_BYTES)
    (h : messageData lib resizes message = .ok data) (pre : List UInt8) {offset : Nat}
    (hpre : pre.length = offset) :
    plainText lib.toSmsgLib (pre ++ data) offset message.length = .ok message := by
  unfold SMSG_MAX_MSG_BYTES at hsize
  unfold messageData at h
  unfold plainText
  split at h
  · rename_i hlong
    rw [if_pos hlong]
    split at h
    · cases h
    · split at h
      · cases h
      · rename_i hsome
        obtain rfl := Except.ok.inj h
        have hne : lib.lz4Compress message ≠ [] := fun hnil => hsome (by rw [hnil]; decide)
        have hbmod : ((message.length : Nat) : Int).bmod (2 ^ 32) = message.length := by
          rw [Int.bmod_eq_of_le] <;> omega
        simp only [List.drop_left' hpre, hlib.lz4_inverse message hne, hbmod, ne_eq, not_true,
          if_false]
  · rename_i hshort
    obtain rfl := Except.ok.inj h
    rw [if_neg hshort]
    have hat := bytesAt_after pre message [] hpre rfl
    rwa [List.append_nil] at hat

/-- The receiver finds the text after the length, wherever the payload has it. -/
theorem payloadText_sent (hlib : lib.Sound) (hsize : message.length ≤ SMSG_MAX_MSG_BYTES)
    (h : messageData lib resizes message = .ok data)
    (hmemory : host.resizes (message.length + 1) = true) (pre : List UInt8) {offset : Nat}
    (hpre : pre.length + 4 = offset) :
    payloadText lib.toSmsgLib host (pre ++ (wordBytes 4 message.length ++ data)) offset =
      .ok (message ++ [0]) := by
  have hlen : leValue (wordBytes 4 message.length) = message.length := by
    rw [leValue_wordBytes]
    unfold SMSG_MAX_MSG_BYTES at hsize
    exact Nat.mod_eq_of_lt (by omega)
  have hbytes : bytesAt (pre ++ (wordBytes 4 message.length ++ data)) (offset - 4) 4 =
      .ok (wordBytes 4 message.length) := bytesAt_after pre _ _ (by omega) (wordBytes_length 4 _)
  have hbefore : (pre ++ wordBytes 4 message.length).length = offset := by
    rw [List.length_append, wordBytes_length, hpre]
  have htext := plainText_data hlib hsize h (pre ++ wordBytes 4 message.length) hbefore
  rw [List.append_assoc] at htext
  unfold SMSG_MAX_MSG_BYTES at hsize
  have hmod : (message.length + 1) % 2 ^ 32 = message.length + 1 := Nat.mod_eq_of_lt (by omega)
  have hwrap : decide (message.length + 1 < 2 ^ 32) = true := decide_eq_true (by omega)
  unfold payloadText
  simp only [hbytes, bind, Except.bind, hlen, hmod, hmemory, htext, hwrap, check, if_true]
  rfl

end Text

/-! The sender. -/

section Sender

variable {lib : SenderLib} {node : SmsgSender lib}

/-- A compact signature names the key that made it. -/
theorem signCompact_recovers (hlib : lib.Sound) {key : SecretKey} {hash vchSig : List UInt8}
    (h : signCompact lib key hash = .ok vchSig) :
    vchSig.length = 65 ∧
      recoverPubKey lib.toSmsgLib hash vchSig = .ok (key.pubKey lib) := by
  obtain ⟨rs, hsign, -⟩ := hlib.recovers key.secret hash
  unfold signCompact at h
  rw [hsign] at h
  simp only at h
  split at h
  · cases h
  · rename_i nRecId hfind
    have hlt : nRecId < 4 := List.mem_range.mp (List.mem_of_find?_eq_some hfind)
    have hrec := List.find?_some hfind
    rw [beq_iff_eq] at hrec
    obtain ⟨P, hP, hpub⟩ := Option.map_eq_some_iff.mp hrec
    obtain rfl := Except.ok.inj h
    have hlen : (UInt8.ofNat (nRecId + 27 + if key.fCompressed then 4 else 0) :: rs).length = 65 := by
      rw [List.length_cons, lib.ecdsaSign_length _ _ _ hsign]
    refine ⟨hlen, ?_⟩
    have hnV : (UInt8.ofNat (nRecId + 27 + if key.fCompressed then 4 else 0)).toNat =
        nRecId + 27 + if key.fCompressed then 4 else 0 := by
      rw [UInt8.toNat_ofNat']
      split <;> omega
    unfold recoverPubKey
    simp only [List.headD_cons, hnV, List.tail_cons]
    cases hc : key.fCompressed with
    | false =>
      have hplain : decide (31 ≤ nRecId + 27) = false := decide_eq_false (by omega)
      rw [hc] at hpub hlen
      simp only [Bool.false_eq_true, if_false, Nat.add_zero] at hlen ⊢
      rw [if_neg (by omega), hplain]
      simp only [Bool.false_eq_true, if_false, Nat.add_sub_cancel, hP, hpub]
    | true =>
      have hshort : decide (31 ≤ nRecId + 27 + 4) = true := decide_eq_true (by omega)
      rw [hc] at hpub hlen
      simp only [if_true] at hlen ⊢
      rw [if_neg (by omega), hshort]
      simp only [if_true, Nat.add_sub_cancel, hP, hpub]

theorem getKeyID_some {fTestNet : Bool} {addr : CTrianglesAddress} {id : uint160}
    (h : addr.getKeyID fTestNet = some id) :
    addr.isValid fTestNet = true ∧ id.length = 20 ∧ addr = CTrianglesAddress.ofKeyID fTestNet id := by
  unfold CTrianglesAddress.getKeyID at h
  split at h
  · cases h
  · rename_i hvalid
    rw [Bool.not_eq_true', Bool.not_eq_false] at hvalid
    split at h
    · rename_i hversion
      obtain rfl := Option.some.inj h
      refine ⟨hvalid, ?_, ?_⟩
      · unfold CTrianglesAddress.isValid at hvalid
        rw [Bool.and_eq_true, beq_iff_eq] at hvalid
        exact hvalid.2
      · unfold CTrianglesAddress.isValid at hvalid
        unfold CTrianglesAddress.ofKeyID
        obtain ⟨nVersion, vchData⟩ := addr
        simp only at hversion hvalid ⊢
        rcases hversion with rfl | rfl
        · cases fTestNet with
          | false => rfl
          | true => simp at hvalid
        · cases fTestNet with
          | false =>
            simp [CTrianglesAddress.PUBKEY_ADDRESS_TEST, CTrianglesAddress.PUBKEY_ADDRESS,
              CTrianglesAddress.SCRIPT_ADDRESS] at hvalid
          | true => rfl
    · cases h

/-- The sender that is not anonymous has an address of the network. -/
theorem senderAddress_some {fTestNet : Bool} {addressFrom : List UInt8}
    {coinAddrFrom : CTrianglesAddress} {ckidFrom : uint160}
    (h : senderAddress lib fTestNet addressFrom = .ok (some (coinAddrFrom, ckidFrom))) :
    addressFrom ≠ anonAddress ∧
      CTrianglesAddress.setString lib.hash addressFrom = coinAddrFrom ∧
      coinAddrFrom = CTrianglesAddress.ofKeyID fTestNet ckidFrom ∧
      coinAddrFrom.isValid fTestNet = true ∧ ckidFrom.length = 20 := by
  unfold senderAddress at h
  split at h
  · cases h
  · rename_i hanon
    simp only at h
    split at h
    · cases h
    · cases hid : (CTrianglesAddress.setString lib.hash addressFrom).getKeyID fTestNet with
      | none => rw [hid] at h; cases h
      | some id =>
        rw [hid] at h
        obtain ⟨rfl, rfl⟩ := Prod.mk.inj (Option.some.inj (Except.ok.inj h))
        obtain ⟨hvalid, hlen, hown⟩ := getKeyID_some hid
        exact ⟨hanon, rfl, hown, hvalid, hlen⟩

def shownSender (lib : SenderLib) (sender : Option (CTrianglesAddress × uint160)) : List UInt8 :=
  match sender with
  | none => anonAddress
  | some (coinAddrFrom, _) => coinAddrFrom.toString lib.hash

theorem shownSender_eq {addressFrom : List UInt8} {sender : Option (CTrianglesAddress × uint160)}
    (hfrom : addressFrom = anonAddress ∨
      ∃ id, addressFrom = (CTrianglesAddress.ofKeyID node.fTestNet id).toString lib.hash)
    (h : senderAddress lib node.fTestNet addressFrom = .ok sender) :
    shownSender lib sender = addressFrom := by
  cases sender with
  | none =>
    unfold senderAddress at h
    split at h
    · rename_i hanon
      exact hanon.symm
    · simp only at h
      split at h
      · cases h
      · split at h <;> cases h
  | some s =>
    obtain ⟨hanon, hset, -⟩ := senderAddress_some h
    obtain ⟨id, rfl⟩ := hfrom.resolve_left hanon
    have hread := (setString_toString (CTrianglesAddress.ofKeyID node.fTestNet id)
      (by rw [lib.hash_length]; decide)).1
    exact congrArg (CTrianglesAddress.toString lib.hash) (hset.symm.trans hread)

section Payload

variable {host : SmsgHost} {message data vchPayload : List UInt8}

/-- An anonymous payload is parsed to its text. -/
theorem anonymousPayload_parsed (hlib : lib.Sound) (timestamp : Int)
    (hsize : message.length ≤ SMSG_MAX_MSG_BYTES)
    (hdata : messageData lib node.resizes message = .ok data)
    (hpayload : anonymousPayload node.resizes message.length data = .ok vchPayload)
    (hmemory : host.resizes (message.length + 1) = true) :
    vchPayload.length ≤ SMSG_PL_HDR_LEN + data.length ∧
      parsePayload lib.toSmsgLib host timestamp vchPayload =
        .ok (⟨timestamp, shownSender lib none, message ++ [0]⟩, none) := by
  unfold anonymousPayload at hpayload
  split at hpayload
  · cases hpayload
  · obtain rfl := Except.ok.inj hpayload
    refine ⟨by simp [SMSG_PL_HDR_LEN]; omega, ?_⟩
    have htext := payloadText_sent hlib hsize hdata hmemory
      (250 :: List.replicate 4 0) (rfl : _ = 9)
    rw [List.cons_append] at htext
    unfold parsePayload parseAnonymous
    simp only [bytesAt_head, htext, bind, Except.bind, if_true]
    rfl

theorem i2o_valid (lib : SenderLib) (fCompressed : Bool) (P : lib.Point) :
    pubKeyIsValid (lib.i2o fCompressed P) = true := by
  unfold pubKeyIsValid
  rw [lib.i2o_length]
  cases fCompressed <;> rfl

/-- No address of the wallet has the version byte of an anonymous payload. -/
theorem nVersion_ne_anonymous (fTestNet : Bool) (id : uint160) :
    [(CTrianglesAddress.ofKeyID fTestNet id).nVersion] ≠ [(250 : UInt8)] := by
  rw [Ne, List.cons.injEq, not_and_or]
  left
  cases fTestNet with
  | false => exact (by decide : CTrianglesAddress.PUBKEY_ADDRESS ≠ 250)
  | true => exact (by decide : CTrianglesAddress.PUBKEY_ADDRESS_TEST ≠ 250)

/-- A signed payload is parsed to its text, and to the address whose key signed it. -/
theorem signedPayload_parsed (hlib : lib.Sound) (timestamp : Int) {addressFrom : List UInt8}
    {coinAddrFrom : CTrianglesAddress} {ckidFrom : uint160}
    (hsender : senderAddress lib node.fTestNet addressFrom = .ok (some (coinAddrFrom, ckidFrom)))
    (hsize : message.length ≤ SMSG_MAX_MSG_BYTES)
    (hdata : messageData lib node.resizes message = .ok data)
    (hpayload : signedPayload node coinAddrFrom ckidFrom message data = .ok vchPayload)
    (hnet : host.fTestNet = node.fTestNet) (hmemory : host.resizes (message.length + 1) = true) :
    vchPayload.length ≤ SMSG_PL_HDR_LEN + data.length ∧
      ∃ pair, parsePayload lib.toSmsgLib host timestamp vchPayload =
        .ok (⟨timestamp, shownSender lib (some (coinAddrFrom, ckidFrom)), message ++ [0]⟩, pair) := by
  obtain ⟨-, -, hown, hvalid, hid⟩ := senderAddress_some hsender
  unfold signedPayload at hpayload
  split at hpayload
  · cases hpayload
  · cases hkey : node.getKey ckidFrom with
    | none => rw [hkey] at hpayload; cases hpayload
    | some keyFrom =>
      rw [hkey] at hpayload
      simp only [bind_ok] at hpayload
      obtain ⟨vchSig, hsign, hpayload⟩ := hpayload
      obtain rfl := Except.ok.inj hpayload
      obtain ⟨hsig, hrecover⟩ := signCompact_recovers hlib hsign
      refine ⟨by simp [SMSG_PL_HDR_LEN, hid, hsig]; omega, some (ckidFrom, keyFrom.pubKey lib), ?_⟩
      have hckid : bytesAt (coinAddrFrom.nVersion ::
          (ckidFrom ++ (vchSig ++ (wordBytes 4 message.length ++ data)))) 1 20 =
          .ok ckidFrom := bytesAt_after [coinAddrFrom.nVersion] _ _ rfl hid
      have hsigAt : bytesAt (coinAddrFrom.nVersion ::
          (ckidFrom ++ (vchSig ++ (wordBytes 4 message.length ++ data)))) 21 65 =
          .ok vchSig := by
        have hat := bytesAt_after (coinAddrFrom.nVersion :: ckidFrom) vchSig
          (wordBytes 4 message.length ++ data) (by rw [List.length_cons, hid]) hsig
        rwa [List.cons_append] at hat
      have hbefore : (coinAddrFrom.nVersion :: (ckidFrom ++ vchSig)).length + 4 =
          SMSG_PL_HDR_LEN := by
        rw [List.length_cons, List.length_append, hid, hsig]
        rfl
      have htext := payloadText_sent hlib hsize hdata hmemory
        (coinAddrFrom.nVersion :: (ckidFrom ++ vchSig)) hbefore
      rw [List.cons_append, List.append_assoc] at htext
      have hnot := nVersion_ne_anonymous node.fTestNet ckidFrom
      rw [← hown] at hnot
      have hpub : pubKeyIsValid (keyFrom.pubKey lib) = true := i2o_valid lib _ _
      have hsender : payloadSender lib.toSmsgLib host (coinAddrFrom.nVersion ::
          (ckidFrom ++ (vchSig ++ (wordBytes 4 message.length ++ data)))) (message ++ [0]) =
          .ok (ckidFrom, keyFrom.pubKey lib) := by
        unfold payloadSender
        simp only [hckid, bind, Except.bind, hnet, ← hown, hvalid, check, hsigAt,
          List.dropLast_concat, hrecover, hpub, node.getKey_id _ _ hkey, beq_self_eq_true, if_true]
        rfl
      unfold parsePayload parseSigned shownSender
      simp only [bytesAt_head, bind, Except.bind, if_neg hnot, htext, hsender, hnet, ← hown]
      rfl

/-- The payload is parsed to what it was made of. -/
theorem parsePayload_sent (hlib : lib.Sound) (timestamp : Int) {addressFrom : List UInt8}
    {sender : Option (CTrianglesAddress × uint160)}
    (hsender : senderAddress lib node.fTestNet addressFrom = .ok sender)
    (hsize : message.length ≤ SMSG_MAX_MSG_BYTES)
    (hdata : messageData lib node.resizes message = .ok data)
    (hpayload : messagePayload node sender message data = .ok vchPayload)
    (hnet : host.fTestNet = node.fTestNet) (hmemory : host.resizes (message.length + 1) = true) :
    vchPayload.length ≤ SMSG_PL_HDR_LEN + data.length ∧
      ∃ pair, parsePayload lib.toSmsgLib host timestamp vchPayload =
        .ok (⟨timestamp, shownSender lib sender, message ++ [0]⟩, pair) := by
  cases sender with
  | none =>
    obtain ⟨hlen, hparse⟩ :=
      anonymousPayload_parsed hlib timestamp hsize hdata hpayload hmemory
    exact ⟨hlen, none, hparse⟩
  | some from_ => exact signedPayload_parsed hlib timestamp hsender hsize hdata hpayload hnet hmemory

end Payload

end Sender

/-! Both keys, and the message as a whole. -/

section Message

variable {lib : SenderLib} {node : SmsgSender lib}

/-- The public key that the sender finds for the address belongs to the secret. -/
def Addressed (node : SmsgSender lib) (addressTo keyDest : List UInt8) : Prop :=
  ∀ ckidDest cpkDestK, destKeyID lib node.fTestNet addressTo = .ok ckidDest →
    destPubKey node ckidDest = .ok cpkDestK → lib.o2i cpkDestK = some (lib.pub keyDest)

theorem sharedKeys_sent (hlib : lib.Sound) {keyR cpkDestK keyDest : List UInt8}
    {keys : List UInt8 × List UInt8} (h : senderKeys lib keyR cpkDestK = .ok keys)
    (hdest : lib.o2i cpkDestK = some (lib.pub keyDest)) :
    sharedKeys lib.toSmsgLib keyDest (lib.i2o true (lib.pub keyR)) = .ok keys := by
  have hlen : (lib.i2o true (lib.pub keyR)).length = 33 := lib.i2o_length true _
  have hvalid : pubKeyIsValid (lib.i2o true (lib.pub keyR)) = true := i2o_valid lib _ _
  unfold senderKeys at h
  unfold sharedKeys
  simp only [hdest, hlib.computeKey_symm keyR keyDest] at h
  simp only [hvalid, lib.o2i_i2o, hlen, beq_self_eq_true, Bool.not_true, Bool.false_eq_true,
    if_false, ne_eq, not_true]
  cases hP : lib.computeKey keyDest (lib.pub keyR) with
  | none => rw [hP] at h; cases h
  | some vchP => rwa [hP] at h

theorem sealMessage_ok {resizes : Nat → Bool} {chance : EncryptChance}
    {cpkR key_m vchCiphertext payload : List UInt8} {hR : cpkR.length = 33} {header : SmsgHeader}
    (h : sealMessage lib resizes chance cpkR key_m vchCiphertext hR = .ok (header, payload)) :
    payload = vchCiphertext ∧ ∃ mac : List UInt8, mac.length = 32 ∧
      lib.hmac key_m (signedBytes 8 chance.now ++ payload) = some mac ∧
      header.bytes = packHeader chance cpkR mac payload.length := by
  unfold sealMessage at h
  split at h
  · cases h
  · split at h
    · cases h
    · rename_i mac hsome
      split at h
      · rename_i hmac
        obtain ⟨rfl, rfl⟩ := Prod.mk.inj (Except.ok.inj h)
        exact ⟨rfl, mac, hmac, hsome, rfl⟩
      · cases h

/-- What the receiver reads from a packed header. -/
theorem packedHeader_message {chance : EncryptChance} {cpkR mac : List UInt8} {nPayload : Nat}
    {header : SmsgHeader} (hR : cpkR.length = 33) (hmac : mac.length = 32)
    (h : header.bytes = packHeader chance cpkR mac nPayload) :
    header.message.version0 = 1 ∧ header.message.timestamp = chance.now ∧
      header.message.iv = chance.iv ∧ header.message.cpkR = cpkR ∧ header.message.mac = mac := by
  obtain ⟨hversion, htime, hiv, hcpkR, hmacAt, -⟩ := packHeader_fields chance hR hmac nPayload
  rw [← h] at hversion htime hiv hcpkR hmacAt
  refine ⟨?_, ?_, hiv, hcpkR, hmacAt⟩
  · unfold SmsgHeader.message SmsgHeader.version
    rw [hversion]
    rfl
  · unfold SmsgHeader.message SmsgHeader.timestamp
    rw [htime, int64Of_signedBytes chance.now_range]

theorem packedHeader_nPayload {chance : EncryptChance} {cpkR mac : List UInt8} {nPayload : Nat}
    {header : SmsgHeader} (hR : cpkR.length = 33) (hmac : mac.length = 32)
    (h : header.bytes = packHeader chance cpkR mac nPayload) (hsmall : nPayload < 2 ^ 32) :
    header.version.headD 0 = 1 ∧ header.nPayload = nPayload := by
  obtain ⟨hversion, -, -, -, -, hnPayload⟩ := packHeader_fields chance hR hmac nPayload
  rw [← h] at hversion hnPayload
  unfold SmsgHeader.version SmsgHeader.nPayload
  rw [hversion, hnPayload, leValue_wordBytes]
  exact ⟨rfl, Nat.mod_eq_of_lt hsmall⟩

/-- A padded payload is never too large. -/
theorem ciphertext_small {message data vchPayload ciphertext : List UInt8}
    (hsize : message.length ≤ SMSG_MAX_MSG_BYTES)
    (hdata : data.length ≤ message.length + message.length / 255 + 2)
    (hpayload : vchPayload.length ≤ SMSG_PL_HDR_LEN + data.length)
    (hcipher : ciphertext.length = 16 * (vchPayload.length / 16 + 1)) :
    ciphertext.length ≤ SMSG_MAX_MSG_WORST := by
  unfold SMSG_MAX_MSG_BYTES at hsize
  unfold SMSG_PL_HDR_LEN at hpayload
  have hworst : SMSG_MAX_MSG_WORST = 4218 := rfl
  omega

end Message

/-- A message that was made and hashed is valid, and its destination reads the text, the time and the
sender from it. -/
theorem sealed_arrives {lib : SenderLib} (hlib : lib.Sound) (node : SmsgSender lib)
    (chance : EncryptChance) (addressFrom addressTo message : List UInt8)
    (hfrom : addressFrom = anonAddress ∨
      ∃ id, addressFrom = (CTrianglesAddress.ofKeyID node.fTestNet id).toString lib.hash)
    {header header' : SmsgHeader} {payload : List UInt8}
    (hbuilt : secureMsgEncrypt node chance addressFrom addressTo message = .ok (header, payload))
    (fSecMsgEnabled : Nat → Bool) (fEnabledAfter : Bool)
    (hhash : secureMsgSetHash lib.toSmsgLib fSecMsgEnabled fEnabledAfter header payload =
      (0, header'))
    (host : SmsgHost) (hnet : host.fTestNet = node.fTestNet)
    (hmemory : host.resizes (message.length + 1) = true) (address : List UInt8)
    {keyDest : List UInt8} (hkey : decryptKey lib.toSmsgLib host address = .ok keyDest)
    (hdest : Addressed node addressTo keyDest) :
    (∃ hn : payload.length = header'.nPayload,
      secureMsgValidate lib.toSmsgLib ⟨header', payload, hn⟩ = 0) ∧
      ∃ pair, secureMsgDecrypt lib.toSmsgLib host false address header'.message payload =
        .ok (some (⟨chance.now, addressFrom, message ++ [0]⟩, pair)) := by
  unfold secureMsgEncrypt at hbuilt
  simp only [bind_ok, check_ok, decide_eq_true_eq] at hbuilt
  obtain ⟨-, hsize, sender, hsender, ckidDest, hckid, cpkDestK, hK, keys, hkeys, data, hdata,
    vchPayload, hpayload, hbuilt⟩ := hbuilt
  split at hbuilt
  · cases hbuilt
  · rename_i vchCiphertext hcipher
    obtain ⟨rfl, mac, hmac, hcode, hbytes⟩ := sealMessage_ok hbuilt
    obtain ⟨hopen, hclen⟩ := crypterDecrypt_encrypt (hlib.aesDecrypt_encrypt keys.1)
      chance.iv_length hcipher
    obtain ⟨hplen, pair, hparse⟩ := parsePayload_sent hlib chance.now hsender hsize
      hdata hpayload hnet hmemory
    have hsmall := ciphertext_small hsize (messageData_length hlib hdata) hplen hclen
    have hworst : SMSG_MAX_MSG_WORST = 4218 := rfl
    have hR : (lib.i2o true (lib.pub chance.keyR)).length = 33 := lib.i2o_length true _
    obtain ⟨hversion, hcount⟩ := packedHeader_nPayload hR hmac hbytes (by omega)
    obtain ⟨hsame, hvalid⟩ := setHash_valid hhash hversion hsmall hcount.symm
    refine ⟨hvalid, pair, ?_⟩
    -- the work does not change what is decrypted
    obtain ⟨hone, hnow, hiv, hcpkR, hmacAt⟩ := packedHeader_message hR hmac hbytes
    obtain ⟨hmversion, hmtime, hmiv, hmkey, hmmac⟩ := hsame.message
    rw [hone] at hmversion
    rw [hnow] at hmtime
    rw [hiv] at hmiv
    rw [hcpkR] at hmkey
    rw [hmacAt] at hmmac
    have hshared := sharedKeys_sent hlib hkeys (hdest ckidDest cpkDestK hckid hK)
    rw [shownSender_eq hfrom hsender] at hparse
    unfold secureMsgDecrypt messageMac openPayload
    simp only [hmversion, check, beq_self_eq_true, if_true, bind, Except.bind, hkey, hmkey, hshared,
      hmtime, hcode, hmmac, hmiv, hopen, hparse, Bool.false_eq_true, if_false]
    rfl

/-! Making the message. -/

section Built

variable {lib : SenderLib} {node : SmsgSender lib} {chance : EncryptChance} {message data : List UInt8}

/-- The calls of other libraries that a message needs all succeed: the key agreement with the point of the
destination, the compression of a long text, the cipher, the authentication and the allocations. -/
structure Succeeds (node : SmsgSender lib) (chance : EncryptChance) (message : List UInt8)
    (P : lib.Point) : Prop where
  agrees : ∃ vchP, lib.computeKey chance.keyR P = some vchP
  compresses : 128 < message.length → lib.lz4Compress message ≠ []
  encrypts : chance.fEncrypted = true
  authenticates : ∀ key v, ∃ mac : List UInt8, lib.hmac key v = some mac ∧ mac.length = 32
  allocates : ∀ n ≤ SMSG_MAX_MSG_WORST, node.resizes n = true

theorem ofKeyID_isValid {fTestNet : Bool} {id : uint160} (hid : id.length = 20) :
    (CTrianglesAddress.ofKeyID fTestNet id).isValid fTestNet = true := by
  have hlen : (id.length == 20) = true := beq_iff_eq.mpr hid
  unfold CTrianglesAddress.isValid CTrianglesAddress.ofKeyID
  cases fTestNet with
  | false => simp [hlen]
  | true =>
    simp [hlen, CTrianglesAddress.PUBKEY_ADDRESS_TEST, CTrianglesAddress.PUBKEY_ADDRESS,
      CTrianglesAddress.SCRIPT_ADDRESS]

/-- The text of the address of a key is read as that address, and gives the key id. -/
theorem keyAddress_read (lib : SenderLib) (fTestNet : Bool) {id : uint160} (hid : id.length = 20) :
    CTrianglesAddress.setStringOk lib.hash ((CTrianglesAddress.ofKeyID fTestNet id).toString lib.hash) =
        true ∧
      CTrianglesAddress.setString lib.hash ((CTrianglesAddress.ofKeyID fTestNet id).toString lib.hash) =
        CTrianglesAddress.ofKeyID fTestNet id ∧
      (CTrianglesAddress.ofKeyID fTestNet id).getKeyID fTestNet = some id := by
  have hlen : 4 ≤ (lib.hash ((CTrianglesAddress.ofKeyID fTestNet id).nVersion ::
      (CTrianglesAddress.ofKeyID fTestNet id).vchData)).length := by
    rw [lib.hash_length]
    decide
  obtain ⟨hread, hok⟩ := setString_toString (CTrianglesAddress.ofKeyID fTestNet id) hlen
  refine ⟨hok, hread, ?_⟩
  unfold CTrianglesAddress.getKeyID
  rw [ofKeyID_isValid hid]
  cases fTestNet <;> rfl

theorem destKeyID_address (lib : SenderLib) {fTestNet : Bool} {id : uint160} (hid : id.length = 20) :
    destKeyID lib fTestNet ((CTrianglesAddress.ofKeyID fTestNet id).toString lib.hash) = .ok id := by
  obtain ⟨hok, hread, hkey⟩ := keyAddress_read lib fTestNet hid
  unfold destKeyID
  simp only [hok, hread, hkey]
  rfl

theorem getKey_length {id : uint160} {key : SecretKey} (h : node.getKey id = some key) :
    id.length = 20 := by
  rw [← node.getKey_id id key h]
  exact lib.hash160_length _

/-- The sender is nobody, or an address whose key the wallet has. -/
theorem senderAddress_ok {addressFrom : List UInt8} (hfrom : addressFrom = anonAddress ∨ ∃ id key,
      addressFrom = (CTrianglesAddress.ofKeyID node.fTestNet id).toString lib.hash ∧
        node.getKey id = some key) :
    ∃ sender, senderAddress lib node.fTestNet addressFrom = .ok sender ∧
      ∀ addr id, sender = some (addr, id) → ∃ key, node.getKey id = some key := by
  by_cases hanon : addressFrom = anonAddress
  · exact ⟨none, if_pos hanon, nofun⟩
  · obtain ⟨id, key, rfl, hkey⟩ := hfrom.resolve_left hanon
    obtain ⟨hok, hread, hget⟩ := keyAddress_read lib node.fTestNet (getKey_length hkey)
    refine ⟨some (CTrianglesAddress.ofKeyID node.fTestNet id, id), ?_, fun addr id' h => ?_⟩
    · unfold senderAddress
      rw [if_neg hanon]
      simp only [hok, hread, hget]
      rfl
    · obtain ⟨-, rfl⟩ := Prod.mk.inj (Option.some.inj h)
      exact ⟨key, hkey⟩

theorem senderKeys_ok {cpkDestK : List UInt8} {P : lib.Point} (hpoint : lib.o2i cpkDestK = some P)
    (h : Succeeds node chance message P) : ∃ keys, senderKeys lib chance.keyR cpkDestK = .ok keys := by
  obtain ⟨vchP, hP⟩ := h.agrees
  refine ⟨((lib.sha512 vchP).take 32, (lib.sha512 vchP).drop 32), ?_⟩
  unfold senderKeys
  simp only [hpoint, hP]

theorem messageData_ok {P : lib.Point} (hsize : message.length ≤ SMSG_MAX_MSG_BYTES)
    (h : Succeeds node chance message P) : ∃ data, messageData lib node.resizes message = .ok data := by
  unfold messageData
  split
  · rename_i hlong
    have hbound : LZ4_COMPRESSBOUND message.length ≤ SMSG_MAX_MSG_WORST := by
      unfold SMSG_MAX_MSG_BYTES at hsize
      have hworst : SMSG_MAX_MSG_WORST = 4218 := rfl
      unfold LZ4_COMPRESSBOUND
      omega
    have hsome : ¬ (lib.lz4Compress message).length < 1 := by
      have hpos := List.length_pos_iff.mpr (h.compresses hlong)
      omega
    refine ⟨lib.lz4Compress message, ?_⟩
    rw [h.allocates _ hbound, if_neg hsome]
    rfl
  · exact ⟨message, rfl⟩

/-- A key can sign: one of the four recovery numbers gives its point. -/
theorem signCompact_ok (hlib : lib.Sound) (key : SecretKey) (hash : List UInt8) :
    ∃ vchSig, signCompact lib key hash = .ok vchSig := by
  obtain ⟨rs, hsign, n, hn, hP⟩ := hlib.recovers key.secret hash
  unfold signCompact
  simp only [hsign]
  cases hfind : (List.range 4).find? fun i =>
      (lib.recover hash rs i).map (lib.i2o key.fCompressed) == some (key.pubKey lib) with
  | some nRecId => exact ⟨_, rfl⟩
  | none =>
    have hnone := List.find?_eq_none.mp hfind n (List.mem_range.mpr hn)
    rw [hP] at hnone
    exact absurd (beq_self_eq_true _) hnone

theorem messagePayload_ok (hlib : lib.Sound) {P : lib.Point}
    {sender : Option (CTrianglesAddress × uint160)} (hsize : message.length ≤ SMSG_MAX_MSG_BYTES)
    (hdata : messageData lib node.resizes message = .ok data)
    (hsender : ∀ addr id, sender = some (addr, id) → ∃ key, node.getKey id = some key)
    (h : Succeeds node chance message P) :
    ∃ vchPayload, messagePayload node sender message data = .ok vchPayload := by
  have hlength := messageData_length hlib hdata
  have hworst : SMSG_MAX_MSG_WORST = 4218 := rfl
  have hheader : SMSG_PL_HDR_LEN = 90 := rfl
  unfold SMSG_MAX_MSG_BYTES at hsize
  cases sender with
  | none =>
    refine ⟨250 :: (List.replicate 4 0 ++ (wordBytes 4 message.length ++ data)), ?_⟩
    unfold messagePayload anonymousPayload
    rw [h.allocates _ (by omega)]
    rfl
  | some s =>
    obtain ⟨coinAddrFrom, ckidFrom⟩ := s
    obtain ⟨key, hkey⟩ := hsender coinAddrFrom ckidFrom rfl
    obtain ⟨vchSig, hsign⟩ := signCompact_ok hlib key (lib.hash message)
    refine ⟨coinAddrFrom.nVersion :: (ckidFrom ++ (vchSig ++ (wordBytes 4 message.length ++ data))), ?_⟩
    unfold messagePayload signedPayload
    rw [h.allocates _ (by omega)]
    simp only [hkey, hsign]
    rfl

theorem sealMessage_built {P : lib.Point} {cpkR vchCiphertext : List UInt8} (key_m : List UInt8)
    (hR : cpkR.length = 33) (hsmall : vchCiphertext.length ≤ SMSG_MAX_MSG_WORST)
    (h : Succeeds node chance message P) :
    ∃ r, sealMessage lib node.resizes chance cpkR key_m vchCiphertext hR = .ok r := by
  obtain ⟨mac, hmac, hlen⟩ := h.authenticates key_m (signedBytes 8 chance.now ++ vchCiphertext)
  refine ⟨(⟨packHeader chance cpkR mac vchCiphertext.length, packHeader_length chance hR hlen _⟩,
    vchCiphertext), ?_⟩
  unfold sealMessage
  rw [h.allocates _ hsmall]
  simp only [hmac, hlen, Bool.not_true, Bool.false_eq_true, if_false, dif_pos]

/-- A text that is not too long, from nobody or from an address of the wallet, is made into a message
for a known key when the calls outside succeed. -/
theorem secureMsgEncrypt_built (hlib : lib.Sound) {addressFrom : List UInt8}
    (hsize : message.length ≤ SMSG_MAX_MSG_BYTES)
    (hfrom : addressFrom = anonAddress ∨ ∃ id key,
      addressFrom = (CTrianglesAddress.ofKeyID node.fTestNet id).toString lib.hash ∧
        node.getKey id = some key)
    {idDest : uint160} (hid : idDest.length = 20) {cpkDestK : List UInt8} {P : lib.Point}
    (hknown : destPubKey node idDest = .ok cpkDestK) (hpoint : lib.o2i cpkDestK = some P)
    (h : Succeeds node chance message P) :
    ∃ header payload, secureMsgEncrypt node chance addressFrom
      ((CTrianglesAddress.ofKeyID node.fTestNet idDest).toString lib.hash) message =
        .ok (header, payload) := by
  obtain ⟨sender, hsender, hkeyed⟩ := senderAddress_ok hfrom
  obtain ⟨keys, hkeys⟩ := senderKeys_ok hpoint h
  obtain ⟨data, hdata⟩ := messageData_ok hsize h
  obtain ⟨vchPayload, hpayload⟩ := messagePayload_ok hlib hsize hdata hkeyed h
  have hcipher : crypterEncrypt lib chance.fEncrypted keys.1 chance.iv vchPayload =
      some (cbcEncrypt (lib.aesEncrypt keys.1) (pkcsPad vchPayload).length chance.iv
        (pkcsPad vchPayload)) := by
    rw [h.encrypts]
    rfl
  obtain ⟨-, hclen⟩ := crypterDecrypt_encrypt (hlib.aesDecrypt_encrypt keys.1) chance.iv_length hcipher
  have hparsed : ∀ host : SmsgHost, host.fTestNet = node.fTestNet →
      host.resizes (message.length + 1) = true → vchPayload.length ≤ SMSG_PL_HDR_LEN + data.length :=
    fun host hnet hmemory => (parsePayload_sent hlib chance.now hsender hsize hdata hpayload hnet hmemory).1
  have hplen := hparsed ⟨node.fTestNet, fun _ => none, fun _ => true⟩ rfl rfl
  obtain ⟨⟨header, payload⟩, hseal⟩ := sealMessage_built keys.2 (lib.i2o_length true (lib.pub chance.keyR))
    (ciphertext_small hsize (messageData_length hlib hdata) hplen hclen) h
  refine ⟨header, payload, ?_⟩
  unfold secureMsgEncrypt
  simp only [check, hsize, decide_true, if_true, hsender, destKeyID_address lib hid, hknown, hkeys, hdata,
    hpayload, hcipher, bind, Except.bind]
  exact hseal

end Built

/-- Secure messages arrive: a text that is not too long, from nobody or from an address of the wallet to
an address whose public key is known, is made into a message when the calls outside succeed. Hashed with
success the message is valid, and its destination reads the text, the time and the sender from it. -/
theorem message_arrives {lib : SenderLib} (hlib : lib.Sound) (node : SmsgSender lib)
    (chance : EncryptChance) (addressFrom message : List UInt8)
    (hsize : message.length ≤ SMSG_MAX_MSG_BYTES)
    (hfrom : addressFrom = anonAddress ∨ ∃ id key,
      addressFrom = (CTrianglesAddress.ofKeyID node.fTestNet id).toString lib.hash ∧
        node.getKey id = some key)
    {idDest : uint160} (hid : idDest.length = 20) {cpkDestK keyDest : List UInt8}
    (hknown : destPubKey node idDest = .ok cpkDestK) (hpoint : lib.o2i cpkDestK = some (lib.pub keyDest))
    (hcalls : Succeeds node chance message (lib.pub keyDest))
    (host : SmsgHost) (hnet : host.fTestNet = node.fTestNet)
    (hmemory : host.resizes (message.length + 1) = true) (address : List UInt8)
    (hkey : decryptKey lib.toSmsgLib host address = .ok keyDest) :
    ∃ header payload, secureMsgEncrypt node chance addressFrom
        ((CTrianglesAddress.ofKeyID node.fTestNet idDest).toString lib.hash) message =
          .ok (header, payload) ∧
      ∀ (fSecMsgEnabled : Nat → Bool) (fEnabledAfter : Bool) (header' : SmsgHeader),
        secureMsgSetHash lib.toSmsgLib fSecMsgEnabled fEnabledAfter header payload = (0, header') →
        (∃ hn : payload.length = header'.nPayload,
          secureMsgValidate lib.toSmsgLib ⟨header', payload, hn⟩ = 0) ∧
          ∃ pair, secureMsgDecrypt lib.toSmsgLib host false address header'.message payload =
            .ok (some (⟨chance.now, addressFrom, message ++ [0]⟩, pair)) := by
  obtain ⟨header, payload, hbuilt⟩ := secureMsgEncrypt_built hlib hsize hfrom hid hknown hpoint hcalls
  refine ⟨header, payload, hbuilt, fun fSecMsgEnabled fEnabledAfter header' hhash => ?_⟩
  have hown : addressFrom = anonAddress ∨
      ∃ id, addressFrom = (CTrianglesAddress.ofKeyID node.fTestNet id).toString lib.hash :=
    hfrom.imp_right fun ⟨id, _, haddress, _⟩ => ⟨id, haddress⟩
  refine sealed_arrives hlib node chance addressFrom _ message hown hbuilt fSecMsgEnabled fEnabledAfter
    hhash host hnet hmemory address hkey fun ckidDest cpk hckid hcpk => ?_
  obtain rfl := Except.ok.inj ((destKeyID_address lib hid).symm.trans hckid)
  obtain rfl := Except.ok.inj (hknown.symm.trans hcpk)
  exact hpoint

namespace Sample

def senderLib : SenderLib where
  toSmsgLib := smsgLib
  pub secret := secret.getLastD 0
  hash_length _ := rfl
  aesEncrypt := smsgLib.aesDecrypt
  aesEncrypt_length := smsgLib.aesDecrypt_length
  ecdsaSign secret _ := some (secret.getLastD 0 :: List.replicate 63 0)
  ecdsaSign_length := by
    intro secret _ rs h
    obtain rfl := Option.some.inj h
    rfl
  lz4Compress v := v

theorem senderLib_sound : senderLib.Sound where
  computeKey_symm r k := by
    have hsum : r.getLastD 0 + k.getLastD 0 = k.getLastD 0 + r.getLastD 0 := UInt8.add_comm _ _
    exact congrArg (fun n => some (List.replicate 31 0 ++ [n])) hsum
  aesDecrypt_encrypt _ block h := by
    have hsame : block.take 16 ++ List.replicate (16 - block.length) 0 = block := by
      rw [h, List.take_of_length_le h.le]
      exact List.append_nil _
    exact (congrArg (smsgLib.aesDecrypt []) hsame).trans hsame
  recovers secret _ := ⟨_, rfl, 0, by decide, rfl⟩
  lz4_bound v := by
    change v.length ≤ _
    omega
  lz4_inverse v _ := by
    have hsame : v.take v.length ++ List.replicate (v.length - v.length) 0 = v := by
      rw [List.take_length, Nat.sub_self]
      exact List.append_nil v
    exact congrArg (fun w => ((v.length : Int), w)) hsame

def senderNode : SmsgSender senderLib where
  fTestNet := false
  getKey id := if id = List.replicate 19 0 ++ [6] then some ⟨[6], false⟩ else none
  getKey_id := by
    intro id key h
    split at h
    · rename_i hid
      obtain rfl := Option.some.inj h
      rw [hid]
      rfl
    · cases h
  readPK id := if id = List.replicate 19 0 ++ [5] then some (keyBytes true 5) else none
  resizes n := decide (n < 5000)

def addressOfSix : List UInt8 :=
  (CTrianglesAddress.ofKeyID false (List.replicate 19 0 ++ [6])).toString senderLib.hash

def senderChance : EncryptChance where
  now := 1700000100
  now_range := by unfold InInt64; decide
  iv := List.replicate 15 0 ++ [3]
  iv_length := rfl
  keyR := [3]
  hash := List.replicate 4 0
  hash_length := rfl
  flags := 0
  nonse := List.replicate 4 0
  nonse_length := rfl
  fEncrypted := true

def sent : SmsgHeader × List UInt8 :=
  match secureMsgEncrypt senderNode senderChance addressOfSix addressOfFive [0x68, 0x69, 0x21] with
  | .ok r => r
  | .error _ => ((smsgAt [] (fun _ => 0) 0).header, [])

theorem sent_key : decryptKey senderLib.toSmsgLib smsgHost addressOfFive = .ok [5] := by
  decide

/-- Keys, ciphers and memory never fail here. -/
theorem sent_succeeds : Succeeds senderNode senderChance [0x68, 0x69, 0x21] (senderLib.pub [5]) where
  agrees := ⟨_, rfl⟩
  compresses h := absurd h (by decide)
  encrypts := rfl
  authenticates _ _ := ⟨_, rfl, rfl⟩
  allocates n hn := by
    have hworst : SMSG_MAX_MSG_WORST = 4218 := rfl
    exact decide_eq_true (by omega)

end Sample

theorem message_arrives_hi :
    ∃ header payload, secureMsgEncrypt Sample.senderNode Sample.senderChance Sample.addressOfSix
        ((CTrianglesAddress.ofKeyID false (List.replicate 19 0 ++ [5])).toString Sample.senderLib.hash)
        [0x68, 0x69, 0x21] = .ok (header, payload) ∧
      ∀ (fSecMsgEnabled : Nat → Bool) (fEnabledAfter : Bool) (header' : SmsgHeader),
        secureMsgSetHash Sample.senderLib.toSmsgLib fSecMsgEnabled fEnabledAfter header payload =
          (0, header') →
        (∃ hn : payload.length = header'.nPayload, secureMsgValidate
          Sample.senderLib.toSmsgLib ⟨header', payload, hn⟩ = 0) ∧
          ∃ pair, secureMsgDecrypt Sample.senderLib.toSmsgLib Sample.smsgHost false
            Sample.addressOfFive header'.message payload =
            .ok (some (⟨1700000100, Sample.addressOfSix, [0x68, 0x69, 0x21, 0]⟩, pair)) :=
  message_arrives Sample.senderLib_sound Sample.senderNode Sample.senderChance Sample.addressOfSix
    [0x68, 0x69, 0x21] (by decide) (.inr ⟨List.replicate 19 0 ++ [6], ⟨[6], false⟩, rfl, by decide⟩)
    (by decide) (by decide) (Sample.senderLib.o2i_i2o true (5 : UInt8)) Sample.sent_succeeds
    Sample.smsgHost rfl (by decide) Sample.addressOfFive Sample.sent_key

/-- The first nonce meets the work. -/
example : (secureMsgSetHash Sample.smsgLib (fun _ => true) true Sample.sent.1 Sample.sent.2).1 = 0 := by
  decide +kernel

end Triangles
