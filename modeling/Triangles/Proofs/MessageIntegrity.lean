import Triangles.Proofs.Base58
import Triangles.Proofs.KeyDirectory

/-! What a relaying node can change in a message: the initialization vector is outside the MAC
and flips bits of the first sixteen bytes of the plaintext. The exact condition under which two
messages that differ only in uncovered fields say the same. -/

namespace Triangles

open Outcome

/-! Bytes. -/

theorem xorBytes_length {a b : List UInt8} (h : a.length = b.length) :
    (xorBytes a b).length = a.length := by
  simp [xorBytes, h]

theorem xorBytes_take (a b : List UInt8) (n : Nat) :
    (xorBytes a b).take n = xorBytes (a.take n) (b.take n) := by
  simp [xorBytes, List.take_zipWith]

theorem xorBytes_drop (a b : List UInt8) (n : Nat) :
    (xorBytes a b).drop n = xorBytes (a.drop n) (b.drop n) := by
  simp [xorBytes, List.drop_zipWith]

theorem xorBytes_inj : ∀ {a b c : List UInt8}, a.length = b.length → a.length = c.length →
    (xorBytes a b = xorBytes a c ↔ b = c)
  | [], [], [], _, _ => by simp
  | x :: a, y :: b, z :: c, hb, hc => by
    have ih := xorBytes_inj (a := a) (b := b) (c := c) (by simpa using hb) (by simpa using hc)
    simp only [xorBytes] at ih
    simp [xorBytes, ih]

theorem leValue_inj : ∀ {a b : List UInt8}, a.length = b.length → leValue a = leValue b → a = b
  | [], [], _, _ => rfl
  | x :: a, y :: b, hl, h => by
    simp only [leValue] at h
    have hx := x.toNat_lt
    have hy := y.toNat_lt
    have hhead : x = y := UInt8.toNat_inj.mp (by omega)
    have htail : leValue a = leValue b := by
      subst hhead
      omega
    rw [hhead, leValue_inj (by simpa using hl) htail]

theorem bytesAt_ok {v b : List UInt8} {offset n : Nat} :
    bytesAt v offset n = .ok b ↔ offset + n ≤ v.length ∧ (v.drop offset).take n = b := by
  unfold bytesAt
  split
  · rename_i h
    simp [h]
  · rename_i h
    simp [h]

/-! The plaintext: only its first block depends on the initialization vector. -/

section Cipher

variable (lib : SmsgLib) (key payload : List UInt8)

def firstBlock : List UInt8 := lib.aesDecrypt key (payload.take 16)

def laterBlocks : List UInt8 :=
  cbcDecrypt (lib.aesDecrypt key) (payload.length - 1) (payload.take 16) (payload.drop 16)

def paddedPlain (iv : List UInt8) : List UInt8 :=
  xorBytes (firstBlock lib key payload) iv ++ laterBlocks lib key payload

theorem firstBlock_length : (firstBlock lib key payload).length = 16 := lib.aesDecrypt_length _ _

variable {lib key payload}

theorem cbcDecrypt_eq {iv : List UInt8} (h : payload.length ≠ 0) :
    cbcDecrypt (lib.aesDecrypt key) payload.length iv payload = paddedPlain lib key payload iv := by
  obtain ⟨n, hn⟩ := Nat.exists_eq_succ_of_ne_zero h
  have hne : payload.isEmpty = false := by
    cases payload with
    | nil => simp at h
    | cons b l => rfl
  rw [hn, cbcDecrypt, hne, if_neg Bool.false_ne_true, paddedPlain, laterBlocks, hn]
  rfl

theorem laterBlocks_length (hdvd : payload.length % 16 = 0)
    (h : laterBlocks lib key payload ≠ []) : 16 ≤ (laterBlocks lib key payload).length := by
  unfold laterBlocks at h ⊢
  cases hr : payload.length - 1 with
  | zero => simp [hr, cbcDecrypt] at h
  | succ n =>
    rw [hr] at h
    unfold cbcDecrypt at h ⊢
    split at h
    · simp at h
    · rename_i hrest
      have hlen : (payload.take 16).length = 16 := by
        rw [List.length_take]
        omega
      rw [if_neg hrest, List.length_append,
        xorBytes_length ((lib.aesDecrypt_length _ _).trans hlen.symm), lib.aesDecrypt_length]
      omega

/-- A decrypted payload is the padded plaintext without its last bytes. -/
theorem crypterDecrypt_some {iv v : List UInt8} (h : crypterDecrypt lib key iv payload = some v) :
    payload.length % 16 = 0 ∧ ∃ n, n = ((paddedPlain lib key payload iv).getLastD 0).toNat ∧
      n ≤ 16 ∧ v = (paddedPlain lib key payload iv).take
        ((paddedPlain lib key payload iv).length - n) := by
  unfold crypterDecrypt at h
  split at h
  · cases h
  · rename_i hp
    obtain ⟨hne, hdvd⟩ := not_or.mp hp
    simp only [cbcDecrypt_eq hne] at h
    split at h
    · cases h
    · rename_i hn
      cases h
      exact ⟨not_not.mp hdvd, _, rfl, by omega, rfl⟩

theorem crypterDecrypt_bytes {iv v : List UInt8} (h : crypterDecrypt lib key iv payload = some v)
    {offset n : Nat} (hv : offset + n ≤ v.length) :
    (v.drop offset).take n = ((paddedPlain lib key payload iv).drop offset).take n := by
  obtain ⟨-, m, -, -, rfl⟩ := crypterDecrypt_some h
  rw [List.length_take] at hv
  rw [List.drop_take, List.take_take]
  congr 1
  omega

/-- Past the first block, the plaintexts under two vectors are the same. -/
theorem crypterDecrypt_later {iv iv' v v' : List UInt8} (hiv : iv.length = 16)
    (hiv' : iv'.length = 16) (h : crypterDecrypt lib key iv payload = some v)
    (h' : crypterDecrypt lib key iv' payload = some v') (hlong : 16 < v.length) :
    v.length = v'.length ∧ v.drop 16 = v'.drop 16 := by
  obtain ⟨hdvd, n, hn, hle, rfl⟩ := crypterDecrypt_some h
  obtain ⟨-, n', hn', -, rfl⟩ := crypterDecrypt_some h'
  have hxor : ∀ {iv : List UInt8}, iv.length = 16 →
      (xorBytes (firstBlock lib key payload) iv).length = 16 := by
    intro iv hl
    rw [xorBytes_length (by rw [firstBlock_length, hl]), firstBlock_length]
  have hlen : ∀ {iv : List UInt8}, iv.length = 16 → (paddedPlain lib key payload iv).length =
      16 + (laterBlocks lib key payload).length := by
    intro iv hl
    rw [paddedPlain, List.length_append, hxor hl]
  -- the padding is in a later block, which does not depend on the vector
  have hne : laterBlocks lib key payload ≠ [] := by
    intro hnil
    rw [List.length_take, hlen hiv, hnil, List.length_nil] at hlong
    omega
  have hlater := laterBlocks_length hdvd hne
  have hlast : ∀ iv : List UInt8, (paddedPlain lib key payload iv).getLastD 0 =
      (laterBlocks lib key payload).getLastD 0 := by
    intro iv
    rw [List.getLastD_eq_getLast?, List.getLastD_eq_getLast?, paddedPlain,
      List.getLast?_append_of_ne_nil _ hne]
  have hnn : n = n' := by rw [hn, hn', hlast, hlast]
  subst hnn
  rw [List.length_take, List.length_take, hlen hiv, hlen hiv']
  refine ⟨rfl, ?_⟩
  have hdrop : ∀ {iv : List UInt8}, iv.length = 16 →
      ((paddedPlain lib key payload iv).take (16 + (laterBlocks lib key payload).length - n)).drop
        16 = (laterBlocks lib key payload).take ((laterBlocks lib key payload).length - n) := by
    intro iv hl
    rw [List.drop_take, paddedPlain, List.drop_left' (hxor hl)]
    congr 1
    omega
  rw [hdrop hiv, hdrop hiv']

end Cipher

/-! An address is never the text "anon". -/

theorem address_ne_anon {hash : List UInt8 → List UInt8} {fTestNet : Bool} {id : uint160}
    (hid : id.length = 20) :
    (CTrianglesAddress.ofKeyID fTestNet id).toString hash ≠ anonAddress := by
  intro h
  have hversion : (CTrianglesAddress.ofKeyID fTestNet id).nVersion ≠ 0 := by
    cases fTestNet with
    | false => exact (by decide : CTrianglesAddress.PUBKEY_ADDRESS ≠ 0)
    | true => exact (by decide : CTrianglesAddress.PUBKEY_ADDRESS_TEST ≠ 0)
  have hrest : 3 ≤ (id ++ (hash
      ((CTrianglesAddress.ofKeyID fTestNet id).nVersion :: id)).take 4).length := by
    rw [List.length_append]
    omega
  have hlong := encodeBase58_length hversion hrest
  have hlen : ((CTrianglesAddress.ofKeyID fTestNet id).toString hash).length = 4 :=
    congrArg List.length h
  unfold CTrianglesAddress.toString encodeBase58Check at hlen
  rw [List.cons_append] at hlen
  exact absurd hlen (Nat.ne_of_gt hlong)

/-! Parsing two plaintexts of one payload. -/

section Parse

variable {lib : SmsgLib} {host : SmsgHost} {timestamp : Int} {v : List UInt8}
  {r : MessageData × Option (uint160 × List UInt8)}

theorem first_byte {b : List UInt8} (h : bytesAt v 0 1 = .ok b) :
    b = [250] ↔ v.head? = some 250 := by
  obtain ⟨hv, rfl⟩ := bytesAt_ok.mp h
  cases v with
  | nil => simp at hv
  | cons x l => simp

theorem payloadText_ok {offset : Nat} {vchMessage : List UInt8}
    (h : payloadText lib host v offset = .ok vchMessage) :
    (offset - 4) + 4 ≤ v.length ∧ ∃ text,
      plainText lib v offset (leValue ((v.drop (offset - 4)).take 4)) = .ok text ∧
        vchMessage = text ++ [0] := by
  simp only [payloadText, bind_ok, check_ok, pure_ok] at h
  obtain ⟨lenBytes, hlen, -, -, text, htext, -, -, rfl⟩ := h
  obtain ⟨hv, rfl⟩ := bytesAt_ok.mp hlen
  exact ⟨hv, text, htext, rfl⟩

theorem parsePayload_ok (h : parsePayload lib host timestamp v = .ok r) :
    (v.head? = some 250 ∧ r.1.sFromAddress = anonAddress ∧
      payloadText lib host v 9 = .ok r.1.vchMessage) ∨
    (v.head? ≠ some 250 ∧ payloadText lib host v SMSG_PL_HDR_LEN = .ok r.1.vchMessage ∧
      ∃ pair, payloadSender lib host v r.1.vchMessage = .ok pair ∧
        r.1.sFromAddress = (CTrianglesAddress.ofKeyID host.fTestNet pair.1).toString lib.hash) := by
  simp only [parsePayload, bind_ok] at h
  obtain ⟨first, hfirst, h⟩ := h
  split at h
  · rename_i hanon
    simp only [parseAnonymous, bind_ok, pure_ok] at h
    obtain ⟨vchMessage, htext, rfl⟩ := h
    exact .inl ⟨(first_byte hfirst).mp hanon, rfl, htext⟩
  · rename_i hsigned
    simp only [parseSigned, bind_ok, pure_ok] at h
    obtain ⟨vchMessage, htext, pair, hpair, rfl⟩ := h
    exact .inr ⟨fun hc => hsigned ((first_byte hfirst).mpr hc), htext, pair, hpair, rfl⟩

/-- The sender of a signed payload is the hash of the key that the text and the signature
recover. -/
theorem payloadSender_ok {vchMessage : List UInt8} {pair : uint160 × List UInt8}
    (h : payloadSender lib host v vchMessage = .ok pair) :
    recoverPubKey lib (lib.hash vchMessage.dropLast) ((v.drop 21).take 65) = .ok pair.2 ∧
      pair.1 = lib.hash160 pair.2 := by
  simp only [payloadSender, bind_ok, check_ok, pure_ok, beq_iff_eq] at h
  obtain ⟨ckidFrom, -, -, -, vchSig, hsig, cpk, hcpk, -, -, -, haddr, rfl⟩ := h
  obtain ⟨-, rfl⟩ := bytesAt_ok.mp hsig
  refine ⟨hcpk, ?_⟩
  simpa [CTrianglesAddress.ofKeyID] using haddr

theorem plainText_congr {v' : List UInt8} {offset : Nat} (hlen : v.length = v'.length)
    (hdrop : v.drop offset = v'.drop offset) (n : Nat) :
    plainText lib v offset n = plainText lib v' offset n := by
  unfold plainText bytesAt
  rw [hdrop, hlen]

theorem payloadText_congr {v' : List UInt8} {offset : Nat} (hlen : v.length = v'.length)
    (hdrop : v.drop (offset - 4) = v'.drop (offset - 4)) :
    payloadText lib host v offset = payloadText lib host v' offset := by
  have hrest : v.drop offset = v'.drop offset := by
    have hsum : offset = (offset - 4) + (offset - (offset - 4)) := by omega
    rw [hsum, ← List.drop_drop, ← List.drop_drop, hdrop]
  unfold payloadText
  simp only [bytesAt, hdrop, hlen, plainText_congr hlen hrest]

/-- Two signed plaintexts that agree from the second block on say the same: the text, the
signature and so the sender lie there. -/
theorem signed_same {v' : List UInt8} {r' : MessageData × Option (uint160 × List UInt8)}
    (h : parsePayload lib host timestamp v = .ok r)
    (h' : parsePayload lib host timestamp v' = .ok r')
    (hs : v.head? ≠ some 250) (hs' : v'.head? ≠ some 250) (hlen : v.length = v'.length)
    (hdrop : v.drop 16 = v'.drop 16) :
    r.1.vchMessage = r'.1.vchMessage ∧ r.1.sFromAddress = r'.1.sFromAddress := by
  obtain ⟨hc, -⟩ | ⟨-, htext, pair, hpair, hfrom⟩ := parsePayload_ok h
  · exact absurd hc hs
  obtain ⟨hc, -⟩ | ⟨-, htext', pair', hpair', hfrom'⟩ := parsePayload_ok h'
  · exact absurd hc hs'
  have hfrom16 : ∀ k, 16 ≤ k → v.drop k = v'.drop k := by
    intro k hk
    have hsum : k = 16 + (k - 16) := by omega
    rw [hsum, ← List.drop_drop, ← List.drop_drop, hdrop]
  have hmsg : r.1.vchMessage = r'.1.vchMessage := by
    rw [payloadText_congr hlen (hfrom16 _ (by decide)), htext'] at htext
    exact (Except.ok.inj htext).symm
  obtain ⟨hkey, hid⟩ := payloadSender_ok hpair
  obtain ⟨hkey', hid'⟩ := payloadSender_ok hpair'
  rw [hmsg, hfrom16 21 (by decide), hkey'] at hkey
  refine ⟨hmsg, ?_⟩
  rw [hfrom, hfrom', hid, hid', Except.ok.inj hkey]

end Parse

/-! The condition on two initialization vectors. -/

section Vectors

variable (lib : SmsgLib) (key payload : List UInt8)

/-- Under this vector the plaintext starts with 250. -/
def MarkedAnonymous (iv : List UInt8) : Prop :=
  (xorBytes (firstBlock lib key payload) iv).head? = some 250

def anonymousLength (iv : List UInt8) : Nat :=
  leValue (((xorBytes (firstBlock lib key payload) iv).drop 5).take 4)

def anonymousData (iv : List UInt8) : List UInt8 :=
  ((crypterDecrypt lib key iv payload).getD []).drop 9

/-- The vectors make no difference to what the message says. Both leave it signed; or both
leave it anonymous, agree on the bytes of the length, and agree as far as the text reaches into
the first block, or for a compressed text in what it decompresses to. -/
def VectorsAgree (iv iv' : List UInt8) : Prop :=
  (¬MarkedAnonymous lib key payload iv ∧ ¬MarkedAnonymous lib key payload iv') ∨
  (MarkedAnonymous lib key payload iv ∧ MarkedAnonymous lib key payload iv' ∧
    (iv.drop 5).take 4 = (iv'.drop 5).take 4 ∧
    if 128 < anonymousLength lib key payload iv then
      (lib.lz4Decompress (anonymousData lib key payload iv)
          (anonymousLength lib key payload iv)).2 =
        (lib.lz4Decompress (anonymousData lib key payload iv')
          (anonymousLength lib key payload iv)).2
    else (iv.drop 9).take (anonymousLength lib key payload iv) =
      (iv'.drop 9).take (anonymousLength lib key payload iv))

variable {lib key payload} {iv iv' v v' : List UInt8}

variable (lib key payload) in
theorem xorFirst_length (hiv : iv.length = 16) :
    (xorBytes (firstBlock lib key payload) iv).length = 16 := by
  rw [xorBytes_length (by rw [firstBlock_length, hiv]), firstBlock_length]

/-- Bytes of the plaintext inside the first block. -/
theorem crypterDecrypt_first (hiv : iv.length = 16)
    (h : crypterDecrypt lib key iv payload = some v) {offset n : Nat} (hv : offset + n ≤ v.length)
    (hn : offset + n ≤ 16) : (v.drop offset).take n =
      ((xorBytes (firstBlock lib key payload) iv).drop offset).take n := by
  have hl := xorFirst_length lib key payload hiv
  rw [crypterDecrypt_bytes h hv, paddedPlain, List.drop_append_of_le_length (by omega),
    List.take_append_of_le_length (by rw [List.length_drop]; omega)]

theorem head_marked (hiv : iv.length = 16) (h : crypterDecrypt lib key iv payload = some v)
    (hv : v ≠ []) : v.head? = some 250 ↔ MarkedAnonymous lib key payload iv := by
  have hpos : 0 + 1 ≤ v.length := List.length_pos_iff.mpr hv
  have hbytes := congrArg List.head? (crypterDecrypt_first hiv h hpos (by decide))
  simp only [List.drop_zero, List.head?_take, Nat.one_ne_zero, ↓reduceIte] at hbytes
  rw [hbytes, MarkedAnonymous]

theorem plainText_length {offset n : Nat} {text : List UInt8}
    (h : plainText lib v offset n = .ok text) : text.length = n := by
  unfold plainText at h
  split at h
  · simp only at h
    split at h
    · cases h
    · cases h
      exact lib.lz4Decompress_length _ _
  · obtain ⟨hv, rfl⟩ := bytesAt_ok.mp h
    rw [List.length_take, List.length_drop]
    omega

variable (lib key payload) in
theorem xorFirst_eq_iff (hiv : iv.length = 16) (hiv' : iv'.length = 16) (offset n : Nat) :
    ((xorBytes (firstBlock lib key payload) iv).drop offset).take n =
      ((xorBytes (firstBlock lib key payload) iv').drop offset).take n ↔
      (iv.drop offset).take n = (iv'.drop offset).take n := by
  rw [xorBytes_drop, xorBytes_drop, xorBytes_take, xorBytes_take]
  refine xorBytes_inj ?_ ?_
  · simp only [List.length_take, List.length_drop, firstBlock_length, hiv]
  · simp only [List.length_take, List.length_drop, firstBlock_length, hiv']

/-- Two plain texts from byte 9 on: they can only differ inside the first block. -/
theorem plain_eq_iff (hiv : iv.length = 16) (hiv' : iv'.length = 16)
    (h : crypterDecrypt lib key iv payload = some v)
    (h' : crypterDecrypt lib key iv' payload = some v') {n : Nat} (hv : 9 + n ≤ v.length)
    (hv' : 9 + n ≤ v'.length) :
    (v.drop 9).take n = (v'.drop 9).take n ↔ (iv.drop 9).take n = (iv'.drop 9).take n := by
  have hl := xorFirst_length lib key payload hiv
  have hl' := xorFirst_length lib key payload hiv'
  rw [crypterDecrypt_bytes h hv, crypterDecrypt_bytes h' hv', ← xorFirst_eq_iff lib key
    payload hiv hiv', paddedPlain, paddedPlain,
    List.drop_append_of_le_length (by omega), List.drop_append_of_le_length (by omega),
    List.take_append, List.take_append, List.length_drop, List.length_drop, hl, hl']
  constructor
  · intro heq
    refine List.append_inj_left heq ?_
    simp only [List.length_take, List.length_drop, hl, hl']
  · intro heq
    rw [heq]

variable (lib key payload) in
/-- The length of an anonymous text is what bytes 5 to 8 of the vector make it. -/
theorem anonymousLength_iff (hiv : iv.length = 16) (hiv' : iv'.length = 16) :
    (iv.drop 5).take 4 = (iv'.drop 5).take 4 ↔
      anonymousLength lib key payload iv = anonymousLength lib key payload iv' := by
  rw [← xorFirst_eq_iff lib key payload hiv hiv' 5 4]
  constructor
  · intro heq
    rw [anonymousLength, heq]
    rfl
  · refine leValue_inj ?_
    simp only [List.length_take, List.length_drop, xorFirst_length lib key payload hiv,
      xorFirst_length lib key payload hiv']

/-- An anonymous text, read from the plaintext. -/
theorem anonymousText {host : SmsgHost} {m : List UInt8} (hiv : iv.length = 16)
    (h : crypterDecrypt lib key iv payload = some v) (hm : payloadText lib host v 9 = .ok m) :
    ∃ text, plainText lib v 9 (anonymousLength lib key payload iv) = .ok text ∧
      m = text ++ [0] := by
  obtain ⟨hv, text, htext, rfl⟩ := payloadText_ok hm
  have hlen : leValue ((v.drop (9 - 4)).take 4) = anonymousLength lib key payload iv := by
    rw [crypterDecrypt_first hiv h hv (by decide)]
    rfl
  rw [hlen] at htext
  exact ⟨text, htext, rfl⟩

/-- Two anonymous texts of one length: LZ4 makes them of different data, or they are read as they
are. -/
theorem anonymousTexts_iff {text text' : List UInt8} {n : Nat} (hiv : iv.length = 16)
    (hiv' : iv'.length = 16) (h : crypterDecrypt lib key iv payload = some v)
    (h' : crypterDecrypt lib key iv' payload = some v') (htext : plainText lib v 9 n = .ok text)
    (htext' : plainText lib v' 9 n = .ok text') :
    text = text' ↔ if 128 < n then
        (lib.lz4Decompress (anonymousData lib key payload iv) n).2 =
          (lib.lz4Decompress (anonymousData lib key payload iv') n).2
      else (iv.drop 9).take n = (iv'.drop 9).take n := by
  have hdata : anonymousData lib key payload iv = v.drop 9 := by rw [anonymousData, h]; rfl
  have hdata' : anonymousData lib key payload iv' = v'.drop 9 := by rw [anonymousData, h']; rfl
  unfold plainText at htext htext'
  by_cases hc : 128 < n
  · rw [if_pos hc] at htext htext' ⊢
    simp only at htext htext'
    split at htext
    · cases htext
    split at htext'
    · cases htext'
    rw [hdata, hdata', Except.ok.inj htext, Except.ok.inj htext']
  · rw [if_neg hc] at htext htext' ⊢
    obtain ⟨hb, rfl⟩ := bytesAt_ok.mp htext
    obtain ⟨hb', rfl⟩ := bytesAt_ok.mp htext'
    exact plain_eq_iff hiv hiv' h h' hb hb'

/-- The texts of two anonymous plaintexts of one payload. -/
theorem anonymous_same_iff {host : SmsgHost} {m m' : List UInt8} (hiv : iv.length = 16)
    (hiv' : iv'.length = 16) (h : crypterDecrypt lib key iv payload = some v)
    (h' : crypterDecrypt lib key iv' payload = some v')
    (hm : payloadText lib host v 9 = .ok m) (hm' : payloadText lib host v' 9 = .ok m') :
    m = m' ↔ (iv.drop 5).take 4 = (iv'.drop 5).take 4 ∧
      if 128 < anonymousLength lib key payload iv then
        (lib.lz4Decompress (anonymousData lib key payload iv)
            (anonymousLength lib key payload iv)).2 =
          (lib.lz4Decompress (anonymousData lib key payload iv')
            (anonymousLength lib key payload iv)).2
      else (iv.drop 9).take (anonymousLength lib key payload iv) =
        (iv'.drop 9).take (anonymousLength lib key payload iv) := by
  obtain ⟨text, htext, rfl⟩ := anonymousText hiv h hm
  obtain ⟨text', htext', rfl⟩ := anonymousText hiv' h' hm'
  have hsize := anonymousLength_iff lib key payload hiv hiv'
  rw [List.append_left_inj]
  -- equal texts have equal lengths
  constructor
  · intro heq
    have hsame : anonymousLength lib key payload iv = anonymousLength lib key payload iv' := by
      rw [← plainText_length htext, ← plainText_length htext', heq]
    rw [← hsame] at htext'
    exact ⟨hsize.mpr hsame, (anonymousTexts_iff hiv hiv' h h' htext htext').mp heq⟩
  · rintro ⟨hbytes, hrest⟩
    rw [← hsize.mp hbytes] at htext'
    exact (anonymousTexts_iff hiv hiv' h h' htext htext').mpr hrest

end Vectors

def messageKey (lib : SmsgLib) (host : SmsgHost) (address cpkR : List UInt8) : List UInt8 :=
  match decryptKey lib host address with
  | .error _ => []
  | .ok keyDest =>
    match sharedKeys lib keyDest cpkR with
    | .error _ => []
    | .ok keys => keys.1

theorem decrypt_opens {lib : SmsgLib} {host : SmsgHost} {address payload : List UInt8}
    {smsg : SecureMessage} {r : MessageData × Option (uint160 × List UInt8)}
    (h : secureMsgDecrypt lib host false address smsg payload = .ok (some r)) :
    ∃ v, crypterDecrypt lib (messageKey lib host address smsg.cpkR) smsg.iv payload = some v ∧
      parsePayload lib host smsg.timestamp v = .ok r := by
  simp only [secureMsgDecrypt, bind_ok, check_ok, Bool.false_eq_true, ↓reduceIte, pure_ok,
    Option.some.injEq] at h
  obtain ⟨-, -, keyDest, hdest, keys, hkeys, MAC, -, -, -, r', hopen, rfl⟩ := h
  have hkey : messageKey lib host address smsg.cpkR = keys.1 := by
    simp [messageKey, hdest, hkeys]
  unfold openPayload at hopen
  split at hopen
  · cases hopen
  · rename_i v hv
    exact ⟨v, by rw [hkey, hv], hopen⟩

theorem signed_names_address {lib : SmsgLib} {host : SmsgHost} {timestamp : Int} {v : List UInt8}
    {r : MessageData × Option (uint160 × List UInt8)}
    (h : parsePayload lib host timestamp v = .ok r) (hs : v.head? ≠ some 250) :
    r.1.sFromAddress ≠ anonAddress := by
  obtain ⟨hc, -⟩ | ⟨-, -, pair, hpair, hfrom⟩ := parsePayload_ok h
  · exact absurd hc hs
  · rw [hfrom]
    refine address_ne_anon ?_
    rw [(payloadSender_ok hpair).2, lib.hash160_length]

theorem anonymous_names_none {lib : SmsgLib} {host : SmsgHost} {timestamp : Int} {v : List UInt8}
    {r : MessageData × Option (uint160 × List UInt8)}
    (h : parsePayload lib host timestamp v = .ok r) (ha : v.head? = some 250) :
    r.1.sFromAddress = anonAddress ∧ payloadText lib host v 9 = .ok r.1.vchMessage := by
  obtain ⟨-, hfrom, htext⟩ | ⟨hc, -⟩ := parsePayload_ok h
  · exact ⟨hfrom, htext⟩
  · exact absurd ha hc

/-- Two messages with one key R, timestamp and payload that both decrypt, and so have one MAC,
say the same exactly when their initialization vectors agree where it matters. -/
theorem decrypt_same_iff {lib : SmsgLib} {host : SmsgHost} {address payload : List UInt8}
    {smsg smsg' : SecureMessage} {r r' : MessageData × Option (uint160 × List UInt8)}
    (hR : smsg.cpkR = smsg'.cpkR) (htime : smsg.timestamp = smsg'.timestamp)
    (h : secureMsgDecrypt lib host false address smsg payload = .ok (some r))
    (h' : secureMsgDecrypt lib host false address smsg' payload = .ok (some r')) :
    (r.1.vchMessage = r'.1.vchMessage ∧ r.1.sFromAddress = r'.1.sFromAddress) ↔
      VectorsAgree lib (messageKey lib host address smsg.cpkR) payload smsg.iv smsg'.iv := by
  obtain ⟨v, hv, hparse⟩ := decrypt_opens h
  obtain ⟨v', hv', hparse'⟩ := decrypt_opens h'
  rw [← hR] at hv'
  rw [← htime] at hparse'
  have hne : ∀ {v : List UInt8} {r : MessageData × Option (uint160 × List UInt8)},
      parsePayload lib host smsg.timestamp v = .ok r → v ≠ [] := by
    rintro _ r hp rfl
    simp [parsePayload, bytesAt, bind_ok] at hp
  have hmark := head_marked smsg.iv_length hv (hne hparse)
  have hmark' := head_marked smsg'.iv_length hv' (hne hparse')
  unfold VectorsAgree
  rw [← hmark, ← hmark']
  by_cases ha : v.head? = some 250 <;> by_cases ha' : v'.head? = some 250
  · -- both anonymous: the texts decide
    obtain ⟨hfrom, htext⟩ := anonymous_names_none hparse ha
    obtain ⟨hfrom', htext'⟩ := anonymous_names_none hparse' ha'
    have hsame := anonymous_same_iff smsg.iv_length smsg'.iv_length hv hv' htext htext'
    simp only [ha, ha', not_true_eq_false, false_and, false_or, true_and, hfrom, hfrom', and_true]
    exact hsame
  · -- "anon" in one and an address in the other
    have hfrom := (anonymous_names_none hparse ha).1
    have hfrom' := signed_names_address hparse' ha'
    simp only [ha, ha', not_true_eq_false, false_and, and_false, false_or, iff_false, hfrom,
      not_and]
    exact fun _ heq => hfrom' heq.symm
  · have hfrom := signed_names_address hparse ha
    have hfrom' := (anonymous_names_none hparse' ha').1
    simp only [ha, ha', not_true_eq_false, false_and, and_false, or_false, iff_false, hfrom',
      not_and]
    exact fun _ heq => hfrom heq
  · -- both signed
    have hlong : 16 < v.length := by
      obtain ⟨hc, -⟩ | ⟨-, htext, -⟩ := parsePayload_ok hparse
      · exact absurd hc ha
      · have hl := (payloadText_ok htext).1
        unfold SMSG_PL_HDR_LEN at hl
        omega
    obtain ⟨hlen, hdrop⟩ := crypterDecrypt_later smsg.iv_length smsg'.iv_length hv hv' hlong
    simp only [ha, ha', not_false_eq_true, and_self, true_or, iff_true]
    exact signed_same hparse hparse' ha ha' hlen hdrop

namespace Sample

def smsgHost : SmsgHost where
  fTestNet := false
  getKey id := if id = List.replicate 19 0 ++ [5] then some [5] else none
  resizes n := decide (n < 5000)

def hiPayload : List UInt8 := [250, 0, 0, 0, 0, 3, 0, 0, 0, 0x68, 0x69, 0x21, 4, 4, 4, 4]

def hiMac : List UInt8 := List.replicate 30 0 ++ [8, 4]

theorem hiMac_length : hiMac.length = 32 := rfl

theorem keyR_length : (keyBytes true 3).length = 33 := rfl

theorem vector_length (x y : UInt8) :
    ([0, x, 0, 0, 0, 0, 0, 0, 0, y, 0, 0, 0, 0, 0, 0] : List UInt8).length = 16 := rfl

def hiMessage (x y : UInt8) : SecureMessage where
  timestamp := 0
  iv := [0, x, 0, 0, 0, 0, 0, 0, 0, y, 0, 0, 0, 0, 0, 0]
  cpkR := keyBytes true 3
  mac := hiMac
  iv_length := vector_length x y
  cpkR_length := keyR_length
  mac_length := hiMac_length

def hiRead (c : UInt8) : MessageData × Option (uint160 × List UInt8) :=
  (⟨0, anonAddress, [c, 0x69, 0x21, 0]⟩, none)

theorem hiMessage_read : secureMsgDecrypt smsgLib smsgHost false addressOfFive (hiMessage 0 0)
    hiPayload = .ok (some (hiRead 0x68)) := by decide

theorem hiMessage_unread_byte : secureMsgDecrypt smsgLib smsgHost false addressOfFive
    (hiMessage 1 0) hiPayload = .ok (some (hiRead 0x68)) := by decide

theorem hiMessage_flipped : secureMsgDecrypt smsgLib smsgHost false addressOfFive (hiMessage 0 1)
    hiPayload = .ok (some (hiRead 0x69)) := by decide

end Sample

/-- A byte that nobody reads may change. -/
theorem decrypt_same_unread_byte : (Sample.hiMessage 0 0).iv ≠ (Sample.hiMessage 1 0).iv ∧
    VectorsAgree Sample.smsgLib (messageKey Sample.smsgLib Sample.smsgHost Sample.addressOfFive
      (Sample.hiMessage 0 0).cpkR) Sample.hiPayload (Sample.hiMessage 0 0).iv
      (Sample.hiMessage 1 0).iv :=
  ⟨by decide, (decrypt_same_iff rfl rfl Sample.hiMessage_read
    Sample.hiMessage_unread_byte).mp ⟨rfl, rfl⟩⟩

/-- With one bit of the vector flipped, "hi!" arrives as "ii!" and the MAC matches. -/
theorem flipped_vector_changes_text :
    ∃ r r' : MessageData × Option (uint160 × List UInt8),
      secureMsgDecrypt Sample.smsgLib Sample.smsgHost false Sample.addressOfFive
        (Sample.hiMessage 0 0) Sample.hiPayload = .ok (some r) ∧
      secureMsgDecrypt Sample.smsgLib Sample.smsgHost false Sample.addressOfFive
        (Sample.hiMessage 0 1) Sample.hiPayload = .ok (some r') ∧
      (Sample.hiMessage 0 0).cpkR = (Sample.hiMessage 0 1).cpkR ∧
      (Sample.hiMessage 0 0).timestamp = (Sample.hiMessage 0 1).timestamp ∧
      (Sample.hiMessage 0 0).mac = (Sample.hiMessage 0 1).mac ∧
      r.1.vchMessage ≠ r'.1.vchMessage :=
  ⟨_, _, Sample.hiMessage_read, Sample.hiMessage_flipped, rfl, rfl, rfl, by decide⟩

end Triangles
