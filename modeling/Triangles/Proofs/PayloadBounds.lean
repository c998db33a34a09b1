import Triangles.Proofs.BunchBounds
import Triangles.Proofs.Inbox

/-! Where the parser of a decrypted payload reads, and how it ends. -/

namespace Triangles

open Outcome

section Ends

/-- A call that returns: 0 with what it is about, or a code that is not 0. -/
def Returns (x : Except SmsgFailure α) : Prop :=
  (∃ a, x = .ok a) ∨ ∃ n, n ≠ 0 ∧ x = .error (.code n)

theorem returns_ok (a : α) : Returns (.ok a) := .inl ⟨a, rfl⟩

theorem returns_code {n : Nat} (h : n ≠ 0) : Returns (.error (.code n) : Except SmsgFailure α) :=
  .inr ⟨n, h, rfl⟩

theorem returns_bind {x : Except SmsgFailure α} {f : α → Except SmsgFailure β} (hx : Returns x)
    (hf : ∀ a, x = .ok a → Returns (f a)) : Returns (x >>= f) := by
  rcases hx with ⟨a, rfl⟩ | ⟨n, hn, rfl⟩
  · exact hf a rfl
  · exact returns_code hn

theorem returns_bind_iff {x : Except SmsgFailure α} {f : α → Except SmsgFailure β} {a : α}
    (h : x = .ok a) : Returns (x >>= f) ↔ Returns (f a) := by
  subst h
  rfl

/-- A call that returns has every part of it return that it gets to. -/
theorem returns_of_bind {x : Except SmsgFailure α} {f : α → Except SmsgFailure β}
    (h : Returns (x >>= f)) : Returns x := by
  cases x with
  | ok a => exact returns_ok a
  | error e =>
    rcases h with ⟨b, h⟩ | ⟨n, hn, h⟩
    · cases h
    · cases h
      exact returns_code hn

theorem returns_check {c : Bool} {n : Nat} (h : n ≠ 0) :
    Returns (check c (.code n : SmsgFailure)) := by
  cases c with
  | true => exact returns_ok ()
  | false => exact returns_code h

theorem returns_check_true {c : Bool} {e : SmsgFailure} (h : c = true) : Returns (check c e) := by
  subst h
  exact returns_ok ()

theorem not_returns_thrown : ¬Returns (.error .thrown : Except SmsgFailure α) := by
  rintro (⟨a, h⟩ | ⟨n, -, h⟩)
  · cases h
  · cases h

theorem returns_bytesAt {v : List UInt8} {offset n : Nat} (h : offset + n ≤ v.length) :
    Returns (bytesAt v offset n) := by
  rw [bytesAt, if_pos h]
  exact returns_ok _

end Ends

section Payload

variable {lib : SmsgLib} {host : SmsgHost} {v : List UInt8}

def statedLength (v : List UInt8) : Nat := leValue (slice v (textOffset v - 4) 4)

/-- A payload that has a byte of text or more, and whose stated length is as it should be: it has a
terminating zero, and a text that is not compressed is all there. -/
structure WellSized (host : SmsgHost) (v : List UInt8) : Prop where
  header : textOffset v < v.length
  length : statedLength v + 1 < 2 ^ 32
  text : host.resizes (statedLength v + 1) = true → statedLength v ≤ 128 →
    textOffset v + statedLength v ≤ v.length

/-- A signed payload with a sender, whose signature is of no key, so that `GetPubKey` throws. -/
def SignedByNone (lib : SmsgLib) (host : SmsgHost) (v : List UInt8) : Prop :=
  v.head? ≠ some 250 ∧ ∃ text, payloadText lib host v SMSG_PL_HDR_LEN = .ok text ∧
    (CTrianglesAddress.ofKeyID host.fTestNet (slice v 1 20)).isValid host.fTestNet = true ∧
    recoverPubKey lib (lib.hash text.dropLast) (slice v 21 65) = .error .thrown

theorem textOffset_ge (v : List UInt8) : 9 ≤ textOffset v := by
  unfold textOffset SMSG_PL_HDR_LEN
  split <;> omega

theorem WellSized.stated (h : WellSized host v) (beyond : Nat → UInt8) :
    leValue (readMemory v beyond (textOffset v - 4) 4) = statedLength v := by
  have hoffset := textOffset_ge v
  have hheader := h.header
  rw [readMemory_eq_slice (by omega), statedLength]

variable (lib) in
theorem payloadText_returns (h : WellSized host v) :
    Returns (payloadText lib host v (textOffset v)) := by
  have hoffset := textOffset_ge v
  have hheader := h.header
  unfold payloadText
  refine returns_bind (returns_bytesAt (by omega)) fun lenBytes hbytes => ?_
  obtain ⟨-, rfl⟩ := bytesAt_ok.mp hbytes
  have hstated : leValue ((v.drop (textOffset v - 4)).take 4) = statedLength v := rfl
  simp only [hstated, Nat.mod_eq_of_lt h.length]
  refine returns_bind (returns_check (by decide)) fun _ hresizes => ?_
  refine returns_bind ?_ fun text _ => ?_
  · unfold plainText
    split
    · simp only
      split
      · exact returns_code (by decide)
      · exact returns_ok _
    · rename_i hshort
      exact returns_bytesAt (h.text (check_ok.mp hresizes) (Nat.not_lt.mp hshort))
  · exact returns_bind (returns_check_true (decide_eq_true h.length)) fun _ _ => returns_ok _

theorem recoverPubKey_cases (lib : SmsgLib) (hash vchSig : List UInt8) :
    (∃ pubKey, recoverPubKey lib hash vchSig = .ok pubKey) ∨
      recoverPubKey lib hash vchSig = .error .thrown := by
  unfold recoverPubKey
  simp only
  split
  · exact .inr rfl
  · split
    · exact .inr rfl
    · exact .inl ⟨_, rfl⟩

variable (lib host) in
/-- The sender of a payload that is long enough: an exception when there is no key for the
signature. -/
theorem payloadSender_returns_iff (hlong : SMSG_PL_HDR_LEN < v.length) (text : List UInt8) :
    Returns (payloadSender lib host v text) ↔
      ¬((CTrianglesAddress.ofKeyID host.fTestNet (slice v 1 20)).isValid host.fTestNet = true ∧
        recoverPubKey lib (lib.hash text.dropLast) (slice v 21 65) = .error .thrown) := by
  have hsize : SMSG_PL_HDR_LEN = 90 := rfl
  have hfrom : bytesAt v 1 20 = .ok (slice v 1 20) := bytesAt_ok.mpr ⟨by omega, rfl⟩
  have hsig : bytesAt v (1 + 20) 65 = .ok (slice v 21 65) := bytesAt_ok.mpr ⟨by omega, rfl⟩
  unfold payloadSender
  rw [returns_bind_iff hfrom]
  simp only
  cases hvalid : (CTrianglesAddress.ofKeyID host.fTestNet (slice v 1 20)).isValid host.fTestNet with
  | false => exact ⟨fun _ h => Bool.false_ne_true h.1, fun _ => returns_code (n := 1) (by decide)⟩
  | true =>
    rw [returns_bind_iff (check_ok (u := ()).mpr rfl), returns_bind_iff hsig]
    rcases recoverPubKey_cases lib (lib.hash text.dropLast) (slice v 21 65) with
      ⟨pubKey, hkey⟩ | hthrown
    · rw [returns_bind_iff hkey, hkey]
      refine ⟨fun _ h => (by cases h.2), fun _ => ?_⟩
      refine returns_bind (returns_check (by decide)) fun _ _ => ?_
      exact returns_bind (returns_check (by decide)) fun _ _ => returns_ok _
    · rw [hthrown]
      exact ⟨fun h => absurd h not_returns_thrown, fun h => absurd ⟨rfl, rfl⟩ h⟩

/-- The parser of a payload that is well sized returns, unless a signature is of no key. -/
theorem parsePayload_returns_iff (h : WellSized host v) (timestamp : Int) :
    Returns (parsePayload lib host timestamp v) ↔ ¬SignedByNone lib host v := by
  have htext := payloadText_returns lib h
  have hheader := h.header
  have hoffset := textOffset_ge v
  unfold parsePayload
  rw [returns_bind_iff (bytesAt_ok.mpr ⟨by omega, rfl⟩)]
  cases v with
  | nil => cases hheader
  | cons x v =>
    by_cases hx : x = 250
    · subst hx
      refine ⟨fun _ hnone => hnone.1 rfl, fun _ => ?_⟩
      rw [if_pos (by rfl)]
      exact returns_bind htext fun text _ => returns_ok _
    · have hsigned : textOffset (x :: v) = SMSG_PL_HDR_LEN := if_neg (by simpa using hx)
      rw [hsigned] at htext hheader
      rw [if_neg (by simpa using hx)]
      unfold parseSigned SignedByNone
      rcases htext with ⟨text, htext⟩ | ⟨n, hn, htext⟩
      · rw [returns_bind_iff htext]
        simp only [htext, Except.ok.injEq, exists_eq_left']
        have hsender := payloadSender_returns_iff lib host hheader text
        constructor
        · intro hreturns hnone
          exact hsender.mp (returns_of_bind hreturns) hnone.2
        · intro hnone
          exact returns_bind (hsender.mpr fun hthrown => hnone ⟨by simpa using hx, hthrown⟩)
            fun _ _ => returns_ok _
      · rw [htext]
        refine ⟨fun _ hnone => ?_, fun _ => returns_code hn⟩
        obtain ⟨-, text, htext', -⟩ := hnone
        cases htext'

end Payload

section Walk

variable {lib : SmsgLib} {host : SmsgHost} {v : List UInt8} {beyond : Nat → UInt8}

/-- The walk over a payload stays below its size, its numbers do not wrap around, and no more of the
text is read than there is. -/
structure WalkInside (r : PayloadWalk) : Prop where
  accesses : ∀ a ∈ r.accesses, a.Valid
  lenData : 0 ≤ r.lenData ∧ r.lenData < 2 ^ 32
  nMessage : r.nMessage < 2 ^ 32
  nRead : (r.nRead : Int) ≤ r.lenData

theorem senderAccesses_valid (hheader : textOffset v < v.length) :
    ∀ a ∈ senderAccesses lib host v, a.Valid := by
  unfold senderAccesses
  split
  · nofun
  · rename_i hsigned
    rw [textOffset, if_neg hsigned, SMSG_PL_HDR_LEN] at hheader
    split
    · nofun
    · intro a ha
      unfold Access.Valid
      rcases List.mem_cons.mp ha with rfl | ha
      · exact ⟨by simp only; omega, by simp only; omega⟩
      · split at ha
        · rw [List.mem_singleton] at ha
          subst ha
          exact ⟨by simp only; omega, by simp only; omega⟩
        · cases ha

variable (lib) in
/-- The walk stays inside exactly when the payload is well sized. -/
theorem payloadWalk_inside_iff (hsize : v.length < 2 ^ 32) :
    WalkInside (payloadWalk lib host v beyond) ↔ WellSized host v := by
  have hoffset := textOffset_ge v
  constructor
  · rintro ⟨haccesses, hdata, hmessage, hread⟩
    have hheader : textOffset v < v.length :=
      (haccesses _ (List.mem_cons_of_mem _ (List.mem_cons_of_mem _ List.mem_cons_self))).1
    have hstated : leValue (readMemory v beyond (textOffset v - 4) 4) = statedLength v := by
      rw [readMemory_eq_slice (by omega), statedLength]
    simp only [payloadWalk, hstated] at hmessage hread
    refine ⟨hheader, hmessage, fun hresizes hshort => ?_⟩
    rw [Nat.mod_eq_of_lt hmessage, hresizes, if_neg (by decide), if_neg (by omega)] at hread
    omega
  · intro h
    have hstated := h.stated beyond
    have hheader := h.header
    have hread : ((payloadWalk lib host v beyond).nRead : Int) ≤ v.length - textOffset v := by
      simp only [payloadWalk, hstated, Nat.mod_eq_of_lt h.length]
      split
      · omega
      · rename_i hresizes
        split
        · rw [Int.emod_eq_of_lt (by omega) (by omega)]
          omega
        · rename_i hshort
          have htext := h.text (by simpa using hresizes) (Nat.not_lt.mp hshort)
          omega
    refine ⟨?_, ?_, ?_, hread⟩
    · intro a ha
      rcases List.mem_cons.mp ha with rfl | ha
      · exact ⟨by simp only; omega, by simp only; omega⟩
      · rcases List.mem_cons.mp ha with rfl | ha
        · exact ⟨by simp only; omega, by simp only; omega⟩
        · rcases List.mem_cons.mp ha with rfl | ha
          · refine ⟨hheader, ?_⟩
            have hnat : (payloadWalk lib host v beyond).nRead + textOffset v ≤ v.length := by omega
            rw [Nat.add_comm]
            exact hnat
          · exact senderAccesses_valid hheader a ha
    · simp only [payloadWalk]
      omega
    · simp only [payloadWalk, hstated]
      exact h.length

end Walk

section Decrypt

variable (lib : SmsgLib) (host : SmsgHost) (address : List UInt8) (m : Smsg)
  (beyond : Nat → UInt8)

def decryptedPayload : Option (List UInt8) :=
  crypterDecrypt lib (messageKey lib host address m.header.message.cpkR) m.header.message.iv m.payload

/-- A message is decrypted within the bounds of its payload, and the call returns. -/
structure DecryptsInside : Prop where
  crypter : ∀ a ∈ crypterAccesses m.payload, a.Valid
  walk : ∀ v, decryptedPayload lib host address m = some v →
    WalkInside (payloadWalk lib host v beyond)
  returns : Returns (secureMsgDecrypt lib host false address m.header.message m.payload)

variable {lib host address m beyond}

theorem payload_lt (m : Smsg) : m.payload.length < 2 ^ 32 := by
  have hlt := leValue_lt (slice m.header.bytes 100 4)
  have hlen : (slice m.header.bytes 100 4).length = 4 := by
    rw [slice, List.length_take, List.length_drop, m.header.length]
    decide
  rw [hlen] at hlt
  rw [m.nPayload_eq, SmsgHeader.nPayload]
  exact hlt

/-- Decrypting whole blocks yields no more bytes than there are. -/
theorem cbcDecrypt_length_le {decryptBlock : List UInt8 → List UInt8}
    (hblock : ∀ block, (decryptBlock block).length = 16) (rounds : Nat)
    (prev ciphertext : List UInt8) (hdvd : ciphertext.length % 16 = 0) :
    (cbcDecrypt decryptBlock rounds prev ciphertext).length ≤ ciphertext.length := by
  induction rounds generalizing prev ciphertext with
  | zero => exact Nat.zero_le _
  | succ rounds ih =>
    unfold cbcDecrypt
    split
    · exact Nat.zero_le _
    · rename_i hne
      have hpos : 0 < ciphertext.length := List.length_pos_iff.mpr (by simpa using hne)
      have hrest : (ciphertext.drop 16).length = ciphertext.length - 16 := List.length_drop
      have hlater := ih (ciphertext.take 16) (ciphertext.drop 16) (by omega)
      rw [List.length_append, xorBytes, List.length_zipWith, hblock]
      omega

theorem crypterDecrypt_length_le {key iv payload v : List UInt8}
    (h : crypterDecrypt lib key iv payload = some v) : v.length ≤ payload.length := by
  unfold crypterDecrypt at h
  split at h
  · cases h
  · rename_i hwhole
    have hdvd : payload.length % 16 = 0 := not_not.mp (not_or.mp hwhole).2
    have hplain := cbcDecrypt_length_le (lib.aesDecrypt_length key) payload.length iv payload hdvd
    simp only at h
    split at h
    · cases h
    · cases h
      rw [List.length_take]
      omega

/-- With a right MAC, decrypting is opening the payload. -/
theorem decrypt_returns_iff
    (hmac : secureMsgDecrypt lib host true address m.header.message m.payload = .ok none) :
    Returns (secureMsgDecrypt lib host false address m.header.message m.payload) ↔
      ∀ v, decryptedPayload lib host address m = some v →
        Returns (parsePayload lib host m.header.message.timestamp v) := by
  simp only [secureMsgDecrypt, bind_ok, check_ok, ↓reduceIte, pure_ok] at hmac
  obtain ⟨_, hversion, keyDest, hdest, keys, hkeys, MAC, hMAC, _, hmatch, -⟩ := hmac
  have hkey : messageKey lib host address m.header.message.cpkR = keys.1 := by
    simp [messageKey, hdest, hkeys]
  unfold secureMsgDecrypt decryptedPayload
  rw [returns_bind_iff (check_ok (u := ()).mpr hversion), returns_bind_iff hdest,
    returns_bind_iff hkeys, returns_bind_iff hMAC, returns_bind_iff (check_ok (u := ()).mpr hmatch),
    if_neg Bool.false_ne_true, hkey]
  unfold openPayload
  cases crypterDecrypt lib keys.1 m.header.message.iv m.payload with
  | none => exact ⟨fun _ _ hv => (by cases hv), fun _ => returns_code (n := 1) (by decide)⟩
  | some v =>
    simp only [Option.some.injEq, forall_eq']
    exact ⟨returns_of_bind, fun h => returns_bind h fun _ _ => returns_ok _⟩

end Decrypt

/-- A message with a right MAC is decrypted within bounds, and the call returns, exactly when it has a
payload whose plaintext, if the cipher yields one, is well sized and not signed with a signature of
no key. -/
theorem decrypt_inside_iff (lib : SmsgLib) (host : SmsgHost) (address : List UInt8) (m : Smsg)
    (beyond : Nat → UInt8)
    (hmac : secureMsgDecrypt lib host true address m.header.message m.payload = .ok none) :
    DecryptsInside lib host address m beyond ↔
      m.payload ≠ [] ∧ ∀ v, decryptedPayload lib host address m = some v →
        WellSized host v ∧ ¬SignedByNone lib host v := by
  have hsize : ∀ v, decryptedPayload lib host address m = some v → v.length < 2 ^ 32 :=
    fun v hv => lt_of_le_of_lt (crypterDecrypt_length_le hv) (payload_lt m)
  constructor
  · rintro ⟨hcrypter, hwalk, hreturns⟩
    refine ⟨fun hempty => ?_, fun v hv => ?_⟩
    · have hvalid := (hcrypter _ List.mem_cons_self).1
      rw [hempty] at hvalid
      cases hvalid
    · have hsized := (payloadWalk_inside_iff lib (hsize v hv)).mp (hwalk v hv)
      exact ⟨hsized, (parsePayload_returns_iff hsized _).mp
        ((decrypt_returns_iff hmac).mp hreturns v hv)⟩
  · rintro ⟨hnonempty, hpayload⟩
    refine ⟨fun a ha => ?_, fun v hv => (payloadWalk_inside_iff lib (hsize v hv)).mpr
      (hpayload v hv).1, (decrypt_returns_iff hmac).mpr fun v hv =>
        (parsePayload_returns_iff (hpayload v hv).1 _).mpr (hpayload v hv).2⟩
    rw [crypterAccesses, List.mem_singleton] at ha
    subst ha
    exact ⟨List.length_pos_iff.mpr hnonempty, Nat.zero_le _⟩

namespace Sample

theorem hiSmsg_mac : secureMsgDecrypt smsgLib smsgHost true addressOfFive hiSmsg.header.message
    hiSmsg.payload = .ok none := by
  decide

theorem hiSmsg_plain : decryptedPayload smsgLib smsgHost addressOfFive hiSmsg =
    some [250, 0, 0, 0, 0, 3, 0, 0, 0, 0x68, 0x69, 0x21] := by
  decide

def longSmsg : Smsg :=
  ⟨hiHeader, [250, 0, 0, 0, 0, 100, 0, 0, 0, 0x68, 0x69, 0x21, 4, 4, 4, 4], by decide⟩

theorem longSmsg_mac : secureMsgDecrypt smsgLib smsgHost true addressOfFive longSmsg.header.message
    longSmsg.payload = .ok none := by
  decide

theorem longSmsg_plain : decryptedPayload smsgLib smsgHost addressOfFive longSmsg =
    some [250, 0, 0, 0, 0, 100, 0, 0, 0, 0x68, 0x69, 0x21] := by
  decide

end Sample

theorem decrypt_inside_hi :
    DecryptsInside Sample.smsgLib Sample.smsgHost Sample.addressOfFive Sample.hiSmsg fun _ => 0 := by
  refine (decrypt_inside_iff _ _ _ _ _ Sample.hiSmsg_mac).mpr ⟨by decide, fun v hv => ?_⟩
  rw [Sample.hiSmsg_plain, Option.some.injEq] at hv
  subst hv
  exact ⟨⟨by decide, by decide, fun _ _ => by decide⟩, fun h => h.1 rfl⟩

/-- With a right MAC, 100 bytes of text are copied out of three. -/
theorem stated_length_read_behind :
    secureMsgDecrypt Sample.smsgLib Sample.smsgHost true Sample.addressOfFive
        Sample.longSmsg.header.message Sample.longSmsg.payload = .ok none ∧
      ¬DecryptsInside Sample.smsgLib Sample.smsgHost Sample.addressOfFive Sample.longSmsg
        fun _ => 0 := by
  refine ⟨Sample.longSmsg_mac, fun h => ?_⟩
  have hread := (h.walk _ Sample.longSmsg_plain).nRead
  revert hread
  decide

end Triangles
