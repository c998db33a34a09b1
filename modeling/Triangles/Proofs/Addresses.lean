import Triangles.Proofs.Base58

/-! Base58 text the other way round: text that is read is written again, and so the text of an
address is the only one. -/

namespace Triangles

/-! The vectors of `CBigNum` and the sign byte. -/

/-- The bytes of a number do not end in a zero. -/
theorem leBytes_getLast : ∀ {width n : Nat}, n < 256 ^ width → ∀ h : leBytes width n ≠ [],
    (leBytes width n).getLast h ≠ 0
  | 0, _, _, h => absurd rfl h
  | width + 1, n, hlt, h => by
    by_cases hn : n = 0
    · exact absurd (by rw [leBytes, if_pos hn]) h
    · have hdiv : n / 256 < 256 ^ width := Nat.div_lt_of_lt_mul (by rwa [pow_succ'] at hlt)
      have hcons : leBytes (width + 1) n = UInt8.ofNat (n % 256) :: leBytes width (n / 256) := by
        rw [leBytes, if_neg hn]
      by_cases hrest : leBytes width (n / 256) = []
      · have hzero : n / 256 = 0 := by
          rw [← leValue_leBytes hdiv, hrest]
          rfl
        simp only [hcons, hrest, List.getLast_singleton]
        intro hbyte
        have hbyte := congrArg UInt8.toNat hbyte
        rw [UInt8.toNat_ofNat'] at hbyte
        have hz : (0 : UInt8).toNat = 0 := rfl
        omega
      · simp only [hcons, List.getLast_cons hrest]
        exact leBytes_getLast hdiv hrest

/-- The number of bytes with a zero byte behind them is that of the bytes. -/
theorem setvch_append_zero (vch : List UInt8) : CBigNum.setvch (vch ++ [0]) = leValue vch := by
  have htop : (vch ++ [0]).getLastD 0 = 0 := by simp
  rw [CBigNum.setvch, htop]
  change (if 128 ≤ 0 then _ else ((leValue (vch ++ [0]) : Nat) : Int)) = _
  rw [if_neg (by decide), leValue_append_zero]

/-- Without the sign byte the vector of a number holds its bytes. -/
theorem trimSignByte_getvch {width n : Nat} (h : n < 256 ^ width) :
    trimSignByte (CBigNum.getvch width n) = leBytes width n := by
  unfold CBigNum.getvch
  dsimp only
  split
  · rename_i htop
    have hne : leBytes width n ≠ [] := by
      intro hnil
      rw [hnil] at htop
      exact absurd htop (by decide)
    have hlen : 0 < (leBytes width n).length := List.length_pos_iff.mpr hne
    rw [trimSignByte, if_pos, List.dropLast_concat]
    refine ⟨by rw [List.length_append, List.length_singleton]; omega, by simp, ?_⟩
    rwa [List.dropLast_concat]
  · rw [trimSignByte, if_neg]
    rintro ⟨hlen, hzero, -⟩
    have hne : leBytes width n ≠ [] := List.ne_nil_of_length_pos (by omega)
    rw [List.getLastD_eq_getLast?, List.getLast?_eq_getLast_of_ne_nil hne, Option.getD_some] at hzero
    exact leBytes_getLast h hne hzero

theorem base58_idxOf {c : UInt8} {d : Nat} (h : pszBase58.idxOf? c = some d) :
    d < 58 ∧ base58Char d = c := by
  obtain ⟨hlt, heq, -⟩ := List.idxOf?_eq_some_iff.mp h
  refine ⟨hlt, ?_⟩
  rw [base58Char, List.getD_eq_getElem?_getD, List.getElem?_eq_getElem hlt, Option.getD_some]
  exact heq

theorem base58Value_lt {str : List UInt8} {bn n : Nat} (h : base58Value str bn = some n) :
    n < (bn + 1) * 58 ^ str.length := by
  induction str generalizing bn with
  | nil =>
    cases h
    simp
  | cons c str ih =>
    rw [base58Value] at h
    cases hdigit : pszBase58.idxOf? c with
    | none =>
      rw [hdigit] at h
      simp only [Option.ite_none_right_eq_some, Option.some.injEq] at h
      calc n = bn := h.2.symm
        _ < bn + 1 := Nat.lt_succ_self bn
        _ ≤ (bn + 1) * 58 ^ (c :: str).length :=
          Nat.le_mul_of_pos_right _ (Nat.pow_pos (by decide))
    | some d =>
      rw [hdigit] at h
      have hd := (base58_idxOf hdigit).1
      calc n < (bn * 58 + d + 1) * 58 ^ str.length := ih h
        _ ≤ (bn + 1) * 58 * 58 ^ str.length := Nat.mul_le_mul_right _ (by omega)
        _ = (bn + 1) * 58 ^ (c :: str).length := by
          rw [List.length_cons, Nat.pow_succ', Nat.mul_assoc]

/-- `EncodeBase58` through `setvch` of the bytes and a zero. -/
theorem encodeBase58_setvch (vch : List UInt8) :
    encodeBase58 vch =
      (base58Digits (2 * vch.length) (CBigNum.setvch (vch.reverse ++ [0])).toNat ++
        List.replicate (vch.takeWhile (· == 0)).length (pszBase58.getD 0 0)).reverse := by
  rw [setvch_append_zero]
  rfl

/-- `DecodeBase58` through `getvch` and the trimming of the sign byte. -/
theorem decodeBase58_getvch {str : List UInt8} {bn : Nat}
    (h : base58Value ((cStr str).dropWhile isSpace) 0 = some bn) :
    decodeBase58 str = some (List.replicate
        (((cStr str).dropWhile isSpace).takeWhile (· == pszBase58.getD 0 0)).length 0 ++
      (trimSignByte (CBigNum.getvch ((cStr str).dropWhile isSpace).length bn)).reverse) := by
  have hlt : bn < 256 ^ ((cStr str).dropWhile isSpace).length := by
    refine (base58Value_lt h).trans_le ?_
    rw [Nat.zero_add, Nat.one_mul]
    exact Nat.pow_le_pow_left (by decide) _
  rw [trimSignByte_getvch hlt, decodeBase58, h]

/-! Text that is read is written again. -/

/-- Text without white space and without the end mark of a C string. -/
def Plain (str : List UInt8) : Prop := ∀ c ∈ str, isSpace c = false ∧ c ≠ 0

theorem cStr_plain {str : List UInt8} (h : Plain str) : cStr str = str := by
  rw [cStr, List.takeWhile_eq_self_iff]
  intro c hc
  simpa using (h c hc).2

theorem dropWhile_plain {str : List UInt8} (h : Plain str) : str.dropWhile isSpace = str := by
  rw [List.dropWhile_eq_self_iff]
  intro hlen
  simp [(h _ (List.getElem_mem hlen)).1]

/-- Plain text that has a value consists of digits. -/
theorem base58Value_plain {str : List UInt8} (hplain : Plain str) {bn n : Nat}
    (h : base58Value str bn = some n) :
    ∃ ds : List Nat, (∀ d ∈ ds, d < 58) ∧ str = ds.map base58Char ∧
      n = ds.foldl (fun n d => n * 58 + d) bn := by
  induction str generalizing bn with
  | nil =>
    cases h
    exact ⟨[], by simp, rfl, rfl⟩
  | cons c str ih =>
    have hrest : Plain str := fun c' hc' => hplain c' (List.mem_cons_of_mem _ hc')
    cases hdigit : pszBase58.idxOf? c with
    | none =>
      rw [base58Value, hdigit, dropWhile_plain hplain] at h
      cases h
    | some d =>
      rw [base58Value, hdigit] at h
      obtain ⟨hlt, hchar⟩ := base58_idxOf hdigit
      obtain ⟨ds, hds, rfl, hn⟩ := ih hrest h
      refine ⟨d :: ds, ?_, by rw [List.map_cons, hchar], hn⟩
      intro d' hd'
      rcases List.mem_cons.mp hd' with rfl | hd'
      · exact hlt
      · exact hds d' hd'

/-- The digits of a text are its ones at the front and the digits of its value. -/
theorem digits_split {ds : List Nat} (hds : ∀ d ∈ ds, d < 58) :
    ds = List.replicate (ds.takeWhile (· == 0)).length 0 ++
      (Nat.digits 58 (Nat.ofDigits 58 ds.reverse)).reverse := by
  have hzeros : ds.takeWhile (· == 0) = List.replicate (ds.takeWhile (· == 0)).length 0 := by
    rw [List.eq_replicate_iff]
    exact ⟨rfl, fun d hd => by simpa using List.mem_takeWhile_imp hd⟩
  have hvalue : Nat.ofDigits 58 ds.reverse = Nat.ofDigits 58 (ds.dropWhile (· == 0)).reverse := by
    conv_lhs => rw [← List.takeWhile_append_dropWhile (p := (· == 0)) (l := ds)]
    rw [List.reverse_append, hzeros, List.reverse_replicate, Nat.ofDigits_append_replicate_zero]
  have hdigits : Nat.digits 58 (Nat.ofDigits 58 (ds.dropWhile (· == 0)).reverse) =
      (ds.dropWhile (· == 0)).reverse := by
    apply Nat.digits_ofDigits 58 (by decide)
    · intro d hd
      exact hds d ((List.dropWhile_sublist _).subset (List.mem_reverse.mp hd))
    · intro hne
      have hhead := List.head_dropWhile_not (· == 0) (l := ds) (by simpa using hne)
      rw [List.getLast_reverse]
      simpa using hhead
  rw [hvalue, hdigits, List.reverse_reverse, ← hzeros, List.takeWhile_append_dropWhile]

theorem leading_ones_digits {ds : List Nat} (hds : ∀ d ∈ ds, d < 58) :
    ((ds.map base58Char).takeWhile (· == pszBase58.getD 0 0)).length =
      (ds.takeWhile (· == 0)).length := by
  induction ds with
  | nil => rfl
  | cons d ds ih =>
    have hrest := ih fun d' hd' => hds d' (List.mem_cons_of_mem _ hd')
    by_cases hd : d = 0
    · rw [hd, List.map_cons, List.takeWhile_cons_of_pos (by rfl),
        List.takeWhile_cons_of_pos (by rfl), List.length_cons, List.length_cons, hrest]
    · rw [List.map_cons, List.takeWhile_cons_of_neg, List.takeWhile_cons_of_neg (by simpa using hd)]
      · rfl
      · simpa using fun h => hd (base58Char_zero d (hds d List.mem_cons_self) h)

/-- The highest byte of a number is not zero. -/
theorem takeWhile_leBytes {width n : Nat} (h : n < 256 ^ width) :
    (leBytes width n).reverse.takeWhile (· == 0) = [] := by
  by_cases hnil : leBytes width n = []
  · rw [hnil]
    rfl
  · rw [← List.dropLast_append_getLast hnil, List.reverse_append, List.reverse_singleton,
      List.singleton_append, List.takeWhile_cons_of_neg]
    simpa using leBytes_getLast h hnil

theorem encode_decodeBase58 {str vch : List UInt8} (hplain : Plain str)
    (h : decodeBase58 str = some vch) : encodeBase58 vch = str := by
  unfold decodeBase58 at h
  simp only [cStr_plain hplain, dropWhile_plain hplain] at h
  split at h
  · cases h
  · rename_i bn hvalue
    obtain ⟨ds, hds, rfl, rfl⟩ := base58Value_plain hplain hvalue
    have hfold := foldl_reverse_digits ds.reverse
    rw [List.reverse_reverse] at hfold
    rw [leading_ones_digits hds, List.length_map, hfold, Option.some.injEq] at h
    have hlt : Nat.ofDigits 58 ds.reverse < 256 ^ ds.length := by
      calc Nat.ofDigits 58 ds.reverse < 58 ^ ds.reverse.length :=
            Nat.ofDigits_lt_base_pow_length (by decide) fun d hd => hds d (List.mem_reverse.mp hd)
        _ ≤ 256 ^ ds.length := by
          rw [List.length_reverse]
          exact Nat.pow_le_pow_left (by decide) _
    have hnumber : leValue vch.reverse = Nat.ofDigits 58 ds.reverse := by
      rw [← h, List.reverse_append, List.reverse_reverse, List.reverse_replicate, leValue_append,
        leValue_replicate_zero, leValue_leBytes hlt, Nat.mul_zero, Nat.add_zero]
    have hzeros : (vch.takeWhile (· == 0)).length = (ds.takeWhile (· == 0)).length := by
      rw [← h, List.takeWhile_append_of_pos (by simp), takeWhile_leBytes hlt, List.append_nil,
        List.length_replicate]
    rw [encodeBase58_eq, hnumber, hzeros, List.reverse_append, List.reverse_replicate,
      ← digits_split hds]

/-! Addresses and secrets. -/

section
variable {hash : List UInt8 → List UInt8} {fTestNet : Bool}

theorem encode_decodeBase58Check {str data : List UInt8} (hplain : Plain str)
    (h : decodeBase58Check hash str = some data) : encodeBase58Check hash data = str := by
  unfold decodeBase58Check at h
  split at h
  · cases h
  · rename_i vch hvch
    split at h
    · cases h
    · simp only at h
      split at h
      · cases h
      · rename_i hsum
        rw [not_not] at hsum
        rw [Option.some.injEq] at h
        rw [encodeBase58Check, ← h, hsum, List.take_append_drop]
        exact encode_decodeBase58 hplain hvch

theorem toString_setString {str : List UInt8} (hplain : Plain str)
    (h : CTrianglesAddress.setStringOk hash str = true) :
    (CTrianglesAddress.setString hash str).toString hash = str := by
  rw [CTrianglesAddress.setStringOk, cStr_plain hplain] at h
  split at h
  · rename_i nVersion vchData hdecode
    rw [CTrianglesAddress.setString, cStr_plain hplain, hdecode]
    exact encode_decodeBase58Check hplain hdecode
  · cases h

/-- A destination of 20 bytes that an address can hold. -/
def Encodable : CTxDestination → Prop
  | .noDestination => False
  | .keyID id => id.length = 20
  | .scriptID id => id.length = 20

theorem ofDestination_valid {dest : CTxDestination} (h : Encodable dest) :
    (CTrianglesAddress.ofDestination fTestNet dest).isValid fTestNet = true := by
  cases dest with
  | noDestination => exact h.elim
  | keyID id =>
    have hlen : id.length = 20 := h
    cases fTestNet <;> simp [CTrianglesAddress.ofDestination, CTrianglesAddress.ofKeyID,
      CTrianglesAddress.isValid, CTrianglesAddress.PUBKEY_ADDRESS,
      CTrianglesAddress.SCRIPT_ADDRESS, CTrianglesAddress.PUBKEY_ADDRESS_TEST, hlen]
  | scriptID id =>
    have hlen : id.length = 20 := h
    cases fTestNet <;> simp [CTrianglesAddress.ofDestination, CTrianglesAddress.isValid,
      CTrianglesAddress.PUBKEY_ADDRESS, CTrianglesAddress.SCRIPT_ADDRESS,
      CTrianglesAddress.PUBKEY_ADDRESS_TEST, CTrianglesAddress.SCRIPT_ADDRESS_TEST, hlen]

theorem get_ofDestination {dest : CTxDestination} (h : Encodable dest) :
    (CTrianglesAddress.ofDestination fTestNet dest).get fTestNet = dest := by
  rw [CTrianglesAddress.get, ofDestination_valid h]
  cases dest with
  | noDestination => exact h.elim
  | keyID id => cases fTestNet <;> rfl
  | scriptID id => cases fTestNet <;> rfl

/-- A valid address is the one of its destination. -/
theorem ofDestination_get {addr : CTrianglesAddress} (h : addr.isValid fTestNet = true) :
    CTrianglesAddress.ofDestination fTestNet (addr.get fTestNet) = addr := by
  obtain ⟨nVersion, vchData⟩ := addr
  rw [CTrianglesAddress.get, h]
  simp only [CTrianglesAddress.isValid, Bool.and_eq_true] at h
  obtain ⟨hversion, -⟩ := h
  by_cases hmain : nVersion = CTrianglesAddress.PUBKEY_ADDRESS ∨
      nVersion = CTrianglesAddress.SCRIPT_ADDRESS
  · rw [if_pos hmain] at hversion
    have hnet : fTestNet = false := by simpa using hversion
    subst hnet
    rcases hmain with rfl | rfl <;> rfl
  · rw [if_neg hmain] at hversion
    split at hversion
    · rename_i htest
      subst hversion
      rcases htest with rfl | rfl <;> rfl
    · cases hversion

/-- An address that is read from its plain text and valid has no other plain text. -/
theorem address_text_unique {str str' : List UInt8} (hplain : Plain str) (hplain' : Plain str')
    (hok : CTrianglesAddress.setStringOk hash str = true)
    (hok' : CTrianglesAddress.setStringOk hash str' = true)
    (hvalid : (CTrianglesAddress.setString hash str).isValid fTestNet = true)
    (hvalid' : (CTrianglesAddress.setString hash str').isValid fTestNet = true)
    (hget : (CTrianglesAddress.setString hash str').get fTestNet =
      (CTrianglesAddress.setString hash str).get fTestNet) : str' = str := by
  rw [← toString_setString hplain hok, ← toString_setString hplain' hok',
    ← ofDestination_get hvalid, ← ofDestination_get hvalid', hget]

theorem setSecret_valid {vchSecret : List UInt8} (h : vchSecret.length = 32) (fCompressed : Bool) :
    CTrianglesSecret.isValidSecret fTestNet
      (CTrianglesSecret.setSecret fTestNet vchSecret fCompressed) = true := by
  cases fTestNet <;> cases fCompressed <;>
    simp [CTrianglesSecret.isValidSecret, CTrianglesSecret.setSecret,
      CTrianglesAddress.PUBKEY_ADDRESS, CTrianglesAddress.PUBKEY_ADDRESS_TEST, h]

theorem getSecret_setSecret {vchSecret : List UInt8} (h : vchSecret.length = 32)
    (fCompressed : Bool) :
    CTrianglesSecret.getSecret (CTrianglesSecret.setSecret fTestNet vchSecret fCompressed) =
      (vchSecret, fCompressed) := by
  have htake : (vchSecret ++ if fCompressed then [1] else []).take 32 = vchSecret := by
    rw [← h, List.take_left]
  rw [CTrianglesSecret.getSecret, CTrianglesSecret.setSecret, htake]
  cases fCompressed <;> simp [h]

end

/-- Base58 text is read back, plain text that is read is written again, destinations and secrets
are recovered from their text, and a valid address has one plain text. -/
theorem base58_codec (hash : List UInt8 → List UInt8) (hhash : ∀ v, 4 ≤ (hash v).length) :
    (∀ vch, decodeBase58 (encodeBase58 vch) = some vch) ∧
    (∀ str vch, Plain str → decodeBase58 str = some vch → encodeBase58 vch = str) ∧
    (∀ fTestNet dest, Encodable dest →
      (CTrianglesAddress.setString hash
        ((CTrianglesAddress.ofDestination fTestNet dest).toString hash)).get fTestNet = dest) ∧
    (∀ fTestNet vchSecret fCompressed, vchSecret.length = 32 →
      CTrianglesSecret.setSecretStringOk hash fTestNet
        ((CTrianglesSecret.setSecret fTestNet vchSecret fCompressed).toString hash) = true ∧
      CTrianglesSecret.getSecret (CTrianglesAddress.setString hash
        ((CTrianglesSecret.setSecret fTestNet vchSecret fCompressed).toString hash)) =
          (vchSecret, fCompressed)) ∧
    (∀ fTestNet str str', Plain str → Plain str' →
      CTrianglesAddress.setStringOk hash str = true →
      CTrianglesAddress.setStringOk hash str' = true →
      (CTrianglesAddress.setString hash str).isValid fTestNet = true →
      (CTrianglesAddress.setString hash str').isValid fTestNet = true →
      (CTrianglesAddress.setString hash str').get fTestNet =
        (CTrianglesAddress.setString hash str).get fTestNet → str' = str) := by
  refine ⟨decode_encodeBase58, fun _ _ hplain h => encode_decodeBase58 hplain h, ?_, ?_, ?_⟩
  · intro fTestNet dest h
    rw [(setString_toString _ (hhash _)).1]
    exact get_ofDestination h
  · intro fTestNet vchSecret fCompressed h
    obtain ⟨hset, hok⟩ := setString_toString
      (CTrianglesSecret.setSecret fTestNet vchSecret fCompressed) (hhash _)
    rw [CTrianglesSecret.setSecretStringOk, hset, hok, setSecret_valid h, getSecret_setSecret h]
    exact ⟨rfl, rfl⟩
  · intro fTestNet str str' hplain hplain' hok hok' hvalid hvalid' hget
    exact address_text_unique hplain hplain' hok hok' hvalid hvalid' hget

theorem base58_codec_ones : decodeBase58 (encodeBase58 [0, 0, 7]) = some [0, 0, 7] :=
  (base58_codec (fun _ => [0, 0, 0, 0]) (fun _ => by decide)).1 [0, 0, 7]

/-- `"1"` and a null character: it holds no white space and is read as one zero, which is
written as `"1"`. -/
theorem decodeBase58_stops : (∀ c ∈ [0x31, 0], isSpace c = false) ∧
    decodeBase58 [0x31, 0] = some [0] ∧ encodeBase58 [0] ≠ [0x31, 0] := by
  decide +kernel

end Triangles
