import Triangles.Lib.Regroup
import Triangles.Model.UtilText

/-! Base 64 and base 32: what is encoded decodes to itself, and what decodes without a complaint is
the encoding of what it decodes to. -/

namespace Triangles.BaseCodec

open Regroup

variable {k m : Nat} {alphabet : List UInt8} {table : List Int} {bits : List Nat}

def nums (l : List UInt8) : List Nat := l.map UInt8.toNat

theorem nums_lt {l : List UInt8} : ∀ d ∈ nums l, d < 2 ^ 8 := by
  intro d hd
  obtain ⟨c, -, rfl⟩ := List.mem_map.mp hd
  exact c.toNat_lt

theorem nums_inj {l l' : List UInt8} (h : nums l = nums l') : l = l' :=
  List.map_injective_iff.mpr (fun _ _ => UInt8.toNat_inj.mp) h

def padding (m n : Nat) : List UInt8 := List.replicate ((m - n % m) % m) 0x3d

def digit (table : List Int) (c : UInt8) : Nat := (lookup table c).toNat

def IsLetter (table : List Int) (c : UInt8) : Prop := lookup table c ≠ -1

/-! The two tables. -/

/-- What is true of every entry of a table is true of what it says of a character. -/
theorem lookup_of_all {P : Int → UInt8 → Bool} (h : table.zipIdx.all (fun e => P e.1 (UInt8.ofNat e.2)) = true)
    {c : UInt8} (hc : IsLetter table c) : P (lookup table c) c = true := by
  have hlt : c.toNat < table.length := by
    by_contra hge
    refine hc ?_
    rw [lookup, List.getD_eq_getElem?_getD, List.getElem?_eq_none (Nat.not_lt.mp hge)]
    rfl
  have hmem : (lookup table c, c.toNat) ∈ table.zipIdx := by
    rw [List.mem_zipIdx_iff_getElem?, lookup, List.getD_eq_getElem?_getD, List.getElem?_eq_getElem hlt]
    rfl
  simpa using List.all_eq_true.mp h _ hmem

theorem alphabets :
    pbase64 =
      (List.range' 0x41 26 ++ List.range' 0x61 26 ++ List.range' 0x30 10 ++ [0x2b, 0x2f]).map UInt8.ofNat ∧
    pbase32 = (List.range' 0x61 26 ++ List.range' 0x32 6).map UInt8.ofNat := by
  decide +kernel

def lower (c : UInt8) : UInt8 := if 0x41 ≤ c ∧ c ≤ 0x5a then c + 0x20 else c

/-- Alphabets and tables agree: the place of a letter, the letters that have one, and the letter of
every entry. In base 32 an upper case letter has the entry of the lower case one. -/
theorem tables :
    ((∀ i < 2 ^ 6, lookup decode64_table (letter pbase64 i) = i) ∧
      (∀ c ∈ pbase64, lookup decode64_table c ≠ -1) ∧
      decode64_table.zipIdx.all (fun e => decide (e.1 ≠ -1 →
        e.1.toNat < 2 ^ 6 ∧ letter pbase64 e.1.toNat = UInt8.ofNat e.2)) = true) ∧
    (∀ i < 2 ^ 5, lookup decode32_table (letter pbase32 i) = i) ∧
      (∀ d ∈ pbase32, lookup decode32_table d ≠ -1 ∧
        (0x61 ≤ d → lookup decode32_table (d - 0x20) ≠ -1)) ∧
      decode32_table.zipIdx.all (fun e => decide (e.1 ≠ -1 →
        e.1.toNat < 2 ^ 5 ∧ letter pbase32 e.1.toNat = lower (UInt8.ofNat e.2))) = true := by
  rw [alphabets.1, alphabets.2]
  decide +kernel

theorem digit_letter64 : ∀ i < 2 ^ 6, lookup decode64_table (letter pbase64 i) = i := tables.1.1

theorem isLetter_of_mem64 : ∀ c ∈ pbase64, IsLetter decode64_table c := tables.1.2.1

theorem isLetter64 {c : UInt8} (h : IsLetter decode64_table c) :
    digit decode64_table c < 2 ^ 6 ∧ letter pbase64 (digit decode64_table c) = c := by
  have hc := lookup_of_all
    (P := fun dec c => decide (dec ≠ -1 → dec.toNat < 2 ^ 6 ∧ letter pbase64 dec.toNat = c))
    tables.1.2.2 h
  exact of_decide_eq_true hc h

theorem digit_letter32 : ∀ i < 2 ^ 5, lookup decode32_table (letter pbase32 i) = i := tables.2.1

theorem isLetter_of_lower32 {c : UInt8} (h : lower c ∈ pbase32) : IsLetter decode32_table c := by
  have hboth := tables.2.2.1
  unfold lower at h
  split_ifs at h with hcase
  · have hd := (hboth _ h).2 (by
      have hlow := UInt8.le_iff_toNat_le.mp hcase.1
      have hhigh := UInt8.le_iff_toNat_le.mp hcase.2
      rw [UInt8.le_iff_toNat_le, UInt8.toNat_add]
      simp at hlow hhigh ⊢
      omega)
    rwa [UInt8.add_sub_cancel] at hd
  · exact (hboth c h).1

theorem isLetter32 {c : UInt8} (h : IsLetter decode32_table c) :
    digit decode32_table c < 2 ^ 5 ∧ letter pbase32 (digit decode32_table c) = lower c := by
  have hc := lookup_of_all
    (P := fun dec c => decide (dec ≠ -1 → dec.toNat < 2 ^ 5 ∧ letter pbase32 dec.toNat = lower c))
    tables.2.2.2 h
  exact of_decide_eq_true hc h

/-! Encoders. -/

/-- What an encoder has done with `read`. `bits` are those left in each of its modes. -/
def Encoding (alphabet : List UInt8) (k : Nat) (bits : List Nat) (s : EncodeState) (read : List UInt8) :
    Prop :=
  s.mode < bits.length ∧ ∃ out p, s.strRet = out.map (letter alphabet) ∧
    Holds 8 k (nums read) out (bits.getD s.mode 0) p ∧
    (s.mode ≠ 0 → s.left = p <<< (k - bits.getD s.mode 0))

def encodeBits64 : List Nat := [0, 2, 4]

def encodeBits32 : List Nat := [0, 3, 1, 4, 2]

theorem encode64Step_encoding {s : EncodeState} {read : List UInt8}
    (h : Encoding pbase64 6 encodeBits64 s read) (c : UInt8) :
    Encoding pbase64 6 encodeBits64 (encode64Step s c.toNat) (read ++ [c]) := by
  obtain ⟨strRet, mode, left⟩ := s
  obtain ⟨hmode, out, p, hret, hholds, hleft⟩ := h
  have hc : c.toNat < 2 ^ 8 := c.toNat_lt
  unfold Encoding
  rw [nums, List.map_append, List.map_singleton]
  change strRet = _ at hret
  subst hret
  match mode, hmode with
  | 0, _ =>
    have hnone : Holds 8 6 (nums read) out 0 p := hholds
    have hp : p = 0 := Nat.lt_one_iff.mp hnone.rest
    subst hp
    refine ⟨Nat.one_lt_succ_succ 1, _, _, ?_, hnone.shiftOut hc (by decide) (by decide), fun _ => rfl⟩
    simp [encode64Step]
  | 1, _ =>
    have htwo : Holds 8 6 (nums read) out 2 p := hholds
    refine ⟨Nat.lt_add_one 2, _, _, ?_, htwo.shiftOut hc (by decide) (by decide), fun _ => rfl⟩
    have hl : left = p <<< 4 := hleft Nat.one_ne_zero
    simp [encode64Step, hl]
  | 2, _ =>
    have hfour : Holds 8 6 (nums read) out 4 p := hholds
    have hfirst := hfour.shiftOut hc (by decide) (by decide)
    refine ⟨Nat.zero_lt_succ 2, _, _, ?_, hfirst.shiftAgain (by decide), fun h => absurd rfl h⟩
    have hl : left = p <<< 2 := hleft (Nat.succ_ne_zero 1)
    simp [encode64Step, hl]

theorem encode32Step_encoding {s : EncodeState} {read : List UInt8}
    (h : Encoding pbase32 5 encodeBits32 s read) (c : UInt8) :
    Encoding pbase32 5 encodeBits32 (encode32Step s c.toNat) (read ++ [c]) := by
  obtain ⟨strRet, mode, left⟩ := s
  obtain ⟨hmode, out, p, hret, hholds, hleft⟩ := h
  have hc : c.toNat < 2 ^ 8 := c.toNat_lt
  unfold Encoding
  rw [nums, List.map_append, List.map_singleton]
  change strRet = _ at hret
  subst hret
  match mode, hmode with
  | 0, _ =>
    have hnone : Holds 8 5 (nums read) out 0 p := hholds
    have hp : p = 0 := Nat.lt_one_iff.mp hnone.rest
    subst hp
    refine ⟨Nat.one_lt_succ_succ 3, _, _, ?_, hnone.shiftOut hc (by decide) (by decide), fun _ => rfl⟩
    simp [encode32Step]
  | 1, _ =>
    have hthree : Holds 8 5 (nums read) out 3 p := hholds
    have hfirst := hthree.shiftOut hc (by decide) (by decide)
    refine ⟨show 2 < 5 by decide, _, _, ?_, hfirst.shiftAgain (by decide), fun _ => rfl⟩
    have hl : left = p <<< 2 := hleft Nat.one_ne_zero
    simp [encode32Step, hl]
  | 2, _ =>
    have hone : Holds 8 5 (nums read) out 1 p := hholds
    refine ⟨show 3 < 5 by decide, _, _, ?_, hone.shiftOut hc (by decide) (by decide), fun _ => rfl⟩
    have hl : left = p <<< 4 := hleft (Nat.succ_ne_zero 1)
    simp [encode32Step, hl]
  | 3, _ =>
    have hfour : Holds 8 5 (nums read) out 4 p := hholds
    have hfirst := hfour.shiftOut hc (by decide) (by decide)
    refine ⟨show 4 < 5 by decide, _, _, ?_, hfirst.shiftAgain (by decide), fun _ => rfl⟩
    have hl : left = p <<< 1 := hleft (Nat.succ_ne_zero 2)
    simp [encode32Step, hl]
  | 4, _ =>
    have htwo : Holds 8 5 (nums read) out 2 p := hholds
    have hfirst := htwo.shiftOut hc (by decide) (by decide)
    refine ⟨show 0 < 5 by decide, _, _, ?_, hfirst.shiftAgain (by decide), fun h => absurd rfl h⟩
    have hl : left = p <<< 3 := hleft (Nat.succ_ne_zero 3)
    simp [encode32Step, hl]

theorem foldl_encoding {step : EncodeState → Nat → EncodeState}
    (hstep : ∀ {s read}, Encoding alphabet k bits s read → ∀ c : UInt8,
      Encoding alphabet k bits (step s c.toNat) (read ++ [c]))
    (hbits : bits.getD 0 0 = 0) (hpos : 0 < bits.length) (pch : List UInt8) :
    Encoding alphabet k bits (pch.foldl (fun s c => step s c.toNat) {}) pch := by
  induction pch using List.reverseRecOn with
  | nil =>
    refine ⟨hpos, [], 0, rfl, ?_, fun h => absurd rfl h⟩
    change Holds 8 k [] [] (bits.getD 0 0) 0
    rw [hbits]
    exact Holds.empty
  | append_singleton pch c ih =>
    rw [List.foldl_append]
    exact hstep ih c

/-- What an encoder writes in the end: its digits, with `j` zero bits behind the last one, and signs. -/
theorem Encoding.written {s : EncodeState} {pch : List UInt8} (h : Encoding alphabet k bits s pch)
    (signs : Nat → Nat)
    (hzero : bits.getD 0 0 = 0 ∧ ∀ length, 8 * pch.length = k * length → (m - length % m) % m = 0)
    (hsigns : ∀ mode < bits.length, mode ≠ 0 → bits.getD mode 0 ≤ k ∧ 0 < bits.getD mode 0 ∧
      ∀ length, 8 * pch.length = k * length + bits.getD mode 0 →
        (m - (length + 1) % m) % m = signs mode) (hk : 0 < k) :
    ∃ out j, Padded 8 k (nums pch) out j ∧ j < k ∧
      (if s.mode = 0 then s.strRet
        else s.strRet ++ [letter alphabet s.left] ++ List.replicate (signs s.mode) 0x3d) =
          out.map (letter alphabet) ++ padding m out.length := by
  obtain ⟨hmode, out, p, hret, hholds, hleft⟩ := h
  have hbits := hholds.bits
  rw [nums, List.length_map] at hbits
  split_ifs with hm
  · rw [hm, hzero.1] at hholds hbits
    refine ⟨out, 0, hholds.done, hk, ?_⟩
    rw [padding, hzero.2 _ hbits, hret]
    exact (List.append_nil _).symm
  · obtain ⟨hle, hpos, hcount⟩ := hsigns _ hmode hm
    refine ⟨_, _, hholds.pad hle, Nat.sub_lt hk hpos, ?_⟩
    rw [padding, List.length_append, List.length_singleton, hcount _ hbits, hleft hm, hret,
      Nat.shiftLeft_eq, List.map_append, List.map_singleton]

theorem encodeBase64_eq (pch : List UInt8) : ∃ out j, Padded 8 6 (nums pch) out j ∧ j < 6 ∧
    encodeBase64 pch = out.map (letter pbase64) ++ padding 4 out.length := by
  have hwritten := (foldl_encoding encode64Step_encoding rfl (by decide) pch).written (m := 4)
    (fun mode => if mode = 1 then 2 else 1) ⟨rfl, fun length h => by omega⟩ ?_ (by decide)
  · obtain ⟨out, j, hpadded, hj, heq⟩ := hwritten
    refine ⟨out, j, hpadded, hj, ?_⟩
    rw [← heq, encodeBase64]
    split_ifs with hmode hone
    · rfl
    · rw [List.append_assoc]
      rfl
    · rw [List.append_nil]
      rfl
  · intro mode hmode hne
    match mode, hmode with
    | 0, _ => exact absurd rfl hne
    | 1, _ => exact ⟨by decide, by decide, fun length h => by simp [encodeBits64] at h ⊢; omega⟩
    | 2, _ => exact ⟨by decide, by decide, fun length h => by simp [encodeBits64] at h ⊢; omega⟩

theorem encodeBase32_eq (pch : List UInt8) : ∃ out j, Padded 8 5 (nums pch) out j ∧ j < 5 ∧
    encodeBase32 pch = out.map (letter pbase32) ++ padding 8 out.length := by
  refine (foldl_encoding encode32Step_encoding rfl (by decide) pch).written (fun mode => nPadding.getD mode 0)
    ⟨rfl, fun length h => by omega⟩ ?_ (by decide)
  intro mode hmode hne
  match mode, hmode with
  | 0, _ => exact absurd rfl hne
  | 1, _ => exact ⟨by decide, by decide, fun length h => by simp [encodeBits32, nPadding] at h ⊢; omega⟩
  | 2, _ => exact ⟨by decide, by decide, fun length h => by simp [encodeBits32, nPadding] at h ⊢; omega⟩
  | 3, _ => exact ⟨by decide, by decide, fun length h => by simp [encodeBits32, nPadding] at h ⊢; omega⟩
  | 4, _ => exact ⟨by decide, by decide, fun length h => by simp [encodeBits32, nPadding] at h ⊢; omega⟩

/-! Decoders. -/

/-- What a decoder has done with the digits it has read. -/
def Decoding (k : Nat) (bits : List Nat) (s : DecodeState) (digits : List Nat) : Prop :=
  s.mode < bits.length ∧ ∃ p, Holds k 8 digits (nums s.vchRet) (bits.getD s.mode 0) p ∧
    (s.mode ≠ 0 → s.left = p)

def decodeBits64 : List Nat := [0, 6, 4, 2]

def decodeBits32 : List Nat := [0, 5, 2, 7, 4, 1, 6, 3]

/-- A byte that is put out is not cut off. -/
theorem holds_pushed {read : List Nat} {vchRet : List UInt8} {x n p : Nat}
    (h : Holds k 8 read (nums vchRet ++ [x]) n p) :
    Holds k 8 read (nums (vchRet ++ [UInt8.ofNat x])) n p := by
  have hx : x < 2 ^ 8 := h.small x (by simp)
  rw [nums, List.map_append, List.map_singleton, UInt8.toNat_ofNat_of_lt' hx]
  exact h

theorem decode64Step_decoding {s : DecodeState} {digits : List Nat}
    (h : Decoding 6 decodeBits64 s digits) {dec : Nat} (hdec : dec < 2 ^ 6) :
    Decoding 6 decodeBits64 (decode64Step s dec) (digits ++ [dec]) := by
  obtain ⟨vchRet, mode, left⟩ := s
  obtain ⟨hmode, p, hholds, hleft⟩ := h
  match mode, hmode with
  | 0, _ =>
    have hnone : Holds 6 8 digits (nums vchRet) 0 p := hholds
    have hp : p = 0 := Nat.lt_one_iff.mp hnone.rest
    subst hp
    refine ⟨show 1 < 4 by decide, _, hnone.shiftIn hdec, fun _ => ?_⟩
    simp [decode64Step]
  | 1, _ =>
    have hsix : Holds 6 8 digits (nums vchRet) 6 p := hholds
    have hl : left = p := hleft Nat.one_ne_zero
    subst hl
    exact ⟨show 2 < 4 by decide, _, holds_pushed (hsix.shiftOut hdec (by decide) (by decide)), fun _ => rfl⟩
  | 2, _ =>
    have hfour : Holds 6 8 digits (nums vchRet) 4 p := hholds
    have hl : left = p := hleft (Nat.succ_ne_zero 1)
    subst hl
    exact ⟨show 3 < 4 by decide, _, holds_pushed (hfour.shiftOut hdec (by decide) (by decide)), fun _ => rfl⟩
  | 3, _ =>
    have htwo : Holds 6 8 digits (nums vchRet) 2 p := hholds
    have hl : left = p := hleft (Nat.succ_ne_zero 2)
    subst hl
    exact ⟨show 0 < 4 by decide, _, holds_pushed (htwo.shiftOut hdec (by decide) (by decide)),
      fun h => absurd rfl h⟩

theorem decode32Step_decoding {s : DecodeState} {digits : List Nat}
    (h : Decoding 5 decodeBits32 s digits) {dec : Nat} (hdec : dec < 2 ^ 5) :
    Decoding 5 decodeBits32 (decode32Step s dec) (digits ++ [dec]) := by
  obtain ⟨vchRet, mode, left⟩ := s
  obtain ⟨hmode, p, hholds, hleft⟩ := h
  match mode, hmode with
  | 0, _ =>
    have hnone : Holds 5 8 digits (nums vchRet) 0 p := hholds
    have hp : p = 0 := Nat.lt_one_iff.mp hnone.rest
    subst hp
    refine ⟨show 1 < 8 by decide, _, hnone.shiftIn hdec, fun _ => ?_⟩
    simp [decode32Step]
  | 1, _ =>
    have hfive : Holds 5 8 digits (nums vchRet) 5 p := hholds
    have hl : left = p := hleft Nat.one_ne_zero
    subst hl
    exact ⟨show 2 < 8 by decide, _, holds_pushed (hfive.shiftOut hdec (by decide) (by decide)), fun _ => rfl⟩
  | 2, _ =>
    have htwo : Holds 5 8 digits (nums vchRet) 2 p := hholds
    have hl : left = p := hleft (Nat.succ_ne_zero 1)
    subst hl
    exact ⟨show 3 < 8 by decide, _, htwo.shiftIn hdec, fun _ => rfl⟩
  | 3, _ =>
    have hseven : Holds 5 8 digits (nums vchRet) 7 p := hholds
    have hl : left = p := hleft (Nat.succ_ne_zero 2)
    subst hl
    exact ⟨show 4 < 8 by decide, _, holds_pushed (hseven.shiftOut hdec (by decide) (by decide)), fun _ => rfl⟩
  | 4, _ =>
    have hfour : Holds 5 8 digits (nums vchRet) 4 p := hholds
    have hl : left = p := hleft (Nat.succ_ne_zero 3)
    subst hl
    exact ⟨show 5 < 8 by decide, _, holds_pushed (hfour.shiftOut hdec (by decide) (by decide)), fun _ => rfl⟩
  | 5, _ =>
    have hone : Holds 5 8 digits (nums vchRet) 1 p := hholds
    have hl : left = p := hleft (Nat.succ_ne_zero 4)
    subst hl
    exact ⟨show 6 < 8 by decide, _, hone.shiftIn hdec, fun _ => rfl⟩
  | 6, _ =>
    have hsix : Holds 5 8 digits (nums vchRet) 6 p := hholds
    have hl : left = p := hleft (Nat.succ_ne_zero 5)
    subst hl
    exact ⟨show 7 < 8 by decide, _, holds_pushed (hsix.shiftOut hdec (by decide) (by decide)), fun _ => rfl⟩
  | 7, _ =>
    have hthree : Holds 5 8 digits (nums vchRet) 3 p := hholds
    have hl : left = p := hleft (Nat.succ_ne_zero 6)
    subst hl
    exact ⟨show 0 < 8 by decide, _, holds_pushed (hthree.shiftOut hdec (by decide) (by decide)),
      fun h => absurd rfl h⟩

theorem decodeLoop_append {step : DecodeState → Nat → DecodeState} {chars rest : List UInt8}
    (hchars : ∀ c ∈ chars, IsLetter table c) (hrest : lookup table (charAt rest 0) = -1) (s : DecodeState) :
    decodeLoop table step (chars ++ rest) s = (rest, chars.foldl (fun s c => step s (digit table c)) s) := by
  induction chars generalizing s with
  | nil =>
    cases rest with
    | nil => rfl
    | cons c rest =>
      have hc : lookup table c = -1 := hrest
      simp [decodeLoop, hc]
  | cons c chars ih =>
    have hc : lookup table c ≠ -1 := hchars c List.mem_cons_self
    simp only [List.cons_append, decodeLoop, if_neg hc]
    exact ih (fun d hd => hchars d (List.mem_cons_of_mem c hd)) _

theorem foldl_decoding {step : DecodeState → Nat → DecodeState}
    (hstep : ∀ {s digits}, Decoding k bits s digits → ∀ {dec}, dec < 2 ^ k →
      Decoding k bits (step s dec) (digits ++ [dec]))
    (hbits : bits.getD 0 0 = 0) (hpos : 0 < bits.length) {chars : List UInt8}
    (hchars : ∀ c ∈ chars, digit table c < 2 ^ k) :
    Decoding k bits (chars.foldl (fun s c => step s (digit table c)) {}) (chars.map (digit table)) := by
  induction chars using List.reverseRecOn with
  | nil =>
    refine ⟨hpos, 0, ?_, fun h => absurd rfl h⟩
    change Holds k 8 [] [] (bits.getD 0 0) 0
    rw [hbits]
    exact Holds.empty
  | append_singleton chars c ih =>
    rw [List.foldl_append, List.map_append]
    exact hstep (ih fun d hd => hchars d (by simp [hd])) (hchars c (by simp))

theorem Decoding.holds_zero_iff {s : DecodeState} {digits : List Nat} (h : Decoding k bits s digits)
    (hbits : bits.getD 0 0 = 0) : (∃ n < k, Holds k 8 digits (nums s.vchRet) n 0) ↔
      bits.getD s.mode 0 < k ∧ (s.mode = 0 ∨ s.left = 0) := by
  obtain ⟨hmode, p, hholds, hleft⟩ := h
  constructor
  · rintro ⟨n, hn, hzero⟩
    have hbits := hholds.bits
    have hsame : n = bits.getD s.mode 0 := Nat.add_left_cancel (hzero.bits.symm.trans hbits)
    subst hsame
    have hp : p = 0 := Nat.add_left_cancel (hholds.number.symm.trans hzero.number)
    exact ⟨hn, (Decidable.em (s.mode = 0)).imp_right fun hm => (hleft hm).trans hp⟩
  · rintro ⟨hn, hz⟩
    have hp : p = 0 := by
      rcases hz with hz | hz
      · have hrest := hholds.rest
        rw [hz, hbits] at hrest
        exact Nat.lt_one_iff.mp hrest
      · by_cases hm : s.mode = 0
        · have hrest := hholds.rest
          rw [hm, hbits] at hrest
          exact Nat.lt_one_iff.mp hrest
        · rw [← hleft hm, hz]
    subst hp
    exact ⟨_, hn, hholds⟩

/-- With the signs that fill the last group, no complaint means that there are less bits left than a
character has, and all of them are zero. -/
theorem invalid64_iff {s : DecodeState} {digits : List Nat} (h : Decoding 6 decodeBits64 s digits) :
    invalid64 s (padding 4 digits.length) = false ↔
      ∃ n < 6, Holds 6 8 digits (nums s.vchRet) n 0 := by
  rw [h.holds_zero_iff rfl]
  obtain ⟨vchRet, mode, left⟩ := s
  obtain ⟨hmode, p, hholds, -⟩ := h
  have hbits := hholds.bits
  match mode, hmode with
  | 0, _ => simp [invalid64, decodeBits64]
  | 1, _ => simp [invalid64, decodeBits64]
  | 2, _ =>
    have hsigns : (4 - digits.length % 4) % 4 = 2 := by simp [decodeBits64] at hbits; omega
    have hpadded : isPadded decode64_table 2 [0x3d, 0x3d] = true := by decide
    simp [invalid64, decodeBits64, padding, hsigns, hpadded]
  | 3, _ =>
    have hsigns : (4 - digits.length % 4) % 4 = 1 := by simp [decodeBits64] at hbits; omega
    have hpadded : isPadded decode64_table 1 [0x3d] = true := by decide
    simp [invalid64, decodeBits64, padding, hsigns, hpadded]

theorem invalid32_iff {s : DecodeState} {digits : List Nat} (h : Decoding 5 decodeBits32 s digits) :
    invalid32 s (padding 8 digits.length) = false ↔
      ∃ n < 5, Holds 5 8 digits (nums s.vchRet) n 0 := by
  rw [h.holds_zero_iff rfl]
  obtain ⟨vchRet, mode, left⟩ := s
  obtain ⟨hmode, p, hholds, -⟩ := h
  have hbits := hholds.bits
  match mode, hmode with
  | 0, _ => simp [invalid32, decodeBits32]
  | 1, _ => simp [invalid32, decodeBits32]
  | 2, _ =>
    have hsigns : (8 - digits.length % 8) % 8 = 6 := by simp [decodeBits32] at hbits; omega
    have hpadded : isPadded decode32_table 6 [0x3d, 0x3d, 0x3d, 0x3d, 0x3d, 0x3d] = true := by decide
    simp [invalid32, decodeBits32, padding, hsigns, hpadded]
  | 3, _ => simp [invalid32, decodeBits32]
  | 4, _ =>
    have hsigns : (8 - digits.length % 8) % 8 = 4 := by simp [decodeBits32] at hbits; omega
    have hpadded : isPadded decode32_table 4 [0x3d, 0x3d, 0x3d, 0x3d] = true := by decide
    simp [invalid32, decodeBits32, padding, hsigns, hpadded]
  | 5, _ =>
    have hsigns : (8 - digits.length % 8) % 8 = 3 := by simp [decodeBits32] at hbits; omega
    have hpadded : isPadded decode32_table 3 [0x3d, 0x3d, 0x3d] = true := by decide
    simp [invalid32, decodeBits32, padding, hsigns, hpadded]
  | 6, _ => simp [invalid32, decodeBits32]
  | 7, _ =>
    have hsigns : (8 - digits.length % 8) % 8 = 1 := by simp [decodeBits32] at hbits; omega
    have hpadded : isPadded decode32_table 1 [0x3d] = true := by decide
    simp [invalid32, decodeBits32, padding, hsigns, hpadded]

/-! The two codecs. -/

/-- `encode` writes digits of `k` bits in groups of `m` characters, and `decode` reads them. -/
structure IsCodec (k m : Nat) (alphabet : List UInt8) (table : List Int)
    (encode : List UInt8 → List UInt8) (decode : List UInt8 → List UInt8 × Bool) : Prop where
  digits : ∀ i < 2 ^ k, lookup table (letter alphabet i) = i
  encode_eq : ∀ v, ∃ out j, Padded 8 k (nums v) out j ∧ j < k ∧
    encode v = out.map (letter alphabet) ++ padding m out.length
  decode_eq : ∀ chars, (∀ c ∈ chars, IsLetter table c) →
    (∃ n p, Holds k 8 (chars.map (digit table)) (nums (decode (chars ++ padding m chars.length)).1) n p ∧
      n < 8) ∧
    ((decode (chars ++ padding m chars.length)).2 = false ↔
      ∃ n < k, Holds k 8 (chars.map (digit table)) (nums (decode (chars ++ padding m chars.length)).1) n 0)

section

variable {encode : List UInt8 → List UInt8} {decode : List UInt8 → List UInt8 × Bool}

theorem IsCodec.isLetter (h : IsCodec k m alphabet table encode decode) {i : Nat} (hi : i < 2 ^ k) :
    IsLetter table (letter alphabet i) := by
  rw [IsLetter, h.digits i hi]
  omega

theorem IsCodec.map_digit (h : IsCodec k m alphabet table encode decode) {out : List Nat}
    (hout : ∀ i ∈ out, i < 2 ^ k) : (out.map (letter alphabet)).map (digit table) = out := by
  rw [List.map_map]
  refine (List.map_congr_left fun i hi => ?_).trans (List.map_id out)
  rw [Function.comp_apply, digit, h.digits i (hout i hi)]
  rfl

theorem IsCodec.decode_encode (h : IsCodec k m alphabet table encode decode) (hk : k ≤ 8) (v : List UInt8) :
    decode (encode v) = (v, false) := by
  obtain ⟨out, j, hpadded, hj, heq⟩ := h.encode_eq v
  have hletters : ∀ c ∈ out.map (letter alphabet), IsLetter table c := by
    intro c hc
    obtain ⟨i, hi, rfl⟩ := List.mem_map.mp hc
    exact h.isLetter (hpadded.small i hi)
  obtain ⟨⟨n, p, hholds, hn⟩, hinvalid⟩ := h.decode_eq _ hletters
  rw [List.length_map, ← heq, h.map_digit hpadded.small] at hholds hinvalid
  obtain ⟨hnums, rfl, rfl⟩ := hpadded.readBack nums_lt (hj.trans_le hk) hholds hn
  exact Prod.ext (nums_inj hnums) (hinvalid.mpr ⟨n, hj, hholds⟩)

theorem IsCodec.encode_decode (h : IsCodec k m alphabet table encode decode) {chars : List UInt8}
    (hchars : ∀ c ∈ chars, IsLetter table c) (hdigits : ∀ c ∈ chars, digit table c < 2 ^ k)
    (hvalid : (decode (chars ++ padding m chars.length)).2 = false) :
    encode (decode (chars ++ padding m chars.length)).1 =
      chars.map (fun c => letter alphabet (digit table c)) ++ padding m chars.length := by
  obtain ⟨n, hn, hholds⟩ := (h.decode_eq chars hchars).2.mp hvalid
  obtain ⟨out, j, hpadded, hj, heq⟩ := h.encode_eq (decode (chars ++ padding m chars.length)).1
  have hread : ∀ d ∈ chars.map (digit table), d < 2 ^ k := by
    intro d hd
    obtain ⟨c, hc, rfl⟩ := List.mem_map.mp hd
    exact hdigits c hc
  obtain ⟨rfl, -⟩ := hpadded.unique (hholds.padded hread) hj hn
  rw [heq, List.map_map, List.length_map]
  rfl

end

theorem lookup_padding (m n : Nat) (hsign : lookup table 0x3d = -1) (hzero : lookup table 0 = -1) :
    lookup table (charAt (padding m n) 0) = -1 := by
  unfold padding
  cases (m - n % m) % m with
  | zero => exact hzero
  | succ r => exact hsign

theorem base64_isCodec : IsCodec 6 4 pbase64 decode64_table encodeBase64 decodeBase64 where
  digits := digit_letter64
  encode_eq := encodeBase64_eq
  decode_eq := by
    intro chars hchars
    have hloop : decodeLoop decode64_table decode64Step (chars ++ padding 4 chars.length) {} = _ :=
      decodeLoop_append hchars (lookup_padding 4 _ (by decide) (by decide)) _
    have hdecoding := foldl_decoding decode64Step_decoding rfl (by decide)
      fun c hc => (isLetter64 (hchars c hc)).1
    have hinvalid := invalid64_iff hdecoding
    rw [List.length_map] at hinvalid
    obtain ⟨hmode, p, hholds, -⟩ := hdecoding
    simp only [decodeBase64, hloop]
    refine ⟨⟨_, p, hholds, ?_⟩, hinvalid⟩
    have hbits : ∀ mode < decodeBits64.length, decodeBits64.getD mode 0 < 8 := by decide
    exact hbits _ hmode

theorem base32_isCodec : IsCodec 5 8 pbase32 decode32_table encodeBase32 decodeBase32 where
  digits := digit_letter32
  encode_eq := encodeBase32_eq
  decode_eq := by
    intro chars hchars
    have hloop : decodeLoop decode32_table decode32Step (chars ++ padding 8 chars.length) {} = _ :=
      decodeLoop_append hchars (lookup_padding 8 _ (by decide) (by decide)) _
    have hdecoding := foldl_decoding decode32Step_decoding rfl (by decide)
      fun c hc => (isLetter32 (hchars c hc)).1
    have hinvalid := invalid32_iff hdecoding
    rw [List.length_map] at hinvalid
    obtain ⟨hmode, p, hholds, -⟩ := hdecoding
    simp only [decodeBase32, hloop]
    refine ⟨⟨_, p, hholds, ?_⟩, hinvalid⟩
    have hbits : ∀ mode < decodeBits32.length, decodeBits32.getD mode 0 < 8 := by decide
    exact hbits _ hmode

/-- The number of signs is that of the padding. -/
theorem padding_eq {n e : Nat} (he : e < m) (h : (n + e) % m = 0) : padding m n = List.replicate e 0x3d := by
  have hm : 0 < m := Nat.zero_lt_of_lt he
  have hcount : (m - n % m) % m = e := by
    have hlt := Nat.mod_lt n hm
    rw [Nat.add_mod, Nat.mod_eq_of_lt he] at h
    obtain hz | hz : n % m + e = 0 ∨ n % m + e = m := by
      obtain ⟨q, hq⟩ := Nat.dvd_of_mod_eq_zero h
      have hq2 : q < 2 := by
        by_contra hge
        have : m * 2 ≤ m * q := Nat.mul_le_mul_left m (by omega)
        omega
      obtain rfl | rfl : q = 0 ∨ q = 1 := by omega
      · exact .inl (by omega)
      · exact .inr (by omega)
    · rw [show n % m = 0 by omega, Nat.sub_zero, Nat.mod_self]
      omega
    · rw [show m - n % m = e by omega, Nat.mod_eq_of_lt he]
  rw [padding, hcount]

/-- Both codecs give every byte string back without a complaint. A text of their alphabet with less than
a group of signs behind it, that fills its groups and that they take without a complaint, is what they
write for the bytes they read: base 64 to the letter, base 32 in lower case. -/
theorem codecs_roundTrip :
    (∀ v, decodeBase64 (encodeBase64 v) = (v, false) ∧ decodeBase32 (encodeBase32 v) = (v, false)) ∧
    (∀ chars e, (∀ c ∈ chars, c ∈ pbase64) → e < 4 → (chars.length + e) % 4 = 0 →
      (decodeBase64 (chars ++ List.replicate e 0x3d)).2 = false →
      encodeBase64 (decodeBase64 (chars ++ List.replicate e 0x3d)).1 = chars ++ List.replicate e 0x3d) ∧
    (∀ chars e, (∀ c ∈ chars, lower c ∈ pbase32) → e < 8 → (chars.length + e) % 8 = 0 →
      (decodeBase32 (chars ++ List.replicate e 0x3d)).2 = false →
      encodeBase32 (decodeBase32 (chars ++ List.replicate e 0x3d)).1 =
        (chars ++ List.replicate e 0x3d).map lower) := by
  refine ⟨fun v => ⟨base64_isCodec.decode_encode (by decide) v, base32_isCodec.decode_encode (by decide) v⟩,
    fun chars e hchars he hlen hvalid => ?_, fun chars e hchars he hlen hvalid => ?_⟩
  · have hletters : ∀ c ∈ chars, IsLetter decode64_table c := fun c hc => isLetter_of_mem64 c (hchars c hc)
    rw [← padding_eq he hlen] at hvalid ⊢
    rw [base64_isCodec.encode_decode hletters (fun c hc => (isLetter64 (hletters c hc)).1) hvalid]
    congr 1
    refine (List.map_congr_left fun c hc => ?_).trans (List.map_id chars)
    exact (isLetter64 (hletters c hc)).2
  · have hletters : ∀ c ∈ chars, IsLetter decode32_table c := fun c hc => isLetter_of_lower32 (hchars c hc)
    rw [← padding_eq he hlen] at hvalid ⊢
    rw [base32_isCodec.encode_decode hletters (fun c hc => (isLetter32 (hletters c hc)).1) hvalid,
      List.map_append]
    congr 1
    · exact List.map_congr_left fun c hc => (isLetter32 (hletters c hc)).2
    · rw [padding, List.map_replicate]
      rfl

theorem zg_roundTrip :
    encodeBase64 (decodeBase64 (ascii "Zg" ++ List.replicate 2 0x3d)).1 = ascii "Zg" ++ List.replicate 2 0x3d :=
  codecs_roundTrip.2.1 (ascii "Zg") 2 (by decide +kernel) (by decide) (by decide) (by decide +kernel)

end Triangles.BaseCodec
