import Mathlib.Data.List.GetD
import Triangles.Model.SigCache

/-! `IsCanonicalSignature` accepts the distinguished encodings of pairs of numbers, each for one
pair, and reads no byte outside the signature. -/

namespace Triangles

theorem sign_clear (b : UInt8) : b &&& 0x80 = 0 ↔ b < 0x80 := by
  have hall : ∀ i : Fin 256, UInt8.ofNat i &&& 0x80 = 0 ↔ UInt8.ofNat i < 0x80 := by decide +kernel
  simpa using hall ⟨b.toNat, b.toNat_lt⟩

/-- The hash types: 1, 2 or 3, with or without the top bit. -/
theorem hashType_known (b : UInt8) :
    1 ≤ b &&& 0x7f ∧ b &&& 0x7f ≤ 3 ↔ b ∈ [1, 2, 3, 0x81, 0x82, 0x83] := by
  have hall : ∀ i : Fin 256, (1 ≤ UInt8.ofNat i &&& 0x7f ∧ UInt8.ofNat i &&& 0x7f ≤ 3 ↔
      UInt8.ofNat i ∈ [1, 2, 3, 0x81, 0x82, 0x83]) := by decide +kernel
  simpa using hall ⟨b.toNat, b.toNat_lt⟩

/-- The tests of a number of `nLen` bytes from place `i` on. -/
structure NumberAt (vchSig : valtype) (i nLen : Nat) : Prop where
  tag : vchSig.getD (i - 2) 0 = 0x02
  nonempty : nLen ≠ 0
  sign : vchSig.getD i 0 < 0x80
  padding : ¬ (1 < nLen ∧ vchSig.getD i 0 = 0 ∧ vchSig.getD (i + 1) 0 < 0x80)

/-- What `IsCanonicalSignature` asks, of the number of bytes of the two numbers. -/
structure CanonicalSig (nHeightBest : Int) (vchSig : valtype) (nLenR nLenS : Nat) : Prop where
  short : 9 ≤ vchSig.length
  long : vchSig.length ≤ 73
  hashType : vchSig.getD (vchSig.length - 1) 0 ∈ [1, 2, 3, 0x81, 0x82, 0x83]
  tag : vchSig.getD 0 0 = 0x30
  marker : (vchSig.getD 1 0).toNat = vchSig.length - 3
  lenS : 5 + nLenR < vchSig.length
  sum : nLenR + nLenS + 7 = vchSig.length
  numberR : NumberAt vchSig 4 nLenR
  numberS : NumberAt vchSig (6 + nLenR) nLenS
  high : ¬ (32 < nLenS ∧ CRAPCHAIN_CUTOFF_BLOCK < nHeightBest)

def lengthR (vchSig : valtype) : Nat := (vchSig.getD 3 0).toNat
def lengthS (vchSig : valtype) : Nat := (vchSig.getD (5 + lengthR vchSig) 0).toNat

theorem isCanonicalSignature_iff (nHeightBest : Int) (vchSig : valtype) :
    isCanonicalSignature nHeightBest vchSig = true ↔
      CanonicalSig nHeightBest vchSig (lengthR vchSig) (lengthS vchSig) := by
  have htag : 6 + lengthR vchSig - 2 = 4 + lengthR vchSig := by omega
  have htype := hashType_known (vchSig.getD (vchSig.length - 1) 0)
  unfold isCanonicalSignature
  simp only [Bool.and_eq_true, decide_eq_true_eq, beq_iff_eq, bne_iff_ne, Bool.not_eq_true',
    Bool.and_eq_false_iff, decide_eq_false_iff_not, beq_eq_false_iff_ne, ne_eq, sign_clear,
    Nat.add_zero, and_assoc]
  constructor
  · rintro ⟨hshort, hlong, htype1, htype2, h30, hmarker, hlenS, hsum, htagR, hneR, hsignR, hpadR,
      htagS, hneS, hsignS, hpadS, hhigh⟩
    exact ⟨hshort, hlong, htype.mp ⟨htype1, htype2⟩, h30, hmarker, hlenS, hsum,
      ⟨htagR, hneR, hsignR, by tauto⟩, ⟨htag ▸ htagS, hneS, hsignS, by tauto⟩, by tauto⟩
  · rintro ⟨hshort, hlong, hknown, h30, hmarker, hlenS, hsum, ⟨htagR, hneR, hsignR, hpadR⟩,
      ⟨htagS, hneS, hsignS, hpadS⟩, hhigh⟩
    obtain ⟨htype1, htype2⟩ := htype.mpr hknown
    rw [htag] at htagS
    exact ⟨hshort, hlong, htype1, htype2, h30, hmarker, hlenS, hsum, htagR, hneR, hsignR, by tauto,
      htagS, hneS, hsignS, by tauto, by tauto⟩

/-! The reads. -/

/-- Checks that end with the answer to a question, and not by a read outside. -/
inductive Answers (x : Except Fault Unit) (p : Prop) : Prop
  | yes (h : x = .ok ()) (hp : p)
  | no (h : x = .error .returnsFalse) (hp : ¬ p)

section Reads

variable {vchSig : valtype} {p q : Prop} {f : Except Fault Unit}

/-- A refusal says no; after it the rest answers. -/
theorem Answers.refuse [Decidable q] (hno : q → ¬ p) (hrest : ¬ q → Answers f p) :
    Answers (do refuseIf q; f) p := by
  unfold refuseIf
  split
  · rename_i hq
    exact .no rfl (hno hq)
  · rename_i hq
    exact hrest hq

theorem Answers.last [Decidable q] (h : q ↔ ¬ p) : Answers (refuseIf q) p := by
  unfold refuseIf
  split
  · rename_i hq
    exact .no rfl (h.mp hq)
  · rename_i hq
    exact .yes rfl (by_contra fun hp => hq (h.mpr hp))

theorem Answers.and {x : Except Fault Unit} (hx : Answers x q) (hno : ¬ q → ¬ p)
    (hrest : q → Answers f p) : Answers (do x; f) p := by
  cases hx with
  | yes h hq =>
    rw [h]
    exact hrest hq
  | no h hq =>
    rw [h]
    exact .no rfl (hno hq)

/-- A read inside the signature gives the byte. -/
theorem Answers.read {i : Nat} (h : i < vchSig.length) {g : UInt8 → Except Fault Unit}
    (hrest : Answers (g (vchSig.getD i 0)) p) : Answers (do g (← readAt vchSig i)) p := by
  have hread : readAt vchSig i = .ok (vchSig.getD i 0) := by
    rw [readAt, List.getElem?_eq_getElem h, List.getD_eq_getElem vchSig 0 h]
  rw [hread]
  exact hrest

/-- The tests of a number read inside the signature if it lies there. -/
theorem checkNumber_answers {i nLen : Nat} (h2 : 2 ≤ i) (hi : i + nLen < vchSig.length) :
    Answers (checkNumber vchSig i nLen) (NumberAt vchSig i nLen) := by
  unfold checkNumber
  refine .read (by omega) (.refuse (fun h hp => h hp.tag) fun htag => ?_)
  refine .refuse (fun h hp => hp.nonempty h) fun hne => ?_
  refine .read (by omega) (.refuse (fun h hp => h ((sign_clear _).mpr hp.sign)) fun hsign => ?_)
  rw [ne_eq, not_not] at htag hsign
  have hsign := (sign_clear _).mp hsign
  split
  · rename_i hlong
    refine .read (by omega) ?_
    split
    · rename_i hzero
      refine .read (by omega) (.last ⟨fun h hp => hp.padding ⟨hlong, hzero, (sign_clear _).mp h⟩,
        fun hp => ?_⟩)
      by_contra hlow
      exact hp ⟨htag, hne, hsign, fun h => hlow ((sign_clear _).mpr h.2.2)⟩
    · rename_i hzero
      exact .yes rfl ⟨htag, hne, hsign, fun h => hzero h.2.1⟩
  · rename_i hlong
    exact .yes rfl ⟨htag, hne, hsign, fun h => hlong h.1⟩

end Reads

/-- With every read where the source makes it, the answer is the same. -/
theorem readCanonicalSignature_answers (nHeightBest : Int) (vchSig : valtype) :
    Answers (readCanonicalSignature nHeightBest vchSig)
      (CanonicalSig nHeightBest vchSig (lengthR vchSig) (lengthS vchSig)) := by
  unfold readCanonicalSignature
  refine .refuse (fun h hp => absurd hp.short (by omega)) fun hshort => ?_
  refine .refuse (fun h hp => absurd hp.long (by omega)) fun hlong => ?_
  refine .read (by omega) (.refuse (fun h hp => ?_) fun htype => ?_)
  · have hknown := (hashType_known _).mpr hp.hashType
    rcases h with h | h
    · exact absurd hknown.1 (UInt8.not_le.mpr h)
    · exact absurd hknown.2 (UInt8.not_le.mpr h)
  refine .read (by omega) (.refuse (fun h hp => h hp.tag) fun htag => ?_)
  refine .read (by omega) (.refuse (fun h hp => h hp.marker) fun hmarker => ?_)
  refine .read (by omega) (.refuse (fun h hp => absurd hp.lenS (Nat.not_lt_of_le h)) fun hlenS => ?_)
  refine .read (by omega) (.refuse (fun h hp => h hp.sum) fun hsum => ?_)
  rw [ne_eq, not_not] at htag hmarker hsum
  have hknown := (hashType_known (vchSig.getD (vchSig.length - 1) 0)).mp
    ⟨UInt8.not_lt.mp fun h => htype (.inl h), UInt8.not_lt.mp fun h => htype (.inr h)⟩
  refine .and (checkNumber_answers (by decide) (by omega)) (fun h hp => h hp.numberR) fun hR => ?_
  refine .and (checkNumber_answers (by omega) (by omega)) (fun h hp => h hp.numberS) fun hS => ?_
  refine .last ⟨fun h hp => hp.high h, fun hp => ?_⟩
  by_contra hhigh
  exact hp ⟨by omega, by omega, hknown, htag, hmarker, by
    change 5 + (vchSig.getD 3 0).toNat < vchSig.length
    omega, hsum, hR, hS, hhigh⟩

theorem readCanonicalSignature_eq (nHeightBest : Int) (vchSig : valtype) :
    readCanonicalSignature nHeightBest vchSig =
      if isCanonicalSignature nHeightBest vchSig then .ok () else .error .returnsFalse := by
  cases readCanonicalSignature_answers nHeightBest vchSig with
  | yes h hp => rw [h, if_pos ((isCanonicalSignature_iff _ _).mpr hp)]
  | no h hp => rw [h, if_neg fun hc => hp ((isCanonicalSignature_iff _ _).mp hc)]

/-! The encoding. -/

/-- A string of bytes cut at the places where the numbers start and end. -/
def sigForm (b0 b1 b2 b3 : UInt8) (R : valtype) (c0 c1 : UInt8) (S : valtype) (t : UInt8) :
    valtype :=
  b0 :: b1 :: b2 :: b3 :: (R ++ c0 :: c1 :: (S ++ [t]))

section Form

variable {nHeightBest : Int} {b0 b1 b2 b3 c0 c1 t : UInt8} {R S : valtype}

theorem sigForm_length :
    (sigForm b0 b1 b2 b3 R c0 c1 S t).length = R.length + S.length + 7 := by
  simp only [sigForm, List.length_cons, List.length_append, List.length_nil]
  omega

theorem sigForm_R {i : Nat} (hi : i < R.length) :
    (sigForm b0 b1 b2 b3 R c0 c1 S t).getD (4 + i) 0 = R.getD i 0 := by
  rw [sigForm, Nat.add_comm]
  exact List.getD_append _ _ _ _ hi

theorem sigForm_tail (i : Nat) :
    (sigForm b0 b1 b2 b3 R c0 c1 S t).getD (4 + R.length + i) 0 =
      (c0 :: c1 :: (S ++ [t])).getD i 0 := by
  have hplace : 4 + R.length + i = R.length + i + 4 := by omega
  rw [sigForm, hplace]
  change (R ++ c0 :: c1 :: (S ++ [t])).getD (R.length + i) 0 = _
  rw [List.getD_append_right _ _ _ _ (Nat.le_add_right _ _), Nat.add_sub_cancel_left]

theorem sigForm_S {i : Nat} (hi : i < S.length) :
    (sigForm b0 b1 b2 b3 R c0 c1 S t).getD (6 + R.length + i) 0 = S.getD i 0 := by
  have hplace : 6 + R.length + i = 4 + R.length + (i + 2) := by omega
  rw [hplace, sigForm_tail]
  exact List.getD_append _ _ _ _ hi

theorem sigForm_last :
    (sigForm b0 b1 b2 b3 R c0 c1 S t).getD (R.length + S.length + 6) 0 = t := by
  have hplace : R.length + S.length + 6 = 4 + R.length + (S.length + 2) := by omega
  rw [hplace, sigForm_tail]
  change (S ++ [t]).getD S.length 0 = t
  rw [List.getD_append_right _ _ _ _ (le_refl _), Nat.sub_self]
  rfl

/-- A number at its place is the minimal contents there. -/
theorem sigForm_numberR :
    NumberAt (sigForm b0 b1 b2 b3 R c0 c1 S t) 4 R.length ↔ b2 = 0x02 ∧ MinimalContent R := by
  constructor
  · rintro ⟨htag, hne, hsign, hpad⟩
    rw [← Nat.add_zero 4, sigForm_R (by omega)] at hsign hpad
    refine ⟨htag, hne, hsign, fun h => hpad ⟨h.1, h.2.1, ?_⟩⟩
    rw [Nat.add_zero, sigForm_R h.1]
    exact h.2.2
  · rintro ⟨htag, hne, hsign, hpad⟩
    have hzero : (sigForm b0 b1 b2 b3 R c0 c1 S t).getD 4 0 = R.getD 0 0 :=
      sigForm_R (i := 0) (by omega)
    refine ⟨htag, hne, hzero ▸ hsign, fun h => hpad ⟨h.1, hzero ▸ h.2.1, ?_⟩⟩
    rw [← sigForm_R h.1]
    exact h.2.2

theorem sigForm_numberS :
    NumberAt (sigForm b0 b1 b2 b3 R c0 c1 S t) (6 + R.length) S.length ↔
      c0 = 0x02 ∧ MinimalContent S := by
  have htagAt : (sigForm b0 b1 b2 b3 R c0 c1 S t).getD (6 + R.length - 2) 0 = c0 := by
    have hplace : 6 + R.length - 2 = 4 + R.length + 0 := by omega
    rw [hplace, sigForm_tail]
    rfl
  constructor
  · rintro ⟨htag, hne, hsign, hpad⟩
    rw [← Nat.add_zero (6 + R.length), sigForm_S (by omega)] at hsign hpad
    refine ⟨htagAt ▸ htag, hne, hsign, fun h => hpad ⟨h.1, h.2.1, ?_⟩⟩
    rw [Nat.add_zero, sigForm_S h.1]
    exact h.2.2
  · rintro ⟨htag, hne, hsign, hpad⟩
    have hzero : (sigForm b0 b1 b2 b3 R c0 c1 S t).getD (6 + R.length) 0 = S.getD 0 0 :=
      sigForm_S (i := 0) (by omega)
    refine ⟨htagAt.trans htag, hne, hzero ▸ hsign, fun h => hpad ⟨h.1, hzero ▸ h.2.1, ?_⟩⟩
    rw [← sigForm_S h.1]
    exact h.2.2

theorem sigForm_lengthS (hR : b3.toNat = R.length) :
    lengthS (sigForm b0 b1 b2 b3 R c0 c1 S t) = c1.toNat := by
  have hplace : 5 + lengthR (sigForm b0 b1 b2 b3 R c0 c1 S t) = 4 + R.length + 1 := by
    change 5 + b3.toNat = 4 + R.length + 1
    omega
  rw [lengthS, hplace, sigForm_tail]
  rfl

/-- What `IsCanonicalSignature` asks of the parts. -/
theorem sigForm_canonical :
    CanonicalSig nHeightBest (sigForm b0 b1 b2 b3 R c0 c1 S t) R.length S.length ↔
      b0 = 0x30 ∧ b1.toNat = R.length + S.length + 4 ∧ (b2 = 0x02 ∧ MinimalContent R) ∧
        (c0 = 0x02 ∧ MinimalContent S) ∧ R.length + S.length + 7 ≤ 73 ∧
        t ∈ [1, 2, 3, 0x81, 0x82, 0x83] ∧
        ¬ (32 < S.length ∧ CRAPCHAIN_CUTOFF_BLOCK < nHeightBest) := by
  have hlast : (sigForm b0 b1 b2 b3 R c0 c1 S t).getD
      ((sigForm b0 b1 b2 b3 R c0 c1 S t).length - 1) 0 = t := by
    rw [sigForm_length]
    exact sigForm_last
  constructor
  · rintro ⟨_, hlong, htype, htag, hmarker, _, _, hnumR, hnumS, hhigh⟩
    rw [sigForm_length] at hlong
    rw [hlast] at htype
    have hmarker : b1.toNat = (sigForm b0 b1 b2 b3 R c0 c1 S t).length - 3 := hmarker
    rw [sigForm_length] at hmarker
    exact ⟨htag, by omega, sigForm_numberR.mp hnumR, sigForm_numberS.mp hnumS, hlong, htype, hhigh⟩
  · rintro ⟨htag, hmarker, hnumR, hnumS, hlong, htype, hhigh⟩
    have hneR := hnumR.2.nonempty
    have hneS := hnumS.2.nonempty
    refine ⟨?_, ?_, hlast.symm ▸ htype, htag, ?_, ?_, ?_, sigForm_numberR.mpr hnumR,
      sigForm_numberS.mpr hnumS, hhigh⟩
    · rw [sigForm_length]
      omega
    · rw [sigForm_length]
      exact hlong
    · rw [sigForm_length]
      exact hmarker.trans (by omega)
    · rw [sigForm_length]
      omega
    · rw [sigForm_length]

end Form

/-- A long enough string can be cut where the announced lengths say. -/
theorem exists_sigForm {v : valtype} {nR nS : Nat} (hlen : nR + nS + 7 = v.length) :
    ∃ b0 b1 b2 b3 R c0 c1 S t, v = sigForm b0 b1 b2 b3 R c0 c1 S t ∧ R.length = nR ∧
      S.length = nS := by
  match v with
  | [] | [_] | [_, _] | [_, _, _] =>
    simp only [List.length_cons, List.length_nil] at hlen
    omega
  | b0 :: b1 :: b2 :: b3 :: w =>
    simp only [List.length_cons] at hlen
    have htail : (w.drop nR).length = nS + 3 := by
      rw [List.length_drop]
      omega
    match hw : w.drop nR with
    | [] | [_] =>
      rw [hw] at htail
      simp only [List.length_cons, List.length_nil] at htail
      omega
    | c0 :: c1 :: x =>
      rw [hw] at htail
      simp only [List.length_cons] at htail
      have hlast : (x.drop nS).length = 1 := by
        rw [List.length_drop]
        omega
      obtain ⟨t, ht⟩ := List.length_eq_one_iff.mp hlast
      refine ⟨b0, b1, b2, b3, w.take nR, c0, c1, x.take nS, t, ?_, ?_, ?_⟩
      · rw [sigForm, ← ht, List.take_append_drop, ← hw, List.take_append_drop]
      · rw [List.length_take]
        omega
      · rw [List.length_take]
        omega

theorem encodeSig_form {r s : Nat} (nHashType : UInt8)
    (h : (derContent r).length + (derContent s).length + 4 < 128) :
    encodeSig r s nHashType =
      sigForm 0x30 (UInt8.ofNat ((derContent r).length + (derContent s).length + 4)) 0x02
        (UInt8.ofNat (derContent r).length) (derContent r) 0x02
        (UInt8.ofNat (derContent s).length) (derContent s) nHashType := by
  rw [encodeSig, derPair_short h, sigForm]
  simp only [List.cons_append, List.append_assoc]

theorem encodeSig_short {r s : Nat} {nHashType : UInt8}
    (h : (encodeSig r s nHashType).length ≤ 73) :
    (derContent r).length + (derContent s).length + 4 < 128 := by
  have hpair := derPair_length r s
  rw [encodeSig, List.length_append, List.length_singleton] at h
  omega

theorem decodeSig_eq (v : valtype) :
    decodeSig v = (beValue ((v.drop 4).take (lengthR v)),
      beValue ((v.drop (6 + lengthR v)).take (lengthS v)), v.getLastD 0) := rfl

/-- The parts of a string whose lengths stand where they should are found again. -/
theorem decodeSig_form {b0 b1 b2 b3 c0 c1 t : UInt8} {R S : valtype} (hR : b3.toNat = R.length)
    (hS : c1.toNat = S.length) :
    decodeSig (sigForm b0 b1 b2 b3 R c0 c1 S t) = (beValue R, beValue S, t) := by
  have hlenR : lengthR (sigForm b0 b1 b2 b3 R c0 c1 S t) = R.length := hR
  have hlenS : lengthS (sigForm b0 b1 b2 b3 R c0 c1 S t) = S.length :=
    (sigForm_lengthS hR).trans hS
  have hcutR : ((sigForm b0 b1 b2 b3 R c0 c1 S t).drop 4).take R.length = R :=
    List.take_left
  have hcutS : ((sigForm b0 b1 b2 b3 R c0 c1 S t).drop (6 + R.length)).take S.length = S := by
    have hplace : 6 + R.length = 4 + (R.length + 2) := by omega
    rw [hplace, ← List.drop_drop]
    change ((R ++ c0 :: c1 :: (S ++ [t])).drop (R.length + 2)).take S.length = S
    rw [← List.drop_drop, List.drop_left]
    exact List.take_left
  have hlast : (sigForm b0 b1 b2 b3 R c0 c1 S t).getLastD 0 = t := by
    have hsnoc : sigForm b0 b1 b2 b3 R c0 c1 S t =
        (b0 :: b1 :: b2 :: b3 :: (R ++ c0 :: c1 :: S)) ++ [t] := by
      simp only [sigForm, List.cons_append, List.append_assoc]
    rw [hsnoc, List.getLastD_concat]
  rw [decodeSig_eq, hlenR, hlenS, hcutR, hcutS, hlast]

theorem decodeSig_encodeSig {r s : Nat} {nHashType : UInt8}
    (h : (encodeSig r s nHashType).length ≤ 73) :
    decodeSig (encodeSig r s nHashType) = (r, s, nHashType) := by
  have hshort := encodeSig_short h
  have hbyte : ∀ n, n < 256 → (UInt8.ofNat n).toNat = n := by
    intro n hn
    rw [UInt8.toNat_ofNat', Nat.mod_eq_of_lt hn]
  rw [encodeSig_form nHashType hshort, decodeSig_form (hbyte _ (by omega)) (hbyte _ (by omega)),
    beValue_derContent, beValue_derContent]

/-- An accepted signature is the encoding of the numbers and the type in it. -/
theorem canonical_encodes {nHeightBest : Int} {v : valtype}
    (h : isCanonicalSignature nHeightBest v = true) :
    v = encodeSig (decodeSig v).1 (decodeSig v).2.1 (decodeSig v).2.2 ∧
      (decodeSig v).2.2 ∈ [1, 2, 3, 0x81, 0x82, 0x83] ∧ 9 ≤ v.length ∧ v.length ≤ 73 ∧
      ¬ (32 < (derContent (decodeSig v).2.1).length ∧ CRAPCHAIN_CUTOFF_BLOCK < nHeightBest) := by
  have hc := (isCanonicalSignature_iff _ _).mp h
  obtain ⟨b0, b1, b2, b3, R, c0, c1, S, t, hv, hR, hS⟩ := exists_sigForm hc.sum
  rw [← hR, ← hS] at hc
  subst hv
  have hlenR : b3.toNat = R.length := hR.symm
  have hlenS : c1.toNat = S.length := ((sigForm_lengthS hlenR).symm.trans hS.symm)
  obtain ⟨rfl, hmarker, ⟨rfl, hminR⟩, ⟨rfl, hminS⟩, hlong, htype, hhigh⟩ := sigForm_canonical.mp hc
  have hbyte : ∀ (b : UInt8) (n : Nat), b.toNat = n → b = UInt8.ofNat n := by
    rintro b n rfl
    exact UInt8.ofNat_toNat.symm
  rw [decodeSig_form hlenR hlenS, derContent_beValue hminS]
  refine ⟨?_, htype, ?_, ?_, hhigh⟩
  · rw [encodeSig_form _ (by rw [derContent_beValue hminR, derContent_beValue hminS]; omega),
      derContent_beValue hminR, derContent_beValue hminS, ← hbyte _ _ hmarker, ← hbyte _ _ hlenR,
      ← hbyte _ _ hlenS]
  · exact hc.short
  · exact hc.long

/-- `IsCanonicalSignature` accepts a byte string if and only if it is the minimal encoding of a
pair of nonnegative numbers and a known hash type, of the allowed length. Such a string is that
of one triple, the triple at its places determines the string, and no byte outside it is read. -/
theorem canonical_signature_strict {nHeightBest : Int} (hh : CRAPCHAIN_CUTOFF_BLOCK < nHeightBest)
    (v : valtype) :
    (isCanonicalSignature nHeightBest v = true ↔
      ∃ r s nHashType, v = encodeSig r s nHashType ∧
        nHashType ∈ [1, 2, 3, 0x81, 0x82, 0x83] ∧ 9 ≤ v.length ∧ v.length ≤ 73 ∧
        (derContent s).length ≤ 32) ∧
    (isCanonicalSignature nHeightBest v = true →
      ∃! p : Nat × Nat × UInt8, v = encodeSig p.1 p.2.1 p.2.2) ∧
    (∀ v', isCanonicalSignature nHeightBest v = true → isCanonicalSignature nHeightBest v' = true →
      decodeSig v = decodeSig v' → v = v') ∧
    readCanonicalSignature nHeightBest v =
      if isCanonicalSignature nHeightBest v then .ok () else .error .returnsFalse := by
  refine ⟨⟨fun h => ?_, ?_⟩, fun h => ?_, fun v' h h' hsame => ?_,
    readCanonicalSignature_eq nHeightBest v⟩
  · obtain ⟨hv, htype, hshort, hlong, hhigh⟩ := canonical_encodes h
    exact ⟨_, _, _, hv, htype, hshort, hlong, by omega⟩
  · rintro ⟨r, s, nHashType, hv, htype, hshort, hlong, hs⟩
    have hbound := encodeSig_short (hv ▸ hlong)
    have hbyte : ∀ n, n < 256 → (UInt8.ofNat n).toNat = n := by
      intro n hn
      rw [UInt8.toNat_ofNat', Nat.mod_eq_of_lt hn]
    have hlen : (encodeSig r s nHashType).length =
        (derContent r).length + (derContent s).length + 7 := by
      rw [encodeSig_form _ hbound, sigForm_length]
    have hlenR := hbyte (derContent r).length (by omega)
    have hlenS := hbyte (derContent s).length (by omega)
    rw [hv, hlen] at hlong
    rw [hv, isCanonicalSignature_iff, encodeSig_form _ hbound, sigForm_lengthS hlenR, hlenS]
    have hfirst : ∀ b0 b1 b2 R c0 c1 S t, lengthR (sigForm b0 b1 b2
        (UInt8.ofNat (derContent r).length) R c0 c1 S t) = (derContent r).length :=
      fun _ _ _ _ _ _ _ _ => hlenR
    rw [hfirst]
    exact sigForm_canonical.mpr ⟨rfl, hbyte _ (by omega), ⟨rfl, derContent_minimal r⟩,
      ⟨rfl, derContent_minimal s⟩, hlong, htype, fun h => absurd hs (by omega)⟩
  · obtain ⟨hv, _, _, hlong, _⟩ := canonical_encodes h
    refine ⟨decodeSig v, hv, ?_⟩
    rintro ⟨r, s, nHashType⟩ hother
    have hdecode := decodeSig_encodeSig (hother ▸ hlong)
    rw [← hother] at hdecode
    exact hdecode.symm
  · rw [(canonical_encodes h).1, (canonical_encodes h').1, hsame]

/-- The largest numbers that are accepted, with a zero byte in front of the first. -/
theorem longest_signature_accepted :
    isCanonicalSignature 20000 (encodeSig (2 ^ 256 - 1) (2 ^ 255 - 1) 0x81) = true := by
  refine (canonical_signature_strict (by decide) _).1.mpr ⟨_, _, _, rfl, ?_, ?_, ?_, ?_⟩
  · decide
  · decide
  · decide
  · decide

/-- One byte more in the second number is too many. -/
example : isCanonicalSignature 20000 (encodeSig (2 ^ 255) (2 ^ 255) 1) = false := by decide

end Triangles

/-! The cache of valid signatures changes no answer of `CheckSig`, and stays near its limit. -/

namespace Triangles

open ByteOrder

theorem KeyOps.check_of_setPubKey {K : Type} {ops : KeyOps K} {vchPubKey : List UInt8} {key : K}
    (h : ops.setPubKey vchPubKey = some key) (hash : uint256) (vchSig : List UInt8) :
    ops.check vchPubKey hash vchSig = ops.verify key hash vchSig := by
  rw [KeyOps.check, h]

section SigCache

variable {K : Type} (ops : KeyOps K) (env : ScriptEnv) (nMaxCacheSize : Int)

def ValidSig (entry : SigData) : Prop :=
  ops.check (ofLex (ofLex entry).2).2 (ofLex entry).1 (ofLex (ofLex entry).2).1 = true

/-- `max(limit, 0) + 1` entries at most, each of them verified. -/
def CacheOk (c : CSignatureCache) : Prop :=
  Memo (ValidSig ops) ((max nMaxCacheSize 0).toNat + 1) c.setValid

variable {ops nMaxCacheSize}

theorem CacheOk.get {c : CSignatureCache} (h : CacheOk ops nMaxCacheSize c) {hash : uint256}
    {vchSig pubKey : List UInt8} (hget : c.get hash vchSig pubKey = true) :
    ops.check pubKey hash vchSig = true :=
  h.good _ (of_decide_eq_true hget)

theorem CacheOk.set {c : CSignatureCache} (h : CacheOk ops nMaxCacheSize c) {hash : uint256}
    {vchSig pubKey : List UInt8} (hvalid : ops.check pubKey hash vchSig = true)
    (getRandHash : Nat → uint256) :
    CacheOk ops nMaxCacheSize (c.set nMaxCacheSize getRandHash hash vchSig pubKey) := by
  unfold CSignatureCache.set
  split
  · exact h
  · rename_i hpos
    have hlimit : ((max nMaxCacheSize 0).toNat : Int) = nMaxCacheSize := by omega
    have hremember := Memo.remember h (show ValidSig ops (sigData hash vchSig pubKey) from hvalid)
      (fun n => sigData (getRandHash n) [] [])
    rw [hlimit] at hremember
    exact hremember

/-- One call gives the uncached answer. It caches a signature only once it has verified it. -/
theorem checkSigCached_spec {c : CSignatureCache} (h : CacheOk ops nMaxCacheSize c)
    (call : SigCall) :
    (checkSigCached ops env nMaxCacheSize call c).1 = uncached ops env call ∧
      CacheOk ops nMaxCacheSize (checkSigCached ops env nMaxCacheSize call c).2 := by
  unfold checkSigCached uncached checkSig
  cases call.vchSig.getLast? with
  | none => exact ⟨rfl, h⟩
  | some back =>
    dsimp only
    split
    · exact ⟨rfl, h⟩
    · split
      · -- the triple is in the cache, so an earlier call has verified it
        rename_i hget
        exact ⟨(h.get hget).symm, h⟩
      · cases hkey : ops.setPubKey call.vchPubKey with
        | none =>
          simp only [KeyOps.check, hkey]
          exact ⟨trivial, h⟩
        | some key =>
          dsimp only
          split
          · rename_i hverify
            have hvalid := (KeyOps.check_of_setPubKey hkey _ _).trans hverify
            exact ⟨hvalid.symm, h.set hvalid call.getRandHash⟩
          · rename_i hverify
            rw [← KeyOps.check_of_setPubKey hkey, Bool.not_eq_true] at hverify
            exact ⟨hverify.symm, h⟩

theorem checkSigs_spec (calls : List SigCall) {c : CSignatureCache}
    (h : CacheOk ops nMaxCacheSize c) :
    (checkSigs ops env nMaxCacheSize calls c).1 = calls.map (uncached ops env) ∧
      CacheOk ops nMaxCacheSize (checkSigs ops env nMaxCacheSize calls c).2 := by
  induction calls generalizing c with
  | nil => exact ⟨rfl, h⟩
  | cons call calls ih =>
    obtain ⟨hanswer, hafter⟩ := checkSigCached_spec env h call
    obtain ⟨hanswers, hlast⟩ := ih hafter
    unfold checkSigs
    exact ⟨congrArg₂ List.cons hanswer hanswers, hlast⟩

end SigCache

/-- Over every history of calls each answer is that of `CheckSig` without its cache, and the cache
never holds more than one entry above its limit. -/
theorem signature_cache_transparent {K : Type} (ops : KeyOps K) (env : ScriptEnv)
    (nMaxCacheSize : Int) (calls : List SigCall) :
    (checkSigs ops env nMaxCacheSize calls {}).1 = calls.map (uncached ops env) ∧
      ((checkSigs ops env nMaxCacheSize calls {}).2.setValid.card : Int) ≤
        max nMaxCacheSize 0 + 1 := by
  obtain ⟨hanswers, hlast⟩ :=
    checkSigs_spec env calls (Memo.empty (ValidSig ops) ((max nMaxCacheSize 0).toNat + 1))
  refine ⟨hanswers, ?_⟩
  have hcard := hlast.card_le
  omega

end Triangles
