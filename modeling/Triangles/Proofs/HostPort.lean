import Mathlib.Computability.Language
import Triangles.Model.UtilText
import Triangles.Proofs.BaseCodec

/-! Host and port of a text: which colon is the separator, and what becomes of the number behind it. -/

namespace Triangles.HostPort

open Decimal

variable {input host text t : List UInt8} {portOut v : Int} {c : UInt8} {i : Nat}

/-! Integers as text. -/

/-- A text that is a decimal integer for `strtol`: white space, a sign and digits. -/
def IsInteger (text : List UInt8) (v : Int) : Prop :=
  ∃ blanks sign digits, text = blanks ++ sign ++ digits ∧ (∀ b ∈ blanks, isSpace b = true) ∧
    (sign = [] ∨ sign = [0x2b] ∨ sign = [0x2d]) ∧ digits ≠ [] ∧ (∀ d ∈ digits, isDigit d = true) ∧
    v = if sign = [0x2d] then -(digitsValue digits : Int) else digitsValue digits

theorem not_isSpace_of_isDigit (h : isDigit c = true) : isSpace c = false := by
  simp only [isDigit, isSpace, decide_eq_true_eq, Bool.or_eq_false_iff, beq_eq_false_iff_ne,
    decide_eq_false_iff_not, UInt8.le_iff_toNat_le] at h ⊢
  refine ⟨?_, fun h' => ?_⟩
  · rintro rfl
    exact absurd h.1 (by decide)
  · have := h.1.trans h'.2
    exact absurd this (by decide)

theorem ne_zero_of_isDigit (h : isDigit c = true) : c ≠ 0 := by
  rintro rfl
  cases h

theorem ne_zero_of_isSpace (h : isSpace c = true) : c ≠ 0 := by
  rintro rfl
  cases h

/-- Sign and digits, with no blank in front. -/
theorem unsigned_digits {sign digits : List UInt8} (hsign : sign = [] ∨ sign = [0x2b] ∨ sign = [0x2d])
    (hdigits : digits ≠ []) (hall : ∀ d ∈ digits, isDigit d = true) :
    unsigned (sign ++ digits) = digits ∧ (sign ++ digits).dropWhile isSpace = sign ++ digits ∧
      readInt (sign ++ digits) = if sign = [0x2d] then -(digitsValue digits : Int) else digitsValue digits := by
  have htake : digits.takeWhile isDigit = digits := List.takeWhile_eq_self_iff.mpr hall
  obtain ⟨d, rest, rfl⟩ := List.exists_cons_of_ne_nil hdigits
  have hd := hall d List.mem_cons_self
  have hspace := not_isSpace_of_isDigit hd
  rcases hsign with rfl | rfl | rfl
  · have hplus : d ≠ 0x2b := by rintro rfl; cases hd
    have hminus : d ≠ 0x2d := by rintro rfl; cases hd
    have hunsigned : unsigned ([] ++ d :: rest) = d :: rest := by simp [unsigned, hplus, hminus]
    refine ⟨hunsigned, by simp [hspace], ?_⟩
    rw [readInt, hunsigned, htake]
    simp [hminus]
  · refine ⟨by simp [unsigned], rfl, ?_⟩
    simp [readInt, unsigned, htake]
  · refine ⟨by simp [unsigned], rfl, ?_⟩
    simp [readInt, unsigned, htake]

theorem dropWhile_blanks {blanks rest : List UInt8} (h : ∀ b ∈ blanks, isSpace b = true) :
    (blanks ++ rest).dropWhile isSpace = rest.dropWhile isSpace := by
  induction blanks with
  | nil => rfl
  | cons b blanks ih =>
    have hb := h b List.mem_cons_self
    simp [hb, ih fun d hd => h d (List.mem_cons_of_mem b hd)]

/-- The integer that `strtol` reads, without the bounds of `long`. -/
theorem IsInteger.readInt_eq (h : IsInteger t v) : readInt (t.dropWhile isSpace) = v := by
  obtain ⟨blanks, sign, digits, rfl, hblanks, hsign, hdigits, hall, rfl⟩ := h
  obtain ⟨-, hskip, hread⟩ := unsigned_digits hsign hdigits hall
  rw [List.append_assoc, dropWhile_blanks hblanks, hskip, hread]

theorem IsInteger.unique {w : Int} (h : IsInteger t v) (h' : IsInteger t w) : v = w :=
  h.readInt_eq.symm.trans h'.readInt_eq

def clamp (v : Int) : Int := max (-2 ^ 63) (min (2 ^ 63 - 1) v)

theorem strtol_of_isInteger (h : IsInteger t v) : strtol t = (clamp v, []) := by
  have hvalue := h.readInt_eq
  obtain ⟨blanks, sign, digits, rfl, hblanks, hsign, hdigits, hall, -⟩ := h
  obtain ⟨hunsigned, hskip, -⟩ := unsigned_digits hsign hdigits hall
  have hnumber : (blanks ++ sign ++ digits).dropWhile isSpace = sign ++ digits := by
    rw [List.append_assoc, dropWhile_blanks hblanks, hskip]
  have htake : digits.takeWhile isDigit = digits := List.takeWhile_eq_self_iff.mpr hall
  have hdrop : digits.dropWhile isDigit = [] := List.dropWhile_eq_nil_iff.mpr hall
  simp only [strtol, hvalue]
  rw [hnumber, hunsigned, htake, if_neg hdigits, hdrop]
  rfl

/-- When `strtol` reads everything, there is nothing to read or it is an integer. -/
theorem isInteger_of_strtol (h : (strtol t).2 = []) : t = [] ∨ ∃ v, IsInteger t v := by
  unfold strtol at h
  dsimp only at h
  split_ifs at h with hnone
  · exact .inl h
  · right
    have hsplit : t = t.takeWhile isSpace ++ t.dropWhile isSpace := List.takeWhile_append_dropWhile.symm
    have hsigned : ∃ sign, (sign = [] ∨ sign = [0x2b] ∨ sign = [0x2d]) ∧
        t.dropWhile isSpace = sign ++ unsigned (t.dropWhile isSpace) := by
      unfold unsigned
      split_ifs with hsign
      · cases hrest : t.dropWhile isSpace with
        | nil => exact ⟨[], .inl rfl, rfl⟩
        | cons c rest =>
          rw [hrest] at hsign
          refine ⟨[c], .inr ?_, rfl⟩
          simpa using hsign
      · exact ⟨[], .inl rfl, rfl⟩
    obtain ⟨sign, hsign, heq⟩ := hsigned
    have hall : ∀ d ∈ unsigned (t.dropWhile isSpace), isDigit d = true := List.dropWhile_eq_nil_iff.mp h
    have hne : unsigned (t.dropWhile isSpace) ≠ [] := fun hnil => hnone (by rw [hnil]; rfl)
    refine ⟨_, t.takeWhile isSpace, sign, unsigned (t.dropWhile isSpace), ?_, ?_, hsign, hne, hall, rfl⟩
    · rw [List.append_assoc, ← heq]
      exact hsplit
    · exact fun b hb => List.mem_takeWhile_imp hb

/-! The separator. -/

theorem findLastOf_eq_none : findLastOf c input = none ↔ c ∉ input := by
  simp only [findLastOf, Option.map_eq_none_iff, List.findIdx?_eq_none_iff, List.mem_reverse,
    decide_eq_false_iff_not]
  exact ⟨fun h hc => h c hc rfl, fun h d hd he => h (he ▸ hd)⟩

theorem findLastOf_append (h : c ∉ text) : findLastOf c (host ++ c :: text) = some host.length := by
  have hfind : (host ++ c :: text).reverse.findIdx? (fun d => d = c) = some text.length := by
    rw [List.reverse_append, List.reverse_cons, List.append_assoc, List.singleton_append,
      List.findIdx?_append, List.findIdx?_eq_none_iff.mpr]
    · simp [List.findIdx?_cons]
    · intro d hd
      rw [decide_eq_false_iff_not]
      rintro rfl
      exact h (List.mem_reverse.mp hd)
  rw [findLastOf, hfind, Option.map_some, List.length_append, List.length_cons]
  congr 1
  omega

theorem exists_last (h : c ∈ input) : ∃ host text, input = host ++ c :: text ∧ c ∉ text := by
  induction input with
  | nil => cases h
  | cons d input ih =>
    by_cases hmem : c ∈ input
    · obtain ⟨host, text, rfl, htext⟩ := ih hmem
      exact ⟨d :: host, text, rfl, htext⟩
    · obtain rfl | h := List.mem_cons.mp h
      · exact ⟨[], input, rfl, hmem⟩
      · exact absurd h hmem

theorem last_unique {host' text' : List UInt8} (h : c ∉ text) (h' : c ∉ text')
    (heq : host ++ c :: text = host' ++ c :: text') : host = host' ∧ text = text' := by
  have hlen : host.length = host'.length := by
    have hfound : findLastOf c (host ++ c :: text) = some host.length := findLastOf_append h
    rw [heq, findLastOf_append h'] at hfound
    exact (Option.some.inj hfound).symm
  obtain ⟨hhost, htext⟩ := List.append_inj heq hlen
  exact ⟨hhost, (List.cons.inj htext).2⟩

def IsBracketed (host : List UInt8) : Prop := ∃ inner, host = 0x5b :: inner ++ [0x5d]

/-- The last colon of the text separates a port: it comes first, or follows a host in brackets, or is the
only one. -/
def Separated (input host text : List UInt8) : Prop :=
  input = host ++ 0x3a :: text ∧ 0x3a ∉ text ∧ (host = [] ∨ IsBracketed host ∨ 0x3a ∉ host)

theorem Separated.unique {host' text' : List UInt8} (h : Separated input host text)
    (h' : Separated input host' text') : host = host' ∧ text = text' :=
  last_unique h.2.1 h'.2.1 (h.1.symm.trans h'.1)

/-- The test of the brackets, on a text or on what comes before its colon. -/
theorem isBracketed_iff (rest : List UInt8) : IsBracketed host ↔ 0 < host.length ∧
    charAt (host ++ rest) 0 = 0x5b ∧ charAt (host ++ rest) (host.length - 1) = 0x5d := by
  constructor
  · rintro ⟨inner, rfl⟩
    simp [charAt]
  · rintro ⟨hpos, hfirst, hlast⟩
    obtain ⟨c, host, rfl⟩ := List.exists_cons_of_length_pos hpos
    have hc : c = 0x5b := by simpa [charAt] using hfirst
    subst hc
    cases host using List.reverseRecOn with
    | nil => simp [charAt] at hlast
    | append_singleton inner d =>
      have hd : d = 0x5d := by simpa [charAt] using hlast
      exact ⟨inner, by simp [hd]⟩

/-- What is left without one pair of brackets. -/
def unbracket (host : List UInt8) : List UInt8 :=
  if 0 < host.length ∧ charAt host 0 = 0x5b ∧ charAt host (host.length - 1) = 0x5d then
    (host.drop 1).take (host.length - 2)
  else host

def portNumber (text : List UInt8) : Option Int :=
  let (long, endp) := strtol (cStr text)
  if endp = [] ∧ 0 ≤ toInt32 long then some (toInt32 long) else none

/-- The condition in front of `strtol`. -/
theorem separated_iff (htext : 0x3a ∉ text) :
    (host.length = 0 ∨ (charAt (host ++ 0x3a :: text) 0 = 0x5b ∧
        charAt (host ++ 0x3a :: text) (host.length - 1) = 0x5d) ∨
      (findLastOf 0x3a (if host.length = 0 then host ++ 0x3a :: text
        else (host ++ 0x3a :: text).take host.length)).isSome = false) ↔
    Separated (host ++ 0x3a :: text) host text := by
  simp only [Separated, htext, not_false_eq_true, true_and, List.length_eq_zero_iff,
    isBracketed_iff (0x3a :: text)]
  by_cases hempty : host = []
  · simp [hempty]
  · have hpos : 0 < host.length := List.length_pos_iff.mpr hempty
    simp only [hempty, hpos, if_false, false_or, true_and, List.take_left, Option.isSome_eq_false_iff,
      Option.isNone_iff_eq_none, findLastOf_eq_none]

theorem splitHostPort_separated (h : Separated input host text) : splitHostPort input portOut =
    match portNumber text with
    | none => (portOut, unbracket input)
    | some n => (if 0 < n ∧ n < 0x10000 then n else portOut, unbracket host) := by
  have heq := h.1
  subst heq
  have hdrop : (host ++ 0x3a :: text).drop (host.length + 1) = text := by simp
  simp only [splitHostPort, findLastOf_append h.2.1, if_pos ((separated_iff h.2.1).mpr h)]
  simp only [hdrop, List.take_left, portNumber]
  by_cases hn : (strtol (cStr text)).2 = [] ∧ 0 ≤ toInt32 (strtol (cStr text)).1
  · simp only [if_pos hn]
    rfl
  · simp only [if_neg hn]
    rfl

theorem splitHostPort_unseparated (h : ¬ ∃ host text, Separated input host text) :
    splitHostPort input portOut = (portOut, unbracket input) := by
  by_cases hcolon : 0x3a ∈ input
  · obtain ⟨host, text, rfl, htext⟩ := exists_last hcolon
    have hnot : ¬ Separated (host ++ 0x3a :: text) host text := fun hsep => h ⟨host, text, hsep⟩
    simp only [splitHostPort, findLastOf_append htext, if_neg (mt (separated_iff htext).mp hnot)]
    rfl
  · simp only [splitHostPort, findLastOf_eq_none.mpr hcolon]
    rfl

/-! What the text says. -/

/-- The text has a port: the integer behind its separating colon is from 1 to 65535. -/
def IsPort (input : List UInt8) (v : Int) : Prop :=
  ∃ host text, Separated input host text ∧ IsInteger text v ∧ 1 ≤ v ∧ v ≤ 65535

/-- The port is that of the text, and stays as it was when the text has none. -/
def RightPort (input : List UInt8) (portOut port : Int) : Prop :=
  (∀ v, IsPort input v → port = v) ∧ ((¬ ∃ v, IsPort input v) → port = portOut)

/-- A suffix that counts as a port: nothing, or an integer that is not negative as an `int`. -/
def Recognized (text : List UInt8) : Prop :=
  cStr text = [] ∨ ∃ v, IsInteger (cStr text) v ∧ 0 ≤ toInt32 (clamp v)

def Unbracketed (host out : List UInt8) : Prop :=
  (∀ inner, host = 0x5b :: inner ++ [0x5d] → out = inner) ∧ (¬ IsBracketed host → out = host)

/-- The host is what is left without a recognized suffix and one pair of brackets. -/
def RightHost (input hostOut : List UInt8) : Prop :=
  (∀ host text, Separated input host text → Recognized text → Unbracketed host hostOut) ∧
    ((¬ ∃ host text, Separated input host text ∧ Recognized text) → Unbracketed input hostOut)

/-- The integer behind the colon, as far as a zero byte, is a `long` that gives another port than the
present one when it is cut off to 32 bits, and is not that port itself or has a zero byte behind it. -/
def Truncated (input : List UInt8) (portOut : Int) : Prop :=
  ∃ host text v, Separated input host text ∧ IsInteger (cStr text) v ∧ -2 ^ 63 ≤ v ∧ v < 2 ^ 63 ∧
    1 ≤ v % 2 ^ 32 ∧ v % 2 ^ 32 ≤ 65535 ∧ v % 2 ^ 32 ≠ portOut ∧ (v ≠ v % 2 ^ 32 ∨ 0 ∈ text)

theorem unbracket_right (host : List UInt8) : Unbracketed host (unbracket host) := by
  have hiff : IsBracketed host ↔ _ := isBracketed_iff []
  rw [List.append_nil] at hiff
  unfold unbracket
  refine ⟨fun inner h => ?_, fun h => ?_⟩
  · rw [if_pos (hiff.mp ⟨inner, h⟩), h]
    simp
  · rw [if_neg (mt hiff.mpr h)]

theorem cStr_eq_self (h : 0 ∉ text) : cStr text = text :=
  List.takeWhile_eq_self_iff.mpr fun c hc => by
    rw [bne_iff_ne]
    rintro rfl
    exact h hc

theorem IsInteger.zero_notMem (h : IsInteger text v) : 0 ∉ text := by
  obtain ⟨blanks, sign, digits, rfl, hblanks, hsign, -, hall, -⟩ := h
  intro hmem
  rcases List.mem_append.mp hmem with hmem | hmem
  · rcases List.mem_append.mp hmem with hmem | hmem
    · exact ne_zero_of_isSpace (hblanks 0 hmem) rfl
    · rcases hsign with rfl | rfl | rfl <;> simp at hmem
  · exact ne_zero_of_isDigit (hall 0 hmem) rfl

theorem portNumber_eq_some {n : Int} : portNumber text = some n ↔
    cStr text = [] ∧ n = 0 ∨ ∃ v, IsInteger (cStr text) v ∧ 0 ≤ toInt32 (clamp v) ∧ n = toInt32 (clamp v) := by
  unfold portNumber
  dsimp only
  constructor
  · intro h
    split_ifs at h with hend
    have hn := Option.some.inj h
    rcases isInteger_of_strtol hend.1 with hnil | ⟨v, hv⟩
    · left
      rw [hnil] at hn
      exact ⟨hnil, hn.symm⟩
    · right
      rw [strtol_of_isInteger hv] at hn hend
      exact ⟨v, hv, hend.2, hn.symm⟩
  · rintro (⟨hnil, rfl⟩ | ⟨v, hv, hle, rfl⟩)
    · rw [hnil]
      rfl
    · rw [strtol_of_isInteger hv]
      exact if_pos ⟨rfl, hle⟩

theorem portNumber_eq_none (h : portNumber text = none) : ¬ Recognized text := by
  intro hrec
  have hsome : ∃ n, portNumber text = some n := by
    rcases hrec with hnil | ⟨v, hv, hle⟩
    · exact ⟨0, portNumber_eq_some.mpr (.inl ⟨hnil, rfl⟩)⟩
    · exact ⟨_, portNumber_eq_some.mpr (.inr ⟨v, hv, hle, rfl⟩)⟩
  obtain ⟨n, hn⟩ := hsome
  rw [h] at hn
  cases hn

theorem splitHostPort_host (input : List UInt8) (portOut : Int) :
    RightHost input (splitHostPort input portOut).2 := by
  by_cases hsep : ∃ host text, Separated input host text
  · obtain ⟨host, text, h⟩ := hsep
    rw [splitHostPort_separated h]
    cases hnumber : portNumber text with
    | none =>
      refine ⟨fun host' text' h' hrec => ?_, fun _ => unbracket_right input⟩
      rw [← (h.unique h').2] at hrec
      exact absurd hrec (portNumber_eq_none hnumber)
    | some n =>
      refine ⟨fun host' text' h' _ => ?_, fun hnone => absurd ⟨host, text, h, ?_⟩ hnone⟩
      · rw [← (h.unique h').1]
        exact unbracket_right host
      · exact (portNumber_eq_some.mp hnumber).imp And.left fun ⟨v, hv, hle, _⟩ => ⟨v, hv, hle⟩
  · rw [splitHostPort_unseparated hsep]
    exact ⟨fun host text h _ => absurd ⟨host, text, h⟩ hsep, fun _ => unbracket_right input⟩

/-- Which integers give a port as an `int`. -/
theorem toInt32_clamp_iff (n : Int) : (0 < n ∧ n < 0x10000 ∧ n = toInt32 (clamp v)) ↔
    -2 ^ 63 ≤ v ∧ v < 2 ^ 63 ∧ 1 ≤ n ∧ n ≤ 65535 ∧ n = v % 2 ^ 32 := by
  have hpow : ((2 ^ 32 : Nat) : Int) = 4294967296 := rfl
  simp only [toInt32, clamp, Int.bmod, hpow]
  split_ifs <;> omega

/-- The code stores `n`: what is left of a `long` in 32 bits. -/
def Stored (text : List UInt8) (n : Int) : Prop :=
  ∃ v, IsInteger (cStr text) v ∧ -2 ^ 63 ≤ v ∧ v < 2 ^ 63 ∧ 1 ≤ n ∧ n ≤ 65535 ∧ n = v % 2 ^ 32

theorem splitHostPort_stored (h : Separated input host text) :
    (∀ n, Stored text n → (splitHostPort input portOut).1 = n) ∧
      ((¬ ∃ n, Stored text n) → (splitHostPort input portOut).1 = portOut) := by
  rw [splitHostPort_separated h]
  constructor
  · rintro n ⟨v, hv, hn⟩
    obtain ⟨hpos, hlt, heq⟩ := (toInt32_clamp_iff n).mpr hn
    have hnumber : portNumber text = some n :=
      portNumber_eq_some.mpr (.inr ⟨v, hv, by omega, heq⟩)
    rw [hnumber]
    exact if_pos ⟨hpos, hlt⟩
  · intro hnone
    cases hnumber : portNumber text with
    | none => rfl
    | some n =>
      refine if_neg fun hn => hnone ?_
      rcases portNumber_eq_some.mp hnumber with ⟨-, rfl⟩ | ⟨v, hv, -, heq⟩
      · exact absurd hn.1 (lt_irrefl 0)
      · exact ⟨n, v, hv, (toInt32_clamp_iff n).mp ⟨hn.1, hn.2, heq⟩⟩

theorem stored_of_isInteger (hv : IsInteger text v) (hpos : 1 ≤ v) (hle : v ≤ 65535) : Stored text v := by
  refine ⟨v, ?_, by omega, by omega, hpos, hle, by omega⟩
  rwa [cStr_eq_self hv.zero_notMem]

theorem splitHostPort_port (input : List UInt8) (portOut : Int) :
    RightPort input portOut (splitHostPort input portOut).1 ↔ ¬ Truncated input portOut := by
  by_cases hsep : ∃ host text, Separated input host text
  · obtain ⟨host, text, h⟩ := hsep
    obtain ⟨hstored, hkept⟩ : _ ∧ (_ → (splitHostPort input portOut).1 = portOut) :=
      splitHostPort_stored h
    constructor
    · rintro ⟨hright, hsame⟩ ⟨host', text', v, h', hv, hlow, hhigh, hpos, hle, hne, hbad⟩
      rw [← (h.unique h').2] at hv hbad
      have hport := hstored _ ⟨v, hv, hlow, hhigh, hpos, hle, rfl⟩
      by_cases hreal : ∃ w, IsPort input w
      · obtain ⟨w, host', text', h', hw, hw1, hw2⟩ := hreal
        rw [← (h.unique h').2] at hw
        rw [cStr_eq_self hw.zero_notMem] at hv
        have hvw := hv.unique hw
        refine hbad.elim (fun hcut => hcut ?_) hw.zero_notMem
        omega
      · exact hne (hport.symm.trans (hsame hreal))
    · intro hclean
      refine ⟨fun v hv => ?_, fun hnone => ?_⟩
      · obtain ⟨host', text', h', hv, hpos, hle⟩ := hv
        rw [← (h.unique h').2] at hv
        exact hstored v (stored_of_isInteger hv hpos hle)
      · by_cases hany : ∃ n, Stored text n
        · obtain ⟨n, v, hv, hlow, hhigh, hpos, hle, rfl⟩ := hany
          rw [hstored _ ⟨v, hv, hlow, hhigh, hpos, hle, rfl⟩]
          by_contra hne
          refine hclean ⟨host, text, v, h, hv, hlow, hhigh, hpos, hle, hne, ?_⟩
          by_contra hgood
          obtain ⟨heq, hzero⟩ := not_or.mp hgood
          rw [cStr_eq_self hzero] at hv
          exact hnone ⟨v, host, text, h, hv, by omega, by omega⟩
        · exact hkept hany
  · rw [splitHostPort_unseparated hsep]
    refine iff_of_true ⟨fun v hv => ?_, fun _ => rfl⟩ ?_
    · obtain ⟨host, text, h, -⟩ := hv
      exact absurd ⟨host, text, h⟩ hsep
    · rintro ⟨host, text, v, h, -⟩
      exact hsep ⟨host, text, h⟩

/-- For every text and every port before: the host is what is left without a recognized suffix and one pair
of brackets, and the port is that of the text, or the one before, if and only if no integer is cut off. -/
theorem splitHostPort_right_iff (input : List UInt8) (portOut : Int) :
    (RightPort input portOut (splitHostPort input portOut).1 ↔ ¬ Truncated input portOut) ∧
      RightHost input (splitHostPort input portOut).2 :=
  ⟨splitHostPort_port input portOut, splitHostPort_host input portOut⟩

/-- 4294967297 becomes port 1. -/
theorem wrapped_port : ¬ RightPort (ascii "host:4294967297") (-1)
    (splitHostPort (ascii "host:4294967297") (-1)).1 := by
  rw [splitHostPort_port, not_not]
  refine ⟨ascii "host", ascii "4294967297", 4294967297, ⟨by decide, by decide, .inr (.inr (by decide))⟩,
    ⟨[], [], ascii "4294967297", by decide, by decide +kernel, .inl rfl, by decide, by decide +kernel,
      by decide⟩, ?_⟩
  decide

end Triangles.HostPort

/-! Addresses of Tor and I2P as text and back. -/

namespace Triangles.Overlay

open BaseCodec Decimal HostPort Regroup

variable {e ending bytes strName : List UInt8} {numeric : CNetAddr → List UInt8} {addr addr' : CNetAddr}

/-! Names. -/

theorem hasEnding_append (h : e ≠ []) : CNetAddr.hasEnding (e ++ ending) ending = true := by
  have hpos : 0 < e.length := List.length_pos_iff.mpr h
  simp [CNetAddr.hasEnding, hpos]

theorem take_append_ending : (e ++ ending).take ((e ++ ending).length - ending.length) = e := by
  simp

theorem letter32 : ∀ i < 2 ^ 5, letter pbase32 i ≠ 0 ∧ letter pbase32 i ≠ 0x3a ∧ letter pbase32 i ≠ 0x5b := by
  rw [alphabets.2]
  decide +kernel

/-- Ten bytes make sixteen letters and no sign. -/
theorem encodeBase32_ten (h : bytes.length = 10) : (encodeBase32 bytes).length = 16 ∧
    ∀ c ∈ encodeBase32 bytes, c ≠ 0 ∧ c ≠ 0x3a ∧ c ≠ 0x5b := by
  obtain ⟨out, j, hpadded, hj, heq⟩ := encodeBase32_eq bytes
  have hbits := hpadded.bits
  rw [nums, List.length_map, h] at hbits
  have hlen : out.length = 16 := by omega
  have hpadding : padding 8 out.length = [] := by rw [hlen]; rfl
  rw [heq, hpadding, List.append_nil, List.length_map]
  refine ⟨hlen, fun c hc => ?_⟩
  obtain ⟨i, hi, rfl⟩ := List.mem_map.mp hc
  exact letter32 i (hpadded.small i hi)

/-- What the name of ten bytes stands for. -/
theorem special_encode {prefixBytes : List UInt8} (hfront : prefixBytes.length = 6) (h : bytes.length = 10) :
    CNetAddr.special prefixBytes (encodeBase32 bytes ++ ending) ending addr =
      (true, ⟨prefixBytes ++ bytes⟩) := by
  have hzero : 0 ∉ encodeBase32 bytes := fun hmem => ((encodeBase32_ten h).2 0 hmem).1 rfl
  have hback : decodeBase32 (encodeBase32 bytes) = (bytes, false) :=
    base32_isCodec.decode_encode (by decide) bytes
  simp only [CNetAddr.special, take_append_ending, cStr_eq_self hzero, hback, h, hfront]
  rfl

theorem encode_ne_nil (h : bytes.length = 10) : encodeBase32 bytes ≠ [] := by
  intro hnil
  have hlen := (encodeBase32_ten h).1
  rw [hnil] at hlen
  cases hlen

theorem setSpecial_onion (h : bytes.length = 10) :
    CNetAddr.setSpecial (encodeBase32 bytes ++ ascii ".onion") addr = (true, ⟨pchOnionCat ++ bytes⟩) := by
  rw [CNetAddr.setSpecial, if_pos (hasEnding_append (encode_ne_nil h))]
  exact special_encode rfl h

/-- The name of an I2P address gives a Tor address. -/
theorem setSpecial_garlic (h : bytes.length = 10) :
    CNetAddr.setSpecial (encodeBase32 bytes ++ ascii ".oc.b32.i2p") addr =
      (true, ⟨pchOnionCat ++ bytes⟩) := by
  have hother : CNetAddr.hasEnding (encodeBase32 bytes ++ ascii ".oc.b32.i2p") (ascii ".onion") = false := by
    have hdrop : (encodeBase32 bytes ++ ascii ".oc.b32.i2p").drop
        ((encodeBase32 bytes ++ ascii ".oc.b32.i2p").length - (ascii ".onion").length) = ascii "32.i2p" := by
      have hlen : (encodeBase32 bytes ++ ascii ".oc.b32.i2p").length - (ascii ".onion").length =
          (encodeBase32 bytes).length + 5 := by
        rw [List.length_append]
        rfl
      rw [hlen, ← List.drop_drop, List.drop_left]
      rfl
    have hne : ascii "32.i2p" ≠ ascii ".onion" := by decide
    simp only [CNetAddr.hasEnding, hdrop, decide_eq_false hne, Bool.and_false]
  rw [CNetAddr.setSpecial, hother, if_neg Bool.false_ne_true,
    if_pos (hasEnding_append (encode_ne_nil h))]
  exact special_encode rfl h

@[simp] theorem isTor_onionCat : (⟨pchOnionCat ++ bytes⟩ : CNetAddr).isTor = true := rfl

/-- A name that is taken gives a Tor address, of whichever network it is. -/
theorem isTor_of_setSpecial (h : CNetAddr.setSpecial strName addr = (true, addr')) :
    addr'.isTor = true := by
  have hspecial : ∀ ending : List UInt8, CNetAddr.special pchOnionCat strName ending addr = (true, addr') →
      addr'.isTor = true := by
    intro ending hs
    unfold CNetAddr.special at hs
    dsimp only at hs
    split_ifs at hs
    · cases hs
    · rw [← (Prod.mk.inj hs).2, isTor_onionCat]
  unfold CNetAddr.setSpecial at h
  split_ifs at h
  · exact hspecial _ h
  · exact hspecial _ h
  · cases h

/-! Ports. -/

theorem natText_isInteger (n : Nat) : IsInteger (natText n) n := by
  refine ⟨[], [], natText n, rfl, by simp, .inl rfl, ?_, fun d hd => isDigit_of_mem hd, ?_⟩
  · intro hnil
    have hhead := headD_natText n
    rw [hnil] at hhead
    cases hhead
  · rw [digitsValue_natText]
    rfl

theorem splitHostPort_name {host : List UInt8} {port : UInt16} {portOut : Int} (hport : port ≠ 0)
    (hcolon : 0x3a ∉ host) (hfirst : charAt host 0 ≠ 0x5b) :
    splitHostPort (host ++ ascii ":" ++ natText port.toNat) portOut = ((port.toNat : Int), host) := by
  have hint := natText_isInteger port.toNat
  have hsep : Separated (host ++ ascii ":" ++ natText port.toNat) host (natText port.toNat) := by
    refine ⟨by rw [List.append_assoc]; rfl, fun hmem => ?_, .inr (.inr hcolon)⟩
    have hdigit := isDigit_of_mem hmem
    cases hdigit
  have hpos : port.toNat ≠ 0 := fun h => hport (UInt16.toNat_inj.mp h)
  have hlt : port.toNat < 2 ^ 16 := port.toNat_lt
  obtain ⟨hlow, hhigh, hn⟩ := (toInt32_clamp_iff (v := port.toNat) port.toNat).mpr
    ⟨by omega, by omega, by omega, by omega, by omega⟩
  have hnumber : portNumber (natText port.toNat) = some (port.toNat : Int) := by
    refine portNumber_eq_some.mpr (.inr ⟨port.toNat, ?_, by omega, hn⟩)
    rwa [cStr_eq_self hint.zero_notMem]
  have hhost : unbracket host = host := if_neg fun h => hfirst h.2.1
  rw [splitHostPort_separated hsep, hnumber, hhost]
  simp only [if_pos (And.intro hlow hhigh)]

/-! Addresses. -/

def tail (addr : CNetAddr) : List UInt8 := (addr.ip.drop 6).take 10

theorem tail_length (h : addr.ip.length = 16) : (tail addr).length = 10 := by
  simp [tail, h]

theorem take_append_tail (h : addr.ip.length = 16) : addr.ip = addr.ip.take 6 ++ tail addr := by
  have hrest : (addr.ip.drop 6).length ≤ 10 := by rw [List.length_drop, h]
  rw [tail, List.take_of_length_le hrest, List.take_append_drop]

theorem toStringIP_tor (h : addr.isTor = true) :
    addr.toStringIP numeric = encodeBase32 (tail addr) ++ ascii ".onion" := if_pos h

theorem not_isTor_of_isI2P (h : addr.isI2P = true) : addr.isTor = false := by
  have hgarlic : addr.ip.take 6 = pchGarliCat := of_decide_eq_true h
  rw [CNetAddr.isTor, hgarlic]
  rfl

theorem toStringIP_garlic (h : addr.isI2P = true) :
    addr.toStringIP numeric = encodeBase32 (tail addr) ++ ascii ".oc.b32.i2p" := by
  rw [CNetAddr.toStringIP, not_isTor_of_isI2P h, if_neg Bool.false_ne_true, if_pos h]
  rfl

theorem setSpecial_toStringIP (hip : addr.ip.length = 16) (h : addr.isTor = true ∨ addr.isI2P = true) :
    CNetAddr.setSpecial (addr.toStringIP numeric) addr' = (true, ⟨pchOnionCat ++ tail addr⟩) := by
  rcases h with h | h
  · rw [toStringIP_tor h]
    exact setSpecial_onion (tail_length hip)
  · rw [toStringIP_garlic h]
    exact setSpecial_garlic (tail_length hip)

/-- What `SetSpecial` restores is the address exactly when it is one of Tor. -/
theorem restored_iff (hip : addr.ip.length = 16) :
    (⟨pchOnionCat ++ tail addr⟩ : CNetAddr) = addr ↔ addr.isTor = true := by
  constructor
  · intro h
    rw [← h, isTor_onionCat]
  · intro h
    have hfront : addr.ip.take 6 = pchOnionCat := of_decide_eq_true h
    have hbytes := take_append_tail hip
    rw [hfront] at hbytes
    cases addr
    exact congrArg CNetAddr.mk hbytes.symm

theorem name_chars (hip : addr.ip.length = 16) (hending : 0x3a ∉ ending) :
    0x3a ∉ encodeBase32 (tail addr) ++ ending ∧ charAt (encodeBase32 (tail addr) ++ ending) 0 ≠ 0x5b := by
  obtain ⟨hlen, hchars⟩ := encodeBase32_ten (tail_length hip)
  constructor
  · intro hmem
    rcases List.mem_append.mp hmem with hmem | hmem
    · exact (hchars _ hmem).2.1 rfl
    · exact hending hmem
  · obtain ⟨c, rest, hcons⟩ := List.exists_cons_of_ne_nil (encode_ne_nil (tail_length hip))
    rw [hcons] at hchars ⊢
    exact (hchars c List.mem_cons_self).2.2

theorem splitHostPort_toStringIPPort {service : CService} {portOut : Int} (hip : service.ip.length = 16)
    (h : service.isTor = true ∨ service.isI2P = true) (hport : service.port ≠ 0) :
    splitHostPort (service.toStringIPPort numeric) portOut =
      ((service.port.toNat : Int), service.toStringIP numeric) := by
  have htext : service.toStringIPPort numeric =
      service.toStringIP numeric ++ ascii ":" ++ natText service.port.toNat := by
    refine if_pos ?_
    rcases h with h | h <;> simp [h]
  have hchars : 0x3a ∉ service.toStringIP numeric ∧ charAt (service.toStringIP numeric) 0 ≠ 0x5b := by
    rcases h with h | h
    · rw [toStringIP_tor h]
      exact name_chars hip (by decide)
    · rw [toStringIP_garlic h]
      exact name_chars hip (by decide)
  rw [htext]
  exact splitHostPort_name hport hchars.1 hchars.2

/-- The address comes back from its text, and host and port from theirs. -/
structure RoundTrips (numeric : CNetAddr → List UInt8) (service : CService) : Prop where
  special : ∀ addr, CNetAddr.setSpecial (service.toStringIP numeric) addr = (true, service.toCNetAddr)
  hostPort : ∀ portOut, splitHostPort (service.toStringIPPort numeric) portOut =
    ((service.port.toNat : Int), service.toStringIP numeric)

theorem roundTrips_iff {service : CService} (hip : service.ip.length = 16)
    (h : service.isTor = true ∨ service.isI2P = true) (hport : service.port ≠ 0) :
    RoundTrips numeric service ↔ service.isTor = true := by
  rw [← restored_iff hip]
  constructor
  · intro hround
    have hspecial := hround.special service.toCNetAddr
    rw [setSpecial_toStringIP hip h] at hspecial
    exact (Prod.mk.inj hspecial).2
  · intro hsame
    refine ⟨fun addr => ?_, fun portOut => splitHostPort_toStringIPPort hip h hport⟩
    rw [setSpecial_toStringIP hip h, hsame]

/-- For every address of Tor or I2P and every port: both come back from their texts if and only if the
address is one of Tor; the name is taken and host and port come back for both. Whatever name is taken
gives a Tor address, and never one of I2P. -/
theorem overlay_roundTrips_iff (numeric : CNetAddr → List UInt8) (service : CService)
    (hip : service.ip.length = 16) (h : service.isTor = true ∨ service.isI2P = true)
    (hport : service.port ≠ 0) :
    (RoundTrips numeric service ↔ service.isTor = true) ∧
      (∀ addr, (CNetAddr.setSpecial (service.toStringIP numeric) addr).1 = true) ∧
      (∀ portOut, splitHostPort (service.toStringIPPort numeric) portOut =
        ((service.port.toNat : Int), service.toStringIP numeric)) ∧
      ∀ strName addr addr', CNetAddr.setSpecial strName addr = (true, addr') →
        addr'.isTor = true ∧ addr'.isI2P = false := by
  refine ⟨roundTrips_iff hip h hport, fun addr => ?_,
    fun portOut => splitHostPort_toStringIPPort hip h hport, fun strName addr addr' hset => ?_⟩
  · rw [setSpecial_toStringIP hip h]
  · have htor := isTor_of_setSpecial hset
    refine ⟨htor, Bool.eq_false_iff.mpr fun hi2p => ?_⟩
    rw [not_isTor_of_isI2P hi2p] at htor
    cases htor

def garlic : CService := { ip := pchGarliCat ++ List.replicate 10 0, port := 5556 }

theorem garlic_roundTrips_iff : (RoundTrips (fun _ => []) garlic ↔ garlic.isTor = true) ∧
    (∀ addr, (CNetAddr.setSpecial (garlic.toStringIP fun _ => []) addr).1 = true) ∧
    (∀ portOut, splitHostPort (garlic.toStringIPPort fun _ => []) portOut =
      ((garlic.port.toNat : Int), garlic.toStringIP fun _ => [])) ∧
    ∀ strName addr addr', CNetAddr.setSpecial strName addr = (true, addr') →
      addr'.isTor = true ∧ addr'.isI2P = false :=
  overlay_roundTrips_iff (fun _ => []) garlic (by decide) (.inr (by decide)) (by decide)

theorem garlic_lost : garlic.isI2P = true ∧ ¬ RoundTrips (fun _ => []) garlic := by
  refine ⟨by decide, fun hround => ?_⟩
  have htor := (roundTrips_iff (by decide) (.inr (by decide)) (by decide)).mp hround
  cases htor

end Triangles.Overlay

/-! The texts that a mask stands for. -/

namespace Triangles.Wildcard

variable {m c : UInt8} {psz mask : List UInt8}

/-- What one character of a mask stands for. -/
def charLanguage (m : UInt8) : Language UInt8 :=
  {s | if m = 0x2a then True else if m = 0x3f then ∃ c, s = [c] else s = [m]}

def maskLanguage (mask : List UInt8) : Language UInt8 := (mask.map charLanguage).prod

@[simp] theorem maskLanguage_nil : maskLanguage [] = 1 := rfl

@[simp] theorem maskLanguage_cons : maskLanguage (m :: mask) = charLanguage m * maskLanguage mask := by
  simp [maskLanguage]

@[simp] theorem mem_charLanguage : psz ∈ charLanguage m ↔
    if m = 0x2a then True else if m = 0x3f then ∃ c, psz = [c] else psz = [m] := Iff.rfl

/-- A star takes nothing, or one character and then what a star takes. -/
theorem mem_star (L : Language UInt8) : psz ∈ charLanguage 0x2a * L ↔
    psz ∈ L ∨ ∃ c psz', psz = c :: psz' ∧ psz' ∈ charLanguage 0x2a * L := by
  simp only [Language.mem_mul, mem_charLanguage, if_true, true_and]
  constructor
  · rintro ⟨taken, rest, hrest, rfl⟩
    cases taken with
    | nil => exact .inl hrest
    | cons c taken => exact .inr ⟨c, taken ++ rest, rfl, taken, rest, hrest, rfl⟩
  · rintro (h | ⟨c, psz', rfl, taken, rest, hrest, rfl⟩)
    · exact ⟨[], psz, h, rfl⟩
    · exact ⟨c :: taken, rest, hrest, rfl⟩

theorem mem_question (L : Language UInt8) : psz ∈ charLanguage 0x3f * L ↔
    ∃ c psz', psz = c :: psz' ∧ psz' ∈ L := by
  have hstar : (0x3f : UInt8) ≠ 0x2a := by decide
  simp only [Language.mem_mul, mem_charLanguage, if_neg hstar, if_true]
  constructor
  · rintro ⟨_, ⟨c, rfl⟩, rest, hrest, rfl⟩
    exact ⟨c, rest, rfl, hrest⟩
  · rintro ⟨c, psz', rfl, h⟩
    exact ⟨[c], ⟨c, rfl⟩, psz', h, rfl⟩

theorem mem_other (L : Language UInt8) (hstar : m ≠ 0x2a) (hquestion : m ≠ 0x3f) :
    psz ∈ charLanguage m * L ↔ ∃ psz', psz = m :: psz' ∧ psz' ∈ L := by
  simp only [Language.mem_mul, mem_charLanguage, if_neg hstar, if_neg hquestion]
  constructor
  · rintro ⟨_, rfl, rest, hrest, rfl⟩
    exact ⟨rest, rfl, hrest⟩
  · rintro ⟨psz', rfl, h⟩
    exact ⟨[m], rfl, psz', h, rfl⟩

theorem wildcardMatch_iff (psz mask : List UInt8) :
    wildcardMatch psz mask = true ↔ psz ∈ maskLanguage mask := by
  fun_induction wildcardMatch psz mask with
  | case1 psz => simp [Language.mem_one]
  | case2 psz mask' ih ih' =>
    rw [Bool.or_eq_true, ih, maskLanguage_cons, mem_star]
    cases psz with
    | nil => simp
    | cons c psz' =>
      rw [maskLanguage_cons] at ih'
      simp [ih']
  | case3 mask' => simp [mem_question]
  | case4 mask' c psz' _ ih => simp [mem_question, ih]
  | case5 m mask' hstar hquestion => simp [mem_other, hstar, hquestion]
  | case6 m mask' hstar hquestion c psz' hne => simp [mem_other, hstar, hquestion, hne]
  | case7 m mask' hstar hquestion c psz' heq ih =>
    simp [mem_other, hstar, hquestion, Decidable.not_not.mp heq, ih]

/-- The recursion stops on every two C strings, since each call has less of the one or of the other before
it, and says whether the text is one of those that the mask stands for. -/
theorem wildcardMatch_language :
    (∀ psz mask, wildcardMatch psz mask = true ↔ psz ∈ maskLanguage mask) ∧
      ∀ str mask, wildcardMatchString str mask = true ↔ cStr str ∈ maskLanguage (cStr mask) :=
  ⟨wildcardMatch_iff, fun str mask => wildcardMatch_iff (cStr str) (cStr mask)⟩

end Triangles.Wildcard
