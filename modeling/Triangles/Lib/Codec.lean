import Mathlib.Data.List.Basic
import Mathlib.Tactic.Common
import Mathlib.Data.UInt
import Mathlib.Data.List.TakeWhile

/-! Byte formats read from the front of a stream: readers, what it means that a reader
undoes a writer, and loops that read a list block by block. -/

namespace Codec

abbrev Reader (ε α : Type) := StateT (List UInt8) (Except ε) α

variable {ε α β : Type}

def readBytes (e : ε) (n : Nat) : Reader ε (List UInt8) := fun s =>
  if n ≤ s.length then .ok (s.take n, s.drop n) else .error e

def Reads (r : Reader ε α) (bytes : List UInt8) (a : α) : Prop :=
  ∀ rest, r (bytes ++ rest) = .ok (a, rest)

/-- What is read from the same bytes is the same, and so is what follows. -/
theorem Reads.unique {r : Reader ε α} {b b' s s' : List UInt8} {a a' : α} (h : Reads r b a)
    (h' : Reads r b' a') (he : b ++ s = b' ++ s') : a = a' ∧ s = s' := by
  have hr := h s
  rw [he, h' s'] at hr
  obtain ⟨ha, hs⟩ := Prod.mk.inj (Except.ok.inj hr)
  exact ⟨ha.symm, hs.symm⟩

theorem reads_pure (a : α) : Reads (pure a : Reader ε α) [] a := fun _ => rfl

/-- Two readers in a row read two writings in a row. -/
theorem Reads.bind {r : Reader ε α} {f : α → Reader ε β} {b c : List UInt8} {a : α} {d : β}
    (hr : Reads r b a) (hf : Reads (f a) c d) : Reads (r >>= f) (b ++ c) d := by
  intro rest
  rw [List.append_assoc]
  change (r (b ++ (c ++ rest)) >>= fun x => f x.1 x.2) = _
  rw [hr]
  exact hf rest

/-- What comes after a reader goes on with what it has read. -/
theorem Reads.next {r : Reader ε α} {f : α → Reader ε β} {b : List UInt8} {a : α} (hr : Reads r b a)
    (rest : List UInt8) : (r >>= f) (b ++ rest) = f a rest := by
  change (r (b ++ rest) >>= fun x => f x.1 x.2) = _
  rw [hr]
  rfl

theorem Reads.map {r : Reader ε α} {b : List UInt8} {a : α} (g : α → β) (hr : Reads r b a) :
    Reads (r >>= fun x => pure (g x)) b (g a) := by
  have h := Reads.bind (f := fun x => pure (g x)) hr (reads_pure (g a))
  rwa [List.append_nil] at h

theorem readBytes_reads (e : ε) (bytes : List UInt8) :
    Reads (readBytes e bytes.length) bytes bytes := by
  intro rest
  simp [readBytes]

def readMany (r : Reader ε α) : Nat → Reader ε (List α)
  | 0 => pure []
  | n + 1 => do
    let a ← r
    let l ← readMany r n
    pure (a :: l)

theorem readMany_reads {r : Reader ε α} {w : α → List UInt8} (l : List α)
    (h : ∀ a ∈ l, Reads r (w a) a) : Reads (readMany r l.length) (l.flatMap w) l := by
  induction l with
  | nil => exact reads_pure []
  | cons a l ih =>
    rw [List.flatMap_cons]
    refine (h a List.mem_cons_self).bind ?_
    exact (ih fun b hb => h b (List.mem_cons_of_mem a hb)).map (a :: ·)

/-- A loop that reads `nSize` items in blocks of at most `chunk`, with `v` read already. -/
def readBlocks (readBlock : Nat → Reader ε (List α)) (chunk nSize : Nat) :
    Nat → List α → Reader ε (List α)
  | 0, v => pure v
  | rounds + 1, v =>
    if v.length < nSize then do
      let block ← readBlock (min chunk (nSize - v.length))
      readBlocks readBlock chunk nSize rounds (v ++ block)
    else pure v

/-- The loop reads what was written, however it is cut into blocks. -/
theorem readBlocks_reads (readBlock : Nat → Reader ε (List α)) (w : α → List UInt8) {chunk : Nat}
    (hchunk : 0 < chunk) (rounds : Nat) (v l : List α) (hrounds : l.length ≤ rounds)
    (hblock : ∀ b, (∀ a ∈ b, a ∈ l) → Reads (readBlock b.length) (b.flatMap w) b) :
    Reads (readBlocks readBlock chunk (v.length + l.length) rounds v) (l.flatMap w) (v ++ l) := by
  induction rounds generalizing v l with
  | zero =>
    rw [List.eq_nil_of_length_eq_zero (Nat.le_zero.mp hrounds), List.append_nil]
    exact reads_pure v
  | succ rounds ih =>
    unfold readBlocks
    split
    · rename_i hmore
      -- the block that is read now, and what is left
      obtain ⟨b, m, hbm, hb⟩ : ∃ b m, l = b ++ m ∧ b.length = min chunk l.length :=
        ⟨l.take chunk, l.drop chunk, (List.take_append_drop chunk l).symm, List.length_take⟩
      have hlen : min chunk (v.length + l.length - v.length) = b.length := by
        rw [hb, Nat.add_sub_cancel_left]
      have hm : m.length < l.length := by
        rw [hbm, List.length_append]
        omega
      rw [hlen, hbm, List.flatMap_append, ← List.append_assoc]
      refine (hblock b fun a ha => hbm ▸ List.mem_append_left m ha).bind ?_
      have hsize : v.length + (b ++ m).length = (v ++ b).length + m.length := by
        simp only [List.length_append, Nat.add_assoc]
      rw [hsize]
      refine ih (v ++ b) m (by omega) ?_
      intro c hc
      exact hblock c fun a ha => hbm ▸ List.mem_append_right b (hc a ha)
    · rename_i hdone
      have hnil : l = [] := List.eq_nil_of_length_eq_zero (by omega)
      rw [hnil, List.append_nil]
      exact reads_pure v

def readLoop {σ : Type} (round : σ → Reader ε σ) : Nat → σ → Reader ε σ
  | 0, s => pure s
  | n + 1, s => do
    let s ← round s
    readLoop round n s

/-- Rounds that each read one item do with the items what a fold does. -/
theorem readLoop_reads {σ : Type} {round : σ → Reader ε σ} {w : α → List UInt8} {f : σ → α → σ}
    (l : List α) (h : ∀ a ∈ l, ∀ s, Reads (round s) (w a) (f s a)) (s : σ) :
    Reads (readLoop round l.length s) (l.flatMap w) (l.foldl f s) := by
  induction l generalizing s with
  | nil => exact reads_pure s
  | cons a l ih =>
    rw [List.flatMap_cons, List.foldl_cons]
    refine (h a List.mem_cons_self s).bind ?_
    exact ih (fun b hb => h b (List.mem_cons_of_mem a hb)) (f s a)

end Codec

/-! Numbers as decimal text in bytes, and reading the number back. -/

namespace Decimal

def natText (n : Nat) : List UInt8 := (Nat.toDigits 10 n).map fun c => UInt8.ofNat c.toNat

def intText (n : Int) : List UInt8 := if n < 0 then 0x2d :: natText n.natAbs else natText n.natAbs

def isDigit (c : UInt8) : Bool := decide (0x30 ≤ c ∧ c ≤ 0x39)

def digitsValue (digits : List UInt8) : Nat :=
  digits.foldl (fun n c => n * 10 + (c.toNat - 0x30)) 0

def unsigned (s : List UInt8) : List UInt8 := if [0x2b, 0x2d].contains (s.headD 0) then s.drop 1 else s

/-- The number in front of a text, zero when there is none. -/
def readInt (s : List UInt8) : Int :=
  let n : Int := digitsValue ((unsigned s).takeWhile isDigit)
  if s.headD 0 = 0x2d then -n else n

theorem toNat_digit {c : Char} (hc : c.isDigit = true) : (UInt8.ofNat c.toNat).toNat = c.toNat := by
  rw [Char.isDigit, Bool.and_eq_true, decide_eq_true_eq, decide_eq_true_eq] at hc
  have hle : c.toNat ≤ 57 := UInt32.le_iff_toNat_le.mp hc.2
  rw [UInt8.toNat_ofNat', Nat.mod_eq_of_lt (by omega)]

theorem isDigit_of_mem {n : Nat} {b : UInt8} (hb : b ∈ natText n) : isDigit b = true := by
  obtain ⟨c, hc, rfl⟩ := List.mem_map.mp hb
  have hdigit := Nat.isDigit_of_mem_toDigits (by decide) (by decide) hc
  have hnat := toNat_digit hdigit
  rw [Char.isDigit, Bool.and_eq_true, decide_eq_true_eq, decide_eq_true_eq] at hdigit
  have hlow : 48 ≤ c.toNat := UInt32.le_iff_toNat_le.mp hdigit.1
  have hhigh : c.toNat ≤ 57 := UInt32.le_iff_toNat_le.mp hdigit.2
  rw [isDigit, decide_eq_true_eq, UInt8.le_iff_toNat_le, UInt8.le_iff_toNat_le, hnat]
  exact ⟨hlow, hhigh⟩

theorem digitsValue_natText (n : Nat) : digitsValue (natText n) = n := by
  have hfold : ∀ (l : List Char), (∀ c ∈ l, c.isDigit = true) → ∀ v,
      (l.map fun c => UInt8.ofNat c.toNat).foldl (fun n c => n * 10 + (c.toNat - 0x30)) v =
        Nat.ofDigitChars 10 l v := by
    intro l
    induction l with
    | nil => intro _ v; rw [Nat.ofDigitChars_nil]; rfl
    | cons c l ih =>
      intro hl v
      rw [List.map_cons, List.foldl_cons, toNat_digit (hl c List.mem_cons_self),
        ih fun d hd => hl d (List.mem_cons_of_mem c hd), Nat.ofDigitChars_cons, Nat.mul_comm v]
      rfl
  rw [digitsValue, natText, hfold _ fun c hc => Nat.isDigit_of_mem_toDigits (by decide) (by decide) hc,
    Nat.ofDigitChars_ten_toDigits]

theorem takeWhile_natText (n : Nat) : (natText n).takeWhile isDigit = natText n :=
  List.takeWhile_eq_self_iff.mpr fun _ hb => isDigit_of_mem hb

/-- The first character of a number without sign is a digit. -/
theorem headD_natText (n : Nat) : isDigit ((natText n).headD 0) = true := by
  cases htext : natText n with
  | nil =>
    have hnil : Nat.toDigits 10 n = [] := List.map_eq_nil_iff.mp htext
    exact absurd hnil Nat.toDigits_ne_nil
  | cons b l => exact isDigit_of_mem (htext ▸ List.mem_cons_self)

theorem readInt_natText (n : Nat) : readInt (natText n) = n := by
  have hhead := headD_natText n
  have hminus : (natText n).headD 0 ≠ 0x2d := by
    intro h
    rw [h] at hhead
    cases hhead
  have hplus : (natText n).headD 0 ≠ 0x2b := by
    intro h
    rw [h] at hhead
    cases hhead
  have hsign : [0x2b, 0x2d].contains ((natText n).headD 0) = false := by
    rw [List.contains_cons, List.contains_cons, beq_eq_false_iff_ne.mpr hplus,
      beq_eq_false_iff_ne.mpr hminus]
    rfl
  have hunsigned : unsigned (natText n) = natText n := by
    rw [unsigned, hsign, if_neg Bool.false_ne_true]
  rw [readInt, if_neg hminus, hunsigned, takeWhile_natText, digitsValue_natText]

/-- The text of a number is read as the number. -/
theorem readInt_intText (n : Int) : readInt (intText n) = n := by
  unfold intText
  split_ifs with hneg
  · have hunsigned : unsigned (0x2d :: natText n.natAbs) = natText n.natAbs := rfl
    rw [readInt, List.headD_cons, if_pos rfl, hunsigned, takeWhile_natText, digitsValue_natText]
    omega
  · rw [readInt_natText]
    omega

/-- The first character is a sign or a digit. -/
theorem headD_intText (n : Int) :
    (intText n).headD 0 = 0x2d ∨ isDigit ((intText n).headD 0) = true := by
  unfold intText
  split_ifs
  · exact .inl rfl
  · exact .inr (headD_natText _)

end Decimal
