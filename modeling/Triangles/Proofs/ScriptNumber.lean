import Mathlib.Data.Nat.Bitwise
import Triangles.Model.Interpreter
import Triangles.Proofs.Base58
import Triangles.Proofs.ScriptRuns
import Triangles.Proofs.SigOps

/-! Numbers on the stack: what is written on a script is read back, in the fewest bytes. -/

namespace Triangles

open Outcome

/-! The sign bit of a byte. -/

theorem signBit_iff (b : UInt8) : b &&& 0x80 ≠ 0 ↔ 0x80 ≤ b := by
  have hb := b.toNat_lt
  have hand : (b &&& 0x80).toNat = (b.toNat.testBit 7).toNat * 2 ^ 7 :=
    (UInt8.toNat_and b 0x80).trans (Nat.and_two_pow b.toNat 7)
  rw [ne_eq, ← UInt8.toNat_inj, hand, UInt8.le_iff_toNat_le, Nat.testBit_eq_decide_div_mod_eq]
  change ¬ (decide (b.toNat / 128 % 2 = 1)).toNat * 128 = 0 ↔ 128 ≤ b.toNat
  by_cases h : b.toNat / 128 % 2 = 1
  · rw [h, decide_eq_true rfl]
    exact iff_of_true (by decide) (by omega)
  · rw [decide_eq_false h]
    exact iff_of_false (by decide) (by omega)

theorem signBit_or {b : UInt8} (h : b < 0x80) : 0x80 ≤ b ||| 0x80 ∧ (b ||| 0x80) - 0x80 = b := by
  have hb : b.toNat < 2 ^ 7 := UInt8.lt_iff_toNat_lt.mp h
  have hor : (b ||| 0x80).toNat = 128 + b.toNat := by
    rw [UInt8.toNat_or, Nat.or_comm]
    exact (Nat.two_pow_add_eq_or_of_lt hb 1).symm
  have hle : (0x80 : UInt8) ≤ b ||| 0x80 := by
    rw [UInt8.le_iff_toNat_le, hor]
    exact Nat.le_add_right _ _
  refine ⟨hle, UInt8.toNat_inj.mp ?_⟩
  rw [UInt8.toNat_sub_of_le _ _ hle, hor]
  exact Nat.add_sub_cancel_left _ _

/-! The value of bytes. -/

/-- The value of bytes with one in the highest place. -/
theorem setvch_concat (vch : valtype) (b : UInt8) :
    setvch (vch ++ [b]) =
      if 0x80 ≤ b then -(leValue (vch ++ [b - 0x80]) : Int) else leValue (vch ++ [b]) := by
  unfold setvch
  rw [List.getLastD_concat, List.dropLast_concat]

/-- A byte below the highest adds to the magnitude and leaves the sign. -/
theorem natAbs_setvch_cons (b c : UInt8) (vch : valtype) :
    (setvch (b :: c :: vch)).natAbs = b.toNat + 256 * (setvch (c :: vch)).natAbs := by
  obtain ⟨front, last, hvch⟩ := List.eq_nil_or_concat (c :: vch) |>.resolve_left (by simp)
  rw [hvch, List.concat_eq_append, ← List.cons_append, setvch_concat, setvch_concat]
  split_ifs
  · rw [Int.natAbs_neg, Int.natAbs_neg]
    rfl
  · rfl

/-- A vector and its magnitude: the highest byte gives seven bits. -/
theorem natAbs_setvch_concat (vch : valtype) (b : UInt8) :
    (setvch (vch ++ [b])).natAbs = leValue vch + 256 ^ vch.length * (b.toNat % 128) := by
  have hb := b.toNat_lt
  have hone : ∀ x : UInt8, leValue (vch ++ [x]) = leValue vch + 256 ^ vch.length * x.toNat := by
    intro x
    rw [leValue_append]
    rfl
  rw [setvch_concat]
  split_ifs with hsign
  · have hx : (b - 0x80).toNat = b.toNat % 128 := by
      rw [UInt8.toNat_sub_of_le _ _ hsign]
      change b.toNat - 128 = _
      have hle : 128 ≤ b.toNat := UInt8.le_iff_toNat_le.mp hsign
      omega
    rw [Int.natAbs_neg, Int.natAbs_natCast, hone, hx]
  · have hlt : b.toNat < 128 := UInt8.lt_iff_toNat_lt.mp (UInt8.not_le.mp hsign)
    rw [Int.natAbs_natCast, hone, Nat.mod_eq_of_lt hlt]

theorem natAbs_setvch_lt (vch : valtype) : 2 * (setvch vch).natAbs < 256 ^ vch.length := by
  obtain rfl | ⟨front, b, rfl⟩ := List.eq_nil_or_concat vch
  · decide
  · have hfront := leValue_lt front
    have htop : 256 ^ front.length * (b.toNat % 128) ≤ 256 ^ front.length * 127 :=
      Nat.mul_le_mul_left _ (by omega)
    rw [List.concat_eq_append, natAbs_setvch_concat, List.length_append, List.length_singleton,
      Nat.pow_succ]
    omega

/-- The bytes of a number that is not zero end in one that is not. -/
theorem leBytes_last {width n : Nat} (hpos : 0 < n) (hn : n < 256 ^ width) :
    ∃ front b, leBytes width n = front ++ [b] ∧ b ≠ 0 := by
  induction width generalizing n with
  | zero =>
    rw [Nat.pow_zero] at hn
    omega
  | succ width ih =>
    rw [leBytes, if_neg hpos.ne']
    by_cases hlast : n / 256 = 0
    · refine ⟨[], UInt8.ofNat (n % 256), ?_, ?_⟩
      · rw [hlast]
        cases width <;> rfl
      · rw [ne_eq, ← UInt8.toNat_inj, UInt8.toNat_ofNat']
        change ¬ n % 256 % 256 = 0
        omega
    · have hdiv : n / 256 < 256 ^ width := Nat.div_lt_of_lt_mul (by rwa [Nat.pow_succ'] at hn)
      obtain ⟨front, b, hfront, hb⟩ := ih (Nat.pos_of_ne_zero hlast) hdiv
      exact ⟨UInt8.ofNat (n % 256) :: front, b, by rw [hfront, List.cons_append], hb⟩

/-- The vector of a number: the sign has a byte of its own when the highest bit is taken. -/
theorem bnGetvch_cases {n : Int} (hn : n.natAbs < 2 ^ 64) :
    n = 0 ∧ bnGetvch n = [] ∨
    ∃ front b, leValue (front ++ [b]) = n.natAbs ∧ b ≠ 0 ∧
      bnGetvch n =
        if 0x80 ≤ b then front ++ [b] ++ [if n < 0 then 0x80 else 0]
        else front ++ [if n < 0 then b ||| 0x80 else b] := by
  by_cases hzero : n = 0
  · subst hzero
    exact .inl ⟨rfl, by decide⟩
  · have hwidth : n.natAbs < 256 ^ 8 := hn
    obtain ⟨front, b, hbytes, hb⟩ := leBytes_last (Int.natAbs_pos.mpr hzero) hwidth
    refine .inr ⟨front, b, ?_, hb, ?_⟩
    · rw [← hbytes]
      exact leValue_leBytes hn
    · unfold bnGetvch
      dsimp only
      rw [hbytes, List.getLastD_concat, List.dropLast_concat]
      split_ifs <;> rfl

theorem setvch_bnGetvch {n : Int} (hn : n.natAbs < 2 ^ 64) : setvch (bnGetvch n) = n := by
  obtain ⟨rfl, hzero⟩ | ⟨front, b, hvalue, -, hbytes⟩ := bnGetvch_cases hn
  · rw [hzero]
    rfl
  · have hlow : ¬ (0x80 : UInt8) ≤ 0 := by decide
    rw [hbytes]
    split_ifs with htop hneg hneg
    · rw [setvch_concat, if_pos (by decide), UInt8.sub_self, leValue_append_zero, hvalue]
      omega
    · rw [setvch_concat, if_neg hlow, leValue_append_zero, hvalue]
      omega
    · obtain ⟨hsign, hrest⟩ := signBit_or (UInt8.not_le.mp htop)
      rw [setvch_concat, if_pos hsign, hrest, hvalue]
      omega
    · rw [setvch_concat, if_neg htop, hvalue]
      omega

/-- What is written is as short as it can be: one byte less holds smaller numbers only. -/
theorem bnGetvch_top {n : Int} (hn : n.natAbs < 2 ^ 64) (hne : bnGetvch n ≠ []) :
    256 ^ ((bnGetvch n).length - 1) ≤ 2 * n.natAbs := by
  obtain ⟨-, hzero⟩ | ⟨front, b, hvalue, hb, hbytes⟩ := bnGetvch_cases hn
  · exact absurd hzero hne
  · have hpos : 0 < b.toNat := Nat.pos_of_ne_zero fun h => hb (UInt8.toNat_inj.mp h)
    rw [leValue_append] at hvalue
    change leValue front + 256 ^ front.length * b.toNat = n.natAbs at hvalue
    rw [hbytes]
    by_cases htop : 0x80 ≤ b
    · rw [if_pos htop]
      have htop' : 128 ≤ b.toNat := UInt8.le_iff_toNat_le.mp htop
      have hmul : 256 ^ front.length * 128 ≤ 256 ^ front.length * b.toNat :=
        Nat.mul_le_mul_left _ htop'
      rw [List.length_append, List.length_append, List.length_singleton, List.length_singleton,
        Nat.add_sub_cancel, Nat.pow_succ]
      omega
    · rw [if_neg htop]
      have hmul : 256 ^ front.length * 1 ≤ 256 ^ front.length * b.toNat :=
        Nat.mul_le_mul_left _ hpos
      have hlen : ∀ x : UInt8, (front ++ [x]).length - 1 = front.length := by
        intro x
        rw [List.length_append, List.length_singleton, Nat.add_sub_cancel]
      split_ifs <;> rw [hlen] <;> omega

/-- No vector of the same value is shorter. -/
theorem bnGetvch_minimal (vch : valtype) (h : (setvch vch).natAbs < 2 ^ 64) :
    (bnGetvch (setvch vch)).length ≤ vch.length := by
  by_cases hne : bnGetvch (setvch vch) = []
  · rw [hne]
    exact Nat.zero_le _
  · by_contra hshort
    have hlow := bnGetvch_top h hne
    have hhigh := natAbs_setvch_lt vch
    have hpow : 256 ^ vch.length ≤ 256 ^ ((bnGetvch (setvch vch)).length - 1) :=
      Nat.pow_le_pow_right (by decide) (by omega)
    omega

/-- The interpreter takes every number of at most 31 bits. -/
theorem castToBigNum_bnGetvch {n : Int} (hn : n.natAbs < 2 ^ 31) :
    castToBigNum (bnGetvch n) = some n := by
  have hn' : n.natAbs < 2 ^ 64 := hn.trans (by decide)
  have hlen : ¬ nMaxNumSize < (bnGetvch n).length := by
    intro hlong
    have htop := bnGetvch_top hn' (List.ne_nil_of_length_pos (Nat.zero_lt_of_lt hlong))
    have hpow : 256 ^ nMaxNumSize ≤ 256 ^ ((bnGetvch n).length - 1) :=
      Nat.pow_le_pow_right (by decide) (by omega)
    have hmax : 256 ^ nMaxNumSize = 2 * 2 ^ 31 := rfl
    omega
  rw [castToBigNum, if_neg hlen, setvch_bnGetvch hn']

/-- Zeros in front are the only other way to write a truth value that is false, negative zero
included. -/
theorem castToBool_iff (vch : valtype) : castToBool vch = true ↔ setvch vch ≠ 0 := by
  rw [← Int.natAbs_ne_zero]
  induction vch with
  | nil => decide
  | cons b vch ih =>
    rw [castToBool]
    cases vch with
    | nil =>
      have hb := b.toNat_lt
      have hvalue : (setvch [b]).natAbs = b.toNat % 128 := by
        refine (natAbs_setvch_concat [] b).trans ?_
        change 0 + 256 ^ 0 * (b.toNat % 128) = _
        rw [Nat.pow_zero, Nat.one_mul, Nat.zero_add]
      rw [hvalue]
      by_cases hzero : b = 0
      · rw [if_neg (not_not.mpr hzero), hzero]
        decide
      · have hpos : b.toNat ≠ 0 := fun h => hzero (UInt8.toNat_inj.mp h)
        rw [if_pos hzero, List.isEmpty_nil, Bool.true_and, Bool.not_eq_true', beq_eq_false_iff_ne,
          ne_eq, ← UInt8.toNat_inj]
        change ¬ b.toNat = 128 ↔ _
        omega
    | cons c vch =>
      rw [natAbs_setvch_cons]
      by_cases hzero : b = 0
      · rw [if_neg (not_not.mpr hzero), ih, hzero]
        change _ ↔ 0 + 256 * _ ≠ 0
        omega
      · have hpos : b.toNat ≠ 0 := fun h => hzero (UInt8.toNat_inj.mp h)
        rw [if_pos hzero, List.isEmpty_cons, Bool.false_and]
        exact iff_of_true rfl (by omega)

/-! Machine integers. -/

theorem mpiValue_cons (b : UInt8) (body : List UInt8) :
    mpiValue (b :: body) =
      if 0x80 ≤ b then -(leValue (body.reverse ++ [b - 0x80]) : Int)
      else leValue (body.reverse ++ [b]) := by
  rw [mpiValue, List.reverse_cons, setvch_concat]

/-- One round takes the highest byte of a number that stands at the top of the register. -/
theorem wordMpi_round {x rounds low : Nat} (hx : x < 256 ^ (rounds + 1)) (h : rounds + 1 + low = 8) :
    UInt8.ofNat (x * 256 ^ low / 2 ^ 56 % 256) = UInt8.ofNat (x / 256 ^ rounds) ∧
      x * 256 ^ low * 2 ^ 8 % 2 ^ 64 = x % 256 ^ rounds * 256 ^ (low + 1) ∧
      (UInt8.ofNat (x / 256 ^ rounds)).toNat = x / 256 ^ rounds := by
  have hlow : (0 : Nat) < 256 ^ low := Nat.pow_pos (by decide)
  have hdiv : x / 256 ^ rounds < 256 := Nat.div_lt_of_lt_mul (by rwa [Nat.pow_succ] at hx)
  have hbyte : 2 ^ 56 = 256 ^ rounds * 256 ^ low := by
    rw [← Nat.pow_add, show rounds + low = 7 by omega]
    decide
  have hword : 2 ^ 64 = 256 ^ rounds * 256 ^ (low + 1) := by
    rw [← Nat.pow_add, show rounds + (low + 1) = 8 by omega]
    decide
  refine ⟨?_, ?_, ?_⟩
  · rw [hbyte, Nat.mul_div_mul_right _ _ hlow, Nat.mod_eq_of_lt hdiv]
  · rw [hword, show (2 : Nat) ^ 8 = 256 from rfl, Nat.mul_assoc, ← Nat.pow_succ,
      Nat.mul_mod_mul_right]
  · rw [UInt8.toNat_ofNat']
    exact Nat.mod_eq_of_lt hdiv

/-- After the first byte every byte is written. -/
theorem wordMpi_rest (fNegative : Bool) {x rounds low : Nat} (hx : x < 256 ^ rounds)
    (h : rounds + low = 8) :
    (wordMpi fNegative rounds (x * 256 ^ low) false).length = rounds ∧
      leValue (wordMpi fNegative rounds (x * 256 ^ low) false).reverse = x := by
  induction rounds generalizing x low with
  | zero =>
    rw [Nat.pow_zero] at hx
    exact ⟨rfl, by rw [show x = 0 by omega]; rfl⟩
  | succ rounds ih =>
    obtain ⟨hbyte, hleft, hc⟩ := wordMpi_round hx h
    have hmod : x % 256 ^ rounds < 256 ^ rounds := Nat.mod_lt _ (Nat.pow_pos (by decide))
    obtain ⟨hlen, hvalue⟩ := ih hmod (show rounds + (low + 1) = 8 by omega)
    rw [wordMpi, hbyte, hleft, if_neg Bool.false_ne_true]
    refine ⟨by rw [List.length_cons, hlen], ?_⟩
    rw [List.reverse_cons, leValue_append, hvalue, List.length_reverse, hlen]
    change x % 256 ^ rounds + 256 ^ rounds * (UInt8.ofNat (x / 256 ^ rounds)).toNat = x
    rw [hc, Nat.mod_add_div]

/-- The bytes without the zeros in front are the number, with its sign. -/
theorem mpiValue_wordMpi (fNegative : Bool) {x rounds low : Nat} (hx : x < 256 ^ rounds)
    (h : rounds + low = 8) :
    mpiValue (wordMpi fNegative rounds (x * 256 ^ low) true) = if fNegative then -(x : Int) else x := by
  induction rounds generalizing x low with
  | zero =>
    rw [Nat.pow_zero] at hx
    rw [show x = 0 by omega]
    cases fNegative <;> rfl
  | succ rounds ih =>
    obtain ⟨hbyte, hleft, hc⟩ := wordMpi_round hx h
    have hmod : x % 256 ^ rounds < 256 ^ rounds := Nat.mod_lt _ (Nat.pow_pos (by decide))
    obtain ⟨hlen, hvalue⟩ := wordMpi_rest fNegative hmod (show rounds + (low + 1) = 8 by omega)
    rw [wordMpi, hbyte, hleft, if_pos rfl]
    generalize hc' : UInt8.ofNat (x / 256 ^ rounds) = c at *
    have hall : leValue ((wordMpi fNegative rounds (x % 256 ^ rounds * 256 ^ (low + 1)) false).reverse ++
        [c]) = x := by
      rw [leValue_append, hvalue, List.length_reverse, hlen]
      change x % 256 ^ rounds + 256 ^ rounds * c.toNat = x
      rw [hc, Nat.mod_add_div]
    by_cases hzero : c = 0
    · have hsmall : x / 256 ^ rounds = 0 := by
        rw [← hc, hzero]
        rfl
      have hx' : x % 256 ^ rounds = x := by
        have hdiv := Nat.mod_add_div x (256 ^ rounds)
        rw [hsmall, Nat.mul_zero] at hdiv
        exact hdiv
      rw [if_pos hzero, ih hmod (show rounds + (low + 1) = 8 by omega), hx']
    · rw [if_neg hzero]
      by_cases htop : c &&& 0x80 ≠ 0
      · rw [if_pos htop, mpiValue_cons, List.reverse_cons]
        cases fNegative with
        | false =>
          have hlow : ¬ (0x80 : UInt8) ≤ 0 := by decide
          rw [if_neg Bool.false_ne_true, if_neg hlow, leValue_append_zero, hall]
          rfl
        | true =>
          rw [if_pos rfl, if_pos (by decide), UInt8.sub_self, leValue_append_zero, hall]
          rfl
      · have hlt : c < 0x80 := UInt8.not_le.mp fun hle => htop ((signBit_iff c).mpr hle)
        rw [if_neg htop, mpiValue_cons]
        cases fNegative with
        | false =>
          rw [if_neg Bool.false_ne_true, if_neg (UInt8.not_le.mpr hlt), hall]
          rfl
        | true =>
          obtain ⟨hsign, hrest⟩ := signBit_or hlt
          rw [if_pos rfl, if_pos hsign, hrest, hall]
          rfl

theorem CBigNum.setuint64_eq {n : Nat} (h : n < 2 ^ 64) : CBigNum.setuint64 n = n := by
  have hx : n < 256 ^ 8 := h
  have hvalue : mpiValue (wordMpi false 8 (n * 256 ^ 0) true) = n := mpiValue_wordMpi false hx rfl
  rwa [Nat.pow_zero, Nat.mul_one] at hvalue

theorem CBigNum.setint64_eq {n : Int} (hlow : -2 ^ 63 ≤ n) (hhigh : n < 2 ^ 63) :
    CBigNum.setint64 n = n := by
  unfold CBigNum.setint64
  split_ifs with hneg
  · have hx : (-(n + 1)).toNat + 1 < 256 ^ 8 := by omega
    have hvalue : mpiValue (wordMpi true 8 (((-(n + 1)).toNat + 1) * 256 ^ 0) true) = _ :=
      mpiValue_wordMpi true hx rfl
    rw [Nat.pow_zero, Nat.mul_one, if_pos rfl] at hvalue
    rw [hvalue]
    omega
  · have hx : n.toNat < 2 ^ 64 := by omega
    have hvalue := CBigNum.setuint64_eq hx
    rw [CBigNum.setuint64] at hvalue
    rw [hvalue]
    omega

/-! Runs. -/

section Runs

variable {env : ScriptEnv} {input : TxInput}

theorem runScript_smallNumber {opcode : UInt8} (h : opcode = OP_1NEGATE ∨ NumberOp opcode) :
    runScript env input [] [opcode] =
      (true, [bnGetvch ((opcode.toNat : Int) - (OP_1.toNat - 1))]) := by
  have hget : getOp [opcode] = some (opcode, [], []) := by
    have hnotPush : ¬ opcode ≤ OP_PUSHDATA4 := by
      obtain rfl | h := h
      · decide
      · exact UInt8.not_le.mpr (UInt8.lt_of_lt_of_le (by decide) h.1)
    rw [getOp, if_neg hnotPush]
  let start : EvalState := { stack := [], pbegincodehash := [opcode] }
  let done : EvalState :=
    { start with stack := [bnGetvch ((opcode.toNat : Int) - (OP_1.toNat - 1))] }
  have hsize : start.stack.length + start.altstack.length < 1000 := show 0 < 1000 by decide
  have hone : evalOp env input opcode [] [] start 0 = .ok done 0 :=
    evalOp_smallNumber h [] rfl hsize 0
  have hloop : evalLoop env input [opcode].length [opcode] start 0 = .ok done 0 := by
    change evalLoop env input 1 [opcode] start 0 = _
    rw [evalLoop_cons hget, bind_of_ok _ hone, evalLoop_nil]
    rfl
  have hshort : [opcode].length ≤ 10000 := show 1 ≤ 10000 by decide
  exact runScript_of_evalScript (evalScript_of_loop hshort hloop rfl)

theorem runScript_pushData {v : valtype} (h : v.length ≤ 520) :
    runScript env input [] (pushData v) = (true, [v]) := by
  have hall : pushAll [v] = pushData v := List.append_nil _
  have hpush := pushData_le v
  have hpushes : PushesOf (pushAll [v]) [v] :=
    pushAll_pushes (List.forall_mem_singleton.mpr (h.trans_lt (by decide)))
  rw [hall] at hpushes
  exact hpushes.runScript (List.forall_mem_singleton.mpr h) (by omega) (show 1 ≤ 1000 by decide)

theorem smallNumber_opcode {n : Int} (h : n = -1 ∨ 1 ≤ n ∧ n ≤ 16) :
    (UInt8.ofInt (n + (OP_1.toNat - 1)) = OP_1NEGATE ∨
        NumberOp (UInt8.ofInt (n + (OP_1.toNat - 1)))) ∧
      ((UInt8.ofInt (n + (OP_1.toNat - 1))).toNat : Int) - (OP_1.toNat - 1) = n := by
  have hall : ∀ k : Fin 18, k.val ≠ 1 →
      (UInt8.ofInt ((k.val : Int) - 1 + (OP_1.toNat - 1)) = OP_1NEGATE ∨
        OP_1 ≤ UInt8.ofInt ((k.val : Int) - 1 + (OP_1.toNat - 1)) ∧
          UInt8.ofInt ((k.val : Int) - 1 + (OP_1.toNat - 1)) ≤ OP_16) ∧
      ((UInt8.ofInt ((k.val : Int) - 1 + (OP_1.toNat - 1))).toNat : Int) - (OP_1.toNat - 1) =
        (k.val : Int) - 1 := by
    decide
  have hk := hall ⟨(n + 1).toNat, by omega⟩ (show (n + 1).toNat ≠ 1 by omega)
  rwa [show (((n + 1).toNat : Nat) : Int) - 1 = n by omega] at hk

/-- A number written by `<<` is left on the stack in its shortest form. -/
theorem runScript_pushInt64 {n : Int} (hn : n.natAbs < 2 ^ 31) :
    runScript env input [] (CScript.pushInt64 [] n) = (true, [bnGetvch n]) := by
  rw [CScript.pushInt64, List.nil_append, List.nil_append, CBigNum.setint64_eq (by omega) (by omega)]
  split_ifs with hsmall
  · obtain ⟨hop, hvalue⟩ := smallNumber_opcode hsmall
    rw [runScript_smallNumber hop, hvalue]
  · exact runScript_pushData (bnGetvch_small n)

theorem runScript_pushUInt64 {n : Nat} (hn : n < 2 ^ 31) :
    runScript env input [] (CScript.pushUInt64 [] n) = (true, [bnGetvch n]) := by
  rw [CScript.pushUInt64, List.nil_append, List.nil_append, CBigNum.setuint64_eq (by omega)]
  split_ifs with hsmall
  · have hrange : (n : Int) = -1 ∨ 1 ≤ (n : Int) ∧ (n : Int) ≤ 16 := by omega
    obtain ⟨hop, hvalue⟩ := smallNumber_opcode hrange
    have hsame : UInt8.ofInt ((n : Int) + (OP_1.toNat - 1)) = UInt8.ofNat (n + (OP_1.toNat - 1)) := by
      have hop1 : OP_1.toNat = 81 := rfl
      rw [UInt8.ofInt, hop1]
      congr 1
      omega
    rw [hsame] at hop hvalue
    rw [runScript_smallNumber hop, hvalue]
  · exact runScript_pushData (bnGetvch_small n)

end Runs

/-- What scripts push is what the interpreter reads: lists of values, numbers in as few bytes as
hold them, and the truth of a value is that its number is not zero. -/
theorem pushed_values_read (env : ScriptEnv) (input : TxInput) :
    (∀ values : List valtype, (∀ v ∈ values, v.length ≤ 520) → values.length ≤ 1000 →
      (pushAll values).length ≤ 10000 →
      runScript env input [] (pushAll values) = (true, values.reverse)) ∧
    (∀ n : Int, n.natAbs < 2 ^ 31 → ∃ v,
      runScript env input [] (CScript.pushInt64 [] n) = (true, [v]) ∧
      (0 ≤ n → runScript env input [] (CScript.pushUInt64 [] n.toNat) = (true, [v])) ∧
      castToBigNum v = some n ∧ ∀ w, setvch w = n → v.length ≤ w.length) ∧
    ∀ v, castToBool v = true ↔ setvch v ≠ 0 := by
  refine ⟨fun values hshort hfew hlen => ?_, fun n hn => ⟨bnGetvch n, ?_, ?_, ?_, ?_⟩, castToBool_iff⟩
  · have hpushes : PushesOf (pushAll values) values :=
      pushAll_pushes fun v hv => (hshort v hv).trans_lt (by decide)
    exact hpushes.runScript hshort hlen hfew
  · exact runScript_pushInt64 hn
  · intro hpos
    have hrun : runScript env input [] (CScript.pushUInt64 [] n.toNat) =
        (true, [bnGetvch (n.toNat : Int)]) := runScript_pushUInt64 (by omega)
    rwa [Int.toNat_of_nonneg hpos] at hrun
  · exact castToBigNum_bnGetvch hn
  · rintro w rfl
    exact bnGetvch_minimal w (hn.trans (by decide))

theorem pushed_values_read_few :
    runScript scriptEnv noInput [] (pushAll [[], [7, 7]]) = (true, [[7, 7], []]) ∧
    (∃ v, runScript scriptEnv noInput [] (CScript.pushInt64 [] (-200)) = (true, [v]) ∧
      castToBigNum v = some (-200)) ∧
    castToBool [0, 0x80] = false := by
  obtain ⟨hlist, hnumber, hbool⟩ := pushed_values_read scriptEnv noInput
  refine ⟨hlist [[], [7, 7]] (by decide) (by decide) (by decide), ?_, ?_⟩
  · obtain ⟨v, hrun, -, hv, -⟩ := hnumber (-200) (by decide)
    exact ⟨v, hrun, hv⟩
  · have hzero : setvch [0, 0x80] = 0 := by decide
    exact Bool.eq_false_iff.mpr fun htrue => (hbool [0, 0x80]).mp htrue hzero

end Triangles
