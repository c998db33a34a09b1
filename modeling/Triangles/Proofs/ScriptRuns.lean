import Triangles.Model.Templates
import Triangles.Proofs.ScriptLimits
import Triangles.Proofs.Signing
import Triangles.Proofs.Templates

/-! Runs of scripts that are known by their instructions: pushes, and a multisig script on the
stack that a signature script leaves. -/

namespace Triangles

open Outcome

def ShortPush (op : UInt8 × List UInt8) : Prop := op.1 ≤ OP_PUSHDATA4 ∧ op.2.length ≤ 520

section Pushes

variable {env : ScriptEnv} {input : TxInput} {s : EvalState}

theorem HasOps.length_le {script : CScript} {ops : List (UInt8 × List UInt8)}
    (h : HasOps script ops) : ops.length ≤ script.length := by
  induction h with
  | nil => exact le_refl _
  | @cons script rest opcode data ops hop _ ih =>
    have hlt := getOp_length hop
    rw [List.length_cons]
    omega

/-- An instruction that is read is run, and the rest after it. -/
theorem evalLoop_cons {script rest : CScript} {opcode : UInt8} {data : List UInt8}
    (hop : getOp script = some (opcode, data, rest)) (rounds : Nat) (s : EvalState) :
    evalLoop env input (rounds + 1) script s =
      evalOp env input opcode data rest s >>= evalLoop env input rounds rest := by
  cases script with
  | nil => cases hop
  | cons op pc =>
    rw [evalLoop, hop]

theorem countOp_low {opcode : UInt8} {data : valtype} (hop : opcode ≤ OP_16)
    (hdata : data.length ≤ 520) (s : EvalState) : countOp opcode data s = some s := by
  have hlow : ¬ OP_16 < opcode := UInt8.not_lt.mpr hop
  have henabled : isDisabled opcode = false := by
    have hhigh : ∀ b ∈ [OP_CAT, OP_SUBSTR, OP_LEFT, OP_RIGHT, OP_INVERT, OP_AND, OP_OR, OP_XOR,
        OP_2MUL, OP_2DIV, OP_MUL, OP_DIV, OP_MOD, OP_LSHIFT, OP_RSHIFT], ¬ b ≤ OP_16 := by
      decide +kernel
    exact decide_eq_false fun hmem => hhigh opcode hmem hop
  unfold countOp
  simp only [hlow, if_false, false_and, henabled, Nat.not_lt.mpr hdata,
    Bool.false_eq_true, or_self]

theorem limitSize_ok (h : s.stack.length + s.altstack.length ≤ 1000) : limitSize s = some s :=
  if_neg (Nat.not_lt.mpr h)

/-- A short push outside conditionals puts its operand on the stack. -/
theorem evalOp_shortPush {op : UInt8 × List UInt8} (h : ShortPush op) (pc : CScript)
    (hexec : s.vfExec = []) (hsize : s.stack.length + s.altstack.length < 1000) (n : Nat) :
    evalOp env input op.1 op.2 pc s n = .ok { s with stack := op.2 :: s.stack } n := by
  have hlow : op.1 ≤ OP_16 := UInt8.le_trans h.1 (by decide)
  have hf : s.fExec = true := by rw [EvalState.fExec, hexec]; rfl
  have hlimit : limitSize { s with stack := op.2 :: s.stack } =
      some { s with stack := op.2 :: s.stack } := by
    refine limitSize_ok ?_
    simp only [List.length_cons]
    omega
  unfold evalOp
  rw [countOp_low hlow h.2, ofOption, pure_bind, runOp, if_pos ⟨hf, h.1⟩, pure_bind, hlimit]
  rfl

/-- A run of pushes leaves their operands, the last one on top, and what follows to be run. -/
theorem evalLoop_pushes {ops tail : List (UInt8 × List UInt8)} {script : CScript}
    (h : HasOps script (ops ++ tail)) (hpush : ∀ op ∈ ops, ShortPush op) (hexec : s.vfExec = [])
    (hsize : ops.length + s.stack.length + s.altstack.length ≤ 1000) {rounds : Nat} (n : Nat) :
    ∃ rest, HasOps rest tail ∧ evalLoop env input (ops.length + rounds) script s n =
      evalLoop env input rounds rest
        { s with stack := (ops.map Prod.snd).reverse ++ s.stack } n := by
  induction ops generalizing script s with
  | nil => exact ⟨script, h, by rw [List.length_nil, Nat.zero_add]; rfl⟩
  | cons op ops ih =>
    obtain ⟨opcode, data⟩ := op
    cases h with
    | @cons _ after _ _ _ hop hrest =>
      rw [List.length_cons] at hsize
      have hone : evalOp env input opcode data after s n =
          .ok { s with stack := data :: s.stack } n :=
        evalOp_shortPush (hpush (opcode, data) List.mem_cons_self) after hexec (by omega) n
      obtain ⟨rest, hops, hrun⟩ := ih (s := { s with stack := data :: s.stack }) hrest
        (fun o ho => hpush o (List.mem_cons_of_mem _ ho)) hexec
        (by simp only [List.length_cons]; omega)
      refine ⟨rest, hops, ?_⟩
      rw [List.length_cons, Nat.add_right_comm, evalLoop_cons hop, bind_of_ok _ hone, hrun]
      simp only [List.map_cons, List.reverse_cons, List.append_assoc, List.singleton_append]

theorem evalLoop_nil (rounds : Nat) (s : EvalState) : evalLoop env input rounds [] s = pure s := by
  cases rounds <;> rfl

/-- A loop that ends outside conditionals ends the script. -/
theorem evalScript_of_loop {stack : List valtype} {script : CScript} {t : EvalState} {n m : Nat}
    (hlen : script.length ≤ 10000)
    (h : evalLoop env input script.length script { stack := stack, pbegincodehash := script } n =
      .ok t m) (hexec : t.vfExec = []) :
    evalScript env input stack script n = .ok t.stack m := by
  rw [evalScript, if_neg (Nat.not_lt.mpr hlen), bind_of_ok _ h, hexec]
  rfl

/-- The script pushes these values and does nothing else. -/
def PushesOf (script : CScript) (values : List valtype) : Prop :=
  ∃ ops, HasOps script ops ∧ (∀ op ∈ ops, op.1 ≤ OP_PUSHDATA4) ∧ ops.map Prod.snd = values

theorem PushesOf.evalScript {script : CScript} {values stack : List valtype}
    (h : PushesOf script values) (hshort : ∀ v ∈ values, v.length ≤ 520)
    (hlen : script.length ≤ 10000) (hsize : values.length + stack.length ≤ 1000) (n : Nat) :
    evalScript env input stack script n = .ok (values.reverse ++ stack) n := by
  obtain ⟨ops, hops, hpush, rfl⟩ := h
  rw [List.length_map] at hsize
  have hone : ∀ op ∈ ops, ShortPush op :=
    fun op hop => ⟨hpush op hop, hshort _ (List.mem_map_of_mem hop)⟩
  obtain ⟨rounds, hrounds⟩ := Nat.exists_eq_add_of_le hops.length_le
  rw [← List.append_nil ops] at hops
  let start : EvalState := { stack := stack, pbegincodehash := script }
  obtain ⟨rest, hend, hrun⟩ : ∃ rest, HasOps rest [] ∧
      evalLoop env input (ops.length + rounds) script start n =
        evalLoop env input rounds rest
          { start with stack := (ops.map Prod.snd).reverse ++ stack } n :=
    evalLoop_pushes (s := start) hops hone rfl hsize n
  cases hend
  rw [← hrounds, evalLoop_nil] at hrun
  exact evalScript_of_loop hlen hrun rfl

/-- The caller sees the stack of a run that succeeds. -/
theorem runScript_of_evalScript {stack stack' : List valtype} {script : CScript} {m : Nat}
    (hrun : evalScript env input stack script 0 = .ok stack' m) :
    runScript env input stack script = (true, stack') := by
  obtain ⟨r, hperforms, hr⟩ := scriptExec_performs env input stack script 0
  rw [hrun] at hr
  obtain ⟨t, rfl, ht⟩ := Option.map_eq_some_iff.mp hr
  cases hperforms with
  | done hdone =>
    rw [runScript, hdone]
    exact congrArg (Prod.mk true) ht

theorem PushesOf.runScript {script : CScript} {values : List valtype} (h : PushesOf script values)
    (hshort : ∀ v ∈ values, v.length ≤ 520) (hlen : script.length ≤ 10000)
    (hsize : values.length ≤ 1000) : runScript env input [] script = (true, values.reverse) := by
  have hsize' : values.length + ([] : List valtype).length ≤ 1000 := hsize
  have hrun : Triangles.evalScript env input [] script 0 = .ok (values.reverse ++ []) 0 :=
    h.evalScript hshort hlen hsize' 0
  rw [List.append_nil] at hrun
  exact runScript_of_evalScript hrun

end Pushes

/-! A script hash. -/

section ScriptHash

variable {env : ScriptEnv} {input : TxInput} {s : EvalState}

/-- An opcode outside conditionals, which counts as an operation. -/
theorem evalOp_counted {opcode : UInt8} {t : EvalState} {pc : CScript} {n m : Nat}
    (hhigh : OP_16 < opcode) (henabled : isDisabled opcode = false) (hfew : s.nOpCount < 201)
    (hexec : s.vfExec = [])
    (hop : execOp env input true opcode pc { s with nOpCount := s.nOpCount + 1 } n = .ok t m)
    (hsize : t.stack.length + t.altstack.length ≤ 1000) :
    evalOp env input opcode [] pc s n = .ok t m := by
  have hf : s.fExec = true := by rw [EvalState.fExec, hexec]; rfl
  have hcount : countOp opcode [] s = some { s with nOpCount := s.nOpCount + 1 } := by
    have hno : ¬ 201 < s.nOpCount + 1 := by omega
    unfold countOp
    simp only [if_pos hhigh, hno, henabled, List.length_nil, Bool.false_eq_true, and_false,
      or_false, Nat.not_lt_zero, if_false]
  have hnotPush : ¬ opcode ≤ OP_PUSHDATA4 :=
    UInt8.not_le.mpr (UInt8.lt_of_le_of_lt (by decide) hhigh)
  have hrun : runOp env input opcode [] pc { s with nOpCount := s.nOpCount + 1 } n = .ok t m := by
    rw [runOp, if_neg (fun hpush => hnotPush hpush.2), if_pos (.inl hf)]
    exact (congrArg (fun f => execOp env input f opcode pc _ n) hf).trans hop
  unfold evalOp
  rw [hcount, ofOption, pure_bind]
  refine (bind_of_ok _ hrun).trans ?_
  rw [limitSize_ok hsize]
  rfl

/-- A script hash on the stack that its own script leaves. -/
theorem evalScript_scriptHash {hash script : valtype} (hlen : hash.length = 20)
    (hhash : env.ripemd160 (env.sha256 script) = hash) {below : List valtype}
    (hsize : below.length + 2 ≤ 1000) (n : Nat) :
    evalScript env input (script :: below) (OP_HASH160 :: 20 :: (hash ++ [OP_EQUAL])) n =
      .ok ([1] :: below) n := by
  have hops := scriptHash_ops hlen
  have hbytes : (OP_HASH160 :: 20 :: (hash ++ [OP_EQUAL])).length = 23 := by simp [hlen]
  generalize OP_HASH160 :: 20 :: (hash ++ [OP_EQUAL]) = code at *
  cases hops with
  | @cons _ restHash _ _ _ hopHash hrest =>
    cases hrest with
    | @cons _ restPush _ _ _ hopPush hlast =>
      cases hlast with
      | @cons _ restDone _ _ _ hopEqual hdone =>
        cases hdone
        let start : EvalState := { stack := script :: below, pbegincodehash := code }
        let hashed : EvalState := { start with stack := hash :: below, nOpCount := 1 }
        let pushed : EvalState := { hashed with stack := hash :: hash :: below }
        let compared : EvalState := { pushed with stack := [1] :: below, nOpCount := 2 }
        have hrunHash : evalOp env input OP_HASH160 [] restHash start n = .ok hashed n := by
          refine evalOp_counted (by decide) (by decide) (show 0 < 201 by decide) rfl ?_
            (by simp only [List.length_cons, hashed, start, List.length_nil]; omega)
          have hrun : ofOption (plainOp env true OP_HASH160 restHash { start with nOpCount := 1 }) n =
              .ok { start with
                stack := env.ripemd160 (env.sha256 script) :: below, nOpCount := 1 } n := rfl
          rw [hhash] at hrun
          exact hrun
        have hshort : ShortPush (20, hash) :=
          ⟨show (20 : UInt8) ≤ OP_PUSHDATA4 by decide, by dsimp only; omega⟩
        have hrunPush : evalOp env input 20 hash restPush hashed n = .ok pushed n :=
          evalOp_shortPush hshort restPush rfl
            (by simp only [List.length_cons, hashed, start, List.length_nil]; omega) n
        have hrunEqual : evalOp env input OP_EQUAL [] [] pushed n = .ok compared n := by
          refine evalOp_counted (by decide) (by decide) (show 1 < 201 by decide) rfl ?_
            (by simp only [List.length_cons, compared, pushed, hashed, start, List.length_nil]; omega)
          have hequal : stackOp OP_EQUAL (hash :: hash :: below) = some ([1] :: below) := by
            have hsame : (hash == hash) = true := beq_self_eq_true hash
            change some (vchBool (hash == hash) :: below) = _
            rw [hsame]
            rfl
          have hplain : plainOp env true OP_EQUAL [] { pushed with nOpCount := 2 } = some compared := by
            change (stackOp OP_EQUAL (hash :: hash :: below)).map
              (fun stack => { pushed with stack := stack, nOpCount := 2 }) = _
            rw [hequal]
            rfl
          change ofOption (plainOp env true OP_EQUAL [] { pushed with nOpCount := 2 }) n = _
          rw [hplain]
          rfl
        refine evalScript_of_loop (t := compared) (by omega) ?_ rfl
        change evalLoop env input code.length code start n = .ok compared n
        rw [hbytes, evalLoop_cons hopHash, bind_of_ok _ hrunHash, evalLoop_cons hopPush,
          bind_of_ok _ hrunPush, evalLoop_cons hopEqual, bind_of_ok _ hrunEqual, evalLoop_nil]
        rfl

end ScriptHash

/-! Scripts made of pushes. -/

theorem pushData_le (d : valtype) : (pushData d).length ≤ d.length + 5 := by
  unfold pushData
  split_ifs <;> simp only [List.length_cons, List.length_append, wordBytes_length] <;> omega

theorem pushAll_cons (v : valtype) (values : List valtype) :
    pushAll (v :: values) = pushData v ++ pushAll values := rfl

theorem pushAll_append (values values' : List valtype) :
    pushAll (values ++ values') = pushAll values ++ pushAll values' := List.flatMap_append

theorem pushAll_le {values : List valtype} (h : ∀ v ∈ values, v.length ≤ 520) :
    (pushAll values).length ≤ 525 * values.length := by
  induction values with
  | nil => exact le_refl _
  | cons v values ih =>
    obtain ⟨hv, hvalues⟩ := List.forall_mem_cons.mp h
    have hone := pushData_le v
    have hrest := ih hvalues
    rw [pushAll_cons, List.length_append, List.length_cons]
    omega

/-- A script that `PushAll` makes pushes the values. -/
theorem pushAll_pushes {values : List valtype} (h : ∀ v ∈ values, v.length < 256 ^ 4) :
    PushesOf (pushAll values) values := by
  induction values with
  | nil => exact ⟨[], .nil, by simp, rfl⟩
  | cons v values ih =>
    obtain ⟨hv, hvalues⟩ := List.forall_mem_cons.mp h
    obtain ⟨ops, hops, hpush, hdata⟩ := ih hvalues
    obtain ⟨opcode, hop, hle, _⟩ := getOp_pushData (pushAll values) hv
    refine ⟨(opcode, v) :: ops, .cons hop hops, ?_, congrArg (v :: ·) hdata⟩
    exact List.forall_mem_cons.mpr ⟨hle, hpush⟩

theorem replicate_pushAll (n : Nat) : List.replicate n OP_0 = pushAll (List.replicate n []) := by
  induction n with
  | zero => rfl
  | succ n ih =>
    rw [List.replicate_succ, List.replicate_succ, pushAll_cons, ← ih]
    rfl

theorem PushesOf.isPushOnly {script : CScript} {values : List valtype} (h : PushesOf script values) :
    isPushOnly script = true := by
  obtain ⟨ops, hops, hpush, hdata⟩ := h
  clear hdata
  have hrun : ∀ rounds, script.length ≤ rounds → pushesOnly rounds script = true := by
    induction hops with
    | nil => intro rounds _; cases rounds <;> rfl
    | @cons script rest opcode data ops hop _ ih =>
      intro rounds hrounds
      have hlt := getOp_length hop
      obtain ⟨hone, hpush⟩ := List.forall_mem_cons.mp hpush
      have hlow : opcode ≤ OP_16 := UInt8.le_trans hone (by decide)
      cases script with
      | nil => cases hop
      | cons op pc =>
        cases rounds with
        | zero => cases hrounds
        | succ rounds =>
          simp only [pushesOnly, hop, hlow, decide_true, Bool.true_and]
          exact ih hpush rounds (by omega)
  exact hrun _ (le_refl _)

/-! A multisig script. -/

theorem pushSize_size {opcode : UInt8} {pc pc' : CScript} {nSize : Nat}
    (h : pushSize opcode pc = some (nSize, pc')) : pc.length ≤ pc'.length + 4 := by
  have hwidth : (if opcode = OP_PUSHDATA1 then 1 else if opcode = OP_PUSHDATA2 then 2 else 4) ≤ 4 := by
    split_ifs <;> decide
  unfold pushSize at h
  generalize (if opcode = OP_PUSHDATA1 then 1 else if opcode = OP_PUSHDATA2 then 2 else 4) = width
    at h hwidth
  dsimp only at h
  split at h
  · cases h
    omega
  · split at h
    · cases h
    · cases h
      rw [List.length_drop]
      omega

/-- An instruction takes at most five bytes more than its operand. -/
theorem getOp_size {script rest : CScript} {opcode : UInt8} {data : List UInt8}
    (h : getOp script = some (opcode, data, rest)) :
    script.length ≤ data.length + 5 + rest.length := by
  cases script with
  | nil => cases h
  | cons op pc =>
    rw [getOp] at h
    split at h
    · split at h
      · cases h
      · rename_i nSize pc' hsize
        split at h
        · cases h
        · rename_i hfits
          simp only [Option.some.injEq, Prod.mk.injEq] at h
          obtain ⟨_, rfl, rfl⟩ := h
          have hprefix := pushSize_size hsize
          rw [List.length_cons, List.length_take, List.length_drop]
          omega
    · simp only [Option.some.injEq, Prod.mk.injEq] at h
      obtain ⟨_, rfl, rfl⟩ := h
      rw [List.length_cons, List.length_nil]
      omega

theorem HasOps.size {script : CScript} {ops : List (UInt8 × List UInt8)} (h : HasOps script ops) :
    script.length ≤ (ops.map fun op => op.2.length + 5).sum := by
  induction h with
  | nil => exact le_refl _
  | cons hop _ ih =>
    have hone := getOp_size hop
    rw [List.map_cons, List.sum_cons]
    dsimp only
    omega

def NumberOp (opcode : UInt8) : Prop := OP_1 ≤ opcode ∧ opcode ≤ OP_16

theorem NumberOp.value {opcode : UInt8} (h : NumberOp opcode) :
    castToBigNum (bnGetvch ((opcode.toNat : Int) - (OP_1.toNat - 1))) =
        some ((decodeOP_N opcode).toNat : Int) ∧
      1 ≤ (decodeOP_N opcode).toNat ∧ (decodeOP_N opcode).toNat ≤ 16 := by
  have hall : ∀ k : Fin 256, OP_1 ≤ UInt8.ofNat k ∧ UInt8.ofNat k ≤ OP_16 →
      castToBigNum (bnGetvch (((UInt8.ofNat k).toNat : Int) - (OP_1.toNat - 1))) =
          some ((decodeOP_N (UInt8.ofNat k)).toNat : Int) ∧
        1 ≤ (decodeOP_N (UInt8.ofNat k)).toNat ∧ (decodeOP_N (UInt8.ofNat k)).toNat ≤ 16 := by
    decide +kernel
  have hk := hall ⟨opcode.toNat, opcode.toNat_lt⟩
  rw [UInt8.ofNat_toNat] at hk
  exact hk h

section MultiSig

variable {env : ScriptEnv} {input : TxInput} {s : EvalState}

/-- An opcode that stands for a number leaves it on the stack. -/
theorem evalOp_smallNumber {opcode : UInt8} (h : opcode = OP_1NEGATE ∨ NumberOp opcode)
    (pc : CScript) (hexec : s.vfExec = []) (hsize : s.stack.length + s.altstack.length < 1000)
    (n : Nat) :
    evalOp env input opcode [] pc s n =
      .ok { s with stack := bnGetvch ((opcode.toNat : Int) - (OP_1.toNat - 1)) :: s.stack } n := by
  have hf : s.fExec = true := by rw [EvalState.fExec, hexec]; rfl
  have hnotPush : ¬ opcode ≤ OP_PUSHDATA4 := by
    obtain rfl | h := h
    · decide
    · exact UInt8.not_le.mpr (UInt8.lt_of_lt_of_le (by decide) h.1)
  have hhigh : opcode ≤ OP_16 := by
    obtain rfl | h := h
    · decide
    · exact h.2
  have hnumber : opcode = OP_1NEGATE ∨ OP_1 ≤ opcode ∧ opcode ≤ OP_16 := h
  have hop : execOp env input s.fExec opcode pc s =
      pure { s with stack := bnGetvch ((opcode.toNat : Int) - (OP_1.toNat - 1)) :: s.stack } := by
    have hlow : ∀ b : UInt8, OP_16 < b → opcode ≠ b := by
      rintro b hb rfl
      exact absurd hhigh (UInt8.not_le.mpr hb)
    rw [execOp, if_neg (by simp [hlow OP_CHECKSIG (by decide), hlow OP_CHECKSIGVERIFY (by decide)]),
      if_neg (by simp [hlow OP_CHECKMULTISIG (by decide), hlow OP_CHECKMULTISIGVERIFY (by decide)]),
      plainOp, if_pos hhigh, pushNumber, if_pos hnumber]
    rfl
  have hlimit := limitSize_ok
    (s := { s with stack := bnGetvch ((opcode.toNat : Int) - (OP_1.toNat - 1)) :: s.stack })
    (by simp only [List.length_cons]; omega)
  unfold evalOp
  rw [countOp_low hhigh (Nat.zero_le _), ofOption, pure_bind, runOp,
    if_neg (fun hpush => hnotPush hpush.2), if_pos (.inl hf), hop, pure_bind, hlimit]
  rfl

theorem evalOp_number {opcode : UInt8} (h : NumberOp opcode) (pc : CScript)
    (hexec : s.vfExec = []) (hsize : s.stack.length + s.altstack.length < 1000) (n : Nat) :
    evalOp env input opcode [] pc s n =
      .ok { s with stack := bnGetvch ((opcode.toNat : Int) - (OP_1.toNat - 1)) :: s.stack } n :=
  evalOp_smallNumber (.inr h) pc hexec hsize n

/-- The operands of `OP_CHECKMULTISIG` on the stack. -/
theorem multiSigOperands_ok {nOpCount : Nat} {vchKeys vchSigs extra : valtype}
    {keys sigs below : List valtype} (hkeys : castToBigNum vchKeys = some (keys.length : Int))
    (hsigs : castToBigNum vchSigs = some (sigs.length : Int)) (hmax : keys.length ≤ 20)
    (hle : sigs.length ≤ keys.length) (hcount : nOpCount + keys.length ≤ 201) :
    multiSigOperands nOpCount
        (vchKeys :: (keys ++ vchSigs :: (sigs ++ extra :: below))) =
      some (keys.length, keys, sigs, below) := by
  have hdropKeys : (keys ++ vchSigs :: (sigs ++ extra :: below)).drop keys.length =
      vchSigs :: (sigs ++ extra :: below) := List.drop_left
  have hdropSigs : (sigs ++ extra :: below).drop sigs.length = extra :: below := List.drop_left
  unfold multiSigOperands
  simp only [hkeys, hsigs, Option.bind_eq_bind, Option.bind_some, Int.toNat_natCast, hdropKeys,
    hdropSigs, List.take_left]
  have hk : (0 : Int) ≤ (keys.length : Int) ∧ (keys.length : Int) ≤ 20 := by omega
  have hs : (0 : Int) ≤ (sigs.length : Int) ∧ (sigs.length : Int) ≤ keys.length := by omega
  simp only [guard, hk, hs, hcount, and_self, if_true]
  rfl

/-- `OP_CHECKMULTISIG` on its operands. -/
theorem evalOp_checkMultiSig {vchKeys vchSigs extra : valtype} {keys sigs below : List valtype}
    (hstack : s.stack = vchKeys :: (keys ++ vchSigs :: (sigs ++ extra :: below)))
    (hkeys : castToBigNum vchKeys = some (keys.length : Int))
    (hsigs : castToBigNum vchSigs = some (sigs.length : Int)) (hmax : keys.length ≤ 20)
    (hle : sigs.length ≤ keys.length) (hcount : s.nOpCount + 1 + keys.length ≤ 201)
    (hexec : s.vfExec = []) (hsize : below.length + s.altstack.length < 1000) (pc : CScript)
    (n : Nat) :
    ∃ m, evalOp env input OP_CHECKMULTISIG [] pc s n =
      .ok { s with
        stack := vchBool (matchesInOrder (validSig env input
          (strippedCode s.pbegincodehash sigs)) sigs keys) :: below
        nOpCount := s.nOpCount + 1 + keys.length } m := by
  obtain ⟨m, hmatch⟩ :=
    checkMultiSig_run env input (strippedCode s.pbegincodehash sigs) sigs keys n
  generalize matchesInOrder _ sigs keys = fSuccess at hmatch ⊢
  have hoperands : multiSigOperands (s.nOpCount + 1) s.stack =
      some (keys.length, keys, sigs, below) := by
    rw [hstack]
    exact multiSigOperands_ok hkeys hsigs hmax hle hcount
  have hrun : execOp env input true OP_CHECKMULTISIG pc { s with nOpCount := s.nOpCount + 1 } n =
      .ok { s with
        stack := vchBool fSuccess :: below, nOpCount := s.nOpCount + 1 + keys.length } m := by
    rw [execOp, if_neg (by decide), if_pos (by decide), checkMultiSigOp, hoperands]
    exact (bind_of_ok _ hmatch).trans rfl
  exact ⟨m, evalOp_counted (by decide) (by decide) (by omega) hexec hrun
    (by simp only [List.length_cons]; omega)⟩

theorem HasOps.push {script : CScript} {ops : List (UInt8 × List UInt8)} (h : HasOps script ops) :
    ∀ op ∈ ops, op.2 ≠ [] → op.1 ≤ OP_PUSHDATA4 := by
  induction h with
  | nil => simp
  | cons hop _ ih =>
    intro op hmem hne
    rcases List.mem_cons.mp hmem with rfl | hmem
    · by_contra hnot
      exact hne (getOp_data hop hnot)
    · exact ih op hmem hne

theorem number_of_small {opcode : UInt8} (h : SmallInteger opcode)
    (hpos : 1 ≤ (decodeOP_N opcode).toNat) : NumberOp opcode := by
  rcases h with rfl | h
  · exact absurd hpos (by decide)
  · exact h

theorem keys_size {keys : List (UInt8 × List UInt8)} (h : ∀ key ∈ keys, KeySize key.2) :
    (keys.map fun op => op.2.length + 5).sum ≤ 125 * keys.length := by
  induction keys with
  | nil => exact le_refl _
  | cons key keys ih =>
    obtain ⟨hkey, hkeys⟩ := List.forall_mem_cons.mp h
    have hrest := ih hkeys
    have hone := hkey.2
    rw [List.map_cons, List.sum_cons, List.length_cons]
    omega

/-- A multisig script on its signatures, the last one on top, and the extra item. -/
theorem evalScript_multisig {script : CScript} {opM opN : UInt8} {keys : List (UInt8 × List UInt8)}
    (h : MultisigOps script opM opN keys) (hcounts : RightCounts opM opN keys)
    {sigs : List valtype} (hsigs : sigs.length = (decodeOP_N opM).toNat) (extra : valtype)
    (n : Nat) :
    ∃ m, evalScript env input (sigs ++ [extra]) script n =
      .ok [vchBool (matchesInOrder (validSig env input (strippedCode script sigs)) sigs
        (keys.map Prod.snd).reverse)] m := by
  obtain ⟨hpos, hle, hlen⟩ := hcounts
  have hM := number_of_small h.required hpos
  have hN := number_of_small h.total (hpos.trans hle)
  obtain ⟨hvalueM, _, _⟩ := hM.value
  obtain ⟨hvalueN, _, hmax⟩ := hN.value
  have hkeys : ∀ key ∈ keys, ShortPush key := by
    intro key hkey
    have hsize := h.keySizes key hkey
    refine ⟨h.ops.push key (by simp [hkey]) (keySize_ne_nil hsize), ?_⟩
    exact hsize.2.trans (by decide)
  have hbytes : script.length ≤ 10000 := by
    have hsum := keys_size h.keySizes
    have hsize := h.ops.size
    simp only [List.map_cons, List.map_append, List.sum_cons, List.sum_append, List.map_nil,
      List.sum_nil, List.length_nil] at hsize
    omega
  have hlength := h.ops.length_le
  simp only [List.length_cons, List.length_append, List.length_nil] at hlength
  obtain ⟨rounds, hrounds⟩ := Nat.exists_eq_add_of_le hlength
  cases h.ops with
  | @cons _ restM _ _ _ hopM hrest =>
    have hsize : (sigs ++ [extra]).length = sigs.length + 1 := by simp
    let atM : EvalState := { stack := sigs ++ [extra], pbegincodehash := script }
    let atKeys : EvalState :=
      { atM with stack := bnGetvch ((opM.toNat : Int) - (OP_1.toNat - 1)) :: atM.stack }
    let atN : EvalState := { atKeys with stack := (keys.map Prod.snd).reverse ++ atKeys.stack }
    let atEnd : EvalState :=
      { atN with stack := bnGetvch ((opN.toNat : Int) - (OP_1.toNat - 1)) :: atN.stack }
    have hkeysLen : (keys.map Prod.snd).reverse.length = keys.length := by simp
    have hsizeN : atN.stack.length = keys.length + (sigs.length + 2) := by
      simp [atN, atKeys, atM]
    have hrunM : evalOp env input opM [] restM atM n = .ok atKeys n :=
      evalOp_number hM restM rfl (by simp only [atM, hsize, List.length_nil]; omega) n
    obtain ⟨restN, hopsN, hrunKeys⟩ : ∃ rest, HasOps rest [(opN, []), (OP_CHECKMULTISIG, [])] ∧
        evalLoop env input (keys.length + (rounds + 2)) restM atKeys n =
          evalLoop env input (rounds + 2) rest atN n :=
      evalLoop_pushes hrest hkeys rfl
        (by simp only [atKeys, atM, List.length_cons, hsize, List.length_nil]; omega) n
    cases hopsN with
    | @cons _ restEnd _ _ _ hopN hlast =>
      have hrunN : evalOp env input opN [] restEnd atN n = .ok atEnd n :=
        evalOp_number hN restEnd rfl (by rw [hsizeN]; simp only [atN, atKeys, atM, List.length_nil]; omega) n
      cases hlast with
      | @cons _ restDone _ _ _ hopEnd hdone =>
        cases hdone
        obtain ⟨m, hrunEnd⟩ : ∃ m, evalOp env input OP_CHECKMULTISIG [] [] atEnd n =
            .ok { atEnd with
              stack := [vchBool (matchesInOrder (validSig env input (strippedCode script sigs)) sigs
                (keys.map Prod.snd).reverse)]
              nOpCount := 0 + 1 + (keys.map Prod.snd).reverse.length } m :=
          evalOp_checkMultiSig (s := atEnd) rfl
            (by rw [hvalueN, List.length_reverse, List.length_map, hlen]) (by rw [hvalueM, hsigs])
            (by rw [hkeysLen]; omega) (by rw [hkeysLen]; omega)
            (by rw [hkeysLen]; change 0 + 1 + keys.length ≤ 201; omega) rfl
            (by change 0 + 0 < 1000; omega) [] n
        have hlen' : script.length = (keys.length + (rounds + 2)) + 1 := by omega
        have hloop : evalLoop env input script.length script atM n =
            evalOp env input OP_CHECKMULTISIG [] [] atEnd n := by
          rw [hlen', evalLoop_cons hopM, bind_of_ok _ hrunM, hrunKeys, evalLoop_cons hopN,
            bind_of_ok _ hrunN, evalLoop_cons hopEnd, bind_of_ok _ hrunEnd, evalLoop_nil]
          exact hrunEnd.symm
        have hscript := evalScript_of_loop hbytes (hloop.trans hrunEnd) rfl
        exact ⟨m, hscript⟩

end MultiSig

end Triangles
