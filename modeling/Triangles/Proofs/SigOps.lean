import Triangles.Model.Interpreter
import Triangles.Proofs.SigHash

/-! The static count of signature operations bounds the calls of `CheckSig` in any run. -/

namespace Triangles

open Outcome

/-- A run makes at most `k` calls, whatever its outcome. -/
def Calls (k : Nat) (x : Interp α) : Prop := ∀ n, leaves x n ≤ n + k

theorem Calls.mono {k j : Nat} {x : Interp α} (h : Calls k x) (hkj : k ≤ j) : Calls j x :=
  fun n => (h n).trans (Nat.add_le_add_left hkj n)

theorem calls_pure (a : α) : Calls 0 (pure a : Interp α) := fun _ => le_rfl

theorem calls_throw : Calls 0 (throw () : Interp α) := fun _ => le_rfl

theorem calls_ofOption (x : Option α) : Calls 0 (ofOption x) := by
  cases x with
  | none => exact calls_throw
  | some a => exact calls_pure a

theorem ofOption_ok {x : Option α} {n t : Nat} {a : α} (h : ofOption x n = .ok a t) :
    x = some a := by
  cases x with
  | none => cases h
  | some b =>
    cases h
    rfl

/-- Calls add up; the second part only starts from results of the first. -/
theorem Calls.bind {k j : Nat} {x : Interp α} {f : α → Interp β} (hx : Calls k x)
    (hf : ∀ a n t, x n = .ok a t → Calls j (f a)) : Calls (k + j) (x >>= f) := by
  intro n
  have hn := hx n
  cases h : x n with
  | ok a t =>
    rw [leaves_bind_ok f h]
    rw [leaves_ok h] at hn
    have ht := hf a n t h t
    omega
  | error e t =>
    rw [leaves_bind_error f h]
    rw [leaves_error h] at hn
    omega

/-! What each instruction counts. -/

def opSigOps (fAccurate : Bool) (lastOpcode opcode : UInt8) : Nat :=
  if opcode = OP_CHECKSIG ∨ opcode = OP_CHECKSIGVERIFY then 1
  else if opcode = OP_CHECKMULTISIG ∨ opcode = OP_CHECKMULTISIGVERIFY then
    if fAccurate ∧ OP_1 ≤ lastOpcode ∧ lastOpcode ≤ OP_16 then
      lastOpcode.toNat - (OP_1.toNat - 1)
    else 20
  else 0

theorem countSigOps_succ (fAccurate : Bool) (rounds : Nat) (lastOpcode : UInt8) (pc : CScript) :
    countSigOps fAccurate (rounds + 1) lastOpcode pc =
      match getOp pc with
      | none => 0
      | some (opcode, _, rest) =>
        opSigOps fAccurate lastOpcode opcode + countSigOps fAccurate rounds opcode rest := rfl

theorem opSigOps_accurate_le (lastOpcode opcode : UInt8) :
    opSigOps true lastOpcode opcode ≤ opSigOps false lastOpcode opcode := by
  have hone : OP_1.toNat = 81 := rfl
  have hsixteen : OP_16.toNat = 96 := rfl
  unfold opSigOps
  split
  · exact le_rfl
  · split
    · split
      · rename_i h
        have hle := UInt8.le_iff_toNat_le.mp h.2.2
        rw [if_neg (by simp)]
        omega
      · rw [if_neg (by simp)]
    · exact le_rfl

theorem countSigOps_accurate_le (rounds : Nat) (lastOpcode : UInt8) (pc : CScript) :
    countSigOps true rounds lastOpcode pc ≤ countSigOps false rounds lastOpcode pc := by
  induction rounds generalizing lastOpcode pc with
  | zero => exact le_rfl
  | succ rounds ih =>
    rw [countSigOps_succ, countSigOps_succ]
    split
    · exact le_rfl
    · exact Nat.add_le_add (opSigOps_accurate_le _ _) (ih _ _)

/-! One instruction. -/

theorem checkOne_calls (env : ScriptEnv) (input : TxInput) (scriptCode : CScript)
    (vchSig vchPubKey : valtype) : Calls 1 (checkOne env input scriptCode vchSig vchPubKey) := by
  unfold checkOne
  split
  · exact fun n => le_rfl
  · exact (calls_pure false).mono (Nat.zero_le 1)

theorem checkMultiSig_calls (env : ScriptEnv) (input : TxInput) (scriptCode : CScript)
    (sigs keys : List valtype) :
    Calls keys.length (checkMultiSig env input scriptCode sigs keys) := by
  induction keys generalizing sigs with
  | nil =>
    cases sigs with
    | nil => exact calls_pure true
    | cons vchSig sigs => exact calls_pure false
  | cons vchPubKey keys ih =>
    cases sigs with
    | nil => exact (calls_pure true).mono (Nat.zero_le _)
    | cons vchSig sigs =>
      rw [checkMultiSig, List.length_cons, Nat.add_comm]
      refine (checkOne_calls env input scriptCode vchSig vchPubKey).bind fun fOk n t _ => ?_
      dsimp only
      generalize (if fOk then sigs else vchSig :: sigs) = left
      split
      · exact (calls_pure false).mono (Nat.zero_le _)
      · exact ih left

/-- The number under `OP_CHECKMULTISIG` is the number of keys. -/
theorem multiSigOperands_keys {nOpCount nKeysCount : Nat} {stack keys sigs below : List valtype}
    (h : multiSigOperands nOpCount stack = some (nKeysCount, keys, sigs, below)) :
    ∃ vch rest, stack = vch :: rest ∧ castToBigNum vch = some (nKeysCount : Int) ∧
      keys.length ≤ nKeysCount ∧ nKeysCount ≤ 20 := by
  cases stack with
  | nil => cases h
  | cons vch rest =>
    refine ⟨vch, rest, rfl, ?_⟩
    unfold multiSigOperands at h
    simp only [Option.bind_eq_bind, Option.bind_eq_some_iff, Option.guard_eq_some'] at h
    obtain ⟨k, hk, -, hrange, -, -, h⟩ := h
    split at h
    · cases h
    · simp only [Option.bind_eq_some_iff] at h
      obtain ⟨m, -, -, -, h⟩ := h
      split at h
      · cases h
      · simp only [Option.some.injEq, Prod.mk.injEq] at h
        obtain ⟨rfl, rfl, -, -⟩ := h
        rw [hk, Int.toNat_of_nonneg hrange.1]
        refine ⟨rfl, ?_, by omega⟩
        simp

theorem checkSigOp_calls (env : ScriptEnv) (input : TxInput) (opcode : UInt8) (s : EvalState) :
    Calls 1 (checkSigOp env input opcode s) := by
  unfold checkSigOp
  split
  · exact (checkOne_calls env input _ _ _).bind fun _ _ _ _ => calls_ofOption _
  · exact calls_throw.mono (Nat.zero_le 1)

/-- What is known of the stack behind an instruction that pushes a small number. -/
def Follows (lastOpcode : UInt8) (s : EvalState) : Prop :=
  OP_1 ≤ lastOpcode → lastOpcode ≤ OP_16 → s.fExec = true →
    ∃ rest, s.stack = bnGetvch ((lastOpcode.toNat : Int) - (OP_1.toNat - 1)) :: rest

theorem castToBigNum_number : ∀ k : Fin 18,
    castToBigNum (bnGetvch ((k : Nat) - 1 : Int)) = some ((k : Nat) - 1 : Int) := by decide

theorem checkMultiSigOp_calls (env : ScriptEnv) (input : TxInput) {lastOpcode opcode : UInt8}
    {s : EvalState} (hf : Follows lastOpcode s) (hexec : s.fExec = true) :
    Calls (if OP_1 ≤ lastOpcode ∧ lastOpcode ≤ OP_16 then lastOpcode.toNat - (OP_1.toNat - 1)
      else 20) (checkMultiSigOp env input opcode s) := by
  unfold checkMultiSigOp
  cases hops : multiSigOperands s.nOpCount s.stack with
  | none => exact calls_throw.mono (Nat.zero_le _)
  | some r =>
    obtain ⟨nKeysCount, keys, sigs, below⟩ := r
    obtain ⟨vch, rest, hstack, hcast, hkeys, hmax⟩ := multiSigOperands_keys hops
    have hbound : nKeysCount ≤ (if OP_1 ≤ lastOpcode ∧ lastOpcode ≤ OP_16 then
        lastOpcode.toNat - (OP_1.toNat - 1) else 20) := by
      split
      · rename_i hn
        obtain ⟨rest', hs⟩ := hf hn.1 hn.2 hexec
        have hlow := UInt8.le_iff_toNat_le.mp hn.1
        have hhigh := UInt8.le_iff_toNat_le.mp hn.2
        have hone : OP_1.toNat = 81 := rfl
        have hsixteen : OP_16.toNat = 96 := rfl
        rw [hs] at hstack
        obtain ⟨rfl, -⟩ := List.cons.inj hstack
        have hnum := castToBigNum_number ⟨lastOpcode.toNat - 79, by omega⟩
        have harg : ((lastOpcode.toNat - 79 : Nat) : Int) - 1 =
            (lastOpcode.toNat : Int) - (OP_1.toNat - 1) := by omega
        rw [harg] at hnum
        have hkeysEq := Option.some.inj (hcast.symm.trans hnum)
        omega
      · exact hmax
    refine ((checkMultiSig_calls env input _ sigs keys).bind
      fun _ _ _ _ => calls_ofOption _).mono ?_
    exact hkeys.trans hbound

theorem execOp_calls (env : ScriptEnv) (input : TxInput) {lastOpcode opcode : UInt8}
    {s : EvalState} (hf : Follows lastOpcode s) (hexec : s.fExec = true) (pc : CScript) :
    Calls (opSigOps true lastOpcode opcode) (execOp env input s.fExec opcode pc s) := by
  unfold execOp opSigOps
  split
  · exact checkSigOp_calls env input opcode s
  · split
    · simpa using checkMultiSigOp_calls env input hf hexec
    · exact calls_ofOption _

/-- Outside the executed branch no signature is looked at. -/
theorem execOp_control (env : ScriptEnv) (input : TxInput) {opcode : UInt8} (s : EvalState)
    (hop : opcode ≤ OP_ENDIF) (fExec : Bool) (pc : CScript) :
    execOp env input fExec opcode pc s = ofOption (plainOp env fExec opcode pc s) := by
  have hle := UInt8.le_iff_toNat_le.mp hop
  have hend : OP_ENDIF.toNat = 104 := rfl
  unfold execOp
  rw [if_neg, if_neg]
  · rintro (rfl | rfl)
    · exact absurd hop (by decide)
    · exact absurd hop (by decide)
  · rintro (rfl | rfl)
    · exact absurd hop (by decide)
    · exact absurd hop (by decide)

theorem countOp_eq {opcode : UInt8} {vchPushValue : valtype} {s s' : EvalState}
    (h : countOp opcode vchPushValue s = some s') :
    ∃ nOpCount, s' = { s with nOpCount := nOpCount } := by
  dsimp only [countOp] at h
  generalize (if OP_16 < opcode then s.nOpCount + 1 else s.nOpCount) = nOpCount at h
  split at h
  · cases h
  · exact ⟨nOpCount, (Option.some.inj h).symm⟩

theorem limitSize_eq {s s' : EvalState} (h : limitSize s = some s') : s' = s := by
  unfold limitSize at h
  split at h
  · cases h
  · exact (Option.some.inj h).symm

theorem runOp_calls (env : ScriptEnv) (input : TxInput) {lastOpcode : UInt8} {s : EvalState}
    (hf : Follows lastOpcode s) (opcode : UInt8) (vchPushValue : valtype) (pc : CScript) :
    Calls (opSigOps true lastOpcode opcode) (runOp env input opcode vchPushValue pc s) := by
  unfold runOp
  split
  · exact (calls_pure _).mono (Nat.zero_le _)
  · split
    · rename_i hor
      by_cases hexec : s.fExec = true
      · exact execOp_calls env input hf hexec pc
      · have hrange := hor.resolve_left hexec
        rw [execOp_control env input _ hrange.2]
        exact (calls_ofOption _).mono (Nat.zero_le _)
    · exact (calls_pure _).mono (Nat.zero_le _)

/-- One instruction makes no more calls than are counted for it. -/
theorem evalOp_calls (env : ScriptEnv) (input : TxInput) {lastOpcode : UInt8} {s : EvalState}
    (hf : Follows lastOpcode s) (opcode : UInt8) (vchPushValue : valtype) (pc : CScript) :
    Calls (opSigOps true lastOpcode opcode) (evalOp env input opcode vchPushValue pc s) := by
  have hsum : Calls (0 + (opSigOps true lastOpcode opcode + 0))
      (evalOp env input opcode vchPushValue pc s) := by
    refine (calls_ofOption _).bind fun s' n t hs' => ?_
    obtain ⟨nOpCount, rfl⟩ := countOp_eq (ofOption_ok hs')
    have hf' : Follows lastOpcode { s with nOpCount := nOpCount } := hf
    exact (runOp_calls env input hf' opcode vchPushValue pc).bind fun _ _ _ _ => calls_ofOption _
  rw [Nat.zero_add, Nat.add_zero] at hsum
  exact hsum

/-- An instruction up to `OP_16` pushes its operand or its number. -/
theorem runOp_push {env : ScriptEnv} {input : TxInput} {opcode : UInt8} (hop : opcode ≤ OP_16)
    {vchPushValue : valtype} {pc : CScript} {s s' : EvalState} {n t : Nat}
    (h : runOp env input opcode vchPushValue pc s n = .ok s' t) :
    if s.fExec then
      s' = { s with stack :=
        (if opcode ≤ OP_PUSHDATA4 then vchPushValue
          else bnGetvch ((opcode.toNat : Int) - (OP_1.toNat - 1))) :: s.stack } ∧
      (¬ opcode ≤ OP_PUSHDATA4 → opcode = OP_1NEGATE ∨ OP_1 ≤ opcode ∧ opcode ≤ OP_16)
    else s' = s := by
  have hif : ¬ OP_IF ≤ opcode := by
    intro hle
    exact absurd (UInt8.le_trans hle hop) (by decide)
  have hend : opcode ≤ OP_ENDIF := UInt8.le_trans hop (by decide)
  unfold runOp at h
  cases hexec : s.fExec with
  | false =>
    rw [hexec, if_neg (by simp), if_neg (by simp [hif])] at h
    cases h
    rfl
  | true =>
    rw [if_pos rfl]
    by_cases hpush : opcode ≤ OP_PUSHDATA4
    · rw [if_pos ⟨hexec, hpush⟩] at h
      cases h
      exact ⟨by rw [if_pos hpush], fun hn => absurd hpush hn⟩
    · rw [if_neg fun hand => hpush hand.2, if_pos (.inl hexec), execOp_control env input _ hend,
        plainOp, if_pos hop] at h
      have hnum := ofOption_ok h
      unfold pushNumber at hnum
      split at hnum
      · rename_i hrange
        obtain rfl := Option.some.inj hnum
        exact ⟨by rw [if_neg hpush], fun _ => hrange⟩
      · cases hnum

/-- An instruction that pushes a small number and is executed leaves the number on the stack. -/
theorem evalOp_follows {env : ScriptEnv} {input : TxInput} {opcode : UInt8}
    {vchPushValue : valtype} {pc : CScript} {s s' : EvalState} {n t : Nat}
    (h : evalOp env input opcode vchPushValue pc s n = .ok s' t) : Follows opcode s' := by
  intro hlow hhigh hexec
  obtain ⟨s1, t1, h1, h⟩ := run_bind_ok.mp h
  obtain ⟨s2, t2, h2, h⟩ := run_bind_ok.mp h
  obtain rfl := limitSize_eq (ofOption_ok h)
  have hpush : ¬ opcode ≤ OP_PUSHDATA4 := by
    intro hle
    exact absurd (UInt8.le_trans hlow hle) (by decide)
  have hrun := runOp_push hhigh h2
  cases hfexec : s1.fExec with
  | true =>
    rw [if_pos hfexec, if_neg hpush] at hrun
    rw [hrun.1]
    exact ⟨_, rfl⟩
  | false =>
    rw [if_neg (by simp [hfexec])] at hrun
    rw [hrun, hfexec] at hexec
    cases hexec

/-! Whole scripts. -/

theorem evalLoop_calls (env : ScriptEnv) (input : TxInput) (rounds : Nat) (pc : CScript)
    {lastOpcode : UInt8} {s : EvalState} (hf : Follows lastOpcode s) :
    Calls (countSigOps true rounds lastOpcode pc) (evalLoop env input rounds pc s) := by
  induction rounds generalizing pc lastOpcode s with
  | zero =>
    cases pc with
    | nil => exact calls_pure s
    | cons op pc => exact calls_throw
  | succ rounds ih =>
    cases pc with
    | nil => exact (calls_pure s).mono (Nat.zero_le _)
    | cons op pc =>
      rw [countSigOps_succ, evalLoop]
      cases hg : getOp (op :: pc) with
      | none => exact calls_throw
      | some r =>
        obtain ⟨opcode, vchPushValue, rest⟩ := r
        exact (evalOp_calls env input hf opcode vchPushValue rest).bind fun s' n t hs' =>
          ih rest (evalOp_follows hs')

/-- No run of a script makes more calls than its accurate count. -/
theorem evalScript_calls (env : ScriptEnv) (input : TxInput) (stack : List valtype)
    (script : CScript) :
    Calls (getSigOpCount script true) (evalScript env input stack script) := by
  unfold evalScript
  split
  · exact calls_throw.mono (Nat.zero_le _)
  · have hf : Follows OP_INVALIDOPCODE { stack := stack, pbegincodehash := script } := by
      intro _ hhigh
      exact absurd hhigh (by decide)
    have hloop := evalLoop_calls env input script.length script hf
    refine (hloop.bind (j := 0) fun s n t _ => ?_)
    split
    · exact calls_pure _
    · exact calls_throw

/-! Pay to script hash: the script that a push-only script leaves on the stack. -/

/-- An item as the counting of `GetSigOpCount(scriptSig)` knows it: the operand itself, or a small
number, for which the operand is empty. -/
def LastItem (data item : valtype) : Prop :=
  item = data ∨ data = [] ∧ ∃ opcode : UInt8,
    (opcode = OP_1NEGATE ∨ OP_1 ≤ opcode ∧ opcode ≤ OP_16) ∧
      item = bnGetvch ((opcode.toNat : Int) - (OP_1.toNat - 1))

theorem getOp_data {pc rest : CScript} {opcode : UInt8} {data : List UInt8}
    (h : getOp pc = some (opcode, data, rest)) (hop : ¬ opcode ≤ OP_PUSHDATA4) : data = [] := by
  cases pc with
  | nil => cases h
  | cons op pc =>
    obtain ⟨rfl, -⟩ := getOp_suffix h
    rw [getOp, if_neg hop] at h
    simp only [Option.some.injEq, Prod.mk.injEq] at h
    exact h.2.1.symm

/-- A push that runs outside conditionals puts an item on the stack. -/
theorem evalOp_push {env : ScriptEnv} {input : TxInput} {pc rest : CScript} {opcode : UInt8}
    {data : valtype} (hg : getOp pc = some (opcode, data, rest)) (hop : opcode ≤ OP_16)
    {s s' : EvalState} {n t : Nat} (hs : s.vfExec = [])
    (h : evalOp env input opcode data rest s n = .ok s' t) :
    s'.vfExec = [] ∧ ∃ item below, s'.stack = item :: below ∧ LastItem data item := by
  obtain ⟨s1, t1, h1, hrest⟩ := run_bind_ok.mp h
  obtain ⟨s2, t2, h2, hlimit⟩ := run_bind_ok.mp hrest
  obtain ⟨nOpCount, rfl⟩ := countOp_eq (ofOption_ok h1)
  obtain rfl := limitSize_eq (ofOption_ok hlimit)
  have hrun := runOp_push hop h2
  have hexec : ({ s with nOpCount := nOpCount } : EvalState).fExec = true := by
    simp [EvalState.fExec, hs]
  rw [if_pos hexec] at hrun
  obtain ⟨rfl, hnum⟩ := hrun
  refine ⟨hs, _, s.stack, rfl, ?_⟩
  by_cases hpush : opcode ≤ OP_PUSHDATA4
  · rw [if_pos hpush]
    exact .inl rfl
  · rw [if_neg hpush]
    exact .inr ⟨getOp_data hg hpush, opcode, hnum hpush, rfl⟩

theorem pushesOnly_cons (rounds : Nat) (op : UInt8) (pc : CScript) :
    pushesOnly (rounds + 1) (op :: pc) =
      match getOp (op :: pc) with
      | none => false
      | some (opcode, _, pc) => decide (opcode ≤ OP_16) && pushesOnly rounds pc := rfl

theorem lastPush_cons (rounds : Nat) (data : valtype) (op : UInt8) (pc : CScript) :
    lastPush (rounds + 1) data (op :: pc) =
      match getOp (op :: pc) with
      | none => none
      | some (opcode, data, pc) => if opcode > OP_16 then none else lastPush rounds data pc := rfl

/-- A push-only script that runs to its end leaves its last item on top. -/
theorem evalLoop_lastPush {env : ScriptEnv} {input : TxInput} (rounds : Nat) {pc : CScript}
    {s s' : EvalState} {n t : Nat} (data : valtype) (hs : s.vfExec = [])
    (hp : pushesOnly rounds pc = true) (h : evalLoop env input rounds pc s n = .ok s' t)
    (hd : ∀ item below, s.stack = item :: below → LastItem data item) :
    ∃ data', lastPush rounds data pc = some data' ∧
      ∀ item below, s'.stack = item :: below → LastItem data' item := by
  induction rounds generalizing pc s n data with
  | zero =>
    cases pc with
    | nil =>
      cases h
      exact ⟨data, rfl, hd⟩
    | cons op pc => cases hp
  | succ rounds ih =>
    cases pc with
    | nil =>
      cases h
      exact ⟨data, rfl, hd⟩
    | cons op pc =>
      rw [evalLoop] at h
      rw [pushesOnly_cons] at hp
      rw [lastPush_cons]
      cases hg : getOp (op :: pc) with
      | none =>
        rw [hg] at hp
        cases hp
      | some r =>
        obtain ⟨opcode, data', rest⟩ := r
        rw [hg] at h hp
        obtain ⟨hop, hrest⟩ := Bool.and_eq_true_iff.mp hp
        have hop := of_decide_eq_true hop
        obtain ⟨s1, t1, h1, hloop⟩ := run_bind_ok.mp h
        obtain ⟨hs1, item, below, hstack, hitem⟩ := evalOp_push hg hop hs h1
        have hgt : ¬ opcode > OP_16 := UInt8.not_lt.mpr hop
        simp only [hgt, if_false]
        refine ih _ hs1 hrest hloop ?_
        intro item' below' hstack'
        rw [hstack] at hstack'
        obtain ⟨rfl, -⟩ := List.cons.inj hstack'
        exact hitem

theorem number_no_sigops : ∀ k : Fin 18,
    getSigOpCount (bnGetvch ((k : Nat) - 1 : Int)) true = 0 := by decide

/-- What is counted for the last push bounds what is counted for the item. -/
theorem LastItem.getSigOpCount_le {data item : valtype} (h : LastItem data item) :
    getSigOpCount item true ≤ getSigOpCount data true := by
  rcases h with rfl | ⟨rfl, opcode, hop, rfl⟩
  · exact le_rfl
  · have hone : OP_1.toNat = 81 := rfl
    have hsixteen : OP_16.toNat = 96 := rfl
    have hneg : OP_1NEGATE.toNat = 79 := rfl
    have hrange : 79 ≤ opcode.toNat ∧ opcode.toNat ≤ 96 := by
      rcases hop with rfl | ⟨hlow, hhigh⟩
      · omega
      · have hlow := UInt8.le_iff_toNat_le.mp hlow
        have hhigh := UInt8.le_iff_toNat_le.mp hhigh
        omega
    have hnum := number_no_sigops ⟨opcode.toNat - 79, by omega⟩
    have harg : ((opcode.toNat - 79 : Nat) : Int) - 1 =
        (opcode.toNat : Int) - (OP_1.toNat - 1) := by omega
    rw [harg] at hnum
    rw [hnum]
    exact Nat.zero_le _

theorem evalScript_lastPush {env : ScriptEnv} {input : TxInput} {scriptSig : CScript}
    {stack : List valtype} {n : Nat} (hp : isPushOnly scriptSig = true)
    (h : evalScript env input [] scriptSig 0 = .ok stack n) :
    ∃ data, lastPush scriptSig.length [] scriptSig = some data ∧
      ∀ item below, stack = item :: below → LastItem data item := by
  unfold evalScript at h
  split at h
  · cases h
  · obtain ⟨s, t, hloop, h⟩ := run_bind_ok.mp h
    obtain ⟨data, hdata, hlast⟩ := evalLoop_lastPush scriptSig.length [] rfl hp hloop
      (by simp)
    refine ⟨data, hdata, ?_⟩
    split at h
    · cases h
      exact hlast
    · cases h

/-- The redeem script makes no more calls than are counted for it beforehand. -/
theorem verifyRedeem_calls {env : ScriptEnv} {input : TxInput} {scriptSig scriptPubKey : CScript}
    (hp : isPayToScriptHash scriptPubKey = true) {stackCopy : List valtype} {n : Nat}
    (h : evalScript env input [] scriptSig 0 = .ok stackCopy n) {run : VerifyRun}
    (hr : run.redeemCalls = 0) :
    (verifyRedeem env input scriptSig stackCopy run).redeemCalls ≤
      getP2SHSigOps scriptPubKey scriptSig := by
  unfold verifyRedeem
  split
  · rw [hr]
    exact Nat.zero_le _
  · rename_i hpush
    have hpush : isPushOnly scriptSig = true := by simpa using hpush
    obtain ⟨data, hdata, hlast⟩ := evalScript_lastPush hpush h
    split
    · rw [hr]
      exact Nat.zero_le _
    · rename_i item below
      have hle := (hlast item below rfl).getSigOpCount_le
      have hcalls := evalScript_calls env input below item 0
      rw [getP2SHSigOps, if_pos hp, hdata]
      rw [Nat.zero_add] at hcalls
      cases hrun : evalScript env input below item 0 with
      | ok stack m =>
        rw [leaves_ok hrun] at hcalls
        exact hcalls.trans hle
      | error e m =>
        rw [leaves_error hrun] at hcalls
        exact hcalls.trans hle

/-- The calls of `CheckSig` in any run are at most the accurate count of the script, which is at
most the other count; those in a redeem script are at most the count of `GetSigOpCount` of the
signature script. -/
theorem sigOps_sound (env : ScriptEnv) (input : TxInput) :
    (∀ stack script, leaves (evalScript env input stack script) 0 ≤ getSigOpCount script true ∧
      getSigOpCount script true ≤ getSigOpCount script false) ∧
    ∀ scriptSig scriptPubKey, isPayToScriptHash scriptPubKey = true →
      (verifyScript env input scriptSig scriptPubKey).redeemCalls ≤
        getP2SHSigOps scriptPubKey scriptSig := by
  constructor
  · intro stack script
    have hcalls := evalScript_calls env input stack script 0
    rw [Nat.zero_add] at hcalls
    exact ⟨hcalls, countSigOps_accurate_le _ _ _⟩
  · intro scriptSig scriptPubKey hp
    unfold verifyScript
    cases hsig : evalScript env input [] scriptSig 0 with
    | error e n => exact Nat.zero_le _
    | ok stackCopy n =>
      dsimp only
      cases evalScript env input stackCopy scriptPubKey 0 with
      | error e n' => exact Nat.zero_le _
      | ok stack n' =>
        dsimp only
        split
        · exact Nat.zero_le _
        · exact verifyRedeem_calls hp hsig rfl

namespace Sample

def scriptEnv : ScriptEnv where
  ripemd160 _ := List.replicate 20 7
  sha1 _ := List.replicate 20 7
  sha256 _ := List.replicate 32 7
  Hash _ := 7
  verify _ _ _ := true
  nHeightBest := 0

def scriptInput : TxInput where
  txTo := twoInputs 0 [] 5
  nIn := 0
  nHashType := 0

def shortSig : valtype := [0x30, 6, 2, 1, 1, 2, 1, 1, 1]
def shortKey : valtype := 2 :: List.replicate 32 1

def redeemScript : CScript :=
  [OP_1] ++ pushData shortKey ++ pushData shortKey ++ [OP_1 + 1, OP_CHECKMULTISIG]

def redeemSig : CScript := [0] ++ pushData shortSig ++ pushData redeemScript

def redeemPubKey : CScript := [OP_HASH160] ++ pushData (List.replicate 20 7) ++ [OP_EQUAL]

end Sample

theorem sigOps_sound_redeem :
    (verifyScript Sample.scriptEnv Sample.scriptInput Sample.redeemSig
        Sample.redeemPubKey).redeemCalls ≤
      getP2SHSigOps Sample.redeemPubKey Sample.redeemSig :=
  (sigOps_sound Sample.scriptEnv Sample.scriptInput).2 _ _ (by decide)

/-- One key is tried, two are counted. -/
example : verifyScript Sample.scriptEnv Sample.scriptInput Sample.redeemSig Sample.redeemPubKey =
      { fValid := true, redeemCalls := 1 } ∧
    getP2SHSigOps Sample.redeemPubKey Sample.redeemSig = 2 := by
  decide

end Triangles
