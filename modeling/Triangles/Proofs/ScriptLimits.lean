import Triangles.Proofs.MultiSig

/-! The limits of `EvalScript` hold between any two instructions, and no access leaves the
stack. -/

namespace Triangles

open Outcome

section Refinement

variable (env : ScriptEnv) (input : TxInput)

/-- Statements after each other do what the steps on lists do after each other. -/
theorem Performs.interp {x g : Exec Unit} {y : Interp EvalState} {f : EvalState → Interp EvalState}
    {s : EvalState} {n : Nat} (hx : Performs x s (outcome (y n)))
    (hg : ∀ t m, Performs g t (outcome (f t m))) :
    Performs (do x; g) s (outcome ((y >>= f) n)) := by
  cases hy : y n with
  | error e m =>
    have hrun : (y >>= f) n = .error e m := run_bind_error.mpr (.inl hy)
    rw [hy] at hx
    rw [hrun]
    cases hx with
    | ends h he => exact .bind_ends h he
  | ok t m =>
    rw [hy] at hx
    rw [bind_of_ok f hy]
    cases hx with
    | done h => exact .bind h (hg t m)

theorem switchExec_performs (fExec : Bool) (opcode : UInt8) (pc : CScript) (s : EvalState)
    (n : Nat) :
    Performs (switchExec env input fExec opcode pc) s
      (outcome (execOp env input fExec opcode pc s n)) := by
  unfold switchExec execOp
  split
  · exact checkSigExec_performs env input opcode s n
  · split
    · exact checkMultiSigExec_performs env input opcode s n
    · rw [outcome_ofOption]
      exact plainExec_performs env fExec opcode pc s

theorem countExec_performs (opcode : UInt8) (vchPushValue : valtype) (s : EvalState) :
    Performs (countExec opcode vchPushValue) s (countOp opcode vchPushValue s) := by
  unfold countExec countOp
  dsimp only
  by_cases hop : OP_16 < opcode
  · simp only [if_pos hop]
    by_cases hlen : vchPushValue.length ≤ 520
    · refine .bind (require_ok hlen) (.bind rfl (.bind rfl ?_))
      by_cases hcount : s.nOpCount + 1 ≤ 201
      · refine .bind (require_ok hcount) ?_
        by_cases hdis : isDisabled opcode = false
        · rw [if_neg (by simp [hdis]; omega)]
          exact .done (require_ok hdis)
        · rw [if_pos (by simp [hdis])]
          exact .ends (require_error hdis) (by decide)
      · rw [if_pos (.inr (.inl ⟨hop, by omega⟩))]
        exact .bind_ends (require_error hcount) (by decide)
    · rw [if_pos (.inl (by omega))]
      exact .bind_ends (require_error hlen) (by decide)
  · simp only [if_neg hop]
    by_cases hlen : vchPushValue.length ≤ 520
    · refine .bind (require_ok hlen) ?_
      by_cases hdis : isDisabled opcode = false
      · rw [if_neg (by simp [hdis, hop]; omega)]
        exact .done (require_ok hdis)
      · rw [if_pos (by simp [hdis])]
        exact .ends (require_error hdis) (by decide)
    · rw [if_pos (.inl (by omega))]
      exact .bind_ends (require_error hlen) (by decide)

theorem runExec_performs (opcode : UInt8) (vchPushValue : valtype) (pc : CScript) (s : EvalState)
    (n : Nat) :
    Performs (runExec env input s.fExec opcode vchPushValue pc) s
      (outcome (runOp env input opcode vchPushValue pc s n)) := by
  unfold runExec runOp
  split
  · exact .done rfl
  · split
    · exact switchExec_performs env input s.fExec opcode pc s n
    · exact .done rfl

theorem limitExec_performs (s : EvalState) : Performs limitExec s (limitSize s) := by
  unfold limitExec limitSize
  split
  · rename_i hlong
    exact .bind rfl (.ends (require_error (Nat.not_le_of_lt hlong)) (by decide))
  · rename_i hshort
    exact .bind rfl (.done (require_ok (Nat.le_of_not_lt hshort)))

/-- One instruction, access by access, does what the step on lists does. -/
theorem instructionExec_performs (opcode : UInt8) (vchPushValue : valtype) (pc : CScript)
    (s : EvalState) (n : Nat) :
    Performs (instructionExec env input opcode vchPushValue pc) s
      (outcome (evalOp env input opcode vchPushValue pc s n)) := by
  unfold instructionExec evalOp
  refine .bind rfl ?_
  have hcount := countExec_performs opcode vchPushValue s
  cases hc : countOp opcode vchPushValue s with
  | none =>
    rw [hc] at hcount
    cases hcount with
    | ends h he => exact .bind_ends h he
  | some t =>
    rw [hc] at hcount
    cases hcount with
    | done h =>
      have hexec : s.fExec = t.fExec := by
        obtain ⟨nOpCount, rfl⟩ := countOp_eq hc
        rfl
      refine .bind h ?_
      have hlist : ofOption (some t) n = .ok t n := rfl
      rw [bind_of_ok _ hlist, hexec]
      refine (runExec_performs env input opcode vchPushValue pc t n).interp fun u m => ?_
      rw [outcome_ofOption]
      exact limitExec_performs u

theorem loopExec_performs (rounds : Nat) (pc : CScript) (s : EvalState) (n : Nat) :
    Performs (loopExec env input rounds pc) s (outcome (evalLoop env input rounds pc s n)) := by
  induction rounds generalizing pc s n with
  | zero =>
    cases pc with
    | nil => exact .done rfl
    | cons op pc => exact .ends rfl (by decide)
  | succ rounds ih =>
    cases pc with
    | nil => exact .done rfl
    | cons op pc =>
      rw [loopExec, evalLoop]
      cases getOp (op :: pc) with
      | none => exact .ends rfl (by decide)
      | some r =>
        obtain ⟨opcode, vchPushValue, rest⟩ := r
        exact (instructionExec_performs env input opcode vchPushValue rest s n).interp
          fun t m => ih rest t m

/-- A whole script, access by access, does what the interpreter on lists does. -/
theorem scriptExec_performs (stack : List valtype) (script : CScript) (n : Nat) :
    ∃ r, Performs (scriptExec env input script) { stack := stack, pbegincodehash := script } r ∧
      r.map EvalState.stack = outcome (evalScript env input stack script n) := by
  unfold scriptExec evalScript
  by_cases hlen : script.length ≤ 10000
  · rw [if_neg (Nat.not_lt_of_le hlen)]
    have hperforms := loopExec_performs env input script.length script
      { stack := stack, pbegincodehash := script } n
    cases hloop : evalLoop env input script.length script
        { stack := stack, pbegincodehash := script } n with
    | error e m =>
      rw [hloop] at hperforms
      cases hperforms with
      | ends h he =>
        refine ⟨none, .bind (require_ok hlen) (.bind_ends h he), ?_⟩
        rw [run_bind_error.mpr (.inl hloop)]
        rfl
    | ok t m =>
      rw [hloop] at hperforms
      rw [bind_of_ok _ hloop]
      cases hperforms with
      | done h =>
        by_cases hexec : t.vfExec.isEmpty = true
        · refine ⟨some t, .bind (require_ok hlen) (.bind h (.bind rfl (.done (require_ok hexec)))), ?_⟩
          rw [if_pos hexec]
          rfl
        · refine ⟨none, .bind (require_ok hlen) (.bind h (.bind rfl (.ends (require_error hexec)
            (by decide)))), ?_⟩
          rw [if_neg hexec]
          rfl
  · rw [if_pos (Nat.lt_of_not_le hlen)]
    exact ⟨none, .bind_ends (require_error hlen) (by decide), rfl⟩

end Refinement

/-! The sizes of what instructions leave. -/

/-- The hash functions write as many bytes as the buffer that `EvalScript` gives them has. -/
structure HashSizes (env : ScriptEnv) : Prop where
  ripemd160 : ∀ vch, (env.ripemd160 vch).length = 20
  sha1 : ∀ vch, (env.sha1 vch).length = 20
  sha256 : ∀ vch, (env.sha256 vch).length = 32

/-- No item is longer than a push may be. -/
def Small (stack : List valtype) : Prop := ∀ vch ∈ stack, vch.length ≤ 520

@[simp] theorem small_nil : Small [] := fun _ h => by cases h

@[simp] theorem small_cons (vch : valtype) (stack : List valtype) :
    Small (vch :: stack) ↔ vch.length ≤ 520 ∧ Small stack := List.forall_mem_cons

theorem Small.subset {stack stack' : List valtype} (h : Small stack)
    (hsub : ∀ vch ∈ stack', vch ∈ stack) : Small stack' :=
  fun vch hvch => h vch (hsub vch hvch)

theorem bnGetvch_length (n : Int) : (bnGetvch n).length ≤ 9 := by
  have hlen := leBytes_length 8 n.natAbs
  unfold bnGetvch
  dsimp only
  split
  · rw [List.length_append, List.length_singleton]
    omega
  · split
    · rw [List.length_append, List.length_dropLast, List.length_singleton]
      omega
    · omega

@[simp] theorem bnGetvch_small (n : Int) : (bnGetvch n).length ≤ 520 :=
  (bnGetvch_length n).trans (by decide)

@[simp] theorem vchBool_small (f : Bool) : (vchBool f).length ≤ 520 := by
  cases f <;> decide

theorem pickOp_small {fRoll : Bool} {n : valtype} {stack stack' : List valtype}
    (h : pickOp fRoll n stack = some stack') (hs : Small stack) : Small stack' := by
  unfold pickOp at h
  split at h
  · cases h
  · split at h
    · cases h
    · split at h
      · cases h
      · rename_i hat
        obtain rfl := Option.some.inj h
        rw [small_cons]
        refine ⟨hs _ (List.mem_of_getElem? hat), ?_⟩
        cases fRoll with
        | false => exact hs
        | true => exact hs.subset fun vch hvch => List.mem_of_mem_eraseIdx hvch

theorem stackOp_small {opcode : UInt8} {stack stack' : List valtype}
    (h : stackOp opcode stack = some stack') (hs : Small stack) : Small stack' := by
  unfold stackOp at h
  split at h
  case h_13 => exact pickOp_small h (small_cons _ _ |>.mp hs).2
  case h_14 => exact pickOp_small h (small_cons _ _ |>.mp hs).2
  case h_7 =>
    obtain rfl := Option.some.inj h
    rw [small_cons] at hs
    split
    · exact (small_cons _ _).mpr ⟨hs.1, (small_cons _ _).mpr hs⟩
    · exact (small_cons _ _).mpr hs
  case h_20 =>
    split at h
    · obtain rfl := Option.some.inj h
      exact ((small_cons _ _).mp ((small_cons _ _).mp hs).2).2
    · cases h
  case h_21 => cases h
  -- the other opcodes rearrange items, or push a number or a truth value
  all_goals
    obtain rfl := Option.some.inj h
    simp only [small_cons, bnGetvch_small, vchBool_small, true_and] at hs ⊢
    tauto

theorem numericOp_small {opcode : UInt8} {stack stack' : List valtype}
    (h : numericOp opcode stack = some stack') (hs : Small stack) : Small stack' := by
  unfold numericOp at h
  split at h
  · split at h
    · simp only [Option.bind_eq_bind, Option.bind_eq_some_iff, Option.some.injEq] at h
      obtain ⟨_, _, _, _, rfl⟩ := h
      simp only [small_cons, bnGetvch_small, true_and] at hs ⊢
      exact hs.2
    · cases h
  · split at h
    · split at h
      · simp only [Option.bind_eq_bind, Option.bind_eq_some_iff, Option.some.injEq] at h
        obtain ⟨_, _, _, _, _, _, rfl⟩ := h
        simp only [small_cons, vchBool_small, true_and] at hs ⊢
        exact hs.2.2.2
      · cases h
    · split at h
      · rename_i x2 x1 rest
        have hrest : Small rest := by
          simp only [small_cons] at hs
          exact hs.2.2
        simp only [Option.bind_eq_bind, Option.bind_eq_some_iff] at h
        obtain ⟨_, _, _, _, _, _, h⟩ := h
        split at h
        · split at h
          · obtain rfl := Option.some.inj h
            exact hrest
          · cases h
        · obtain rfl := Option.some.inj h
          exact (small_cons _ _).mpr ⟨bnGetvch_small _, hrest⟩
      · cases h

theorem hashOp_small {env : ScriptEnv} (henv : HashSizes env) {opcode : UInt8}
    {stack stack' : List valtype} (h : hashOp env opcode stack = some stack') (hs : Small stack) :
    Small stack' := by
  unfold hashOp at h
  split at h
  case h_6 => cases h
  all_goals
    obtain rfl := Option.some.inj h
    simp only [small_cons, henv.ripemd160, henv.sha1, henv.sha256] at hs ⊢
    exact ⟨by decide, hs.2⟩

/-- Control takes at most one item off the stack. -/
theorem controlOp_keeps {fExec : Bool} {opcode : UInt8} {s t : EvalState}
    (h : controlOp fExec opcode s = some t) :
    t.stack <:+ s.stack ∧ t.altstack = s.altstack ∧ t.nOpCount = s.nOpCount := by
  have hpop : ∀ {vch : valtype} {stack : List valtype}, s.stack = vch :: stack →
      stack <:+ s.stack := fun hstack => hstack ▸ List.suffix_cons _ _
  unfold controlOp at h
  split at h
  case h_1 =>
    obtain rfl := Option.some.inj h
    exact ⟨List.suffix_refl _, rfl, rfl⟩
  case h_2 | h_3 =>
    split at h
    · split at h
      · cases h
      · rename_i hstack
        obtain rfl := Option.some.inj h
        exact ⟨hpop hstack, rfl, rfl⟩
    · obtain rfl := Option.some.inj h
      exact ⟨List.suffix_refl _, rfl, rfl⟩
  case h_4 | h_5 =>
    split at h
    · cases h
    · obtain rfl := Option.some.inj h
      exact ⟨List.suffix_refl _, rfl, rfl⟩
  case h_6 =>
    split at h
    · cases h
    · rename_i hstack
      split at h
      · obtain rfl := Option.some.inj h
        exact ⟨hpop hstack, rfl, rfl⟩
      · cases h
  case h_7 => cases h

theorem altStackOp_small {opcode : UInt8} {s t : EvalState} (h : altStackOp opcode s = some t)
    (hs : Small s.stack) (ha : Small s.altstack) :
    Small t.stack ∧ Small t.altstack ∧ t.nOpCount = s.nOpCount := by
  unfold altStackOp at h
  split at h
  · rename_i hstack
    obtain rfl := Option.some.inj h
    rw [hstack, small_cons] at hs
    exact ⟨hs.2, (small_cons _ _).mpr ⟨hs.1, ha⟩, rfl⟩
  · rename_i halt
    obtain rfl := Option.some.inj h
    rw [halt, small_cons] at ha
    exact ⟨(small_cons _ _).mpr ⟨ha.1, hs⟩, ha.2, rfl⟩
  · cases h

/-- No item on either stack is longer than a push may be. -/
structure AllSmall (s : EvalState) : Prop where
  stack : Small s.stack
  altstack : Small s.altstack

/-- An instruction that looks at no signature keeps the items small and counts nothing. -/
theorem plainOp_small {env : ScriptEnv} (henv : HashSizes env) {fExec : Bool} {opcode : UInt8}
    {pc : CScript} {s t : EvalState} (h : plainOp env fExec opcode pc s = some t)
    (hs : AllSmall s) : AllSmall t ∧ t.nOpCount = s.nOpCount := by
  unfold plainOp at h
  split at h
  · unfold pushNumber at h
    split at h
    · obtain rfl := Option.some.inj h
      exact ⟨⟨(small_cons _ _).mpr ⟨bnGetvch_small _, hs.stack⟩, hs.altstack⟩, rfl⟩
    · cases h
  · split at h
    · obtain ⟨hstack, halt, hcount⟩ := controlOp_keeps h
      exact ⟨⟨hs.stack.subset hstack.subset, halt ▸ hs.altstack⟩, hcount⟩
    · split at h
      · obtain ⟨hstack, halt, hcount⟩ := altStackOp_small h hs.stack hs.altstack
        exact ⟨⟨hstack, halt⟩, hcount⟩
      · split at h
        · obtain ⟨stack, hstack, rfl⟩ := Option.map_eq_some_iff.mp h
          exact ⟨⟨stackOp_small hstack hs.stack, hs.altstack⟩, rfl⟩
        · split at h
          · obtain ⟨stack, hstack, rfl⟩ := Option.map_eq_some_iff.mp h
            exact ⟨⟨numericOp_small hstack hs.stack, hs.altstack⟩, rfl⟩
          · split at h
            · obtain ⟨stack, hstack, rfl⟩ := Option.map_eq_some_iff.mp h
              exact ⟨⟨hashOp_small henv hstack hs.stack, hs.altstack⟩, rfl⟩
            · split at h
              · obtain rfl := Option.some.inj h
                exact ⟨⟨hs.stack, hs.altstack⟩, rfl⟩
              · split at h
                · obtain rfl := Option.some.inj h
                  exact ⟨hs, rfl⟩
                · cases h

theorem pushResult_keeps {s t : EvalState} {fVerify fSuccess : Bool} {stack : List valtype}
    (h : pushResult s fVerify fSuccess stack = some t) (hstack : Small stack)
    (ha : Small s.altstack) : AllSmall t ∧ t.nOpCount = s.nOpCount := by
  unfold pushResult at h
  split at h
  · split at h
    · obtain rfl := Option.some.inj h
      exact ⟨⟨hstack, ha⟩, rfl⟩
    · cases h
  · obtain rfl := Option.some.inj h
    exact ⟨⟨(small_cons _ _).mpr ⟨vchBool_small _, hstack⟩, ha⟩, rfl⟩

theorem countOp_spec {opcode : UInt8} {vchPushValue : valtype} {s t : EvalState}
    (h : countOp opcode vchPushValue s = some t) :
    vchPushValue.length ≤ 520 ∧
      t = { s with nOpCount := s.nOpCount + if OP_16 < opcode then 1 else 0 } ∧
      (s.nOpCount ≤ 201 → t.nOpCount ≤ 201) := by
  unfold countOp at h
  dsimp only at h
  by_cases hop : OP_16 < opcode
  · simp only [if_pos hop] at h ⊢
    split at h
    · cases h
    · rename_i hlimits
      obtain rfl := Option.some.inj h
      simp only [hop, true_and, not_or] at hlimits
      exact ⟨by omega, rfl, fun _ => by dsimp only; omega⟩
  · simp only [if_neg hop] at h ⊢
    split at h
    · cases h
    · rename_i hlimits
      obtain rfl := Option.some.inj h
      rw [not_or] at hlimits
      exact ⟨by omega, rfl, fun hmax => hmax⟩

def keysCounted (opcode : UInt8) (s : EvalState) : Nat :=
  if s.fExec ∧ (opcode = OP_CHECKMULTISIG ∨ opcode = OP_CHECKMULTISIGVERIFY) then
    ((s.stack.head?.bind castToBigNum).getD 0).toNat
  else 0

/-- The operations that an instruction counts: itself, unless it is a push, and keys. -/
def opsCounted (opcode : UInt8) (s : EvalState) : Nat :=
  (if OP_16 < opcode then 1 else 0) + keysCounted opcode s

section Step

variable {env : ScriptEnv} (henv : HashSizes env) (input : TxInput) {opcode : UInt8}
  {s t : EvalState} {n m : Nat}

theorem checkSigOp_small (h : checkSigOp env input opcode s n = .ok t m) (hs : AllSmall s) :
    AllSmall t ∧ t.nOpCount = s.nOpCount := by
  unfold checkSigOp at h
  match hstack : s.stack with
  | [] | [_] =>
    rw [hstack] at h
    cases h
  | vchPubKey :: vchSig :: stack =>
    have hsmall := hs.stack
    rw [hstack] at h hsmall
    simp only [small_cons] at hsmall
    obtain ⟨fSuccess, _, _, hpush⟩ := run_bind_ok.mp h
    exact pushResult_keeps (ofOption_ok hpush) hsmall.2.2 hs.altstack

theorem checkMultiSigOp_small (h : checkMultiSigOp env input opcode s n = .ok t m)
    (hs : AllSmall s) :
    AllSmall t ∧ t.nOpCount ≤ 201 ∧
      t.nOpCount = s.nOpCount + ((s.stack.head?.bind castToBigNum).getD 0).toNat := by
  unfold checkMultiSigOp at h
  cases hops : multiSigOperands s.nOpCount s.stack with
  | none =>
    rw [hops] at h
    cases h
  | some r =>
    obtain ⟨nKeysCount, keys, sigs, below⟩ := r
    rw [hops] at h
    obtain ⟨⟨⟨vchKeys, vchSigs, extra, hstack, hkeys, _⟩, _, _⟩, rfl, hcount⟩ :=
      multiSigOperands_stack hops
    obtain ⟨fSuccess, _, _, hpush⟩ := run_bind_ok.mp h
    have hbelow : Small below := by
      refine hs.stack.subset fun vch hvch => ?_
      rw [hstack]
      simp [hvch]
    obtain ⟨hsmall, hops⟩ := pushResult_keeps (ofOption_ok hpush) hbelow hs.altstack
    refine ⟨hsmall, hops ▸ hcount, ?_⟩
    rw [hops, hstack, List.head?_cons, Option.bind_some, hkeys]
    rfl

include henv in
theorem runOp_small {vchPushValue : valtype} {pc : CScript}
    (h : runOp env input opcode vchPushValue pc s n = .ok t m) (hs : AllSmall s)
    (hdata : vchPushValue.length ≤ 520) (hmax : s.nOpCount ≤ 201) :
    AllSmall t ∧ t.nOpCount ≤ 201 ∧ t.nOpCount = s.nOpCount + keysCounted opcode s := by
  have hnone : ¬ (opcode = OP_CHECKMULTISIG ∨ opcode = OP_CHECKMULTISIGVERIFY) →
      keysCounted opcode s = 0 := fun hop => if_neg fun hand => hop hand.2
  unfold runOp at h
  split at h
  · rename_i hpush
    cases h
    rw [hnone fun hop => absurd hpush.2 (by rcases hop with rfl | rfl <;> decide)]
    exact ⟨⟨(small_cons _ _).mpr ⟨hdata, hs.stack⟩, hs.altstack⟩, hmax, rfl⟩
  · split at h
    · rename_i hread
      unfold execOp at h
      split at h
      · rename_i hop
        rw [hnone (by rcases hop with rfl | rfl <;> decide)]
        obtain ⟨hsmall, hcount⟩ := checkSigOp_small input h hs
        exact ⟨hsmall, hcount ▸ hmax, hcount⟩
      · split at h
        · rename_i hop
          have hexec : s.fExec = true := by
            rcases hread with hexec | ⟨_, hle⟩
            · exact hexec
            · exact absurd hle (by rcases hop with rfl | rfl <;> decide)
          rw [keysCounted, if_pos ⟨hexec, hop⟩]
          exact checkMultiSigOp_small input h hs
        · rename_i hop
          rw [hnone hop]
          obtain ⟨hsmall, hcount⟩ := plainOp_small henv (ofOption_ok h) hs
          exact ⟨hsmall, hcount ▸ hmax, hcount⟩
    · rename_i hskip
      cases h
      have hexec : ¬ s.fExec = true := fun hexec => hskip (.inl hexec)
      rw [keysCounted, if_neg fun hand => hexec hand.1]
      exact ⟨hs, hmax, rfl⟩

include henv in
/-- One instruction leaves the items small and the stacks and the count within their limits. -/
theorem evalOp_limits {vchPushValue : valtype} {pc : CScript}
    (h : evalOp env input opcode vchPushValue pc s n = .ok t m) (hs : AllSmall s)
    (hmax : s.nOpCount ≤ 201) :
    AllSmall t ∧ t.stack.length + t.altstack.length ≤ 1000 ∧ t.nOpCount ≤ 201 ∧
      t.nOpCount = s.nOpCount + opsCounted opcode s := by
  obtain ⟨s1, n1, h1, h⟩ := run_bind_ok.mp h
  obtain ⟨s2, n2, h2, h⟩ := run_bind_ok.mp h
  have hlimit := ofOption_ok h
  obtain rfl := limitSize_eq hlimit
  obtain ⟨hdata, rfl, hmax'⟩ := countOp_spec (ofOption_ok h1)
  obtain ⟨hsmall, hle, hkeys⟩ := runOp_small henv input h2 ⟨hs.stack, hs.altstack⟩ hdata
    (hmax' hmax)
  refine ⟨hsmall, ?_, hle, ?_⟩
  · unfold limitSize at hlimit
    split at hlimit
    · cases hlimit
    · omega
  · rw [hkeys, opsCounted, Nat.add_assoc]
    rfl

end Step

/-- The states of a run of `EvalScript` between two instructions, with what is left of the script
and the operations executed so far. -/
inductive Between (env : ScriptEnv) (input : TxInput) (script : CScript) (stack : List valtype) :
    CScript → EvalState → Nat → Prop
  | start (h : script.length ≤ 10000) :
      Between env input script stack script { stack := stack, pbegincodehash := script } 0
  | next {pc rest : CScript} {s t : EvalState} {nOps : Nat} {opcode : UInt8}
      {vchPushValue : valtype} (h : Between env input script stack pc s nOps)
      (hop : getOp pc = some (opcode, vchPushValue, rest))
      (hrun : instructionExec env input opcode vchPushValue rest s = .ok () t) :
      Between env input script stack rest t (nOps + opsCounted opcode s)

structure WithinLimits (s : EvalState) (nOps : Nat) : Prop where
  items : s.stack.length + s.altstack.length ≤ 1000
  small : ∀ vch ∈ s.stack ++ s.altstack, vch.length ≤ 520
  ops : s.nOpCount = nOps ∧ nOps ≤ 201

section Run

variable {env : ScriptEnv} {input : TxInput} {script : CScript} {stack : List valtype}

theorem instructionExec_ok {opcode : UInt8} {vchPushValue : valtype} {pc : CScript}
    {s t : EvalState} (h : instructionExec env input opcode vchPushValue pc s = .ok () t) :
    ∃ m, evalOp env input opcode vchPushValue pc s 0 = .ok t m := by
  have hperforms := instructionExec_performs env input opcode vchPushValue pc s 0
  cases heval : evalOp env input opcode vchPushValue pc s 0 with
  | ok u m =>
    rw [heval] at hperforms
    cases hperforms with
    | done hrun =>
      rw [hrun] at h
      cases h
      exact ⟨m, rfl⟩
  | error e m =>
    rw [heval] at hperforms
    cases hperforms with
    | ends hrun _ =>
      rw [hrun] at h
      cases h

theorem Performs.inside {x : Exec Unit} {s t : EvalState} {r : Option EvalState}
    (h : Performs x s r) : x s ≠ .error .outOfBounds t := by
  cases h with
  | done hrun =>
    rw [hrun]
    intro h
    cases h
  | ends hrun he =>
    rw [hrun]
    intro h
    cases h
    exact he rfl

theorem between_limits (henv : HashSizes env) (hlen : stack.length ≤ 1000) (hsmall : Small stack)
    {pc : CScript} {s : EvalState} {nOps : Nat} (h : Between env input script stack pc s nOps) :
    WithinLimits s nOps := by
  induction h with
  | start _ =>
    refine ⟨by simpa using hlen, fun vch hvch => ?_, rfl, by decide⟩
    exact hsmall vch (by simpa using hvch)
  | next _ hop hrun ih =>
    obtain ⟨m, heval⟩ := instructionExec_ok hrun
    have hsmall' : AllSmall _ := ⟨fun vch hvch => ih.small vch (List.mem_append_left _ hvch),
      fun vch hvch => ih.small vch (List.mem_append_right _ hvch)⟩
    obtain ⟨hall, hitems, hmax, hcount⟩ :=
      evalOp_limits henv input heval hsmall' (ih.ops.1 ▸ ih.ops.2)
    refine ⟨hitems, fun vch hvch => ?_, by rw [hcount, ih.ops.1], by rw [← ih.ops.1, ← hcount]; exact hmax⟩
    rcases List.mem_append.mp hvch with hvch | hvch
    · exact hall.stack vch hvch
    · exact hall.altstack vch hvch

end Run

/-- Between any two instructions the stacks hold at most 1000 items of at most 520 bytes, at most
201 operations have been executed, and no access leaves the stack. -/
theorem script_limits {env : ScriptEnv} (henv : HashSizes env) (input : TxInput) (script : CScript)
    (stack : List valtype) (hlen : stack.length ≤ 1000)
    (hsmall : ∀ vch ∈ stack, vch.length ≤ 520) :
    (∀ pc s nOps, Between env input script stack pc s nOps →
      WithinLimits s nOps ∧ ∀ opcode vchPushValue rest t,
        instructionExec env input opcode vchPushValue rest s ≠ .error .outOfBounds t) ∧
    ∀ t, scriptExec env input script { stack := stack, pbegincodehash := script } ≠
      .error .outOfBounds t := by
  refine ⟨fun pc s nOps h => ⟨between_limits henv hlen hsmall h, ?_⟩, ?_⟩
  · intro opcode vchPushValue rest t
    exact (instructionExec_performs env input opcode vchPushValue rest s 0).inside
  · intro t
    obtain ⟨r, hperforms, _⟩ := scriptExec_performs env input stack script 0
    exact hperforms.inside

namespace Sample

theorem scriptEnv_sizes : HashSizes scriptEnv := ⟨fun _ => rfl, fun _ => rfl, fun _ => rfl⟩

end Sample

/-- A script with one signature by one of two keys, on its signature. -/
theorem redeemScript_limits :
    (∀ pc s nOps, Between Sample.scriptEnv Sample.scriptInput Sample.redeemScript
        [Sample.shortSig, []] pc s nOps → WithinLimits s nOps) ∧
    ∀ t, scriptExec Sample.scriptEnv Sample.scriptInput Sample.redeemScript
      { stack := [Sample.shortSig, []], pbegincodehash := Sample.redeemScript } ≠
        .error .outOfBounds t := by
  obtain ⟨hlimits, hinside⟩ := script_limits Sample.scriptEnv_sizes Sample.scriptInput
    Sample.redeemScript [Sample.shortSig, []] (by decide) (by decide)
  exact ⟨fun pc s nOps h => (hlimits pc s nOps h).1, hinside⟩

/-- Signature and keys are gone. -/
example : runScript Sample.scriptEnv Sample.scriptInput [Sample.shortSig, []] Sample.redeemScript =
    (true, [[1]]) := by
  decide

end Triangles
