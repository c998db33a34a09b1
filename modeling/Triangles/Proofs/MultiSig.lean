import Triangles.Lib.Matching
import Triangles.Proofs.SigOps
import Triangles.Proofs.StackMachine

/-! `OP_CHECKSIG` and `OP_CHECKMULTISIG`: the loop over keys and signatures finds an ordered
matching if there is one. -/

namespace Triangles

open Outcome

/-- What a run of the counting interpreter gives, without the count. -/
def outcome {α : Type} (r : EStateM.Result Unit Nat α) : Option α :=
  match r with
  | .ok a _ => some a
  | .error _ _ => none

theorem outcome_ofOption {α : Type} (x : Option α) (n : Nat) : outcome (ofOption x n) = x := by
  cases x <;> rfl

/-- The script code without the signatures. -/
def strippedCode (scriptCode : CScript) (sigs : List valtype) : CScript :=
  sigs.foldl (fun code vchSig => findAndDelete code (pushData vchSig)) scriptCode

section Signatures

variable (env : ScriptEnv) (input : TxInput) (scriptCode : CScript)

theorem checkOne_run (vchSig vchPubKey : valtype) (n : Nat) :
    ∃ m, checkOne env input scriptCode vchSig vchPubKey n =
      .ok (validSig env input scriptCode vchSig vchPubKey) m := by
  unfold checkOne validSig
  cases isCanonicalSignature env.nHeightBest vchSig && isCanonicalPubKey vchPubKey with
  | true => exact ⟨n + 1, rfl⟩
  | false => exact ⟨n, rfl⟩

/-- The loop on lists matches in order. Giving up early changes nothing: there are not enough
keys left. -/
theorem checkMultiSig_run (sigs keys : List valtype) (n : Nat) :
    ∃ m, checkMultiSig env input scriptCode sigs keys n =
      .ok (matchesInOrder (validSig env input scriptCode) sigs keys) m := by
  induction keys generalizing sigs n with
  | nil => cases sigs <;> exact ⟨n, rfl⟩
  | cons vchPubKey keys ih =>
    cases sigs with
    | nil => exact ⟨n, rfl⟩
    | cons vchSig sigs =>
      obtain ⟨m, hone⟩ := checkOne_run env input scriptCode vchSig vchPubKey n
      rw [checkMultiSig, bind_of_ok _ hone, matchesInOrder]
      cases validSig env input scriptCode vchSig vchPubKey with
      | true =>
        simp only [if_true]
        split
        · rename_i hfew
          exact ⟨m, by rw [matchesInOrder_few _ hfew]; rfl⟩
        · exact ih sigs m
      | false =>
        simp only [Bool.false_eq_true, if_false]
        split
        · rename_i hfew
          exact ⟨m, by rw [matchesInOrder_few _ hfew]; rfl⟩
        · exact ih (vchSig :: sigs) m

theorem prefix_drop_cons {α : Type} {a : α} {l stack : List α} {j : Nat}
    (h : a :: l <+: stack.drop j) : stack[j]? = some a ∧ l <+: stack.drop (j + 1) := by
  obtain ⟨rest, hrest⟩ := h
  constructor
  · have hhead := congrArg List.head? hrest
    rw [List.head?_drop] at hhead
    exact hhead.symm
  · refine ⟨rest, ?_⟩
    rw [← List.tail_drop, ← hrest]
    rfl

/-- The signatures from place `j` on are those that are removed from the script code. -/
theorem dropSignatures_run (sigs : List valtype) (s : EvalState) (j : Nat)
    (hsigs : sigs <+: s.stack.drop j) :
    dropSignatures sigs.length (j + 1) scriptCode s = .ok (strippedCode scriptCode sigs) s := by
  induction sigs generalizing scriptCode j with
  | nil => rfl
  | cons vchSig sigs ih =>
    obtain ⟨hhead, htail⟩ := prefix_drop_cons hsigs
    rw [List.length_cons, dropSignatures, bind_of_ok _ (stacktop_ok hhead)]
    exact ih _ (j + 1) htail

/-- The loop on places of the stack matches the signatures and keys there in order. -/
theorem multiSigLoop_run (sigs keys : List valtype) (s : EvalState) (j k : Nat)
    (hle : sigs.length ≤ keys.length) (hsigs : sigs <+: s.stack.drop j)
    (hkeys : keys <+: s.stack.drop k) :
    multiSigLoop env input scriptCode keys.length sigs.length (k + 1) (j + 1) s =
      .ok (matchesInOrder (validSig env input scriptCode) sigs keys) s := by
  induction keys generalizing sigs j k with
  | nil =>
    obtain rfl := List.length_eq_zero_iff.mp (Nat.le_zero.mp hle)
    rfl
  | cons vchPubKey keys ih =>
    cases sigs with
    | nil => rfl
    | cons vchSig sigs =>
      obtain ⟨hsig, hsigs'⟩ := prefix_drop_cons hsigs
      obtain ⟨hkey, hkeys'⟩ := prefix_drop_cons hkeys
      rw [List.length_cons, List.length_cons, multiSigLoop, bind_of_ok _ (stacktop_ok hsig),
        bind_of_ok _ (stacktop_ok hkey), matchesInOrder]
      cases validSig env input scriptCode vchSig vchPubKey with
      | true =>
        simp only [if_true]
        rw [if_neg (by simpa using hle)]
        exact ih sigs (j + 1) (k + 1) (by simpa using hle) hsigs' hkeys'
      | false =>
        simp only [Bool.false_eq_true, if_false]
        split
        · rename_i hfew
          rw [matchesInOrder_few _ hfew]
          rfl
        · exact ih (vchSig :: sigs) j (k + 1) (by rw [List.length_cons]; omega) hsigs hkeys'

end Signatures

theorem popTimes_run (i : Nat) (s : EvalState) (hi : i ≤ s.stack.length) :
    popTimes i s = .ok () { s with stack := s.stack.drop i } := by
  induction i generalizing s with
  | zero => rfl
  | succ i ih =>
    obtain ⟨stack, altstack, vfExec, nOpCount, pbegincodehash⟩ := s
    cases stack with
    | nil => cases hi
    | cons vch stack =>
      have hpop : popstack ⟨vch :: stack, altstack, vfExec, nOpCount, pbegincodehash⟩ =
          .ok () ⟨stack, altstack, vfExec, nOpCount, pbegincodehash⟩ := rfl
      rw [popTimes, bind_of_ok _ hpop]
      exact ih _ (Nat.le_of_succ_le_succ hi)

theorem pushCheck_performs (fVerify fSuccess : Bool) (s : EvalState) :
    Performs (pushCheck fVerify fSuccess) s (pushResult s fVerify fSuccess s.stack) := by
  cases fVerify with
  | false => exact .done rfl
  | true =>
    cases fSuccess with
    | true => exact .done rfl
    | false => exact .ends rfl (by decide)

theorem checkSigExec_performs (env : ScriptEnv) (input : TxInput) (opcode : UInt8) (s : EvalState)
    (n : Nat) :
    Performs (checkSigExec env input opcode) s (outcome (checkSigOp env input opcode s n)) := by
  obtain ⟨stack, altstack, vfExec, nOpCount, pbegincodehash⟩ := s
  match stack with
  | [] | [_] => exact .bind rfl (.bind_ends rfl (by decide))
  | vchPubKey :: vchSig :: stack =>
    obtain ⟨m, hone⟩ := checkOne_run env input
      (findAndDelete pbegincodehash (pushData vchSig)) vchSig vchPubKey n
    unfold checkSigOp
    dsimp only
    rw [bind_of_ok _ hone, outcome_ofOption]
    refine .bind rfl (.bind rfl (.bind rfl (.bind rfl (.bind rfl (.bind rfl (.bind rfl ?_))))))
    exact pushCheck_performs _ _ _

/-- The operands of `OP_CHECKMULTISIG` on the stack: a count, the keys, a count, the signatures
and one item more. -/
structure MultiSigStack (stack keys sigs below : List valtype) : Prop where
  items : ∃ vchKeys vchSigs extra,
    stack = vchKeys :: (keys ++ vchSigs :: (sigs ++ extra :: below)) ∧
    castToBigNum vchKeys = some (keys.length : Int) ∧
    castToBigNum vchSigs = some (sigs.length : Int)
  keys_le : keys.length ≤ 20
  sigs_le : sigs.length ≤ keys.length

section MultiSig

variable (env : ScriptEnv) (input : TxInput) (opcode : UInt8) {s : EvalState}
  {keys sigs below : List valtype}

theorem checkMultiSigExec_run (h : MultiSigStack s.stack keys sigs below)
    (hcount : s.nOpCount + keys.length ≤ 201) :
    checkMultiSigExec env input opcode s =
      pushCheck (opcode == OP_CHECKMULTISIGVERIFY)
        (matchesInOrder (validSig env input (strippedCode s.pbegincodehash sigs)) sigs keys)
        { s with stack := below, nOpCount := s.nOpCount + keys.length } := by
  obtain ⟨⟨vchKeys, vchSigs, extra, hstack, hkeys, hsigs⟩, hmax, hle⟩ := h
  obtain ⟨stack, altstack, vfExec, nOpCount, pbegincodehash⟩ := s
  cases hstack
  have hlen : (vchKeys :: (keys ++ vchSigs :: (sigs ++ extra :: below))).length =
      keys.length + sigs.length + below.length + 3 := by
    simp only [List.length_cons, List.length_append]
    omega
  have hkeyAt : keys <+: (vchKeys :: (keys ++ vchSigs :: (sigs ++ extra :: below))).drop 1 :=
    List.prefix_append _ _
  have hcountAt : (vchKeys :: (keys ++ vchSigs :: (sigs ++ extra :: below)))[keys.length + 1]? =
      some vchSigs := by
    rw [List.getElem?_cons_succ, List.getElem?_append_right (le_refl _), Nat.sub_self]
    rfl
  have hrest : (vchKeys :: (keys ++ vchSigs :: (sigs ++ extra :: below))).drop (keys.length + 2) =
      sigs ++ extra :: below := by
    rw [List.drop_succ_cons, List.drop_append, List.drop_eq_nil_of_le (Nat.le_succ _),
      Nat.add_sub_cancel_left]
    rfl
  unfold checkMultiSigExec
  refine (bind_of_ok _ rfl).trans ((bind_of_ok _ rfl).trans ((bind_of_ok _ rfl).trans ?_))
  refine (bind_of_ok _ (castNum_ok hkeys)).trans ?_
  refine (bind_of_ok _ (require_ok ⟨Int.natCast_nonneg _, by omega⟩)).trans ?_
  simp only [Int.toNat_natCast]
  refine (bind_of_ok _ rfl).trans ((bind_of_ok _ rfl).trans ?_)
  refine (bind_of_ok _ (require_ok hcount)).trans ((bind_of_ok _ rfl).trans ?_)
  have hplace : 1 + 1 + keys.length = keys.length + 1 + 1 := by omega
  simp only [hplace]
  refine (bind_of_ok _ (require_ok (?_ : _ ≤ List.length _))).trans ?_
  · rw [hlen]
    omega
  refine (bind_of_ok _ (stacktop_ok hcountAt)).trans ?_
  refine (bind_of_ok _ (castNum_ok hsigs)).trans ?_
  refine (bind_of_ok _ (require_ok ⟨Int.natCast_nonneg _, by omega⟩)).trans ?_
  refine (bind_of_ok _ rfl).trans ?_
  simp only [Int.toNat_natCast]
  refine (bind_of_ok _ (require_ok (?_ : _ ≤ List.length _))).trans ?_
  · rw [hlen]
    omega
  refine (bind_of_ok _ rfl).trans ?_
  have hsigAt : sigs <+: (vchKeys :: (keys ++ vchSigs :: (sigs ++ extra :: below))).drop
      (keys.length + 2) := ⟨_, hrest.symm⟩
  refine (bind_of_ok _ (dropSignatures_run _ sigs _ (keys.length + 2) hsigAt)).trans ?_
  refine (bind_of_ok _ (multiSigLoop_run env input _ sigs keys _ (keys.length + 2) 1 hle hsigAt
    hkeyAt)).trans ?_
  refine (bind_of_ok _ (popTimes_run _ _ (?_ : _ ≤ List.length _))).trans ?_
  · rw [hlen]
    omega
  have hbelow : (vchKeys :: (keys ++ vchSigs :: (sigs ++ extra :: below))).drop
      (keys.length + 1 + 1 + 1 + sigs.length) = below := by
    have hsum : keys.length + 1 + 1 + 1 + sigs.length = keys.length + 2 + (sigs.length + 1) := by
      omega
    rw [hsum, ← List.drop_drop, hrest, List.drop_append, List.drop_eq_nil_of_le (Nat.le_succ _),
      Nat.add_sub_cancel_left]
    rfl
  simp only [hbelow]

/-- Too many operations end the run before the signatures are looked at. -/
theorem checkMultiSigExec_full (h : MultiSigStack s.stack keys sigs below)
    (hcount : 201 < s.nOpCount + keys.length) :
    checkMultiSigExec env input opcode s =
      .error .returnsFalse { s with nOpCount := s.nOpCount + keys.length } := by
  obtain ⟨⟨vchKeys, vchSigs, extra, hstack, hkeys, hsigs⟩, hmax, hle⟩ := h
  obtain ⟨stack, altstack, vfExec, nOpCount, pbegincodehash⟩ := s
  cases hstack
  unfold checkMultiSigExec
  refine (bind_of_ok _ rfl).trans ((bind_of_ok _ rfl).trans ((bind_of_ok _ rfl).trans ?_))
  refine (bind_of_ok _ (castNum_ok hkeys)).trans ?_
  refine (bind_of_ok _ (require_ok ⟨Int.natCast_nonneg _, by omega⟩)).trans ?_
  simp only [Int.toNat_natCast]
  refine (bind_of_ok _ rfl).trans ((bind_of_ok _ rfl).trans ?_)
  exact run_bind_error.mpr (.inl (require_error (Nat.not_le_of_lt hcount)))

/-- The operands that the step on lists takes are those on the stack. -/
theorem multiSigOperands_stack {nOpCount nKeysCount : Nat} {stack : List valtype}
    (h : multiSigOperands nOpCount stack = some (nKeysCount, keys, sigs, below)) :
    MultiSigStack stack keys sigs below ∧ nKeysCount = keys.length ∧
      nOpCount + keys.length ≤ 201 := by
  cases stack with
  | nil => cases h
  | cons vchKeys rest =>
    unfold multiSigOperands at h
    simp only [Option.bind_eq_bind, Option.bind_eq_some_iff, Option.guard_eq_some'] at h
    obtain ⟨k, hk, -, hrange, -, hcount, h⟩ := h
    split at h
    · cases h
    · rename_i vchSigs rest' hdrop
      simp only [Option.bind_eq_some_iff, Option.guard_eq_some'] at h
      obtain ⟨m, hm, -, hle, h⟩ := h
      split at h
      · cases h
      · rename_i extra below' hdrop'
        simp only [Option.some.injEq, Prod.mk.injEq] at h
        obtain ⟨rfl, rfl, rfl, rfl⟩ := h
        have hkeysLen : (rest.take k.toNat).length = k.toNat := by
          have hlong := congrArg List.length hdrop
          rw [List.length_drop, List.length_cons] at hlong
          rw [List.length_take]
          omega
        have hsigsLen : (rest'.take m.toNat).length = m.toNat := by
          have hlong := congrArg List.length hdrop'
          rw [List.length_drop, List.length_cons] at hlong
          rw [List.length_take]
          omega
        refine ⟨⟨⟨vchKeys, vchSigs, extra, ?_, ?_, ?_⟩, ?_, ?_⟩, hkeysLen.symm, ?_⟩
        · rw [← hdrop', List.take_append_drop, ← hdrop, List.take_append_drop]
        · rw [hkeysLen, Int.toNat_of_nonneg hrange.1]
          exact hk
        · rw [hsigsLen, Int.toNat_of_nonneg hle.1]
          exact hm
        · omega
        · omega
        · omega

/-- Without all operands the run ends, and not by leaving the stack. -/
theorem checkMultiSigExec_ends (h : multiSigOperands s.nOpCount s.stack = none) :
    Performs (checkMultiSigExec env input opcode) s none := by
  obtain ⟨stack, altstack, vfExec, nOpCount, pbegincodehash⟩ := s
  unfold checkMultiSigExec
  cases stack with
  | nil => exact .bind rfl (.bind_ends rfl (by decide))
  | cons vchKeys rest =>
    simp only [multiSigOperands] at h
    refine .bind rfl (.bind rfl (.bind rfl ?_))
    cases hk : castToBigNum vchKeys with
    | none => exact .bind_ends (castNum_error hk) (by decide)
    | some k =>
      refine .bind (castNum_ok hk) ?_
      by_cases hrange : 0 ≤ k ∧ k ≤ 20
      · refine .bind (require_ok hrange) (.bind rfl (.bind rfl ?_))
        by_cases hcount : nOpCount + k.toNat ≤ 201
        · refine .bind (require_ok hcount) (.bind rfl ?_)
          have hplace : 1 + 1 + k.toNat = k.toNat + 1 + 1 := by omega
          simp only [hplace]
          cases hdrop : rest.drop k.toNat with
          | nil =>
            have hshort : ¬ 1 + 1 + k.toNat ≤ (vchKeys :: rest).length := by
              rw [List.drop_eq_nil_iff] at hdrop
              rw [List.length_cons]
              omega
            exact .bind_ends (require_error hshort) (by decide)
          | cons vchSigs rest' =>
            have hlen := congrArg List.length hdrop
            rw [List.length_drop, List.length_cons] at hlen
            have hlong : 1 + 1 + k.toNat ≤ (vchKeys :: rest).length := by
              rw [List.length_cons]
              omega
            have hat : (vchKeys :: rest)[k.toNat + 1]? = some vchSigs := by
              rw [List.getElem?_cons_succ, ← List.head?_drop, hdrop]
              rfl
            refine .bind (require_ok hlong) (.bind (stacktop_ok hat) ?_)
            cases hm : castToBigNum vchSigs with
            | none => exact .bind_ends (castNum_error hm) (by decide)
            | some m =>
              refine .bind (castNum_ok hm) ?_
              by_cases hle : 0 ≤ m ∧ m ≤ k
              · refine .bind (require_ok hle) (.bind rfl ?_)
                have hshort : ¬ 1 + 1 + k.toNat + 1 + m.toNat ≤ (vchKeys :: rest).length := by
                  rw [List.length_cons]
                  intro hlong'
                  have hdrop' : rest'.drop m.toNat ≠ [] := by
                    rw [Ne, List.drop_eq_nil_iff]
                    omega
                  obtain ⟨extra, below, hbelow⟩ := List.exists_cons_of_ne_nil hdrop'
                  simp [hk, hrange, hcount, hdrop, hm, hle, hbelow] at h
                exact .bind_ends (require_error hshort) (by decide)
              · exact .bind_ends (require_error hle) (by decide)
        · exact .bind_ends (require_error hcount) (by decide)
      · exact .bind_ends (require_error hrange) (by decide)

/-- The run on the stack does what the step on lists does. -/
theorem checkMultiSigExec_performs (s : EvalState) (n : Nat) :
    Performs (checkMultiSigExec env input opcode) s
      (outcome (checkMultiSigOp env input opcode s n)) := by
  unfold checkMultiSigOp
  cases hops : multiSigOperands s.nOpCount s.stack with
  | none => exact checkMultiSigExec_ends env input opcode hops
  | some r =>
    obtain ⟨nKeysCount, keys, sigs, below⟩ := r
    obtain ⟨hstack, rfl, hcount⟩ := multiSigOperands_stack hops
    obtain ⟨m, hloop⟩ := checkMultiSig_run env input (strippedCode s.pbegincodehash sigs) sigs keys n
    have hlist : outcome ((do
        let fSuccess ← checkMultiSig env input (strippedCode s.pbegincodehash sigs) sigs keys
        ofOption (pushResult { s with nOpCount := s.nOpCount + keys.length }
          (opcode == OP_CHECKMULTISIGVERIFY) fSuccess below) : Interp EvalState) n) =
        pushResult { s with nOpCount := s.nOpCount + keys.length }
          (opcode == OP_CHECKMULTISIGVERIFY)
          (matchesInOrder (validSig env input (strippedCode s.pbegincodehash sigs)) sigs keys)
          below := by
      rw [bind_of_ok _ hloop, outcome_ofOption]
    have hcheck := pushCheck_performs (opcode == OP_CHECKMULTISIGVERIFY)
      (matchesInOrder (validSig env input (strippedCode s.pbegincodehash sigs)) sigs keys)
      { s with stack := below, nOpCount := s.nOpCount + keys.length }
    refine Performs.of_eq (checkMultiSigExec_run env input opcode hstack hcount) ?_
    exact hlist ▸ hcheck

end MultiSig

/-- `OP_CHECKMULTISIG` succeeds if and only if a strictly increasing assignment gives every
signature a key it is valid for. It takes the counts, the keys, the signatures and one more item
off the stack, unless there were too many operations. -/
theorem checkMultiSig_ordered (env : ScriptEnv) (input : TxInput) (opcode : UInt8) {s : EvalState}
    {keys sigs below : List valtype} (h : MultiSigStack s.stack keys sigs below) :
    ∃ fSuccess : Bool,
      (fSuccess = true ↔ ∃ f : Fin sigs.length → Fin keys.length, StrictMono f ∧
        ∀ i, validSig env input (strippedCode s.pbegincodehash sigs) (sigs.get i)
          (keys.get (f i)) = true) ∧
      checkMultiSigExec env input opcode s =
        if 201 < s.nOpCount + keys.length then
          .error .returnsFalse { s with nOpCount := s.nOpCount + keys.length }
        else if opcode ≠ OP_CHECKMULTISIGVERIFY then
          .ok () { s with
            stack := vchBool fSuccess :: below, nOpCount := s.nOpCount + keys.length }
        else if fSuccess then
          .ok () { s with stack := below, nOpCount := s.nOpCount + keys.length }
        else
          .error .returnsFalse { s with
            stack := vchBool fSuccess :: below, nOpCount := s.nOpCount + keys.length } := by
  refine ⟨matchesInOrder (validSig env input (strippedCode s.pbegincodehash sigs)) sigs keys,
    matchesInOrder_iff_strictMono _ _ _, ?_⟩
  split
  · rename_i hcount
    exact checkMultiSigExec_full env input opcode h hcount
  · rename_i hcount
    rw [checkMultiSigExec_run env input opcode h (Nat.le_of_not_lt hcount)]
    by_cases hverify : opcode = OP_CHECKMULTISIGVERIFY
    · rw [if_neg (by simp [hverify]), beq_iff_eq.mpr hverify]
      cases matchesInOrder (validSig env input (strippedCode s.pbegincodehash sigs)) sigs keys with
      | true => rfl
      | false => rfl
    · rw [if_pos hverify, beq_eq_false_iff_ne.mpr hverify]
      rfl

namespace Sample

def pairEnv : ScriptEnv := { scriptEnv with verify := fun key _ sig => key.getLast? == sig.getLast? }

def numberedKey (n : UInt8) : valtype := 2 :: (List.replicate 31 1 ++ [n])

def numberedSig (n : UInt8) : valtype := [0x30, 6, 2, 1, 1, 2, 1, n, 1]

def multiSigState (sigs : List valtype) : EvalState where
  stack := [3] :: ([1, 2, 3].map numberedKey ++ [2] :: (sigs ++ [[], [9]]))
  pbegincodehash := []

theorem multiSigState_stack (n m : UInt8) :
    MultiSigStack (multiSigState [numberedSig n, numberedSig m]).stack
      ([1, 2, 3].map numberedKey) [numberedSig n, numberedSig m] [[9]] :=
  ⟨⟨[3], [2], [], rfl, by decide, rfl⟩, by decide, Nat.le_succ 2⟩

end Sample

/-- Signatures by the first and the last key, in the order of the keys, are enough. -/
theorem numberedSigs_ordered :
    checkMultiSigExec Sample.pairEnv Sample.scriptInput OP_CHECKMULTISIG
        (Sample.multiSigState [Sample.numberedSig 1, Sample.numberedSig 3]) =
      .ok () { Sample.multiSigState [Sample.numberedSig 1, Sample.numberedSig 3] with
        stack := [[1], [9]], nOpCount := 3 } := by
  obtain ⟨fSuccess, hiff, hrun⟩ := checkMultiSig_ordered Sample.pairEnv Sample.scriptInput
    OP_CHECKMULTISIG (Sample.multiSigState_stack 1 3)
  have hassign : fSuccess = true := by
    refine hiff.mpr ⟨fun i => ⟨2 * i.val, ?_⟩, ?_, ?_⟩
    · have hi := i.isLt
      simp only [List.length_cons, List.length_nil] at hi
      simp only [List.length_map, List.length_cons, List.length_nil]
      omega
    · intro i j hij
      simp only [Fin.mk_lt_mk]
      have hlt := Fin.lt_def.mp hij
      omega
    · decide
  rw [hassign] at hrun
  exact hrun

end Triangles
