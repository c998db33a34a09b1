import Triangles.Model.StackMachine

/-! The access-by-access interpreter does what the interpreter on lists does, and never uses an
iterator outside the stack. -/

namespace Triangles

open Outcome

/-- The statements end as the step on lists says: in the given state, or early. They do not go
outside the stack. -/
inductive Performs (x : Exec Unit) (s : EvalState) : Option EvalState → Prop
  | done {t : EvalState} (h : x s = .ok () t) : Performs x s (some t)
  | ends {e : Fault} {t : EvalState} (h : x s = .error e t) (he : e ≠ .outOfBounds) :
      Performs x s none

section Runs

variable {α : Type} {s t : EvalState} {r : Option EvalState}

theorem Performs.bind {x : Exec α} {f : α → Exec Unit} {a : α} (h : x s = .ok a t)
    (hf : Performs (f a) t r) : Performs (x >>= f) s r := by
  have hrun := bind_of_ok f h
  cases hf with
  | done hf => exact .done (hrun.trans hf)
  | ends hf he => exact .ends (hrun.trans hf) he

theorem Performs.bind_ends {x : Exec α} {f : α → Exec Unit} {e : Fault} (h : x s = .error e t)
    (he : e ≠ .outOfBounds) : Performs (x >>= f) s none := by
  exact .ends (run_bind_error.mpr (.inl h)) he

/-- The statements do what others do from another state. -/
theorem Performs.of_eq {x y : Exec Unit} (h : x s = y t) (hy : Performs y t r) :
    Performs x s r := by
  cases hy with
  | done hy => exact .done (h.trans hy)
  | ends hy he => exact .ends (h.trans hy) he

theorem require_ok {p : Prop} [Decidable p] (h : p) : require p s = .ok () s := by
  rw [require, if_pos h]
  rfl

theorem require_error {p : Prop} [Decidable p] (h : ¬ p) :
    require p s = .error .returnsFalse s := by
  rw [require, if_neg h]
  rfl

theorem castNum_ok {vch : valtype} {n : Int} (h : castToBigNum vch = some n) :
    castNum vch s = .ok n s := by
  rw [castNum, h]
  rfl

theorem castNum_error {vch : valtype} (h : castToBigNum vch = none) :
    castNum vch s = .error .throws s := by
  rw [castNum, h]
  rfl

theorem stacktop_ok {i : Nat} {vch : valtype} (h : s.stack[i]? = some vch) :
    stacktop (i + 1) s = .ok vch s := by
  change topOf s.stack (i + 1) s = .ok vch s
  rw [topOf, h]
  rfl

theorem eraseTop_ok {first last : Nat} (hle : last ≤ first) (hlen : first ≤ s.stack.length) :
    eraseTop first last s =
      .ok () { s with stack := s.stack.take last ++ s.stack.drop first } := by
  change (if last ≤ first ∧ first ≤ s.stack.length then
    setStack (s.stack.take last ++ s.stack.drop first) else throw .outOfBounds : Exec Unit) s = _
  rw [if_pos ⟨hle, hlen⟩]
  rfl

end Runs

theorem pickExec_performs (fRoll : Bool) (n x : valtype) (stack : List valtype) (s : EvalState)
    (hs : s.stack = n :: x :: stack) :
    Performs (pickExec fRoll) s
      ((pickOp fRoll n (x :: stack)).map fun stack => { s with stack := stack }) := by
  obtain ⟨_, altstack, vfExec, nOpCount, pbegincodehash⟩ := s
  cases hs
  refine .bind rfl (.bind rfl (.bind rfl ?_))
  cases hn : castToBigNum n with
  | none =>
    simp only [pickOp, hn]
    exact .bind_ends (castNum_error hn) (by decide)
  | some n =>
    simp only [pickOp, hn]
    refine .bind (castNum_ok hn) (.bind rfl (.bind rfl ?_))
    by_cases hneg : n < 0
    · rw [if_pos hneg]
      exact .bind_ends (require_error fun h => by omega) (by decide)
    · rw [if_neg hneg]
      rcases Nat.lt_or_ge n.toNat (x :: stack).length with hlt | hge
      · rw [List.getElem?_eq_getElem hlt]
        have hrange : 0 ≤ n ∧ n < (x :: stack).length := by omega
        refine .bind (require_ok hrange) (.bind (stacktop_ok (List.getElem?_eq_getElem hlt)) ?_)
        cases fRoll with
        | false => exact .done rfl
        | true =>
          refine .bind (eraseTop_ok (Nat.le_succ _) hlt) ?_
          simp only [if_true, List.eraseIdx_eq_take_drop_succ]
          exact .done rfl
      · rw [List.getElem?_eq_none hge]
        have hrange : ¬ (0 ≤ n ∧ n < (x :: stack).length) := by omega
        exact .bind_ends (require_error hrange) (by decide)

theorem stackExec_performs (opcode : UInt8) (s : EvalState) :
    Performs (stackExec opcode) s
      ((stackOp opcode s.stack).map fun stack => { s with stack := stack }) := by
  obtain ⟨stack, altstack, vfExec, nOpCount, pbegincodehash⟩ := s
  unfold stackExec
  split
  · match stack with
    | [] | [_] => exact .ends rfl (by decide)
    | _ :: _ :: _ => exact .done rfl
  · match stack with
    | [] | [_] => exact .ends rfl (by decide)
    | _ :: _ :: _ => exact .done rfl
  · match stack with
    | [] | [_] | [_, _] => exact .ends rfl (by decide)
    | _ :: _ :: _ :: _ => exact .done rfl
  · match stack with
    | [] | [_] | [_, _] | [_, _, _] => exact .ends rfl (by decide)
    | _ :: _ :: _ :: _ :: _ => exact .done rfl
  · match stack with
    | [] | [_] | [_, _] | [_, _, _] | [_, _, _, _] | [_, _, _, _, _] =>
      exact .ends rfl (by decide)
    | _ :: _ :: _ :: _ :: _ :: _ :: _ => exact .done rfl
  · match stack with
    | [] | [_] | [_, _] | [_, _, _] => exact .ends rfl (by decide)
    | _ :: _ :: _ :: _ :: _ => exact .done rfl
  · match stack with
    | [] => exact .ends rfl (by decide)
    | x :: stack =>
      refine .bind rfl (.bind rfl (.bind rfl ?_))
      change Performs _ _ (Option.map _ (some (if castToBool x then x :: x :: stack else x :: stack)))
      cases castToBool x with
      | true => exact .done rfl
      | false => exact .done rfl
  · exact .done rfl
  · match stack with
    | [] => exact .ends rfl (by decide)
    | _ :: _ => exact .done rfl
  · match stack with
    | [] => exact .ends rfl (by decide)
    | _ :: _ => exact .done rfl
  · match stack with
    | [] | [_] => exact .ends rfl (by decide)
    | _ :: _ :: _ => exact .done rfl
  · match stack with
    | [] | [_] => exact .ends rfl (by decide)
    | _ :: _ :: _ => exact .done rfl
  · match stack with
    | [] | [_] => exact .ends rfl (by decide)
    | n :: x :: stack => exact pickExec_performs false n x stack _ rfl
  · match stack with
    | [] | [_] => exact .ends rfl (by decide)
    | n :: x :: stack => exact pickExec_performs true n x stack _ rfl
  · match stack with
    | [] | [_] | [_, _] => exact .ends rfl (by decide)
    | _ :: _ :: _ :: _ => exact .done rfl
  · match stack with
    | [] | [_] => exact .ends rfl (by decide)
    | _ :: _ :: _ => exact .done rfl
  · match stack with
    | [] | [_] => exact .ends rfl (by decide)
    | _ :: _ :: _ => exact .done rfl
  · match stack with
    | [] => exact .ends rfl (by decide)
    | _ :: _ => exact .done rfl
  · match stack with
    | [] | [_] => exact .ends rfl (by decide)
    | _ :: _ :: _ => exact .done rfl
  · match stack with
    | [] | [_] => exact .ends rfl (by decide)
    | x2 :: x1 :: stack =>
      refine .bind rfl (.bind rfl (.bind rfl (.bind rfl (.bind rfl (.bind rfl ?_)))))
      change Performs _ _ (Option.map _ (if x1 = x2 then some stack else none))
      by_cases heq : x1 = x2
      · rw [if_pos heq, beq_iff_eq.mpr heq]
        exact .done rfl
      · rw [if_neg heq, beq_eq_false_iff_ne.mpr heq]
        exact .ends rfl (by decide)
  · have hnone : stackOp opcode stack = none := by
      unfold stackOp
      split <;> first | rfl | contradiction
    simp only [hnone]
    exact .ends rfl (by decide)

theorem pushNumberExec_performs (opcode : UInt8) (s : EvalState) :
    Performs (pushNumberExec opcode) s (pushNumber opcode s) := by
  unfold pushNumberExec pushNumber
  by_cases hop : opcode = OP_1NEGATE ∨ OP_1 ≤ opcode ∧ opcode ≤ OP_16
  · rw [if_pos hop]
    exact .bind (require_ok hop) (.done rfl)
  · rw [if_neg hop]
    exact .bind_ends (require_error hop) (by decide)

theorem controlExec_performs (fExec : Bool) (opcode : UInt8) (s : EvalState) :
    Performs (controlExec fExec opcode) s (controlOp fExec opcode s) := by
  obtain ⟨stack, altstack, vfExec, nOpCount, pbegincodehash⟩ := s
  unfold controlExec
  split
  · exact .done rfl
  · cases fExec with
    | false => exact .done rfl
    | true =>
      match stack with
      | [] => exact .ends rfl (by decide)
      | _ :: _ => exact .done rfl
  · cases fExec with
    | false => exact .done rfl
    | true =>
      match stack with
      | [] => exact .ends rfl (by decide)
      | _ :: _ => exact .done rfl
  · match vfExec with
    | [] => exact .ends rfl (by decide)
    | _ :: _ => exact .done rfl
  · match vfExec with
    | [] => exact .ends rfl (by decide)
    | _ :: _ => exact .done rfl
  · match stack with
    | [] => exact .ends rfl (by decide)
    | x :: stack =>
      refine .bind rfl (.bind rfl (.bind rfl ?_))
      change Performs _ _ (if castToBool x then some _ else none)
      cases castToBool x with
      | true => exact .done rfl
      | false => exact .ends rfl (by decide)
  · have hnone : ∀ s : EvalState, controlOp fExec opcode s = none := by
      intro s
      unfold controlOp
      split <;> first | rfl | contradiction
    rw [hnone]
    exact .ends rfl (by decide)

theorem altStackExec_performs (opcode : UInt8) (s : EvalState) :
    Performs (altStackExec opcode) s (altStackOp opcode s) := by
  obtain ⟨stack, altstack, vfExec, nOpCount, pbegincodehash⟩ := s
  unfold altStackExec
  split
  · match stack with
    | [] => exact .ends rfl (by decide)
    | _ :: _ => exact .done rfl
  · match altstack with
    | [] => exact .ends rfl (by decide)
    | _ :: _ => exact .done rfl
  · have hnone : ∀ s : EvalState, altStackOp opcode s = none := by
      intro s
      unfold altStackOp
      split <;> first | rfl | contradiction
    rw [hnone]
    exact .ends rfl (by decide)

theorem hashExec_performs (env : ScriptEnv) (opcode : UInt8) (s : EvalState) :
    Performs (hashExec env opcode) s
      ((hashOp env opcode s.stack).map fun stack => { s with stack := stack }) := by
  obtain ⟨stack, altstack, vfExec, nOpCount, pbegincodehash⟩ := s
  unfold hashExec
  match stack with
  | [] =>
    have hnone : hashOp env opcode [] = none := by
      unfold hashOp
      split <;> first | rfl | contradiction
    simp only [hnone]
    exact .bind rfl (.ends rfl (by decide))
  | x :: stack =>
    refine .bind rfl (.bind rfl (.bind rfl ?_))
    split
    · exact .done rfl
    · exact .done rfl
    · exact .done rfl
    · exact .done rfl
    · exact .done rfl
    · have hnone : ∀ stack, hashOp env opcode stack = none := by
        intro stack
        unfold hashOp
        split <;> first | rfl | contradiction
      rw [hnone]
      exact .ends rfl (by decide)

theorem unaryExec_performs {opcode : UInt8} (hle : opcode ≤ OP_0NOTEQUAL) (hop : OP_1ADD ≤ opcode)
    (x : valtype) (stack : List valtype) (s : EvalState) (hs : s.stack = x :: stack) :
    Performs (numericExec opcode) s
      ((numericOp opcode (x :: stack)).map fun stack => { s with stack := stack }) := by
  obtain ⟨_, altstack, vfExec, nOpCount, pbegincodehash⟩ := s
  cases hs
  have hlist : numericOp opcode (x :: stack) = (castToBigNum x).bind fun bn =>
      (unaryOp opcode bn).map fun bn => bnGetvch bn :: stack := by
    unfold numericOp
    rw [if_pos hle]
    change (castToBigNum x).bind _ = _
    congr 1
    funext bn
    change (unaryOp opcode bn).bind _ = _
    cases unaryOp opcode bn <;> rfl
  rw [hlist]
  unfold numericExec
  rw [if_pos hle]
  refine .bind (require_ok hop) (.bind rfl (.bind rfl (.bind rfl ?_)))
  cases hx : castToBigNum x with
  | none => exact .bind_ends (castNum_error hx) (by decide)
  | some bn =>
    refine .bind (castNum_ok hx) ?_
    rw [Option.bind_some]
    cases unaryOp opcode bn with
    | none => exact .ends rfl (by decide)
    | some bn => exact .done rfl

/-- `OP_WITHIN`. -/
theorem withinExec_performs (x1 x2 x3 : valtype) (stack : List valtype) (s : EvalState)
    (hs : s.stack = x3 :: x2 :: x1 :: stack) :
    Performs (numericExec OP_WITHIN) s
      ((numericOp OP_WITHIN (x3 :: x2 :: x1 :: stack)).map fun stack =>
        { s with stack := stack }) := by
  obtain ⟨_, altstack, vfExec, nOpCount, pbegincodehash⟩ := s
  cases hs
  have hlist : numericOp OP_WITHIN (x3 :: x2 :: x1 :: stack) = (castToBigNum x1).bind fun bn1 =>
      (castToBigNum x2).bind fun bn2 => (castToBigNum x3).map fun bn3 =>
        vchBool (decide (bn2 ≤ bn1 ∧ bn1 < bn3)) :: stack := by
    change (castToBigNum x1).bind _ = _
    congr 1
    funext bn1
    change (castToBigNum x2).bind _ = _
    congr 1
    funext bn2
    change (castToBigNum x3).bind _ = _
    cases castToBigNum x3 <;> rfl
  rw [hlist]
  refine .bind rfl (.bind rfl (.bind rfl ?_))
  cases h1 : castToBigNum x1 with
  | none => exact .bind_ends (castNum_error h1) (by decide)
  | some bn1 =>
    refine .bind (castNum_ok h1) (.bind rfl ?_)
    rw [Option.bind_some]
    cases h2 : castToBigNum x2 with
    | none => exact .bind_ends (castNum_error h2) (by decide)
    | some bn2 =>
      refine .bind (castNum_ok h2) (.bind rfl ?_)
      rw [Option.bind_some]
      cases h3 : castToBigNum x3 with
      | none => exact .bind_ends (castNum_error h3) (by decide)
      | some bn3 => exact .bind (castNum_ok h3) (.done rfl)

theorem binaryExec_performs {opcode : UInt8} (hgt : ¬ opcode ≤ OP_0NOTEQUAL)
    (hne : opcode ≠ OP_WITHIN) (x1 x2 : valtype) (stack : List valtype) (s : EvalState)
    (hs : s.stack = x2 :: x1 :: stack) :
    Performs (numericExec opcode) s
      ((numericOp opcode (x2 :: x1 :: stack)).map fun stack => { s with stack := stack }) := by
  obtain ⟨_, altstack, vfExec, nOpCount, pbegincodehash⟩ := s
  cases hs
  have hlist : numericOp opcode (x2 :: x1 :: stack) = (castToBigNum x1).bind fun bn1 =>
      (castToBigNum x2).bind fun bn2 => (binaryOp opcode bn1 bn2).bind fun bn =>
        if opcode = OP_NUMEQUALVERIFY then if castToBool (bnGetvch bn) then some stack else none
        else some (bnGetvch bn :: stack) := by
    unfold numericOp
    rw [if_neg hgt, if_neg hne]
    rfl
  rw [hlist]
  unfold numericExec
  rw [if_neg hgt, if_neg hne]
  refine .bind rfl (.bind rfl (.bind rfl ?_))
  cases h1 : castToBigNum x1 with
  | none => exact .bind_ends (castNum_error h1) (by decide)
  | some bn1 =>
    refine .bind (castNum_ok h1) (.bind rfl ?_)
    rw [Option.bind_some]
    cases h2 : castToBigNum x2 with
    | none => exact .bind_ends (castNum_error h2) (by decide)
    | some bn2 =>
      refine .bind (castNum_ok h2) ?_
      rw [Option.bind_some]
      cases binaryOp opcode bn1 bn2 with
      | none => exact .ends rfl (by decide)
      | some bn =>
        refine .bind rfl (.bind rfl (.bind rfl ?_))
        rw [Option.bind_some]
        by_cases hverify : opcode = OP_NUMEQUALVERIFY
        · rw [if_pos hverify, if_pos hverify]
          refine .bind rfl (.bind rfl ?_)
          cases castToBool (bnGetvch bn) with
          | true => exact .done rfl
          | false => exact .ends rfl (by decide)
        · rw [if_neg hverify, if_neg hverify]
          exact .done rfl

theorem unaryOp_reserved {opcode : UInt8} (hop : ¬ OP_1ADD ≤ opcode) (bn : Int) :
    unaryOp opcode bn = none := by
  unfold unaryOp
  split <;> first | rfl | exact absurd (by decide) hop

theorem numericExec_performs (opcode : UInt8) (s : EvalState) :
    Performs (numericExec opcode) s
      ((numericOp opcode s.stack).map fun stack => { s with stack := stack }) := by
  obtain ⟨stack, altstack, vfExec, nOpCount, pbegincodehash⟩ := s
  by_cases hle : opcode ≤ OP_0NOTEQUAL
  · by_cases hop : ¬ OP_1ADD ≤ opcode
    · have hnone : numericOp opcode stack = none := by
        unfold numericOp
        rw [if_pos hle]
        split
        · rename_i x rest
          cases hx : castToBigNum x with
          | none => rfl
          | some bn =>
            change (unaryOp opcode bn).bind _ = none
            rw [unaryOp_reserved hop]
            rfl
        · rfl
      unfold numericExec
      rw [if_pos hle, hnone]
      exact .bind_ends (require_error hop) (by decide)
    rw [not_not] at hop
    match stack with
    | [] =>
      have hnone : numericOp opcode [] = none := by
        unfold numericOp
        rw [if_pos hle]
      unfold numericExec
      rw [if_pos hle, hnone]
      exact .bind (require_ok hop) (.bind rfl (.bind_ends rfl (by decide)))
    | x :: stack => exact unaryExec_performs hle hop x stack _ rfl
  · by_cases hwithin : opcode = OP_WITHIN
    · subst hwithin
      match stack with
      | [] | [_] | [_, _] => exact .ends rfl (by decide)
      | x3 :: x2 :: x1 :: stack => exact withinExec_performs x1 x2 x3 stack _ rfl
    · have hshort : ∀ stack : List valtype, stack.length < 2 → numericOp opcode stack = none := by
        intro stack hlen
        unfold numericOp
        rw [if_neg hle, if_neg hwithin]
        match stack with
        | [] | [_] => rfl
      match stack with
      | [] | [_] =>
        unfold numericExec
        rw [if_neg hle, if_neg hwithin, hshort _ (by simp)]
        exact .bind rfl (.bind_ends rfl (by decide))
      | x2 :: x1 :: stack => exact binaryExec_performs hle hwithin x1 x2 stack _ rfl

theorem plainExec_performs (env : ScriptEnv) (fExec : Bool) (opcode : UInt8) (pc : CScript)
    (s : EvalState) :
    Performs (plainExec env fExec opcode pc) s (plainOp env fExec opcode pc s) := by
  unfold plainExec plainOp
  split
  · exact pushNumberExec_performs opcode s
  · split
    · exact controlExec_performs fExec opcode s
    · split
      · exact altStackExec_performs opcode s
      · split
        · exact stackExec_performs opcode s
        · split
          · exact numericExec_performs opcode s
          · split
            · exact hashExec_performs env opcode s
            · split
              · exact .done rfl
              · split
                · rename_i hnop
                  exact .done (require_ok hnop)
                · rename_i hnop
                  exact .ends (require_error hnop) (by decide)

end Triangles
