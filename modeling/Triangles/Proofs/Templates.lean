import Mathlib.Data.List.GetD
import Triangles.Model.Templates
import Triangles.Proofs.SigOps

/-! `Solver` accepts the four shapes and nothing else. It leaves type and solutions empty on all
other scripts but those whose multisig numbers do not fit. -/

namespace Triangles

/-! One opcode of a template. -/

section Opcode

variable {op : ScriptOp} {v v' : List (List UInt8)}

theorem matchOpcode_pubKey :
    matchOpcode OP_PUBKEY op v = some v' ↔ KeySize op.2.1 ∧ v' = v ++ [op.2.1] := by
  unfold matchOpcode
  rw [if_pos rfl]
  split
  · rename_i hsize
    simp only [reduceCtorEq, false_iff]
    rintro ⟨⟨hlow, hhigh⟩, _⟩
    omega
  · rename_i hsize
    simp only [Option.some.injEq, eq_comm (a := v'), iff_and_self]
    exact fun _ => ⟨by omega, by omega⟩

theorem matchOpcode_pubKeyHash :
    matchOpcode OP_PUBKEYHASH op v = some v' ↔ op.2.1.length = 20 ∧ v' = v ++ [op.2.1] := by
  unfold matchOpcode
  rw [if_neg (by decide), if_pos rfl]
  split
  · rename_i hsize
    simp [hsize]
  · rename_i hsize
    rw [ne_eq, not_not] at hsize
    simp [hsize, eq_comm]

theorem matchOpcode_smallInteger :
    matchOpcode OP_SMALLINTEGER op v = some v' ↔
      SmallInteger op.1 ∧ v' = v ++ [[decodeOP_N op.1]] := by
  unfold matchOpcode SmallInteger
  rw [if_neg (by decide), if_neg (by decide), if_pos rfl]
  split
  · rename_i hsmall
    simp only [Option.some.injEq, hsmall, true_and]
    exact eq_comm
  · rename_i hsmall
    simp [hsmall]

theorem matchOpcode_exact {opcode2 : UInt8} (h : opcode2 < OP_SMALLINTEGER) :
    matchOpcode opcode2 op v = some v' ↔ op.1 = opcode2 ∧ op.2.1 = [] ∧ v' = v := by
  have hne : ∀ b : UInt8, OP_SMALLINTEGER ≤ b → opcode2 ≠ b := by
    rintro b hb rfl
    exact absurd h (UInt8.not_lt.mpr hb)
  unfold matchOpcode
  rw [if_neg (hne _ (by decide)), if_neg (hne _ (by decide)), if_neg (hne _ (by decide))]
  split
  · rename_i hdiffer
    simp only [reduceCtorEq, false_iff]
    rintro ⟨hop, hdata, _⟩
    exact hdiffer.elim (fun hne => hne hop) fun hne => hne hdata
  · rename_i hsame
    rw [not_or, not_not, not_not] at hsame
    simp [hsame, eq_comm]

end Opcode

/-! Templates without `OP_PUBKEYS`. -/

theorem matchTemplate_nil {script : CScript} {v v' : List (List UInt8)} :
    matchTemplate [] script v = some v' ↔ script = [] ∧ v' = v := by
  unfold matchTemplate
  cases script <;> simp [eq_comm]

theorem matchTemplate_cons {opcode2 : UInt8} {tplate : List UInt8} (h : opcode2 ≠ OP_PUBKEYS)
    {script : CScript} {v v' : List (List UInt8)} :
    matchTemplate (opcode2 :: tplate) script v = some v' ↔
      ∃ op w, getOp script = some op ∧ matchOpcode opcode2 op v = some w ∧
        matchTemplate tplate op.2.2 w = some v' := by
  rw [matchTemplate]
  cases getOp script with
  | none => simp
  | some op =>
    simp only [if_neg h, Option.some.injEq, exists_and_left, exists_eq_left']
    cases matchOpcode opcode2 op v <;> simp

theorem matchTemplate_end {opcode2 : UInt8} (h : opcode2 < OP_SMALLINTEGER) {script : CScript}
    {v v' : List (List UInt8)} :
    matchTemplate [opcode2] script v = some v' ↔ HasOps script [(opcode2, [])] ∧ v' = v := by
  have hne : opcode2 ≠ OP_PUBKEYS := by
    rintro rfl
    exact absurd h (by decide)
  rw [matchTemplate_cons hne]
  constructor
  · rintro ⟨⟨opcode, data, rest⟩, w, hop, hmatch, htail⟩
    obtain ⟨rfl, rfl, rfl⟩ := (matchOpcode_exact h).mp hmatch
    obtain ⟨rfl, rfl⟩ := matchTemplate_nil.mp htail
    exact ⟨.cons hop .nil, rfl⟩
  · rintro ⟨hops, rfl⟩
    cases hops with
    | cons hop hrest =>
      cases hrest
      exact ⟨_, _, hop, (matchOpcode_exact h).mpr ⟨rfl, rfl, rfl⟩, matchTemplate_nil.mpr ⟨rfl, rfl⟩⟩

/-- An opcode that stands for itself, in front of a template. -/
theorem matchTemplate_exact {opcode2 : UInt8} {tplate : List UInt8} (h : opcode2 < OP_SMALLINTEGER)
    {script : CScript} {v v' : List (List UInt8)} :
    matchTemplate (opcode2 :: tplate) script v = some v' ↔
      ∃ rest, getOp script = some (opcode2, [], rest) ∧ matchTemplate tplate rest v = some v' := by
  have hne : opcode2 ≠ OP_PUBKEYS := by
    rintro rfl
    exact absurd h (by decide)
  rw [matchTemplate_cons hne]
  constructor
  · rintro ⟨⟨opcode, data, rest⟩, w, hop, hmatch, htail⟩
    obtain ⟨rfl, rfl, rfl⟩ := (matchOpcode_exact h).mp hmatch
    exact ⟨rest, hop, htail⟩
  · rintro ⟨rest, hop, htail⟩
    exact ⟨_, v, hop, (matchOpcode_exact h).mpr ⟨rfl, rfl, rfl⟩, htail⟩

theorem matchPubKey_iff {script : CScript} {v' : List (List UInt8)} :
    matchTemplate templatePubKey script [] = some v' ↔
      ∃ push key, HasOps script [(push, key), (OP_CHECKSIG, [])] ∧ KeySize key ∧ v' = [key] := by
  rw [templatePubKey, matchTemplate_cons (by decide)]
  constructor
  · rintro ⟨⟨push, key, rest⟩, w, hop, hmatch, htail⟩
    obtain ⟨hkey, rfl⟩ := matchOpcode_pubKey.mp hmatch
    obtain ⟨hops, rfl⟩ := (matchTemplate_end (by decide)).mp htail
    exact ⟨push, key, .cons hop hops, hkey, rfl⟩
  · rintro ⟨push, key, hops, hkey, rfl⟩
    cases hops with
    | cons hop hrest =>
      exact ⟨_, _, hop, matchOpcode_pubKey.mpr ⟨hkey, rfl⟩,
        (matchTemplate_end (by decide)).mpr ⟨hrest, rfl⟩⟩

theorem matchPubKeyHash_iff {script : CScript} {v' : List (List UInt8)} :
    matchTemplate templatePubKeyHash script [] = some v' ↔
      ∃ push hash, HasOps script [(OP_DUP, []), (OP_HASH160, []), (push, hash),
          (OP_EQUALVERIFY, []), (OP_CHECKSIG, [])] ∧ hash.length = 20 ∧ v' = [hash] := by
  rw [templatePubKeyHash, matchTemplate_exact (by decide)]
  constructor
  · rintro ⟨rest, hdup, h⟩
    obtain ⟨rest, hhash160, h⟩ := (matchTemplate_exact (by decide)).mp h
    obtain ⟨⟨push, hash, rest⟩, w, hop, hmatch, h⟩ := (matchTemplate_cons (by decide)).mp h
    obtain ⟨hlen, rfl⟩ := matchOpcode_pubKeyHash.mp hmatch
    obtain ⟨rest, hequal, h⟩ := (matchTemplate_exact (by decide)).mp h
    obtain ⟨hops, rfl⟩ := (matchTemplate_end (by decide)).mp h
    exact ⟨push, hash, .cons hdup (.cons hhash160 (.cons hop (.cons hequal hops))), hlen, rfl⟩
  · rintro ⟨push, hash, hops, hlen, rfl⟩
    obtain _ | ⟨hdup, _ | ⟨hhash160, _ | ⟨hop, _ | ⟨hequal, hlast⟩⟩⟩⟩ := hops
    refine ⟨_, hdup, (matchTemplate_exact (by decide)).mpr ⟨_, hhash160, ?_⟩⟩
    refine (matchTemplate_cons (by decide)).mpr ⟨_, _, hop, matchOpcode_pubKeyHash.mpr
      ⟨hlen, rfl⟩, ?_⟩
    exact (matchTemplate_exact (by decide)).mpr ⟨_, hequal,
      (matchTemplate_end (by decide)).mpr ⟨hlast, rfl⟩⟩

/-! The loop for `OP_PUBKEYS`. -/

/-- From an instruction on, some that push keys, and then one that does not. -/
inductive KeyRun : ScriptOp → List (UInt8 × List UInt8) → ScriptOp → Prop
  | stop {op : ScriptOp} (h : ¬ KeySize op.2.1) : KeyRun op [] op
  | next {opcode : UInt8} {data : List UInt8} {rest : CScript} {op op' : ScriptOp}
      {keys : List (UInt8 × List UInt8)} (hkey : KeySize data) (hop : getOp rest = some op)
      (hrun : KeyRun op keys op') : KeyRun (opcode, data, rest) ((opcode, data) :: keys) op'

theorem KeyRun.keySizes {op op' : ScriptOp} {keys : List (UInt8 × List UInt8)}
    (h : KeyRun op keys op') : ∀ key ∈ keys, KeySize key.2 := by
  induction h with
  | stop _ => simp
  | next hkey _ _ ih =>
    intro key hmem
    rcases List.mem_cons.mp hmem with rfl | hmem
    · exact hkey
    · exact ih key hmem

theorem KeyRun.length_le {op op' : ScriptOp} {keys : List (UInt8 × List UInt8)}
    (h : KeyRun op keys op') : keys.length ≤ op.2.2.length := by
  induction h with
  | stop _ => simp
  | @next opcode data rest op op' keys _ hop _ ih =>
    have hlt : op.2.2.length < rest.length := getOp_length hop
    simp only [List.length_cons]
    omega

section Loop

variable {op op' : ScriptOp} {rounds : Nat} (v : List (List UInt8))

theorem matchPubKeys_stop (hno : ¬ KeySize op.2.1) :
    matchPubKeys (rounds + 1) op v = (op, v) := if_neg hno

theorem matchPubKeys_key (hkey : KeySize op.2.1) (hop : getOp op.2.2 = some op') :
    matchPubKeys (rounds + 1) op v = matchPubKeys rounds op' (v ++ [op.2.1]) := by
  rw [matchPubKeys, hop]
  exact if_pos hkey

theorem matchPubKeys_ended (hkey : KeySize op.2.1) (hop : getOp op.2.2 = none) :
    matchPubKeys (rounds + 1) op v = ((OP_INVALIDOPCODE, [], []), v ++ [op.2.1]) := by
  rw [matchPubKeys, hop]
  exact if_pos hkey

/-- The loop takes the run. -/
theorem matchPubKeys_run {keys : List (UInt8 × List UInt8)} (h : KeyRun op keys op')
    (hrounds : keys.length < rounds) :
    matchPubKeys rounds op v = (op', v ++ keys.map Prod.snd) := by
  induction h generalizing rounds v with
  | stop hno =>
    obtain ⟨rounds, rfl⟩ := Nat.exists_eq_succ_of_ne_zero (Nat.ne_of_gt hrounds)
    rw [matchPubKeys_stop v hno, List.map_nil, List.append_nil]
  | next hkey hop _ ih =>
    obtain ⟨rounds, rfl⟩ := Nat.exists_eq_succ_of_ne_zero (Nat.ne_of_gt (Nat.zero_lt_of_lt hrounds))
    rw [matchPubKeys_key v hkey hop, ih _ (by simpa using hrounds), List.map_cons,
      List.append_assoc]
    rfl

/-- The loop takes such a run, or the script ends in it. -/
theorem matchPubKeys_cases (op : ScriptOp) (hrounds : op.2.2.length < rounds) :
    (∃ keys op', KeyRun op keys op') ∨
      (matchPubKeys rounds op v).1 = (OP_INVALIDOPCODE, [], []) := by
  induction rounds generalizing op v with
  | zero => cases hrounds
  | succ rounds ih =>
    by_cases hkey : KeySize op.2.1
    · cases hop : getOp op.2.2 with
      | none =>
        right
        rw [matchPubKeys_ended v hkey hop]
      | some op1 =>
        have hlt : op1.2.2.length < op.2.2.length :=
          getOp_length hop
        rcases ih (v ++ [op.2.1]) op1 (by omega) with ⟨keys, op', hrun⟩ | hend
        · exact .inl ⟨_, op', .next hkey hop hrun⟩
        · right
          rw [matchPubKeys_key v hkey hop]
          exact hend
    · exact .inl ⟨[], op, .stop hkey⟩

end Loop

/-- A run is what stands in the script. -/
theorem KeyRun.hasOps {op op' : ScriptOp} {keys tail : List (UInt8 × List UInt8)}
    (h : KeyRun op keys op') (htail : HasOps op'.2.2 tail) {script : CScript}
    (hop : getOp script = some op) : HasOps script (keys ++ (op'.1, op'.2.1) :: tail) := by
  induction h generalizing script with
  | stop _ => exact .cons hop htail
  | next _ hnext _ ih => exact .cons hop (ih htail hnext)

/-- Keys that stand in a script in front of another instruction are a run. -/
theorem HasOps.keyRun {keys tail : List (UInt8 × List UInt8)} {opcode : UInt8} {data : List UInt8}
    {script : CScript} (h : HasOps script (keys ++ (opcode, data) :: tail))
    (hkeys : ∀ key ∈ keys, KeySize key.2) (hdata : ¬ KeySize data) :
    ∃ op rest, getOp script = some op ∧ KeyRun op keys (opcode, data, rest) ∧ HasOps rest tail := by
  induction keys generalizing script with
  | nil =>
    cases h with
    | cons hop hrest => exact ⟨_, _, hop, .stop hdata, hrest⟩
  | cons key keys ih =>
    cases h with
    | cons hop hrest =>
      obtain ⟨op, rest, hnext, hrun, htail⟩ :=
        ih hrest fun key hmem => hkeys key (List.mem_cons_of_mem _ hmem)
      exact ⟨_, rest, hop, .next (hkeys _ List.mem_cons_self) hnext hrun, htail⟩

/-- A small integer has no operand. -/
theorem smallInteger_data {opcode : UInt8} {data : List UInt8} {script rest : CScript}
    (h : SmallInteger opcode) (hop : getOp script = some (opcode, data, rest)) : data = [] := by
  rcases h with rfl | ⟨hlow, _⟩
  · cases script with
    | nil => cases hop
    | cons op pc =>
      obtain ⟨rfl, -⟩ := getOp_suffix hop
      have hzero : getOp (OP_0 :: pc) = some (OP_0, [], pc) := rfl
      rw [hzero] at hop
      cases hop
      rfl
  · refine getOp_data hop fun hle => ?_
    exact absurd (UInt8.le_trans hlow hle) (by decide)

theorem KeyRun.last {script : CScript} {op op' : ScriptOp} {keys : List (UInt8 × List UInt8)}
    (h : KeyRun op keys op') (hop : getOp script = some op) :
    ∃ script', getOp script' = some op' := by
  induction h generalizing script with
  | stop _ => exact ⟨script, hop⟩
  | next _ hnext _ ih => exact ih hnext

theorem matchTemplate_pubKeys {opcode2 : UInt8} {tplate : List UInt8} {script : CScript}
    {v v' : List (List UInt8)} :
    matchTemplate (OP_PUBKEYS :: opcode2 :: tplate) script v = some v' ↔
      ∃ op w, getOp script = some op ∧
        matchOpcode opcode2 (matchPubKeys (op.2.2.length + 1) op v).1
          (matchPubKeys (op.2.2.length + 1) op v).2 = some w ∧
        matchTemplate tplate (matchPubKeys (op.2.2.length + 1) op v).1.2.2 w = some v' := by
  rw [matchTemplate]
  cases getOp script with
  | none => simp
  | some op =>
    simp only [if_true, Option.some.injEq, exists_and_left, exists_eq_left']
    cases matchOpcode opcode2 (matchPubKeys (op.2.2.length + 1) op v).1
      (matchPubKeys (op.2.2.length + 1) op v).2 <;> simp

theorem matchMultisig_iff {script : CScript} {v' : List (List UInt8)} :
    matchTemplate templateMultisig script [] = some v' ↔
      ∃ opM opN keys, MultisigOps script opM opN keys ∧
        v' = [decodeOP_N opM] :: (keys.map Prod.snd ++ [[decodeOP_N opN]]) := by
  rw [templateMultisig, matchTemplate_cons (by decide)]
  constructor
  · rintro ⟨⟨opM, dataM, rest⟩, w, hopM, hmatch, h⟩
    obtain ⟨hM, rfl⟩ := matchOpcode_smallInteger.mp hmatch
    obtain rfl := smallInteger_data hM hopM
    obtain ⟨op, w, hop, hmatch, h⟩ := matchTemplate_pubKeys.mp h
    obtain ⟨hN, rfl⟩ := matchOpcode_smallInteger.mp hmatch
    rcases matchPubKeys_cases ([] ++ [[decodeOP_N opM]]) op (Nat.lt_succ_self _) with
      ⟨keys, ⟨opN, dataN, rest'⟩, hrun⟩ | hend
    · have hloop := matchPubKeys_run ([] ++ [[decodeOP_N opM]]) hrun
        (Nat.lt_succ_of_le hrun.length_le)
      dsimp only at hN h
      rw [hloop] at hN h
      obtain ⟨hlast, rfl⟩ := (matchTemplate_end (by decide)).mp h
      obtain ⟨_, hopN⟩ := hrun.last hop
      obtain rfl := smallInteger_data hN hopN
      exact ⟨opM, opN, keys, ⟨.cons hopM (hrun.hasOps hlast hop), hM, hN, hrun.keySizes⟩, by simp⟩
    · dsimp only at hN
      rw [hend] at hN
      exact absurd hN (by unfold SmallInteger; decide)
  · rintro ⟨opM, opN, keys, ⟨hops, hM, hN, hkeys⟩, rfl⟩
    cases hops with
    | cons hopM hrest =>
      obtain ⟨op, rest', hop, hrun, hlast⟩ := hrest.keyRun hkeys (by unfold KeySize; decide)
      refine ⟨_, _, hopM, matchOpcode_smallInteger.mpr ⟨hM, rfl⟩, ?_⟩
      have hloop := matchPubKeys_run ([] ++ [[decodeOP_N opM]]) hrun
        (Nat.lt_succ_of_le hrun.length_le)
      refine matchTemplate_pubKeys.mpr ⟨op, [[decodeOP_N opM]] ++ keys.map Prod.snd ++
        [[decodeOP_N opN]], hop, ?_, ?_⟩
      · rw [hloop]
        exact matchOpcode_smallInteger.mpr ⟨hN, rfl⟩
      · rw [hloop]
        exact (matchTemplate_end (by decide)).mpr ⟨hlast, by simp⟩

/-! `Solver`. -/

theorem HasOps.unique {script : CScript} {ops ops' : List (UInt8 × List UInt8)}
    (h : HasOps script ops) (h' : HasOps script ops') : ops = ops' := by
  induction h generalizing ops' with
  | nil =>
    cases h' with
    | nil => rfl
    | cons hop _ => cases hop
  | cons hop _ ih =>
    cases h' with
    | nil => cases hop
    | cons hop' hrest' =>
      rw [hop] at hop'
      cases hop'
      rw [ih hrest']

theorem isPayToScriptHash_iff (script : CScript) :
    isPayToScriptHash script = true ↔
      ∃ hash, hash.length = 20 ∧ script = OP_HASH160 :: 20 :: (hash ++ [OP_EQUAL]) := by
  simp only [isPayToScriptHash, Bool.and_eq_true, beq_iff_eq]
  constructor
  · rintro ⟨⟨⟨hlen, hfirst⟩, hsize⟩, hlast⟩
    match script with
    | [] | [_] => simp at hlen
    | a :: b :: w =>
      simp only [List.length_cons] at hlen
      have htake : (w.take 20).length = 20 := by
        rw [List.length_take]
        omega
      have hend : (w.drop 20).length = 1 := by
        rw [List.length_drop]
        omega
      obtain ⟨c, hc⟩ := List.length_eq_one_iff.mp hend
      have hw : w = w.take 20 ++ [c] := by rw [← hc, List.take_append_drop]
      refine ⟨w.take 20, htake, ?_⟩
      have hget : (a :: b :: w).getD 22 0 = c := by
        change w.getD 20 0 = c
        rw [hw, List.getD_append_right _ _ _ _ (by omega), htake]
        rfl
      rw [hget] at hlast
      rw [← hlast, ← hw]
      exact congrArg₂ _ hfirst (congrArg₂ _ hsize rfl)
  · rintro ⟨hash, hlen, rfl⟩
    refine ⟨⟨⟨by simp [hlen], rfl⟩, rfl⟩, ?_⟩
    change (hash ++ [OP_EQUAL]).getD 20 0 = OP_EQUAL
    rw [List.getD_append_right _ _ _ _ (by omega), hlen]
    rfl

theorem scriptHash_ops {hash : List UInt8} (hlen : hash.length = 20) :
    HasOps (OP_HASH160 :: 20 :: (hash ++ [OP_EQUAL]))
      [(OP_HASH160, []), (20, hash), (OP_EQUAL, [])] := by
  have hpush : getOp (20 :: (hash ++ [OP_EQUAL])) = some (20, hash, [OP_EQUAL]) := by
    have hop : (20 : UInt8) ≤ OP_PUSHDATA4 := by decide
    have hsize : pushSize 20 (hash ++ [OP_EQUAL]) = some (20, hash ++ [OP_EQUAL]) := rfl
    rw [getOp, if_pos hop, hsize]
    simp [hlen]
  exact .cons rfl (.cons hpush (.cons rfl .nil))

theorem keySize_ne_nil {data : List UInt8} (h : KeySize data) : data ≠ [] := by
  rintro rfl
  exact absurd h (by decide)

theorem badCounts_iff_or (v : List (List UInt8)) :
    badCounts v = true ↔ solutionNumber v.head? < 1 ∨ solutionNumber v.getLast? < 1 ∨
      solutionNumber v.getLast? < solutionNumber v.head? ∨
      v.length - 2 ≠ solutionNumber v.getLast? := by
  simp only [badCounts, Bool.or_eq_true, decide_eq_true_eq, bne_iff_ne, or_assoc]

/-- The multisig numbers in the solutions are those of the script. -/
theorem badCounts_iff (opM opN : UInt8) (keys : List (UInt8 × List UInt8)) :
    badCounts ([decodeOP_N opM] :: (keys.map Prod.snd ++ [[decodeOP_N opN]])) = false ↔
      RightCounts opM opN keys := by
  have hlast : ([decodeOP_N opM] :: (keys.map Prod.snd ++ [[decodeOP_N opN]])).getLast? =
      some [decodeOP_N opN] := by
    rw [← List.cons_append, List.getLast?_concat]
  have hlen : ([decodeOP_N opM] :: (keys.map Prod.snd ++ [[decodeOP_N opN]])).length - 2 =
      keys.length := by simp
  rw [← Bool.not_eq_true, badCounts_iff_or, hlast, hlen]
  simp only [solutionNumber, List.head?_cons, Option.getD_some, List.headD_cons, RightCounts]
  omega

/-- The multisig numbers that do not fit, in a script of the multisig shape. -/
def Miscounted (script : CScript) : Prop :=
  ∃ opM opN keys, MultisigOps script opM opN keys ∧ ¬ RightCounts opM opN keys

structure SolverSpec (script : CScript) : Prop where
  accepts : ∀ whichType vSolutions,
    solverRet script = ⟨true, whichType, vSolutions⟩ ↔ Shape script whichType vSolutions
  refuses : (∀ whichType vSolutions, ¬ Shape script whichType vSolutions) →
    solverRet script = ⟨false, .TX_NONSTANDARD, []⟩

section Solver

variable {script : CScript}

theorem notScriptHash {ops : List (UInt8 × List UInt8)} (h : HasOps script ops)
    (hne : ops.head? ≠ some (OP_HASH160, [])) : isPayToScriptHash script = false := by
  rw [Bool.eq_false_iff]
  intro hpay
  obtain ⟨hash, hlen, rfl⟩ := (isPayToScriptHash_iff script).mp hpay
  rw [h.unique (scriptHash_ops hlen)] at hne
  exact hne rfl

theorem notPubKey {opcode : UInt8} {ops : List (UInt8 × List UInt8)}
    (h : HasOps script ((opcode, []) :: ops)) : matchTemplate templatePubKey script [] = none := by
  cases hmatch : matchTemplate templatePubKey script [] with
  | none => rfl
  | some v =>
    obtain ⟨push, key, hops, hkey, _⟩ := matchPubKey_iff.mp hmatch
    have hsame := h.unique hops
    simp only [List.cons.injEq, Prod.mk.injEq] at hsame
    exact absurd hsame.1.2.symm (keySize_ne_nil hkey)

theorem notPubKeyHash {opcode : UInt8} {data : List UInt8} {ops : List (UInt8 × List UInt8)}
    (h : HasOps script ((opcode, data) :: ops)) (hne : opcode ≠ OP_DUP) :
    matchTemplate templatePubKeyHash script [] = none := by
  cases hmatch : matchTemplate templatePubKeyHash script [] with
  | none => rfl
  | some v =>
    obtain ⟨push, hash, hops, _, _⟩ := matchPubKeyHash_iff.mp hmatch
    have hsame := h.unique hops
    simp only [List.cons.injEq, Prod.mk.injEq] at hsame
    exact absurd hsame.1.1 hne

/-- A script of the multisig shape matches its template only. -/
theorem solverRet_multisig {opM opN : UInt8} {keys : List (UInt8 × List UInt8)}
    (h : MultisigOps script opM opN keys) :
    solverRet script =
      ⟨!badCounts ([decodeOP_N opM] :: (keys.map Prod.snd ++ [[decodeOP_N opN]])), .TX_MULTISIG,
        [decodeOP_N opM] :: (keys.map Prod.snd ++ [[decodeOP_N opN]])⟩ := by
  have hM := h.required
  have hpay : isPayToScriptHash script = false := by
    refine notScriptHash h.ops ?_
    simp only [List.head?_cons, ne_eq, Option.some.injEq, Prod.mk.injEq, and_true]
    rintro rfl
    exact absurd hM (by unfold SmallInteger; decide)
  have hdup : opM ≠ OP_DUP := by
    rintro rfl
    exact absurd hM (by unfold SmallInteger; decide)
  rw [solverRet, hpay, notPubKey h.ops, notPubKeyHash h.ops hdup,
    matchMultisig_iff.mpr ⟨opM, opN, keys, h, rfl⟩]
  rfl

theorem Shape.solverRet {whichType : TxnOutType} {v : List (List UInt8)}
    (h : Shape script whichType v) : solverRet script = ⟨true, whichType, v⟩ := by
  cases h with
  | @scriptHash hash hlen =>
    have hpay := (isPayToScriptHash_iff _).mpr ⟨hash, hlen, rfl⟩
    rw [Triangles.solverRet, if_pos hpay]
    simp [hlen]
  | @pubKey _ push key hops hkey =>
    have hpay : isPayToScriptHash script = false := by
      refine notScriptHash hops ?_
      simp only [List.head?_cons, ne_eq, Option.some.injEq, Prod.mk.injEq]
      exact fun hsame => keySize_ne_nil hkey hsame.2
    rw [Triangles.solverRet, hpay, matchPubKey_iff.mpr ⟨push, key, hops, hkey, rfl⟩]
    rfl
  | @pubKeyHash _ push hash hops hlen =>
    have hpay : isPayToScriptHash script = false := notScriptHash hops (by simp [OP_DUP, OP_HASH160])
    rw [Triangles.solverRet, hpay, notPubKey hops,
      matchPubKeyHash_iff.mpr ⟨push, hash, hops, hlen, rfl⟩]
    rfl
  | @multisig _ opM opN keys hops hcounts =>
    rw [solverRet_multisig hops, (badCounts_iff opM opN keys).mpr hcounts]
    rfl

theorem shape_of_solverRet {whichType : TxnOutType} {v : List (List UInt8)}
    (h : solverRet script = ⟨true, whichType, v⟩) : Shape script whichType v := by
  unfold solverRet at h
  split at h
  · rename_i hpay
    obtain ⟨hash, hlen, rfl⟩ := (isPayToScriptHash_iff _).mp hpay
    have hhash : ((OP_HASH160 :: 20 :: (hash ++ [OP_EQUAL])).drop 2).take 20 = hash := by
      rw [List.drop_succ_cons, List.drop_succ_cons, List.drop_zero, ← hlen, List.take_left]
    rw [hhash] at h
    cases h
    exact .scriptHash hlen
  · split at h
    · rename_i hmatch
      cases h
      obtain ⟨push, key, hops, hkey, rfl⟩ := matchPubKey_iff.mp hmatch
      exact .pubKey hops hkey
    · split at h
      · rename_i hmatch
        cases h
        obtain ⟨push, hash, hops, hlen, rfl⟩ := matchPubKeyHash_iff.mp hmatch
        exact .pubKeyHash hops hlen
      · split at h
        · rename_i hmatch
          obtain ⟨opM, opN, keys, hops, rfl⟩ := matchMultisig_iff.mp hmatch
          obtain ⟨hbad, rfl, rfl⟩ := SolverRet.mk.inj h
          rw [Bool.not_eq_true'] at hbad
          exact .multisig hops ((badCounts_iff _ _ _).mp hbad)
        · cases h

/-- What is left on a script that no template matches. -/
theorem solverRet_refuses (h : ∀ whichType v, ¬ Shape script whichType v)
    (hcounts : ¬ Miscounted script) : solverRet script = ⟨false, .TX_NONSTANDARD, []⟩ := by
  have hmulti : matchTemplate templateMultisig script [] = none := by
    cases hmatch : matchTemplate templateMultisig script [] with
    | none => rfl
    | some v =>
      obtain ⟨opM, opN, keys, hops, rfl⟩ := matchMultisig_iff.mp hmatch
      by_cases hright : RightCounts opM opN keys
      · exact absurd (.multisig hops hright) (h _ _)
      · exact absurd ⟨opM, opN, keys, hops, hright⟩ hcounts
  cases hret : solverRet script with
  | mk fRet whichType v =>
    cases fRet with
    | true => exact absurd (shape_of_solverRet hret) (h _ _)
    | false =>
      unfold solverRet at hret
      split at hret
      · cases hret
      · split at hret
        · cases hret
        · split at hret
          · cases hret
          · rw [hmulti] at hret
            exact hret.symm

end Solver

/-- `Solver` keeps its promise if and only if the script does not have the shape of a multisig
script with numbers that do not fit. -/
theorem solver_spec_iff (script : CScript) : SolverSpec script ↔ ¬ Miscounted script := by
  constructor
  · rintro ⟨haccepts, hrefuses⟩ ⟨opM, opN, keys, hops, hcounts⟩
    have hret := solverRet_multisig hops
    have hbad : badCounts ([decodeOP_N opM] :: (keys.map Prod.snd ++ [[decodeOP_N opN]])) = true := by
      rw [← Bool.not_eq_false]
      exact fun hfalse => hcounts ((badCounts_iff _ _ _).mp hfalse)
    rw [hbad] at hret
    have hnone : ∀ whichType vSolutions, ¬ Shape script whichType vSolutions := by
      intro whichType vSolutions hshape
      rw [hshape.solverRet] at hret
      cases hret
    rw [hrefuses hnone] at hret
    cases hret
  · intro hcounts
    exact ⟨fun whichType vSolutions => ⟨shape_of_solverRet, fun h => h.solverRet⟩,
      fun hnone => solverRet_refuses hnone hcounts⟩

namespace Sample

def twoOfOne : CScript := (OP_1 + 1) :: (pushData shortKey ++ [OP_1, OP_CHECKMULTISIG])

end Sample

/-- A script that asks for two signatures by one key is refused, and comes back as a multisig
script with its key. -/
theorem twoOfOne_keeps_type :
    solverRet Sample.twoOfOne = ⟨false, .TX_MULTISIG, [[2], Sample.shortKey, [1]]⟩ ∧
    ¬ ∀ script, SolverSpec script := by
  have hret : solverRet Sample.twoOfOne = ⟨false, .TX_MULTISIG, [[2], Sample.shortKey, [1]]⟩ := by
    decide
  refine ⟨hret, fun hall => ?_⟩
  have hnone : ∀ whichType vSolutions, ¬ Shape Sample.twoOfOne whichType vSolutions := by
    intro whichType vSolutions hshape
    rw [hshape.solverRet] at hret
    cases hret
  rw [(hall Sample.twoOfOne).refuses hnone] at hret
  cases hret

end Triangles
