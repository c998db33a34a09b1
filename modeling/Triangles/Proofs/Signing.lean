import Triangles.Model.Spend
import Triangles.Proofs.RoundTrip

/-! The scripts that a key store puts together: pushes, each of them canonical. -/

namespace Triangles

section Pushes

theorem pushData_length (d : valtype) : d.length < (pushData d).length := by
  unfold pushData
  split_ifs
  all_goals
    simp only [List.length_cons, List.length_append]
    omega

/-- A push whose length takes a word of its own is read back. -/
theorem getOp_wordPush {opcode : UInt8} {width : Nat} {d : valtype} (rest : CScript)
    (hle : opcode ≤ OP_PUSHDATA4) (hlt : ¬ opcode < OP_PUSHDATA1)
    (hwidth : (if opcode = OP_PUSHDATA1 then 1 else if opcode = OP_PUSHDATA2 then 2 else 4) = width)
    (hfits : d.length < 256 ^ width) :
    getOp (opcode :: wordBytes width d.length ++ d ++ rest) = some (opcode, d, rest) := by
  have hsize : pushSize opcode (wordBytes width d.length ++ (d ++ rest)) =
      some (d.length, d ++ rest) := by
    have ht : (wordBytes width d.length ++ (d ++ rest)).take width = wordBytes width d.length :=
      List.take_left' (wordBytes_length ..)
    have hr : (wordBytes width d.length ++ (d ++ rest)).drop width = d ++ rest :=
      List.drop_left' (wordBytes_length ..)
    unfold pushSize
    simp only [if_neg hlt, hwidth]
    rw [if_neg (by simp), ht, hr, leValue_wordBytes, Nat.mod_eq_of_lt hfits]
  rw [List.append_assoc, List.cons_append, getOp, if_pos hle, hsize]
  simp only
  rw [if_neg (by simp), List.take_left, List.drop_left]

/-- A push whose opcode is its length is read back, and no shorter one exists but for one byte. -/
theorem getOp_directPush {d : valtype} (rest : CScript) (hshort : d.length < 76) :
    getOp (UInt8.ofNat d.length :: d ++ rest) = some (UInt8.ofNat d.length, d, rest) ∧
      UInt8.ofNat d.length ≤ OP_PUSHDATA4 ∧
      (d.length ≠ 1 → wastefulPush (UInt8.ofNat d.length) d = false) := by
  have hsize : d.length < UInt8.size := by
    simp only [UInt8.size]
    omega
  have hlt : UInt8.ofNat d.length < OP_PUSHDATA1 := by
    rw [UInt8.lt_iff_toNat_lt, UInt8.toNat_ofNat_of_lt' hsize]
    exact hshort
  have hle : UInt8.ofNat d.length ≤ OP_PUSHDATA4 := by
    rw [UInt8.le_iff_toNat_le, UInt8.toNat_ofNat_of_lt' hsize]
    have hfour : OP_PUSHDATA4.toNat = 78 := rfl
    omega
  refine ⟨?_, hle, fun hne => ?_⟩
  · rw [List.cons_append, getOp, if_pos hle, pushSize, if_pos hlt]
    simp only [UInt8.toNat_ofNat_of_lt' hsize]
    rw [if_neg (by simp), List.take_left, List.drop_left]
  · have h1 := UInt8.ne_of_lt hlt
    have h2 : UInt8.ofNat d.length ≠ OP_PUSHDATA2 :=
      UInt8.ne_of_lt (UInt8.lt_trans hlt (by decide))
    have h4 : UInt8.ofNat d.length ≠ OP_PUSHDATA4 :=
      UInt8.ne_of_lt (UInt8.lt_trans hlt (by decide))
    simp [wastefulPush, hne, h1, h2, h4]

/-- A push is read back, and it is one that no shorter instruction could have made. -/
theorem getOp_pushData {d : valtype} (rest : CScript) (hd : d.length < 256 ^ 4) :
    ∃ opcode, getOp (pushData d ++ rest) = some (opcode, d, rest) ∧ opcode ≤ OP_PUSHDATA4 ∧
      (d.length ≠ 1 → wastefulPush opcode d = false) := by
  have hone : OP_PUSHDATA1.toNat = 76 := rfl
  unfold pushData
  split
  · rename_i hshort
    exact ⟨UInt8.ofNat d.length, getOp_directPush rest hshort⟩
  · rename_i hlong
    rw [hone] at hlong
    split
    · refine ⟨OP_PUSHDATA1, getOp_wordPush rest (by decide) (by decide) rfl (by omega),
        by decide, fun _ => ?_⟩
      have hge : ¬ d.length < OP_PUSHDATA1.toNat := by omega
      simp [wastefulPush, hge, show OP_PUSHDATA1 ≠ OP_PUSHDATA2 by decide,
        show OP_PUSHDATA1 ≠ OP_PUSHDATA4 by decide]
    · split
      · refine ⟨OP_PUSHDATA2, getOp_wordPush rest (by decide) (by decide) rfl (by omega),
          by decide, fun hne => ?_⟩
        have hge : ¬ d.length ≤ 255 := by omega
        simp [wastefulPush, hne, hge, show OP_PUSHDATA2 ≠ OP_PUSHDATA1 by decide,
          show OP_PUSHDATA2 ≠ OP_PUSHDATA4 by decide]
      · refine ⟨OP_PUSHDATA4, getOp_wordPush rest (by decide) (by decide) rfl hd, by decide,
          fun hne => ?_⟩
        have hge : ¬ d.length ≤ 65535 := by omega
        simp [wastefulPush, hne, hge, show OP_PUSHDATA4 ≠ OP_PUSHDATA1 by decide,
          show OP_PUSHDATA4 ≠ OP_PUSHDATA2 by decide]

def pushes (operands : List valtype) : CScript := operands.flatMap pushData

theorem pushes_standard {operands : List valtype} (hlen : (pushes operands).length < 256 ^ 4)
    (hne : ∀ d ∈ operands, d.length ≠ 1) :
    isPushOnly (pushes operands) = true ∧ hasCanonicalPushes (pushes operands) = true := by
  have hloops : ∀ rounds, (pushes operands).length ≤ rounds →
      pushesOnly rounds (pushes operands) = true ∧
      canonicalPushes rounds (pushes operands) = true := by
    induction operands with
    | nil => exact fun rounds _ => ⟨by simp [pushes, pushesOnly], by simp [pushes, canonicalPushes]⟩
    | cons d operands ih =>
      intro rounds hrounds
      have hsplit : pushes (d :: operands) = pushData d ++ pushes operands := rfl
      rw [hsplit] at hlen hrounds ⊢
      have hd := pushData_length d
      rw [List.length_append] at hlen hrounds
      obtain ⟨opcode, hop, hle, hwaste⟩ := getOp_pushData (pushes operands)
        (show d.length < 256 ^ 4 by omega)
      have hnonempty : pushData d ++ pushes operands ≠ [] := by
        intro h
        have := congrArg List.length h
        simp only [List.length_append, List.length_nil] at this
        omega
      obtain ⟨b, pc, hcons⟩ := List.exists_cons_of_ne_nil hnonempty
      cases rounds with
      | zero => omega
      | succ rounds =>
        obtain ⟨ho, hc⟩ := ih (by omega) (fun x hx => hne x (List.mem_cons_of_mem _ hx)) rounds
          (by omega)
        have h16 : opcode ≤ OP_16 := UInt8.le_trans hle (by decide)
        rw [hcons] at hop ⊢
        simp [pushesOnly, canonicalPushes, hop, h16, ho, hc, hwaste (hne d List.mem_cons_self)]
  exact hloops _ le_rfl

end Pushes

section Sign

variable {keystore : CKeyStore}

/-- A script that a key store has put together: pushes, none of a single byte. -/
def SigPushes (scriptSig : CScript) : Prop :=
  ∃ operands, scriptSig = pushes operands ∧ ∀ d ∈ operands, d.length ≠ 1

theorem SigPushes.push {scriptSig : CScript} (h : SigPushes scriptSig) {d : valtype}
    (hd : d.length ≠ 1) : SigPushes (scriptSig ++ pushData d) := by
  obtain ⟨operands, rfl, hne⟩ := h
  refine ⟨operands ++ [d], by simp [pushes], fun x hx => ?_⟩
  rcases List.mem_append.mp hx with hx | hx
  · exact hne x hx
  · rw [List.mem_singleton.mp hx]
    exact hd

theorem sigPushes_nil : SigPushes [] := ⟨[], rfl, nofun⟩

theorem sigPushes_op_0 : SigPushes [OP_0] := ⟨[[]], rfl, by simp⟩

theorem pushData_short {d : valtype} (h : d.length < 76) : (pushData d).length = d.length + 1 := by
  unfold pushData
  rw [if_pos (show d.length < OP_PUSHDATA1.toNat from h), List.length_cons]

/-- A signature with its push takes at most 74 bytes. -/
theorem sign1_spec {address : uint160} {hash : uint256} {nHashType : UInt8}
    {scriptSig scriptSig' : CScript}
    (h : keystore.sign1 address hash nHashType scriptSig = some scriptSig')
    (hp : SigPushes scriptSig) :
    SigPushes scriptSig' ∧ scriptSig'.length ≤ scriptSig.length + 74 := by
  unfold CKeyStore.sign1 at h
  split at h
  · cases h
  · rename_i key hkey
    split at h
    · cases h
    · rename_i vchSig hsign
      obtain ⟨hge, hle⟩ := keystore.sign_length hkey hsign
      cases h
      have hlen : (vchSig ++ [nHashType]).length = vchSig.length + 1 := by simp
      refine ⟨hp.push (by omega), ?_⟩
      rw [List.length_append, pushData_short (by omega), hlen]
      omega

theorem signKeys_spec (keystore : CKeyStore) (hash : uint256) (nHashType : UInt8) (nRequired : Nat)
    (keys : List (List UInt8)) (nSigned : Nat) {scriptSig : CScript} (hp : SigPushes scriptSig) :
    SigPushes (keystore.signKeys hash nHashType nRequired keys nSigned scriptSig).2 ∧
    (keystore.signKeys hash nHashType nRequired keys nSigned scriptSig).2.length + 74 * nSigned ≤
      scriptSig.length +
        74 * (keystore.signKeys hash nHashType nRequired keys nSigned scriptSig).1 := by
  induction keys generalizing nSigned scriptSig with
  | nil => exact ⟨hp, le_rfl⟩
  | cons pubkey keys ih =>
    unfold CKeyStore.signKeys
    split
    · exact ⟨hp, le_rfl⟩
    · split
      · exact ih nSigned hp
      · rename_i scriptSig' hsign
        obtain ⟨hp', hlen⟩ := sign1_spec hsign hp
        obtain ⟨hq, hrest⟩ := ih (nSigned + 1) hp'
        exact ⟨hq, by omega⟩

theorem signN_spec {multisigdata : List (List UInt8)} {hash : uint256} {nHashType : UInt8}
    {scriptSig : CScript}
    (h : keystore.signN multisigdata hash nHashType [OP_0] = some scriptSig) :
    SigPushes scriptSig ∧ scriptSig.length ≤ 1 + 74 * solutionNumber multisigdata.head? := by
  have hspec := signKeys_spec keystore hash nHashType (solutionNumber multisigdata.head?)
    multisigdata.tail.dropLast 0 sigPushes_op_0
  unfold CKeyStore.signN at h
  simp only at h
  split at h
  · rename_i hall
    cases h
    rw [hall] at hspec
    exact ⟨hspec.1, by simpa using hspec.2⟩
  · cases h

def solutionBound (scriptPubKey : CScript) : Nat :=
  match solver scriptPubKey with
  | some (.TX_PUBKEY, _) => 74
  | some (.TX_PUBKEYHASH, _) => 140
  | some (.TX_MULTISIG, vSolutions) => 1 + 74 * solutionNumber vSolutions.head?
  | _ => 0

theorem solver_scriptHash {script : CScript} {vSolutions : List (List UInt8)}
    (h : solver script = some (.TX_SCRIPTHASH, vSolutions)) :
    isPayToScriptHash script = true ∧ vSolutions = [(script.drop 2).take 20] := by
  unfold solver at h
  split at h
  · rename_i hpay
    cases h
    exact ⟨hpay, rfl⟩
  · split at h
    · cases h
    · split at h
      · cases h
      · split at h
        · cases h
        · simp only at h
          split at h <;> cases h

/-- `Solver` finds pushes, or the redeem script. -/
theorem solver_spec {scriptPubKey : CScript} {hash : uint256} {nHashType : UInt8}
    {whichType : TxnOutType} {scriptSig : CScript}
    (h : keystore.solver scriptPubKey hash nHashType = some (whichType, scriptSig)) :
    (whichType = .TX_SCRIPTHASH ∧ isPayToScriptHash scriptPubKey = true ∧
        keystore.getCScript ((scriptPubKey.drop 2).take 20) = some scriptSig) ∨
      (whichType ≠ .TX_SCRIPTHASH ∧ SigPushes scriptSig ∧
        scriptSig.length ≤ solutionBound scriptPubKey) := by
  unfold CKeyStore.solver at h
  unfold solutionBound
  cases hs : solver scriptPubKey with
  | none => simp [hs] at h
  | some solved =>
    obtain ⟨type, vSolutions⟩ := solved
    rw [hs] at h
    obtain ⟨s, hsig, heq⟩ := Option.map_eq_some_iff.mp h
    cases heq
    cases whichType with
    | TX_NONSTANDARD => cases hsig
    | TX_PUBKEY =>
      obtain ⟨hp, hlen⟩ := sign1_spec hsig sigPushes_nil
      exact .inr ⟨nofun, hp, by simpa using hlen⟩
    | TX_PUBKEYHASH =>
      obtain ⟨s, hsign, rfl⟩ := Option.map_eq_some_iff.mp hsig
      obtain ⟨hp, hlen⟩ := sign1_spec hsign sigPushes_nil
      simp only [List.length_nil] at hlen
      cases hkey : keystore.getKey (vSolutions.headD []) with
      | none =>
        rw [CKeyStore.sign1, hkey] at hsign
        cases hsign
      | some key =>
        have hpub := keystore.pubKey_length hkey
        simp only [Option.map_some, Option.getD_some]
        refine .inr ⟨nofun, hp.push (by omega), ?_⟩
        rw [List.length_append, pushData_short (by omega)]
        omega
    | TX_SCRIPTHASH =>
      obtain ⟨hpay, rfl⟩ := solver_scriptHash hs
      exact .inl ⟨rfl, hpay, hsig⟩
    | TX_MULTISIG =>
      obtain ⟨hp, hlen⟩ := signN_spec hsig
      exact .inr ⟨nofun, hp, hlen⟩

theorem getOp_singleton {b : UInt8} {op : ScriptOp} (h : getOp [b] = some op) :
    op.2.1 = [] ∧ op.2.2 = [] := by
  rw [getOp] at h
  split at h
  · split at h
    · cases h
    · rename_i nSize pc hsize
      obtain rfl := List.suffix_nil.mp (pushSize_suffix hsize)
      split at h
      · cases h
      · cases h
        exact ⟨List.take_nil, List.drop_nil⟩
  · cases h
    exact ⟨rfl, rfl⟩

/-- No script of a single byte has a solution. -/
theorem solver_singleton (b : UInt8) : solver [b] = none := by
  cases hop : getOp [b] with
  | none => simp [solver, isPayToScriptHash, templatePubKey, templatePubKeyHash, templateMultisig,
      matchTemplate, hop]
  | some op =>
    obtain ⟨hdata, hrest⟩ := getOp_singleton hop
    have hend : getOp [] = none := rfl
    have hkey : matchTemplate templatePubKey [b] [] = none := by
      simp [templatePubKey, matchTemplate, hop, matchOpcode, hdata,
        show OP_PUBKEY ≠ OP_PUBKEYS by decide]
    have hhash : matchTemplate templatePubKeyHash [b] [] = none := by
      rw [templatePubKeyHash, matchTemplate, hop]
      simp only [if_neg (show OP_DUP ≠ OP_PUBKEYS by decide)]
      split
      · rfl
      · simp [matchTemplate, hrest, hend]
    have hmulti : matchTemplate templateMultisig [b] [] = none := by
      rw [templateMultisig, matchTemplate, hop]
      simp only [if_neg (show OP_SMALLINTEGER ≠ OP_PUBKEYS by decide)]
      split
      · rfl
      · simp [matchTemplate, hrest, hend]
    simp [solver, isPayToScriptHash, hkey, hhash, hmulti]

def sigBound (keystore : CKeyStore) (scriptPubKey : CScript) : Nat :=
  if isPayToScriptHash scriptPubKey then
    match keystore.getCScript ((scriptPubKey.drop 2).take 20) with
    | none => 0
    | some subscript => solutionBound subscript + (pushData subscript).length
  else solutionBound scriptPubKey

theorem signScript_spec {fromPubKey scriptSig : CScript} {txTo : CTransaction} {nIn : Nat}
    {nHashType : Int32}
    (h : keystore.signScript fromPubKey txTo nIn nHashType = some scriptSig) :
    SigPushes scriptSig ∧ scriptSig.length ≤ sigBound keystore fromPubKey := by
  unfold CKeyStore.signScript at h
  simp only at h
  unfold sigBound
  split at h
  · cases h
  · rename_i subscript hsolved
    rcases solver_spec hsolved with ⟨-, hpay, hredeem⟩ | ⟨hne, -⟩
    · rw [if_pos hpay, hredeem]
      split at h
      · cases h
      · cases h
      · rename_i whichType solution hne hinner
        cases h
        rcases solver_spec hinner with ⟨rfl, -⟩ | ⟨-, hp, hlen⟩
        · exact absurd rfl hne
        · have hsub : subscript.length ≠ 1 := by
            intro hone
            obtain ⟨b, rfl⟩ := List.length_eq_one_iff.mp hone
            simp [CKeyStore.solver, solver_singleton] at hinner
          refine ⟨hp.push hsub, ?_⟩
          rw [List.length_append]
          simp only
          omega
    · exact absurd rfl hne
  · rename_i whichType solution hne hsolved
    cases h
    rcases solver_spec hsolved with ⟨rfl, -⟩ | ⟨htype, hp, hlen⟩
    · exact absurd rfl hne
    · have hpay : ¬ isPayToScriptHash fromPubKey = true := by
        intro hpay
        apply htype
        simp only [CKeyStore.solver, solver, hpay, if_true] at hsolved
        obtain ⟨s, -, heq⟩ := Option.map_eq_some_iff.mp hsolved
        exact (congrArg Prod.fst heq).symm
      rw [if_neg hpay]
      exact ⟨hp, hlen⟩

end Sign

end Triangles
