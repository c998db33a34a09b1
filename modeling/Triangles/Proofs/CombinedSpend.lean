import Triangles.Proofs.Combine

/-! Two partly signed inputs of a multisig output, bare or by its script hash, combined and
verified. -/

namespace Triangles

/-- A multisig script pays the output itself, or is named there by its hash. What a signature
script has to end with is the last argument. -/
inductive SpendsBy (env : ScriptEnv) (script : CScript) : CScript → List valtype → Prop
  | bare : SpendsBy env script script []
  | scriptHash {hash : valtype} (hlen : hash.length = 20)
      (hhash : env.ripemd160 (env.sha256 script) = hash) :
      SpendsBy env script (OP_HASH160 :: 20 :: (hash ++ [OP_EQUAL])) [script]

/-- A multisig output and two signature scripts that push placeholders and signatures. -/
structure Parts (env : ScriptEnv) (input : TxInput) (script scriptPubKey : CScript)
    (opM opN : UInt8) (keys : List (UInt8 × List UInt8)) (tail : List valtype)
    (scriptSig1 scriptSig2 : CScript) (sigs1 sigs2 : List valtype) : Prop where
  ops : MultisigOps script opM opN keys
  counts : RightCounts opM opN keys
  spends : SpendsBy env script scriptPubKey tail
  pushes1 : PushesOf scriptSig1 (sigs1 ++ tail)
  pushes2 : PushesOf scriptSig2 (sigs2 ++ tail)
  signatures1 : Signatures env input script (keys.map Prod.snd) sigs1
  signatures2 : Signatures env input script (keys.map Prod.snd) sigs2

/-- The limits of `EvalScript` for a script that pushes these values. -/
structure Evaluable (script : CScript) (values : List valtype) : Prop where
  bytes : script.length ≤ 10000
  entries : values.length ≤ 1000
  short : ∀ v ∈ values, v.length ≤ 520

/-- The combined script is the same in either order, and spends the output if and only if as many
keys as required are signed for. -/
def Combines (env : ScriptEnv) (txTo : CTransaction) (nIn : Nat) (script scriptPubKey : CScript)
    (opM : UInt8) (pubkeys : List valtype) (scriptSig1 scriptSig2 : CScript)
    (sigs : List valtype) : Prop :=
  combineSignatures env txTo nIn scriptPubKey scriptSig1 scriptSig2 =
      combineSignatures env txTo nIn scriptPubKey scriptSig2 scriptSig1 ∧
    ((verifyScript env ⟨txTo, nIn, 0⟩
        (combineSignatures env txTo nIn scriptPubKey scriptSig1 scriptSig2)
        scriptPubKey).fValid = true ↔
      (decodeOP_N opM).toNat ≤ pubkeys.countP (covered env ⟨txTo, nIn, 0⟩ script sigs))

section Spend

variable {env : ScriptEnv} {input : TxInput} {script scriptPubKey scriptSig1 scriptSig2 : CScript}
  {opM opN : UInt8} {keys : List (UInt8 × List UInt8)} {tail sigs1 sigs2 : List valtype}

theorem SpendsBy.tail_length (h : SpendsBy env script scriptPubKey tail) : tail.length ≤ 1 := by
  cases h with
  | bare => exact Nat.zero_le _
  | scriptHash => exact le_refl _

theorem Parts.swap
    (h : Parts env input script scriptPubKey opM opN keys tail scriptSig1 scriptSig2 sigs1 sigs2) :
    Parts env input script scriptPubKey opM opN keys tail scriptSig2 scriptSig1 sigs2 sigs1 :=
  ⟨h.ops, h.counts, h.spends, h.pushes2, h.pushes1, h.signatures2, h.signatures1⟩

theorem Signatures.reverse {pubkeys sigs : List valtype}
    (h : Signatures env input script pubkeys sigs) :
    Signatures env input script pubkeys sigs.reverse :=
  ⟨fun sig hsig => h.items sig (List.mem_reverse.mp hsig),
    fun sig hsig => h.oneKey sig (List.mem_reverse.mp hsig)⟩

/-- What the run of a signature script leaves. -/
theorem Evaluable.runScript {scriptSig : CScript} {sigs : List valtype}
    (h : Evaluable scriptSig (sigs ++ tail)) (hpushes : PushesOf scriptSig (sigs ++ tail)) :
    runScript env noInput [] scriptSig = (true, tail.reverse ++ sigs.reverse) := by
  rw [hpushes.runScript h.short h.bytes h.entries, List.reverse_append]

theorem MultisigOps.ne_nil (h : MultisigOps script opM opN keys) : script ≠ [] := by
  rintro rfl
  cases h.ops with
  | cons hop _ => cases hop

/-- Both forms come down to `CombineMultisig` on the signatures. -/
theorem combineSignatures_eq {txTo : CTransaction} {nIn : Nat}
    (h : Parts env ⟨txTo, nIn, 0⟩ script scriptPubKey opM opN keys tail scriptSig1 scriptSig2 sigs1
      sigs2)
    (h1 : Evaluable scriptSig1 (sigs1 ++ tail)) (h2 : Evaluable scriptSig2 (sigs2 ++ tail)) :
    combineSignatures env txTo nIn scriptPubKey scriptSig1 scriptSig2 =
      combineMultisig env ⟨txTo, nIn, 0⟩ script
          ([decodeOP_N opM] :: (keys.map Prod.snd ++ [[decodeOP_N opN]])) sigs1.reverse
          sigs2.reverse ++
        pushAll tail := by
  have hsolved := (Shape.multisig h.ops h.counts).solverRet
  unfold combineSignatures
  rw [h1.runScript h.pushes1, h2.runScript h.pushes2]
  cases h.spends with
  | bare =>
    simp only [hsolved, List.reverse_nil, List.nil_append, combineStacks]
    rw [show pushAll [] = [] from rfl, List.append_nil]
  | scriptHash hlen _ =>
    have hne : script.isEmpty = false := by
      rw [List.isEmpty_eq_false_iff]
      exact h.ops.ne_nil
    simp only [(Shape.scriptHash hlen).solverRet, List.reverse_cons, List.reverse_nil,
      List.nil_append, List.singleton_append, combineStacks, hne, List.headD_cons, hsolved,
      List.tail_cons, Bool.false_eq_true, if_false]
    rw [pushAll_cons, show pushAll [] = [] from rfl, List.append_nil]

theorem combineMultisig_comm (vSolutions sigs1 sigs2 : List valtype) :
    combineMultisig env input script vSolutions sigs1 sigs2 =
      combineMultisig env input script vSolutions sigs2 sigs1 := by
  unfold combineMultisig
  rw [allSigs_comm]

theorem castToBool_vchBool (f : Bool) : castToBool (vchBool f) = f := by cases f <;> rfl

/-- The numbers of a multisig script are at most 16. -/
theorem MultisigOps.required_le (h : MultisigOps script opM opN keys)
    (hcounts : RightCounts opM opN keys) : (decodeOP_N opM).toNat ≤ 16 :=
  (number_of_small h.required hcounts.1).value.2.2

/-- `VerifyScript` on as many signatures and placeholders as are required. -/
theorem verifyScript_multisig (h : MultisigOps script opM opN keys)
    (hcounts : RightCounts opM opN keys) (hkeys : ∀ key ∈ keys, isCanonicalPubKey key.2 = true)
    (hspend : SpendsBy env script scriptPubKey tail) (htail : ∀ v ∈ tail, v.length ≤ 520)
    {signed : List valtype} (hsigned : ∀ sig ∈ signed, SigItem env sig)
    (hlen : signed.length = (decodeOP_N opM).toNat) :
    (verifyScript env input (pushAll ([] :: signed ++ tail)) scriptPubKey).fValid =
      matchesInOrder (validSig env input script) signed.reverse (keys.map Prod.snd).reverse := by
  have hmax := h.required_le hcounts
  have hone := hspend.tail_length
  have hshort : ∀ v ∈ [] :: signed ++ tail, v.length ≤ 520 := by
    intro v hv
    rcases List.mem_append.mp hv with hv | hv
    · rcases List.mem_cons.mp hv with rfl | hv
      · exact Nat.zero_le _
      · exact (hsigned v hv).length_le.trans (by decide)
    · exact htail v hv
  have hcount : ([] :: signed ++ tail).length ≤ 18 := by
    rw [List.length_append, List.length_cons]
    omega
  have hbytes : (pushAll ([] :: signed ++ tail)).length ≤ 10000 := by
    have hle := pushAll_le hshort
    omega
  have hpushes := pushAll_pushes fun v hv => (hshort v hv).trans_lt (by decide)
  have hstack : evalScript env input [] (pushAll ([] :: signed ++ tail)) 0 =
      .ok (tail.reverse ++ (signed.reverse ++ [[]])) 0 := by
    have hsize : ([] :: signed ++ tail).length + ([] : List valtype).length ≤ 1000 := by
      rw [List.length_nil]
      omega
    rw [hpushes.evalScript hshort hbytes hsize 0, List.append_nil, List.reverse_append,
      List.reverse_cons]
  obtain ⟨m, hredeem⟩ : ∃ m, evalScript env input (signed.reverse ++ [[]]) script 0 =
      .ok [vchBool (matchesInOrder (validSig env input (strippedCode script signed.reverse))
        signed.reverse (keys.map Prod.snd).reverse)] m :=
    evalScript_multisig h hcounts (by rw [List.length_reverse, hlen]) [] 0
  rw [strippedCode_multisig h hcounts hkeys
    (fun sig hsig => hsigned sig (List.mem_reverse.mp hsig))] at hredeem
  generalize pushAll ([] :: signed ++ tail) = scriptSig at *
  generalize matchesInOrder (validSig env input script) _ _ = fSuccess at *
  unfold verifyScript
  cases hspend with
  | bare =>
    have hpay : isPayToScriptHash script = false := by
      refine notScriptHash h.ops ?_
      have hM := number_of_small h.required hcounts.1
      simp only [List.head?_cons, ne_eq, Option.some.injEq, Prod.mk.injEq, and_true]
      rintro rfl
      exact absurd hM.2 (by decide)
    rw [List.reverse_nil, List.nil_append] at hstack
    simp only [hstack, hredeem, List.headD_cons, castToBool_vchBool, hpay]
    cases fSuccess <;> rfl
  | @scriptHash hash hlen hhash =>
    have hpay := (isPayToScriptHash_iff _).mpr ⟨_, hlen, rfl⟩
    have hhashed : evalScript env input (script :: (signed.reverse ++ [[]]))
        (OP_HASH160 :: 20 :: (hash ++ [OP_EQUAL])) 0 = .ok ([1] :: (signed.reverse ++ [[]])) 0 :=
      evalScript_scriptHash hlen hhash
        (by rw [List.length_append, List.length_reverse, List.length_singleton]; omega) 0
    rw [List.reverse_singleton, List.singleton_append] at hstack
    have htrue : castToBool [1] = true := by decide
    simp only [hstack, hhashed, List.headD_cons, hpay, verifyRedeem, hpushes.isPushOnly, hredeem,
      castToBool_vchBool, htrue, Bool.not_true, Bool.false_eq_true, if_false, if_true]

/-- `OP_CHECKMULTISIG` takes the signatures in order, and no placeholder. -/
theorem MergedSigs.matches_iff {accepts : valtype → valtype → Bool} {pubkeys l merged : List valtype}
    {nSigsRequired : Nat} (h : MergedSigs accepts pubkeys l nSigsRequired merged)
    (hvalid : ∀ sig ∈ l, ∀ pubkey ∈ pubkeys, accepts sig pubkey = true →
      validSig env input script sig pubkey = true) :
    matchesInOrder (validSig env input script)
        (merged ++ List.replicate (nSigsRequired - merged.length) []).reverse pubkeys.reverse =
      true ↔ merged.length = nSigsRequired := by
  rw [matchesInOrder_iff]
  constructor
  · intro hmatch
    by_contra hne
    have hplaceholder : ([] : valtype) ∈
        (merged ++ List.replicate (nSigsRequired - merged.length) []).reverse := by
      have hfew := h.few
      rw [List.mem_reverse, List.mem_append, List.mem_replicate]
      exact .inr ⟨by omega, rfl⟩
    obtain ⟨pubkey, _, hfits⟩ := SublistForall₂.exists_fits hmatch hplaceholder
    cases hfits
  · intro hfull
    rw [hfull, Nat.sub_self, List.replicate_zero, List.append_nil]
    refine SublistForall₂.reverse (SublistForall₂.imp h.ordered ?_)
    exact fun sig hsig pubkey hkey => hvalid sig (h.mem sig hsig) pubkey hkey

theorem covered_reverse (sigs1 sigs2 : List valtype) (pubkey : valtype) :
    ((sigs1.reverse ++ sigs2.reverse).any fun sig => checkSig env input sig pubkey script) =
      covered env input script (sigs1 ++ sigs2) pubkey := by
  rw [covered, List.any_append, List.any_append, List.any_reverse, List.any_reverse]

/-- Two partly signed scripts give the same in either order, and the result spends the output if
and only if enough keys are signed for in one of them. -/
theorem combined_multisig {txTo : CTransaction} {nIn : Nat}
    (h : Parts env ⟨txTo, nIn, 0⟩ script scriptPubKey opM opN keys tail scriptSig1 scriptSig2 sigs1
      sigs2)
    (hkeys : ∀ key ∈ keys, isCanonicalPubKey key.2 = true)
    (h1 : Evaluable scriptSig1 (sigs1 ++ tail)) (h2 : Evaluable scriptSig2 (sigs2 ++ tail)) :
    Combines env txTo nIn script scriptPubKey opM (keys.map Prod.snd) scriptSig1 scriptSig2
      (sigs1 ++ sigs2) := by
  have heq := combineSignatures_eq h h1 h2
  constructor
  · rw [heq, combineSignatures_eq h.swap h2 h1, combineMultisig_comm]
  · obtain ⟨merged, hpushes, hmerged⟩ :=
      combineMultisig_pushes opM opN h.signatures1.reverse h.signatures2.reverse
    have hitem : ∀ sig ∈ sigs1.reverse ++ sigs2.reverse, SigItem env sig := by
      intro sig hsig
      rcases List.mem_append.mp hsig with hsig | hsig
      · exact h.signatures1.reverse.items sig hsig
      · exact h.signatures2.reverse.items sig hsig
    have hsigned : ∀ sig ∈ merged ++ List.replicate ((decodeOP_N opM).toNat - merged.length) [],
        SigItem env sig := by
      intro sig hsig
      rcases List.mem_append.mp hsig with hsig | hsig
      · exact hitem sig (hmerged.mem sig hsig)
      · exact .inl (List.eq_of_mem_replicate hsig)
    have hlen : (merged ++ List.replicate ((decodeOP_N opM).toNat - merged.length) []).length =
        (decodeOP_N opM).toNat := by
      have hfew := hmerged.few
      rw [List.length_append, List.length_replicate]
      omega
    have hvalid : ∀ sig ∈ sigs1.reverse ++ sigs2.reverse, ∀ pubkey ∈ keys.map Prod.snd,
        checkSig env ⟨txTo, nIn, 0⟩ sig pubkey script = true →
          validSig env ⟨txTo, nIn, 0⟩ script sig pubkey = true := by
      intro sig hsig pubkey hkey hcheck
      obtain ⟨key, hmem, rfl⟩ := List.mem_map.mp hkey
      rcases hitem sig hsig with rfl | hcanon
      · cases hcheck
      · rw [validSig, hcanon, hkeys key hmem, hcheck]
        rfl
    have henough := hmerged.enough
    simp only [covered_reverse] at henough
    have htail : ∀ v ∈ tail, v.length ≤ 520 :=
      fun v hv => h1.short v (List.mem_append_right _ hv)
    rw [heq, hpushes, ← pushAll_append,
      verifyScript_multisig h.ops h.counts hkeys h.spends htail hsigned hlen,
      hmerged.matches_iff hvalid]
    exact henough

end Spend

namespace Sample

def lengthEnv : ScriptEnv :=
  { pairEnv with
    sha256 := fun b => wordBytes 32 b.length
    ripemd160 := fun b => b.take 20 }

def multisigScript (opM opN : UInt8) (keys : List valtype) : CScript :=
  opM :: (pushAll keys ++ [opN, OP_CHECKMULTISIG])

def payToScript (script : CScript) : CScript :=
  OP_HASH160 :: 20 :: (lengthEnv.ripemd160 (lengthEnv.sha256 script) ++ [OP_EQUAL])

def keyPushes (keys : List valtype) : List (UInt8 × List UInt8) :=
  keys.map fun key => (UInt8.ofNat key.length, key)

theorem keyPushes_keys (keys : List valtype) : (keyPushes keys).map Prod.snd = keys := by
  rw [keyPushes, List.map_map]
  exact List.map_id _

theorem pushAll_ops {keys : List valtype} (hkeys : ∀ key ∈ keys, key.length < OP_PUSHDATA1.toNat)
    {rest : CScript} {ops : List (UInt8 × List UInt8)} (hrest : HasOps rest ops) :
    HasOps (pushAll keys ++ rest) (keyPushes keys ++ ops) := by
  induction keys with
  | nil => exact hrest
  | cons key keys ih =>
    obtain ⟨hkey, hkeys⟩ := List.forall_mem_cons.mp hkeys
    have hop := (getOp_directPush (pushAll keys ++ rest) hkey).1
    rw [pushAll_cons, pushData, if_pos hkey, List.append_assoc]
    exact .cons hop (ih hkeys)

theorem multisigScript_ops {opM opN : UInt8} {keys : List valtype} (hM : NumberOp opM)
    (hN : NumberOp opN)
    (hkeys : ∀ key ∈ keys, KeySize key ∧ key.length < OP_PUSHDATA1.toNat) :
    MultisigOps (multisigScript opM opN keys) opM opN (keyPushes keys) where
  ops := by
    have hnumber : ∀ {opcode : UInt8} (rest : CScript), NumberOp opcode →
        getOp (opcode :: rest) = some (opcode, [], rest) := by
      intro opcode rest h
      rw [getOp, if_neg (UInt8.not_le.mpr (UInt8.lt_of_lt_of_le (by decide) h.1))]
    have hend : HasOps [opN, OP_CHECKMULTISIG] [(opN, []), (OP_CHECKMULTISIG, [])] :=
      .cons (hnumber _ hN) (.cons rfl .nil)
    exact .cons (hnumber _ hM) (pushAll_ops (fun key hkey => (hkeys key hkey).2) hend)
  required := .inr hM
  total := .inr hN
  keySizes := by
    intro op hop
    obtain ⟨key, hkey, rfl⟩ := List.mem_map.mp hop
    exact (hkeys key hkey).1

theorem checkSig_numbered (n : UInt8) (key : valtype) (code : CScript) :
    checkSig lengthEnv ⟨scriptInput.txTo, 0, 0⟩ (numberedSig n) key code =
      (key.getLast? == some n) := rfl

/-- Signatures by the keys that end in their numbers. -/
theorem numbered_signatures {keys sigs : List valtype} (code : CScript) (ns : List UInt8)
    (hsigs : ∀ sig ∈ sigs, sig = [] ∨ sig ∈ ns.map numberedSig)
    (hns : ∀ n ∈ ns, isCanonicalSignature 0 (numberedSig n) = true ∧
      ∃ key ∈ keys, key.getLast? = some n ∧ ∀ key' ∈ keys, key'.getLast? = some n → key' = key) :
    Signatures lengthEnv ⟨scriptInput.txTo, 0, 0⟩ code keys sigs := by
  constructor
  · intro sig hsig
    rcases hsigs sig hsig with rfl | hmem
    · exact .inl rfl
    · obtain ⟨n, hn, rfl⟩ := List.mem_map.mp hmem
      exact .inr (hns n hn).1
  · intro sig hsig hne
    rcases hsigs sig hsig with rfl | hmem
    · exact absurd rfl hne
    · obtain ⟨n, hn, rfl⟩ := List.mem_map.mp hmem
      obtain ⟨_, key, hkey, hlast, honly⟩ := hns n hn
      refine ⟨key, ⟨hkey, ?_⟩, ?_⟩
      · exact (checkSig_numbered n key code).trans (by rw [hlast, beq_self_eq_true])
      · rintro key' ⟨hkey', hvalid⟩
        have hlast' := (checkSig_numbered n key' code).symm.trans hvalid
        exact honly key' hkey' (beq_iff_eq.mp hlast')

theorem payToScript_spends (script : CScript) :
    SpendsBy lengthEnv script (payToScript script) [script] :=
  .scriptHash (by simp [lengthEnv]) rfl

def twoOfThree : CScript := multisigScript (OP_1 + 1) (OP_1 + 2) ([1, 2, 3].map numberedKey)

def lastSigned : List valtype := [[], numberedSig 3]
def firstSigned : List valtype := [numberedSig 1, []]

theorem twoOfThree_parts :
    Parts lengthEnv ⟨scriptInput.txTo, 0, 0⟩ twoOfThree (payToScript twoOfThree) (OP_1 + 1)
      (OP_1 + 2) (keyPushes ([1, 2, 3].map numberedKey)) [twoOfThree]
      (pushAll (lastSigned ++ [twoOfThree])) (pushAll (firstSigned ++ [twoOfThree])) lastSigned
      firstSigned where
  ops := multisigScript_ops (by unfold NumberOp; decide) (by unfold NumberOp; decide)
    (by decide)
  counts := by unfold RightCounts; decide
  spends := payToScript_spends twoOfThree
  pushes1 := pushAll_pushes (by decide)
  pushes2 := pushAll_pushes (by decide)
  signatures1 := by
    rw [keyPushes_keys]
    exact numbered_signatures _ [3] (by decide +kernel) (by decide +kernel)
  signatures2 := by
    rw [keyPushes_keys]
    exact numbered_signatures _ [1] (by decide +kernel) (by decide +kernel)

def oneOf (opN : UInt8) (keys : List valtype) : CScript := multisigScript OP_1 opN keys

def hybridKey : valtype := 6 :: List.replicate 64 1

def sixteenKeys : List valtype :=
  [1, 2, 3, 4, 5, 6, 7, 8, 9, 10, 11, 12, 13, 14, 15, 16].map numberedKey

theorem oneOf_parts {opN : UInt8} {keys : List valtype} {scriptPubKey : CScript}
    {tail sigs1 sigs2 : List valtype} (hN : NumberOp opN)
    (hkeys : ∀ key ∈ keys, KeySize key ∧ key.length < OP_PUSHDATA1.toNat)
    (hlen : keys.length = (decodeOP_N opN).toNat)
    (hspends : SpendsBy lengthEnv (oneOf opN keys) scriptPubKey tail)
    (hshort : (∀ v ∈ sigs1 ++ tail, v.length < 256 ^ 4) ∧ ∀ v ∈ sigs2 ++ tail, v.length < 256 ^ 4)
    (hsigs : ∀ sig ∈ sigs1 ++ sigs2, sig = [] ∨ sig = numberedSig 1)
    (hone : ∃ key ∈ keys, key.getLast? = some 1 ∧
      ∀ key' ∈ keys, key'.getLast? = some 1 → key' = key) :
    Parts lengthEnv ⟨scriptInput.txTo, 0, 0⟩ (oneOf opN keys) scriptPubKey OP_1 opN
      (keyPushes keys) tail (pushAll (sigs1 ++ tail)) (pushAll (sigs2 ++ tail)) sigs1 sigs2 where
  ops := multisigScript_ops (by unfold NumberOp; decide) hN hkeys
  counts := by
    have hfirst : (decodeOP_N OP_1).toNat = 1 := by decide
    obtain ⟨_, hpos, _⟩ := hN.value
    refine ⟨by rw [hfirst], by rw [hfirst]; exact hpos, ?_⟩
    rw [keyPushes, List.length_map, hlen]
  spends := hspends
  pushes1 := pushAll_pushes hshort.1
  pushes2 := pushAll_pushes hshort.2
  signatures1 := by
    rw [keyPushes_keys]
    refine numbered_signatures _ [1] (fun sig hsig => ?_) (by simpa using ⟨by decide, hone⟩)
    simpa using hsigs sig (List.mem_append_left _ hsig)
  signatures2 := by
    rw [keyPushes_keys]
    refine numbered_signatures _ [1] (fun sig hsig => ?_) (by simpa using ⟨by decide, hone⟩)
    simpa using hsigs sig (List.mem_append_right _ hsig)

/-- A signature that the key takes is signed for, and yet the output is not spent. -/
theorem oneOf_not_combines {opN : UInt8} {keys sigs : List valtype}
    {scriptPubKey scriptSig1 scriptSig2 : CScript}
    (hcovered : 0 < keys.countP (covered lengthEnv ⟨scriptInput.txTo, 0, 0⟩ (oneOf opN keys) sigs))
    (hspent : (verifyScript lengthEnv ⟨scriptInput.txTo, 0, 0⟩
      (combineSignatures lengthEnv scriptInput.txTo 0 scriptPubKey scriptSig1 scriptSig2)
      scriptPubKey).fValid = false) :
    ¬ Combines lengthEnv scriptInput.txTo 0 (oneOf opN keys) scriptPubKey OP_1 keys scriptSig1
      scriptSig2 sigs := by
  rintro ⟨_, hiff⟩
  have hfirst : (decodeOP_N OP_1).toNat = 1 := by decide
  rw [hfirst, hspent] at hiff
  exact absurd (hiff.mpr hcovered) (by decide)

theorem covered_one {opN : UInt8} {keys sigs : List valtype} (hsig : numberedSig 1 ∈ sigs)
    (hone : ∃ key ∈ keys, key.getLast? = some 1) :
    0 < keys.countP (covered lengthEnv ⟨scriptInput.txTo, 0, 0⟩ (oneOf opN keys) sigs) := by
  obtain ⟨key, hkey, hlast⟩ := hone
  refine List.countP_pos_iff.mpr ⟨key, hkey, List.any_eq_true.mpr ⟨_, hsig, ?_⟩⟩
  exact (checkSig_numbered 1 key _).trans (by rw [hlast, beq_self_eq_true])

/-- The script of too many bytes is not run. -/
theorem runScript_long {env : ScriptEnv} {input : TxInput} {script : CScript}
    (h : 10000 < script.length) : runScript env input [] script = (false, []) := by
  have hfail : scriptExec env input script { stack := [], pbegincodehash := script } =
      .error .returnsFalse { stack := [], pbegincodehash := script } := by
    unfold scriptExec
    simp only [bind, EStateM.bind, require_error (Nat.not_le.mpr h)]
  rw [runScript, hfail]

theorem length_le_pushAll (values : List valtype) : values.length ≤ (pushAll values).length := by
  induction values with
  | nil => exact le_refl _
  | cons v values ih =>
    have hlen := pushData_length v
    rw [pushAll_cons, List.length_append, List.length_cons]
    omega

def behind (nPlaceholders : Nat) : List valtype :=
  List.replicate nPlaceholders [] ++ [numberedSig 1]

theorem behind_length (n : Nat) : n < (pushAll (behind n ++ [])).length := by
  have hle := length_le_pushAll (behind n ++ [])
  have hlen : (behind n ++ []).length = n + 1 := by
    rw [List.append_nil, behind, List.length_append, List.length_replicate, List.length_singleton]
  omega

theorem placeholders_not_spent :
    (verifyScript lengthEnv ⟨scriptInput.txTo, 0, 0⟩
      (combineSignatures lengthEnv scriptInput.txTo 0 (oneOf OP_1 [numberedKey 1])
        (pushAll (behind 10000 ++ [])) (pushAll ([] ++ [])))
      (oneOf OP_1 [numberedKey 1])).fValid = false := by
  have hlong := behind_length 10000
  have hcombined : combineSignatures lengthEnv scriptInput.txTo 0 (oneOf OP_1 [numberedKey 1])
      (pushAll (behind 10000 ++ [])) (pushAll ([] ++ [])) = [OP_0, OP_0] := by
    have hempty : runScript lengthEnv noInput [] (pushAll ([] ++ [])) = (true, []) := rfl
    have hsolved : solverRet (oneOf OP_1 [numberedKey 1]) =
        ⟨true, .TX_MULTISIG, [[1], numberedKey 1, [1]]⟩ := by decide
    have hnone : allSigs [] [] = ∅ := rfl
    simp only [combineSignatures, runScript_long hlong, hempty, hsolved, combineStacks,
      combineMultisig, hnone, Finset.sort_empty, List.foldl_nil]
    rfl
  rw [hcombined]
  decide

theorem sixteenKeys_not_spent :
    (verifyScript lengthEnv ⟨scriptInput.txTo, 0, 0⟩
      (combineSignatures lengthEnv scriptInput.txTo 0 (payToScript (oneOf OP_16 sixteenKeys))
        (pushAll ([numberedSig 1] ++ [oneOf OP_16 sixteenKeys]))
        (pushAll ([] ++ [oneOf OP_16 sixteenKeys])))
      (payToScript (oneOf OP_16 sixteenKeys))).fValid = false := by
  decide +kernel

theorem sixteenKeys_parts :
    Parts lengthEnv ⟨scriptInput.txTo, 0, 0⟩ (oneOf OP_16 sixteenKeys)
      (payToScript (oneOf OP_16 sixteenKeys)) OP_1 OP_16 (keyPushes sixteenKeys)
      [oneOf OP_16 sixteenKeys] (pushAll ([numberedSig 1] ++ [oneOf OP_16 sixteenKeys]))
      (pushAll ([] ++ [oneOf OP_16 sixteenKeys])) [numberedSig 1] [] :=
  oneOf_parts (by unfold NumberOp; decide) (by decide) (by decide)
    (payToScript_spends _) (by decide +kernel) (by decide +kernel) (by decide +kernel)

theorem placeholders_parts :
    Parts lengthEnv ⟨scriptInput.txTo, 0, 0⟩ (oneOf OP_1 [numberedKey 1])
      (oneOf OP_1 [numberedKey 1]) OP_1 OP_1 (keyPushes [numberedKey 1]) []
      (pushAll (behind 10000 ++ [])) (pushAll ([] ++ [])) (behind 10000) [] := by
  have hitem : ∀ v ∈ behind 10000 ++ [], v = [] ∨ v = numberedSig 1 := by
    intro v hv
    rw [List.append_nil] at hv
    rcases List.mem_append.mp hv with hv | hv
    · exact .inl (List.eq_of_mem_replicate hv)
    · exact .inr (List.mem_singleton.mp hv)
  refine oneOf_parts (by unfold NumberOp; decide) (by decide) (by decide) .bare
    ⟨fun v hv => ?_, by simp⟩ hitem (by decide)
  rcases hitem v hv with rfl | rfl
  · exact Nat.zero_lt_succ _
  · decide

theorem hybridKey_parts :
    Parts lengthEnv ⟨scriptInput.txTo, 0, 0⟩ (oneOf OP_1 [hybridKey]) (oneOf OP_1 [hybridKey]) OP_1
      OP_1 (keyPushes [hybridKey]) [] (pushAll ([numberedSig 1] ++ [])) (pushAll ([] ++ []))
      [numberedSig 1] [] :=
  oneOf_parts (by unfold NumberOp; decide) (by decide) (by decide) .bare
    (by decide) (by decide) (by decide)

/-- `CombineMultisig` takes the signature, `OP_CHECKMULTISIG` does not take the key. -/
theorem hybridKey_not_spent :
    (verifyScript lengthEnv ⟨scriptInput.txTo, 0, 0⟩
      (combineSignatures lengthEnv scriptInput.txTo 0 (oneOf OP_1 [hybridKey])
        (pushAll ([numberedSig 1] ++ [])) (pushAll ([] ++ [])))
      (oneOf OP_1 [hybridKey])).fValid = false := by
  have heq := combineSignatures_eq hybridKey_parts ⟨by decide, by decide, by decide⟩
    ⟨by decide, by decide, by decide⟩
  obtain ⟨merged, hpushes, hmerged⟩ := combineMultisig_pushes OP_1 OP_1
    hybridKey_parts.signatures1.reverse hybridKey_parts.signatures2.reverse
  have hfull : merged.length = 1 := hmerged.enough.mpr (by decide)
  obtain ⟨sig, rfl⟩ := List.length_eq_one_iff.mp hfull
  have hsig : sig = numberedSig 1 := by
    simpa using hmerged.mem sig (List.mem_singleton_self sig)
  rw [heq, hpushes, hsig]
  decide

end Sample

section Limits

open Sample

/-- The signatures of both scripts are enough, and the combined script does not spend the output:
with a key that is not canonical, with a script of more than 520 bytes behind its hash, and with
a signature script of more than 10000 bytes. -/
theorem combined_beyond_limits :
    (Parts lengthEnv ⟨scriptInput.txTo, 0, 0⟩ (oneOf OP_1 [hybridKey]) (oneOf OP_1 [hybridKey])
        OP_1 OP_1 (keyPushes [hybridKey]) [] (pushAll ([numberedSig 1] ++ [])) (pushAll ([] ++ []))
        [numberedSig 1] [] ∧
      ¬ Combines lengthEnv scriptInput.txTo 0 (oneOf OP_1 [hybridKey]) (oneOf OP_1 [hybridKey])
        OP_1 [hybridKey] (pushAll ([numberedSig 1] ++ [])) (pushAll ([] ++ [])) [numberedSig 1]) ∧
    (Parts lengthEnv ⟨scriptInput.txTo, 0, 0⟩ (oneOf OP_16 sixteenKeys)
        (payToScript (oneOf OP_16 sixteenKeys)) OP_1 OP_16 (keyPushes sixteenKeys)
        [oneOf OP_16 sixteenKeys] (pushAll ([numberedSig 1] ++ [oneOf OP_16 sixteenKeys]))
        (pushAll ([] ++ [oneOf OP_16 sixteenKeys])) [numberedSig 1] [] ∧
      ¬ Combines lengthEnv scriptInput.txTo 0 (oneOf OP_16 sixteenKeys)
        (payToScript (oneOf OP_16 sixteenKeys)) OP_1 sixteenKeys
        (pushAll ([numberedSig 1] ++ [oneOf OP_16 sixteenKeys]))
        (pushAll ([] ++ [oneOf OP_16 sixteenKeys])) [numberedSig 1]) ∧
    (Parts lengthEnv ⟨scriptInput.txTo, 0, 0⟩ (oneOf OP_1 [numberedKey 1])
        (oneOf OP_1 [numberedKey 1]) OP_1 OP_1 (keyPushes [numberedKey 1]) []
        (pushAll (behind 10000 ++ [])) (pushAll ([] ++ [])) (behind 10000) [] ∧
      ¬ Combines lengthEnv scriptInput.txTo 0 (oneOf OP_1 [numberedKey 1])
        (oneOf OP_1 [numberedKey 1]) OP_1 [numberedKey 1] (pushAll (behind 10000 ++ []))
        (pushAll ([] ++ [])) (behind 10000)) := by
  refine ⟨⟨hybridKey_parts, ?_⟩, ⟨sixteenKeys_parts, ?_⟩, placeholders_parts, ?_⟩
  · exact oneOf_not_combines (covered_one (by decide) (by decide)) hybridKey_not_spent
  · exact oneOf_not_combines (covered_one (by decide) (by decide)) sixteenKeys_not_spent
  · refine oneOf_not_combines (covered_one ?_ (by decide))
      placeholders_not_spent
    rw [behind]
    exact List.mem_append_right _ (List.mem_singleton_self _)

/-- A script signed by the last key and one signed by the first, of two signatures by three keys. -/
theorem twoOfThree_combines :
    (verifyScript lengthEnv ⟨scriptInput.txTo, 0, 0⟩
      (combineSignatures lengthEnv scriptInput.txTo 0
        (payToScript twoOfThree)
        (pushAll (lastSigned ++ [twoOfThree]))
        (pushAll (firstSigned ++ [twoOfThree])))
      (payToScript twoOfThree)).fValid = true := by
  have hcombines := combined_multisig twoOfThree_parts (by decide)
    ⟨by decide, by decide, by decide⟩
    ⟨by decide, by decide, by decide⟩
  exact hcombines.2.mpr (by decide)

end Limits

end Triangles
