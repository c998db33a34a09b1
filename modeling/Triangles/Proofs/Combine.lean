import Triangles.Proofs.ScriptRuns
import Triangles.Proofs.SigEncoding
import Triangles.Proofs.SigHash

/-! Two signature scripts of a multisig script, combined. -/

namespace Triangles

open ByteOrder

/-! The script code keeps its bytes: no instruction of it is the push of a signature. -/

section Erase

variable {b : CScript}

/-- The bytes stand at the front of the script, where this instruction is read. -/
def StartsAt (b : CScript) (op : UInt8 × List UInt8) : Prop :=
  ∃ pc rest, getOp pc = some (op.1, op.2, rest) ∧ b <+: pc

theorem findAndDeleteFrom_id {script : CScript} {ops : List (UInt8 × List UInt8)}
    (h : HasOps script ops) (hno : ∀ op ∈ ops, ¬ StartsAt b op) (rounds : Nat) :
    findAndDeleteFrom b rounds script = script := by
  induction h generalizing rounds with
  | nil => cases rounds <;> rfl
  | @cons script rest opcode data ops hop _ ih =>
    cases rounds with
    | zero => rfl
    | succ rounds =>
      have hfront : eraseFront b script.length script = script := by
        have hprefix : b.isPrefixOf script = false := by
          rw [Bool.eq_false_iff]
          intro hpre
          exact hno (opcode, data) List.mem_cons_self
            ⟨script, rest, hop, List.isPrefixOf_iff_prefix.mp hpre⟩
        cases hlen : script.length with
        | zero => rfl
        | succ n => rw [eraseFront, hprefix]; rfl
      have hsuffix : rest <:+ script := by
        cases script with
        | nil => cases hop
        | cons op pc => exact (getOp_suffix hop).2.trans (List.suffix_cons op pc)
      obtain ⟨front, rfl⟩ := hsuffix
      simp only [findAndDeleteFrom, hfront, hop]
      rw [ih (fun op hmem => hno op (List.mem_cons_of_mem _ hmem)), List.length_append,
        Nat.add_sub_cancel, List.take_left]

theorem findAndDelete_id {script : CScript} {ops : List (UInt8 × List UInt8)}
    (h : HasOps script ops) (hno : ∀ op ∈ ops, ¬ StartsAt b op) : findAndDelete script b = script := by
  unfold findAndDelete
  split
  · rfl
  · exact findAndDeleteFrom_id h hno _

end Erase

section Signatures

variable {env : ScriptEnv} {input : TxInput} {script : CScript}

/-- A placeholder or a signature that `IsCanonicalSignature` accepts. -/
def SigItem (env : ScriptEnv) (sig : valtype) : Prop :=
  sig = [] ∨ isCanonicalSignature env.nHeightBest sig = true

theorem SigItem.length_le {sig : valtype} (h : SigItem env sig) : sig.length ≤ 73 := by
  rcases h with rfl | h
  · exact Nat.zero_le _
  · exact ((isCanonicalSignature_iff _ _).mp h).long

theorem canonicalKey_first {key : valtype} (h : isCanonicalPubKey key = true) :
    key.headD 0 ≠ 0x30 := by
  intro hfirst
  unfold isCanonicalPubKey at h
  rw [hfirst] at h
  simp at h

/-- An instruction that starts with the push of an operand has that operand. -/
theorem StartsAt.data {d : valtype} (hlen : d.length < 256 ^ 4) {op : UInt8 × List UInt8}
    (h : StartsAt (pushData d) op) : op.2 = d := by
  obtain ⟨_, rest, hop, tail, rfl⟩ := h
  obtain ⟨opcode, hpush, _⟩ := getOp_pushData tail hlen
  rw [hpush] at hop
  cases hop
  rfl

theorem StartsAt.opcode {op : UInt8 × List UInt8} (h : StartsAt (pushData []) op) : op.1 = OP_0 := by
  obtain ⟨_, rest, hop, tail, rfl⟩ := h
  have hread : getOp (pushData [] ++ tail) = some (OP_0, [], tail) := rfl
  rw [hread] at hop
  simp only [Option.some.injEq, Prod.mk.injEq] at hop
  exact hop.1.symm

theorem NumberOp.ne_zero {opcode : UInt8} (h : NumberOp opcode) : opcode ≠ OP_0 := by
  rintro rfl
  exact absurd h.1 (by decide)

/-- No instruction of a multisig script with canonical keys is the push of a signature or of a
placeholder. -/
theorem MultisigOps.no_signature {opM opN : UInt8} {keys : List (UInt8 × List UInt8)}
    (h : MultisigOps script opM opN keys) (hcounts : RightCounts opM opN keys)
    (hkeys : ∀ key ∈ keys, isCanonicalPubKey key.2 = true) {sig : valtype} (hsig : SigItem env sig) :
    ∀ op ∈ (opM, []) :: (keys ++ [(opN, []), (OP_CHECKMULTISIG, [])]),
      ¬ StartsAt (pushData sig) op := by
  intro op hmem hstart
  have hlen := hsig.length_le
  have hdata : op.2 = sig := hstart.data (by omega)
  have hnumbers : opM ≠ OP_0 ∧ opN ≠ OP_0 :=
    ⟨(number_of_small h.required hcounts.1).ne_zero,
      (number_of_small h.total (hcounts.1.trans hcounts.2.1)).ne_zero⟩
  rcases hsig with rfl | hcanon
  · have hzero := hstart.opcode
    simp only [List.mem_cons, List.mem_append, List.not_mem_nil, or_false] at hmem
    rcases hmem with rfl | hkey | rfl | rfl
    · exact hnumbers.1 hzero
    · exact keySize_ne_nil (h.keySizes op hkey) hdata
    · exact hnumbers.2 hzero
    · exact absurd hzero (by decide)
  · have hshape := (isCanonicalSignature_iff _ _).mp hcanon
    have hne : op.2 ≠ [] := by
      rintro hnil
      have hshort := hshape.short
      rw [← hdata, hnil, List.length_nil] at hshort
      omega
    simp only [List.mem_cons, List.mem_append, List.not_mem_nil, or_false] at hmem
    rcases hmem with rfl | hkey | rfl | rfl
    · exact hne rfl
    · refine canonicalKey_first (hkeys op hkey) ?_
      rw [hdata, ← hshape.tag]
      cases sig <;> rfl
    · exact hne rfl
    · exact hne rfl

/-- The signatures are not in the script code that they sign. -/
theorem strippedCode_multisig {opM opN : UInt8} {keys : List (UInt8 × List UInt8)}
    (h : MultisigOps script opM opN keys) (hcounts : RightCounts opM opN keys)
    (hkeys : ∀ key ∈ keys, isCanonicalPubKey key.2 = true) {sigs : List valtype}
    (hsigs : ∀ sig ∈ sigs, SigItem env sig) : strippedCode script sigs = script := by
  induction sigs with
  | nil => rfl
  | cons sig sigs ih =>
    obtain ⟨hsig, hsigs⟩ := List.forall_mem_cons.mp hsigs
    have hkept := findAndDelete_id h.ops (h.no_signature hcounts hkeys hsig)
    rw [strippedCode, List.foldl_cons, hkept]
    exact ih hsigs

end Signatures

/-! The signatures go to their keys. -/

section Merge

variable {accepts : valtype → valtype → Bool} {pubkeys : List valtype}

/-- Every entry is a signature that the key accepts. -/
def Assigned (accepts : valtype → valtype → Bool) (pubkeys : List valtype) (l : List valtype)
    (sigs : valtype → Option valtype) : Prop :=
  ∀ pubkey sig, sigs pubkey = some sig → sig ∈ l ∧ pubkey ∈ pubkeys ∧ accepts sig pubkey = true

theorem matchSig_cases (sigs : valtype → Option valtype) (sig : valtype) :
    (matchSig accepts pubkeys sigs sig = sigs ∧
        ∀ pubkey ∈ pubkeys, accepts sig pubkey = true → (sigs pubkey).isSome) ∨
      ∃ pubkey ∈ pubkeys, accepts sig pubkey = true ∧ sigs pubkey = none ∧
        matchSig accepts pubkeys sigs sig = Function.update sigs pubkey (some sig) := by
  unfold matchSig
  cases hfind : pubkeys.find? fun pubkey => (sigs pubkey).isNone && accepts sig pubkey with
  | none =>
    refine .inl ⟨rfl, fun pubkey hmem haccepts => ?_⟩
    have hno := List.find?_eq_none.mp hfind pubkey hmem
    rw [haccepts, Bool.and_true, Option.isNone_iff_eq_none] at hno
    exact Option.isSome_iff_ne_none.mpr hno
  | some pubkey =>
    have hyes := List.find?_some hfind
    rw [Bool.and_eq_true, Option.isNone_iff_eq_none] at hyes
    exact .inr ⟨pubkey, List.mem_of_find?_eq_some hfind, hyes.2, hyes.1, rfl⟩

theorem Assigned.matchSig {l : List valtype} {sigs : valtype → Option valtype} {sig : valtype}
    (h : Assigned accepts pubkeys l sigs) (hsig : sig ∈ l) :
    Assigned accepts pubkeys l (matchSig accepts pubkeys sigs sig) := by
  rcases matchSig_cases sigs sig with ⟨hsame, _⟩ | ⟨pubkey, hmem, haccepts, _, hupdate⟩
  · rw [hsame]
    exact h
  · rw [hupdate]
    intro pubkey' sig' hsig'
    by_cases hkey : pubkey' = pubkey
    · rw [hkey, Function.update_self, Option.some.injEq] at hsig'
      rw [hkey, ← hsig']
      exact ⟨hsig, hmem, haccepts⟩
    · rw [Function.update_of_ne hkey] at hsig'
      exact h pubkey' sig' hsig'

theorem matchSig_keeps {sigs : valtype → Option valtype} {pubkey : valtype} (sig : valtype)
    (h : (sigs pubkey).isSome) : matchSig accepts pubkeys sigs sig pubkey = sigs pubkey := by
  rcases matchSig_cases sigs sig with ⟨hsame, _⟩ | ⟨pubkey', _, _, hnone, hupdate⟩
  · rw [hsame]
  · have hne : pubkey ≠ pubkey' := by
      rintro rfl
      rw [hnone] at h
      cases h
    rw [hupdate, Function.update_of_ne hne]

/-- A signature is valid for one of the keys and for no other. -/
def OneKey (accepts : valtype → valtype → Bool) (pubkeys : List valtype) (sig : valtype) : Prop :=
  ∃! pubkey, pubkey ∈ pubkeys ∧ accepts sig pubkey = true

/-- After its turn, a signature's only key has one. -/
theorem matchSig_gives {sig pubkey : valtype} (hone : OneKey accepts pubkeys sig)
    (hmem : pubkey ∈ pubkeys) (haccepts : accepts sig pubkey = true)
    (sigs : valtype → Option valtype) : (matchSig accepts pubkeys sigs sig pubkey).isSome := by
  rcases matchSig_cases sigs sig with ⟨hsame, hall⟩ | ⟨pubkey', hmem', haccepts', _, hupdate⟩
  · rw [hsame]
    exact hall pubkey hmem haccepts
  · obtain rfl := hone.unique ⟨hmem, haccepts⟩ ⟨hmem', haccepts'⟩
    rw [hupdate, Function.update_self]
    rfl

theorem foldl_matchSig_keeps {sigs : valtype → Option valtype} {pubkey : valtype}
    (l : List valtype) (h : (sigs pubkey).isSome) :
    (l.foldl (matchSig accepts pubkeys) sigs pubkey).isSome := by
  induction l generalizing sigs with
  | nil => exact h
  | cons sig l ih => exact ih (by rw [matchSig_keeps sig h]; exact h)

theorem foldl_matchSig_gives {l : List valtype} {sig pubkey : valtype}
    (hone : OneKey accepts pubkeys sig) (hsig : sig ∈ l) (hmem : pubkey ∈ pubkeys)
    (haccepts : accepts sig pubkey = true) (sigs : valtype → Option valtype) :
    (l.foldl (matchSig accepts pubkeys) sigs pubkey).isSome := by
  induction l generalizing sigs with
  | nil => cases hsig
  | cons sig' l ih =>
    rcases List.mem_cons.mp hsig with rfl | hsig
    · exact foldl_matchSig_keeps l (matchSig_gives hone hmem haccepts sigs)
    · exact ih hsig _

theorem Assigned.foldl {l done : List valtype} {sigs : valtype → Option valtype}
    (h : Assigned accepts pubkeys l sigs) (hdone : ∀ sig ∈ done, sig ∈ l) :
    Assigned accepts pubkeys l (done.foldl (Triangles.matchSig accepts pubkeys) sigs) := by
  induction done generalizing sigs with
  | nil => exact h
  | cons sig done ih =>
    obtain ⟨hsig, hdone⟩ := List.forall_mem_cons.mp hdone
    exact ih (h.matchSig hsig) hdone

/-- A key ends up with a signature if and only if one of them is valid for it. -/
theorem foldl_matchSig_isSome {l : List valtype} (hone : ∀ sig ∈ l, OneKey accepts pubkeys sig)
    {pubkey : valtype} (hmem : pubkey ∈ pubkeys) :
    (l.foldl (matchSig accepts pubkeys) (fun _ => none) pubkey).isSome =
      l.any fun sig => accepts sig pubkey := by
  rw [Bool.eq_iff_iff, List.any_eq_true]
  constructor
  · intro hsome
    obtain ⟨sig, hsig⟩ := Option.isSome_iff_exists.mp hsome
    have hassigned : Assigned accepts pubkeys l (l.foldl (matchSig accepts pubkeys) fun _ => none) :=
      Assigned.foldl (fun _ _ h => by cases h) fun _ h => h
    obtain ⟨hl, _, haccepts⟩ := hassigned pubkey sig hsig
    exact ⟨sig, hl, haccepts⟩
  · rintro ⟨sig, hsig, haccepts⟩
    exact foldl_matchSig_gives (hone sig hsig) hsig hmem haccepts _

theorem mergeSigs_eq (sigs : valtype → Option valtype) (nMissing : Nat) (pubkeys : List valtype) :
    mergeSigs sigs nMissing pubkeys = (pubkeys.filterMap sigs).take nMissing := by
  induction pubkeys generalizing nMissing with
  | nil => cases nMissing <;> rfl
  | cons pubkey pubkeys ih =>
    cases nMissing with
    | zero => rfl
    | succ nMissing =>
      rw [mergeSigs]
      cases hsig : sigs pubkey with
      | none =>
        rw [List.filterMap_cons_none hsig]
        exact ih (nMissing + 1)
      | some sig => rw [List.filterMap_cons_some hsig, List.take_succ_cons, ih]

/-- The signatures are in the order of their keys. -/
theorem mergeSigs_ordered {l : List valtype} {sigs : valtype → Option valtype}
    (h : Assigned accepts pubkeys l sigs) (nMissing : Nat) (keys : List valtype) :
    List.SublistForall₂ (fun sig pubkey => accepts sig pubkey = true)
      (mergeSigs sigs nMissing keys) keys := by
  induction keys generalizing nMissing with
  | nil => cases nMissing <;> exact .nil
  | cons pubkey keys ih =>
    cases nMissing with
    | zero => exact .nil
    | succ nMissing =>
      rw [mergeSigs]
      cases hsig : sigs pubkey with
      | none => exact .cons_right (ih (nMissing + 1))
      | some sig => exact .cons (h pubkey sig hsig).2.2 (ih nMissing)

/-- What `CombineMultisig` puts in the script: signatures in the order of their keys, and then
placeholders. -/
structure MergedSigs (accepts : valtype → valtype → Bool) (pubkeys l : List valtype) (nSigsRequired : Nat)
    (merged : List valtype) : Prop where
  few : merged.length ≤ nSigsRequired
  mem : ∀ sig ∈ merged, sig ∈ l
  ordered : List.SublistForall₂ (fun sig pubkey => accepts sig pubkey = true) merged pubkeys
  enough : merged.length = nSigsRequired ↔
    nSigsRequired ≤ pubkeys.countP fun pubkey => l.any fun sig => accepts sig pubkey

theorem mergeSigs_merged {l : List valtype} (hone : ∀ sig ∈ l, OneKey accepts pubkeys sig)
    (nSigsRequired : Nat) :
    MergedSigs accepts pubkeys l nSigsRequired
      (mergeSigs (l.foldl (matchSig accepts pubkeys) fun _ => none) nSigsRequired pubkeys) := by
  have hassigned : Assigned accepts pubkeys l (l.foldl (matchSig accepts pubkeys) fun _ => none) :=
    Assigned.foldl (fun _ _ h => by cases h) fun _ h => h
  have hcount : (pubkeys.filterMap (l.foldl (matchSig accepts pubkeys) fun _ => none)).length =
      pubkeys.countP fun pubkey => l.any fun sig => accepts sig pubkey := by
    rw [List.length_filterMap_eq_countP]
    exact List.countP_congr fun pubkey hmem => by rw [foldl_matchSig_isSome hone hmem]
  generalize l.foldl (matchSig accepts pubkeys) (fun _ => none) = sigs at *
  have hordered := mergeSigs_ordered hassigned nSigsRequired pubkeys
  rw [mergeSigs_eq] at *
  refine ⟨List.length_take_le _ _, fun sig hsig => ?_, hordered, ?_⟩
  · obtain ⟨pubkey, _, hkey⟩ := List.mem_filterMap.mp (List.mem_of_mem_take hsig)
    exact (hassigned pubkey sig hkey).1
  · rw [List.length_take, hcount]
    omega

end Merge

section Combine

variable {env : ScriptEnv} {input : TxInput} {script : CScript} {pubkeys sigs1 sigs2 : List valtype}

theorem mem_allSigs {sig : valtype} :
    sig ∈ allSigs sigs1 sigs2 ↔ (sig ∈ sigs1 ∨ sig ∈ sigs2) ∧ sig ≠ [] := by
  rw [allSigs, Finset.mem_filter, List.mem_toFinset, List.mem_append]

theorem allSigs_comm (sigs1 sigs2 : List valtype) : allSigs sigs1 sigs2 = allSigs sigs2 sigs1 := by
  ext sig
  rw [mem_allSigs, mem_allSigs, or_comm]

structure Signatures (env : ScriptEnv) (input : TxInput) (script : CScript)
    (pubkeys sigs : List valtype) : Prop where
  items : ∀ sig ∈ sigs, SigItem env sig
  oneKey : ∀ sig ∈ sigs, sig ≠ [] →
    OneKey (fun sig pubkey => checkSig env input sig pubkey script) pubkeys sig

def covered (env : ScriptEnv) (input : TxInput) (script : CScript) (sigs : List valtype)
    (pubkey : valtype) : Bool :=
  sigs.any fun sig => checkSig env input sig pubkey script

/-- What `CombineMultisig` makes of two parts. -/
theorem combineMultisig_pushes (opM opN : UInt8)
    (h1 : Signatures env input script pubkeys sigs1)
    (h2 : Signatures env input script pubkeys sigs2) :
    ∃ merged,
      combineMultisig env input script ([decodeOP_N opM] :: (pubkeys ++ [[decodeOP_N opN]])) sigs1
          sigs2 =
        pushAll ([] :: (merged ++
          List.replicate ((decodeOP_N opM).toNat - merged.length) [])) ∧
      MergedSigs (fun sig pubkey => checkSig env input sig pubkey script) pubkeys (sigs1 ++ sigs2)
        (decodeOP_N opM).toNat merged := by
  have hmem : ∀ sig, sig ∈ (allSigs sigs1 sigs2).sort (· ≤ ·) ↔
      sig ∈ sigs1 ++ sigs2 ∧ sig ≠ [] := by
    intro sig
    rw [Finset.mem_sort, mem_allSigs, List.mem_append]
  have hone : ∀ sig ∈ (allSigs sigs1 sigs2).sort (· ≤ ·),
      OneKey (fun sig pubkey => checkSig env input sig pubkey script) pubkeys sig := by
    intro sig hsig
    obtain ⟨hin, hne⟩ := (hmem sig).mp hsig
    rcases List.mem_append.mp hin with hin | hin
    · exact h1.oneKey sig hin hne
    · exact h2.oneKey sig hin hne
  have hany : ∀ pubkey,
      ((allSigs sigs1 sigs2).sort (· ≤ ·)).any (fun sig => checkSig env input sig pubkey script) =
        (sigs1 ++ sigs2).any fun sig => checkSig env input sig pubkey script := by
    intro pubkey
    rw [Bool.eq_iff_iff, List.any_eq_true, List.any_eq_true]
    constructor
    · rintro ⟨sig, hsig, hvalid⟩
      exact ⟨sig, ((hmem sig).mp hsig).1, hvalid⟩
    · rintro ⟨sig, hsig, hvalid⟩
      refine ⟨sig, (hmem sig).mpr ⟨hsig, ?_⟩, hvalid⟩
      rintro rfl
      cases hvalid
  have hmerged := mergeSigs_merged hone (decodeOP_N opM).toNat
  refine ⟨_, ?_, hmerged.few, fun sig hsig => ((hmem sig).mp (hmerged.mem sig hsig)).1,
    hmerged.ordered, ?_⟩
  · rw [combineMultisig, replicate_pushAll]
    simp only [List.tail_cons, List.dropLast_concat, List.head?_cons, solutionNumber,
      Option.getD_some, List.headD_cons]
    rw [pushAll_cons, pushAll_append]
    rfl
  · rw [hmerged.enough]
    simp only [hany]

end Combine

end Triangles
