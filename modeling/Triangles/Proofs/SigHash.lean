import Mathlib.Data.List.Flatten
import Triangles.Model.SigHash
import Triangles.Proofs.RoundTrip

/-! What a signature commits to: two signature hashes are equal exactly when the fields that the
hash type covers are. -/

namespace Triangles

open Codec Outcome

/-! Code separators. -/

/-- The instructions of a script, each with its operand; bytes that are none stay together at
the end. -/
def instructions : Nat → CScript → List CScript
  | 0, _ => []
  | rounds + 1, pc =>
    match getOp pc with
    | none => [pc]
    | some (_, _, rest) => pc.take (pc.length - rest.length) :: instructions rounds rest

/-- The script but for the instructions that are code separators. -/
def withoutSeparators (script : CScript) : CScript :=
  ((instructions script.length script).filter (· ≠ [OP_CODESEPARATOR])).flatten

theorem getOp_separator (pc : CScript) :
    getOp (OP_CODESEPARATOR :: pc) = some (OP_CODESEPARATOR, [], pc) := rfl

/-- An instruction is the front of what it was read from. -/
theorem getOp_front {op : UInt8} {pc rest : CScript} {opcode : UInt8} {data : List UInt8}
    (h : getOp (op :: pc) = some (opcode, data, rest)) :
    ∃ front, (op :: pc).take ((op :: pc).length - rest.length) = op :: front := by
  have hlt := getOp_length h
  obtain ⟨n, hn⟩ : ∃ n, (op :: pc).length - rest.length = n + 1 :=
    ⟨(op :: pc).length - rest.length - 1, by omega⟩
  exact ⟨pc.take n, by rw [hn, List.take_succ_cons]⟩

theorem eraseFront_separator (pc : CScript) :
    eraseFront [OP_CODESEPARATOR] (pc.length + 1) (OP_CODESEPARATOR :: pc) =
      eraseFront [OP_CODESEPARATOR] pc.length pc := by
  rw [eraseFront, if_pos (by simp)]
  rfl

theorem eraseFront_other {op : UInt8} {pc : CScript} (h : op ≠ OP_CODESEPARATOR) :
    eraseFront [OP_CODESEPARATOR] (op :: pc).length (op :: pc) = op :: pc := by
  rw [List.length_cons, eraseFront, if_neg]
  simp [Ne.symm h]

/-- `FindAndDelete` of a code separator drops just those instructions, whatever the script. -/
theorem findAndDeleteFrom_separator (m : Nat) (pc : CScript) (hm : pc.length ≤ m) (n : Nat)
    (hn : pc.length < n) : findAndDeleteFrom [OP_CODESEPARATOR] n pc =
      ((instructions m pc).filter (· ≠ [OP_CODESEPARATOR])).flatten := by
  obtain ⟨n, rfl⟩ : ∃ k, n = k + 1 := ⟨n - 1, by omega⟩
  induction m generalizing pc n with
  | zero =>
    rw [Nat.le_zero, List.length_eq_zero_iff] at hm
    subst hm
    rfl
  | succ m ih =>
    cases pc with
    | nil => rfl
    | cons op pc =>
      rw [List.length_cons] at hm hn
      by_cases hop : op = OP_CODESEPARATOR
      · subst hop
        have hrest := ih pc (by omega) n (by omega)
        have hskip : findAndDeleteFrom [OP_CODESEPARATOR] (n + 1) (OP_CODESEPARATOR :: pc) =
            findAndDeleteFrom [OP_CODESEPARATOR] (n + 1) pc := by
          simp only [findAndDeleteFrom, List.length_cons, eraseFront_separator]
        rw [hskip, hrest, instructions, getOp_separator]
        simp
      · rw [findAndDeleteFrom, eraseFront_other hop, instructions]
        cases hg : getOp (op :: pc) with
        | none => simp [hop]
        | some r =>
          obtain ⟨opcode, data, rest⟩ := r
          have hlt := getOp_length hg
          rw [List.length_cons] at hlt
          obtain ⟨k, rfl⟩ : ∃ k, n = k + 1 := ⟨n - 1, by omega⟩
          obtain ⟨front, hfront⟩ := getOp_front hg
          have hrest := ih rest (by omega) k (by omega)
          simp only [hfront, hrest]
          simp [hop]

theorem findAndDelete_separator (script : CScript) :
    findAndDelete script [OP_CODESEPARATOR] = withoutSeparators script :=
  findAndDeleteFrom_separator _ script le_rfl _ (Nat.lt_succ_self _)

theorem instructions_flatten (m : Nat) (pc : CScript) (hm : pc.length ≤ m) :
    (instructions m pc).flatten = pc := by
  induction m generalizing pc with
  | zero =>
    rw [Nat.le_zero, List.length_eq_zero_iff] at hm
    rw [hm]
    rfl
  | succ m ih =>
    rw [instructions]
    cases hg : getOp pc with
    | none => simp
    | some r =>
      obtain ⟨opcode, data, rest⟩ := r
      have hlt := getOp_length hg
      have hs : rest <:+ pc := by
        cases pc with
        | nil => cases hg
        | cons op pc => exact (getOp_suffix hg).2.trans (List.suffix_cons op pc)
      simp only [List.flatten_cons, ih rest (by omega)]
      obtain ⟨front, rfl⟩ := hs
      simp

theorem withoutSeparators_length (script : CScript) :
    (withoutSeparators script).length ≤ script.length := by
  have hsub : List.Sublist (withoutSeparators script)
      (instructions script.length script).flatten := List.filter_sublist.flatten
  rw [instructions_flatten _ script le_rfl] at hsub
  exact hsub.length_le

/-! The serialization tells any two transactions apart that the machine can hold: its integers
are those of the machine types, its lengths those of a `size_t`. -/

structure CTxIn.Typed (txin : CTxIn) : Prop where
  hash : txin.prevout.hash < 256 ^ 32
  scriptSig : txin.scriptSig.length < 256 ^ 8

structure CTxOut.Typed (txout : CTxOut) : Prop where
  nValue : InSigned 8 txout.nValue
  scriptPubKey : txout.scriptPubKey.length < 256 ^ 8

structure CTransaction.Typed (tx : CTransaction) : Prop where
  nVersion : InSigned 4 tx.nVersion
  vin_length : tx.vin.length < 256 ^ 8
  vin : ∀ txin ∈ tx.vin, txin.Typed
  vout_length : tx.vout.length < 256 ^ 8
  vout : ∀ txout ∈ tx.vout, txout.Typed

/-- A size without the limit that readers of messages and files set. -/
def readSize : Reader StreamError Nat := do
  let chSize ← readLE 1
  readSizeAfter chSize

theorem readSize_reads {n : Nat} (h : n < 256 ^ 8) : Reads readSize (writeCompactSize n) n := by
  unfold writeCompactSize
  split_ifs with hone htwo hfour
  · rw [← List.append_nil (wordBytes 1 n)]
    refine (readLE_reads (by omega)).bind ?_
    rw [readSizeAfter, if_pos hone]
    exact reads_pure n
  · exact (readLE_reads (show 253 < 256 ^ 1 by decide)).bind (readLE_reads (by omega))
  · exact (readLE_reads (show 254 < 256 ^ 1 by decide)).bind (readLE_reads (by omega))
  · exact (readLE_reads (show 255 < 256 ^ 1 by decide)).bind (readLE_reads h)

def readList (r : Reader StreamError α) : Reader StreamError (List α) := do
  let nSize ← readSize
  readMany r nSize

theorem readList_reads {r : Reader StreamError α} {w : α → List UInt8} {v : List α}
    (hv : v.length < 256 ^ 8) (h : ∀ a ∈ v, Reads r (w a) a) :
    Reads (readList r) (serializeVector w v) v :=
  (readSize_reads hv).bind (readMany_reads v h)

def readScript : Reader StreamError CScript := do
  let nSize ← readSize
  readBytes .endOfData nSize

theorem readScript_reads {script : CScript} (h : script.length < 256 ^ 8) :
    Reads readScript (serializeBytes script) script :=
  (readSize_reads h).bind (readBytes_reads _ script)

def readTxIn : Reader StreamError CTxIn := do
  let prevout ← (do
    let hash ← readLE 32
    let n ← readUInt32
    pure (⟨hash, n⟩ : COutPoint))
  let scriptSig ← readScript
  let nSequence ← readUInt32
  pure ⟨prevout, scriptSig, nSequence⟩

theorem CTxIn.Typed.reads {txin : CTxIn} (h : txin.Typed) : Reads readTxIn txin.serialize txin := by
  refine Reads.bind (a := txin.prevout) ?_ ?_
  · exact (readLE_reads h.hash).bind ((readUInt32_reads _).map _)
  · exact (readScript_reads h.scriptSig).bind ((readUInt32_reads _).map _)

def readTxOut : Reader StreamError CTxOut := do
  let nValue ← readSigned 8
  let scriptPubKey ← readScript
  pure ⟨nValue, scriptPubKey⟩

theorem CTxOut.Typed.reads {txout : CTxOut} (h : txout.Typed) :
    Reads readTxOut txout.serialize txout :=
  (readSigned_reads h.nValue).bind ((readScript_reads h.scriptPubKey).map _)

def readTransaction : Reader StreamError CTransaction := do
  let nVersion ← readSigned 4
  let nTime ← readUInt32
  let vin ← readList readTxIn
  let vout ← readList readTxOut
  let nLockTime ← readUInt32
  pure ⟨nVersion, nTime, vin, vout, nLockTime⟩

theorem CTransaction.Typed.reads {tx : CTransaction} (h : tx.Typed) :
    Reads readTransaction tx.serialize tx := by
  refine (readSigned_reads h.nVersion).bind ?_
  refine (readUInt32_reads tx.nTime).bind ?_
  refine (readList_reads h.vin_length fun a ha => (h.vin a ha).reads).bind ?_
  refine (readList_reads h.vout_length fun a ha => (h.vout a ha).reads).bind ?_
  exact (readUInt32_reads tx.nLockTime).map _

theorem serialize_injective {tx tx' : CTransaction} (h : tx.Typed) (h' : tx'.Typed)
    {s : List UInt8} (he : tx.serialize ++ s = tx'.serialize ++ s) : tx = tx' :=
  (h.reads.unique h'.reads he).1

/-! What a hash type covers. -/

/-- The low bits of a hash type: all but two of their values cover everything. -/
inductive HashKind where
  | all
  | none
  | single
deriving DecidableEq, Repr

def hashKind (nHashType : Int32) : HashKind :=
  if nHashType &&& 0x1f = SIGHASH_NONE then .none
  else if nHashType &&& 0x1f = SIGHASH_SINGLE then .single
  else .all

def anyoneCanPay (nHashType : Int32) : Bool := nHashType &&& SIGHASH_ANYONECANPAY != 0

/-- The outputs covered: all, none, or the own one with the number of those before it. -/
def SameOutputs (kind : HashKind) (nIn nIn' : Nat) (vout vout' : List CTxOut) : Prop :=
  match kind with
  | .all => vout = vout'
  | .none => True
  | .single => nIn = nIn' ∧ vout[nIn]? = vout'[nIn']?

/-- The inputs covered: the own one, or all prevouts, the sequences that count, and the place at
which the script code stands. An empty script code does not show its place, unless the own
sequence does as the only one that counts. -/
def SameInputs (kind : HashKind) (fAnyone : Bool) (scriptCode : CScript) (nIn nIn' : Nat)
    (vin vin' : List CTxIn) : Prop :=
  if fAnyone then
    vin[nIn]?.map (fun i => (i.prevout, i.nSequence)) =
      vin'[nIn']?.map fun i => (i.prevout, i.nSequence)
  else
    vin.map CTxIn.prevout = vin'.map CTxIn.prevout ∧
    (if kind = .all then vin.map CTxIn.nSequence = vin'.map CTxIn.nSequence
      else vin[nIn]?.map CTxIn.nSequence = vin'[nIn']?.map CTxIn.nSequence) ∧
    (nIn = nIn' ∨ scriptCode = [] ∧ (kind = .all ∨ vin[nIn]?.map CTxIn.nSequence = some 0))

/-- Two transactions with script codes agree on what the hash type covers. No script of an
input is among it. -/
structure SameCovered (nHashType : Int32) (tx tx' : CTransaction) (nIn nIn' : Nat)
    (scriptCode scriptCode' : CScript) : Prop where
  nVersion : tx.nVersion = tx'.nVersion
  nTime : tx.nTime = tx'.nTime
  nLockTime : tx.nLockTime = tx'.nLockTime
  script : withoutSeparators scriptCode = withoutSeparators scriptCode'
  vin : SameInputs (hashKind nHashType) (anyoneCanPay nHashType) (withoutSeparators scriptCode)
    nIn nIn' tx.vin tx'.vin
  vout : SameOutputs (hashKind nHashType) nIn nIn' tx.vout tx'.vout

/-! The blanked transaction that is hashed. -/

def blankedInput (kind : HashKind) (scriptCode : CScript) (nIn i : Nat) (txin : CTxIn) : CTxIn :=
  { prevout := txin.prevout
    scriptSig := if i = nIn then scriptCode else []
    nSequence := if i = nIn ∨ kind = .all then txin.nSequence else 0 }

def blankedInputs (kind : HashKind) (fAnyone : Bool) (scriptCode : CScript) (nIn : Nat)
    (vin : List CTxIn) : List CTxIn :=
  if fAnyone then (vin[nIn]?.map fun txin => { txin with scriptSig := scriptCode }).toList
  else vin.mapIdx (blankedInput kind scriptCode nIn)

def blankedOutputs (kind : HashKind) (nIn : Nat) (vout : List CTxOut) : List CTxOut :=
  match kind with
  | .all => vout
  | .none => []
  | .single => List.replicate nIn CTxOut.null ++ vout[nIn]?.toList

def blanked (nHashType : Int32) (scriptCode : CScript) (tx : CTransaction) (nIn : Nat) :
    CTransaction :=
  { tx with
    vin := blankedInputs (hashKind nHashType) (anyoneCanPay nHashType) scriptCode nIn tx.vin
    vout := blankedOutputs (hashKind nHashType) nIn tx.vout }

theorem blankScripts_eq (scriptCode : CScript) (nIn : Nat) (vin : List CTxIn) :
    blankScripts nIn scriptCode vin = vin.mapIdx (blankedInput .all scriptCode nIn) := by
  rw [blankScripts]
  congr 1
  funext i txin
  simp [blankedInput]

theorem freeOthers_blankScripts (kind : HashKind) (hk : kind ≠ .all) (scriptCode : CScript)
    (nIn : Nat) (vin : List CTxIn) : freeOthers nIn (blankScripts nIn scriptCode vin) =
      vin.mapIdx (blankedInput kind scriptCode nIn) := by
  rw [freeOthers, blankScripts, List.mapIdx_mapIdx]
  congr 1
  funext i txin
  by_cases hi : i = nIn
  · simp [blankedInput, hi]
  · simp [blankedInput, hi, hk]

/-- Of the inputs blanked one by one the last step leaves all, or the own one. -/
theorem blankInputs_eq (nHashType : Int32) (kind : HashKind) (scriptCode : CScript) {nIn : Nat}
    {tx : CTransaction} (hin : nIn < tx.vin.length) (vout : List CTxOut) :
    blankInputs nIn nHashType { tx with
      vin := tx.vin.mapIdx (blankedInput kind scriptCode nIn), vout := vout } =
    { tx with
      vin := blankedInputs kind (anyoneCanPay nHashType) scriptCode nIn tx.vin
      vout := vout } := by
  unfold blankInputs blankedInputs anyoneCanPay
  by_cases ha : nHashType &&& SIGHASH_ANYONECANPAY = 0
  · simp [ha]
  · have hget : tx.vin[nIn]? = some tx.vin[nIn] := List.getElem?_eq_getElem hin
    obtain ⟨first, rest, hv⟩ := List.exists_cons_of_length_pos (Nat.zero_lt_of_lt hin)
    simp only [ne_eq, ha, not_false_eq_true, if_true, bne_iff_ne, List.getElem?_mapIdx, hget,
      Option.map_some, Option.toList_some]
    have htake : ∀ txin, ((tx.vin.mapIdx (blankedInput kind scriptCode nIn)).set 0 txin).take 1 =
        [txin] := by
      intro txin
      rw [hv, List.mapIdx_cons]
      rfl
    rw [htake]
    simp [blankedInput]

theorem nullBefore_eq {nIn : Nat} {vout : List CTxOut} (hout : nIn < vout.length) :
    ((vout.take (nIn + 1)).mapIdx fun i txout => if i < nIn then CTxOut.null else txout) =
      blankedOutputs .single nIn vout := by
  refine List.ext_getElem? fun i => ?_
  rw [blankedOutputs, List.getElem?_mapIdx, List.getElem?_take, List.getElem?_append,
    List.length_replicate, List.getElem?_replicate, List.getElem?_eq_getElem hout]
  by_cases hi : i < nIn
  · have hlt : i < vout.length := hi.trans hout
    simp [hi, Nat.lt_succ_of_lt hi, List.getElem?_eq_getElem hlt]
  · by_cases heq : i = nIn
    · subst heq
      simp [List.getElem?_eq_getElem hout]
    · have hgt : ¬ i < nIn + 1 := by omega
      have hone : 1 ≤ i - nIn := by omega
      rw [if_neg hgt, if_neg hi, Option.map_none, eq_comm, List.getElem?_eq_none_iff]
      exact hone

/-- With an input in range, and an output where one is asked for, the hash is that of the
blanked transaction. -/
theorem signatureHash_eq (Hash : List UInt8 → uint256) (scriptCode : CScript) {tx : CTransaction}
    {nIn : Nat} (nHashType : Int32) (hin : nIn < tx.vin.length)
    (hout : hashKind nHashType = .single → nIn < tx.vout.length) :
    signatureHash Hash scriptCode tx nIn nHashType =
      Hash ((blanked nHashType (withoutSeparators scriptCode) tx nIn).serialize ++
        wordBytes 4 nHashType.toUInt32.toNat) := by
  have hblank : ∃ txTmp, blankOutputs nIn nHashType
      { tx with vin := blankScripts nIn (withoutSeparators scriptCode) tx.vin } = some txTmp ∧
      blankInputs nIn nHashType txTmp =
        blanked nHashType (withoutSeparators scriptCode) tx nIn := by
    unfold blankOutputs blanked
    unfold hashKind at hout ⊢
    split
    · refine ⟨_, rfl, ?_⟩
      rw [freeOthers_blankScripts .none nofun]
      exact blankInputs_eq nHashType .none _ hin []
    · split
      · rename_i hnone hsingle
        have hout := hout (by rw [if_neg hnone, if_pos hsingle])
        rw [if_neg (Nat.not_le.mpr hout)]
        refine ⟨_, rfl, ?_⟩
        rw [freeOthers_blankScripts .single nofun]
        rw [nullBefore_eq hout]
        exact blankInputs_eq nHashType .single _ hin _
      · refine ⟨_, rfl, ?_⟩
        rw [blankScripts_eq]
        exact blankInputs_eq nHashType .all _ hin tx.vout
  obtain ⟨txTmp, htmp, heq⟩ := hblank
  unfold signatureHash
  rw [if_neg (Nat.not_le.mpr hin)]
  simp only [findAndDelete_separator, htmp, heq]

theorem blankedInput_typed {txin : CTxIn} (h : txin.Typed) {scriptCode : CScript}
    (hs : scriptCode.length < 256 ^ 8) (kind : HashKind) (nIn i : Nat) :
    (blankedInput kind scriptCode nIn i txin).Typed := by
  refine ⟨h.hash, ?_⟩
  rw [blankedInput]
  split
  · exact hs
  · exact Nat.pow_pos (Nat.succ_pos 255)

theorem blanked_typed {tx : CTransaction} (h : tx.Typed) {scriptCode : CScript}
    (hs : scriptCode.length < 256 ^ 8) (nHashType : Int32) {nIn : Nat} (hin : nIn < tx.vin.length)
    (hout : hashKind nHashType = .single → nIn < tx.vout.length) :
    (blanked nHashType scriptCode tx nIn).Typed := by
  have hinputs : (blankedInputs (hashKind nHashType) (anyoneCanPay nHashType) scriptCode nIn
      tx.vin).length < 256 ^ 8 ∧ ∀ txin ∈ blankedInputs (hashKind nHashType)
        (anyoneCanPay nHashType) scriptCode nIn tx.vin, txin.Typed := by
    unfold blankedInputs
    split
    · rw [List.getElem?_eq_getElem hin]
      simp only [Option.map_some, Option.toList_some, List.length_singleton, List.mem_singleton,
        forall_eq]
      exact ⟨by decide, (h.vin _ (List.getElem_mem hin)).hash, hs⟩
    · rw [List.length_mapIdx]
      refine ⟨h.vin_length, ?_⟩
      intro txin hmem
      obtain ⟨i, hi, rfl⟩ := List.mem_mapIdx.mp hmem
      exact blankedInput_typed (h.vin _ (List.getElem_mem hi)) hs _ nIn i
  have houtputs : (blankedOutputs (hashKind nHashType) nIn tx.vout).length < 256 ^ 8 ∧
      ∀ txout ∈ blankedOutputs (hashKind nHashType) nIn tx.vout, txout.Typed := by
    unfold blankedOutputs
    split
    · exact ⟨h.vout_length, h.vout⟩
    · exact ⟨Nat.pow_pos (Nat.succ_pos 255), nofun⟩
    · rename_i hk
      have hlt := hout hk
      rw [List.getElem?_eq_getElem hlt]
      constructor
      · have := h.vout_length
        rw [List.length_append, List.length_replicate, Option.toList_some, List.length_singleton]
        omega
      · intro txout hmem
        rcases List.mem_append.mp hmem with hm | hm
        · rw [List.eq_of_mem_replicate hm]
          exact ⟨⟨by decide, by decide⟩, Nat.pow_pos (Nat.succ_pos 255)⟩
        · rw [Option.toList_some, List.mem_singleton] at hm
          rw [hm]
          exact h.vout _ (List.getElem_mem hlt)
  exact ⟨h.nVersion, hinputs.1, hinputs.2, houtputs.1, houtputs.2⟩

/-- The blanked outputs are equal when the covered ones are. -/
theorem blankedOutputs_iff (kind : HashKind) {nIn nIn' : Nat} {vout vout' : List CTxOut}
    (h : kind = .single → nIn < vout.length ∧ nIn' < vout'.length) :
    blankedOutputs kind nIn vout = blankedOutputs kind nIn' vout' ↔
      SameOutputs kind nIn nIn' vout vout' := by
  cases kind with
  | all => exact Iff.rfl
  | none => simp [blankedOutputs, SameOutputs]
  | single =>
    obtain ⟨hlt, hlt'⟩ := h rfl
    simp only [blankedOutputs, SameOutputs, List.getElem?_eq_getElem hlt,
      List.getElem?_eq_getElem hlt', Option.toList_some, Option.some.injEq]
    constructor
    · intro he
      have hlen := congrArg List.length he
      simp only [List.length_append, List.length_replicate, List.length_singleton] at hlen
      have hn : nIn = nIn' := by omega
      subst hn
      exact ⟨rfl, List.singleton_inj.mp (List.append_cancel_left he)⟩
    · rintro ⟨rfl, he⟩
      rw [he]

/-- Two lists agree in a part of their items where they do so index by index. -/
theorem map_eq_iff {β : Type} (f : CTxIn → β) {vin vin' : List CTxIn} :
    vin.map f = vin'.map f ↔ ∀ i : Nat, vin[i]?.map f = vin'[i]?.map f := by
  rw [List.ext_getElem?_iff]
  simp only [List.getElem?_map]

/-- Inputs that are blanked alike agree in what is covered. -/
theorem mapIdx_blanked {kind : HashKind} {code code' : CScript} {nIn nIn' : Nat}
    {vin vin' : List CTxIn} (h : nIn < vin.length) (h' : nIn' < vin'.length)
    (he : vin.mapIdx (blankedInput kind code nIn) = vin'.mapIdx (blankedInput kind code' nIn')) :
    code = code' ∧ SameInputs kind false code nIn nIn' vin vin' := by
  have hlen : vin.length = vin'.length := by simpa using congrArg List.length he
  have hat : ∀ i (a b : CTxIn), vin[i]? = some a → vin'[i]? = some b →
      blankedInput kind code nIn i a = blankedInput kind code' nIn' i b := by
    intro i a b ha hb
    have hi := congrArg (fun l : List CTxIn => l[i]?) he
    simp only [List.getElem?_mapIdx, ha, hb, Option.map_some, Option.some.injEq] at hi
    exact hi
  have hpart : ∀ {β : Type} (f : CTxIn → β), (∀ (i : Nat) (a b : CTxIn), vin[i]? = some a →
      vin'[i]? = some b → f a = f b) → vin.map f = vin'.map f := by
    intro β f hf
    refine (map_eq_iff f).mpr fun i => ?_
    by_cases hi : i < vin.length
    · have ha := List.getElem?_eq_getElem hi
      have hb := List.getElem?_eq_getElem (hlen ▸ hi : i < vin'.length)
      rw [ha, hb, Option.map_some, Option.map_some, hf i _ _ ha hb]
    · rw [List.getElem?_eq_none (not_lt.mp hi), List.getElem?_eq_none (hlen ▸ not_lt.mp hi)]
  have ha := List.getElem?_eq_getElem h
  have hb := List.getElem?_eq_getElem (hlen ▸ h : nIn < vin'.length)
  have ha' := List.getElem?_eq_getElem (hlen ▸ h' : nIn' < vin.length)
  have hb' := List.getElem?_eq_getElem h'
  have hown := hat nIn _ _ ha hb
  have hown' := hat nIn' _ _ ha' hb'
  rw [blankedInput, blankedInput, CTxIn.mk.injEq] at hown hown'
  obtain ⟨-, hcode, hseq⟩ := hown
  obtain ⟨-, hcode', hseq'⟩ := hown'
  have hprev : vin.map CTxIn.prevout = vin'.map CTxIn.prevout := by
    refine hpart _ fun i a b hia hib => ?_
    simpa [blankedInput] using congrArg CTxIn.prevout (hat i a b hia hib)
  have hseqs : kind = .all → vin.map CTxIn.nSequence = vin'.map CTxIn.nSequence := by
    intro hk
    refine hpart _ fun i a b hia hib => ?_
    simpa [blankedInput, hk] using congrArg CTxIn.nSequence (hat i a b hia hib)
  rw [SameInputs, if_neg Bool.false_ne_true, ha, hb']
  by_cases hn : nIn = nIn'
  · subst hn
    rw [if_pos rfl, if_pos rfl] at hcode
    rw [if_pos (.inl rfl), if_pos (.inl rfl)] at hseq
    refine ⟨hcode, hprev, ?_, .inl rfl⟩
    split
    · rename_i hk
      exact hseqs hk
    · rw [Option.map_some, Option.map_some, hseq]
  · rw [if_pos rfl, if_neg hn] at hcode
    rw [if_neg (Ne.symm hn), if_pos rfl] at hcode'
    refine ⟨hcode.trans hcode', hprev, ?_, .inr ⟨hcode, ?_⟩⟩
    · split
      · rename_i hk
        exact hseqs hk
      · rename_i hk
        simp only [hn, Ne.symm hn, hk, or_self, or_false, if_true, if_false] at hseq hseq'
        rw [Option.map_some, Option.map_some, hseq, ← hseq']
    · by_cases hk : kind = .all
      · exact .inl hk
      · simp only [hn, hk, or_self, or_false, if_true, if_false] at hseq
        exact .inr (by rw [Option.map_some, hseq])

/-- Inputs that agree in what is covered are blanked alike. -/
theorem SameInputs.mapIdx {kind : HashKind} {code : CScript} {nIn nIn' : Nat}
    {vin vin' : List CTxIn} (h : nIn < vin.length) (h' : nIn' < vin'.length)
    (hs : SameInputs kind false code nIn nIn' vin vin') :
    vin.mapIdx (blankedInput kind code nIn) = vin'.mapIdx (blankedInput kind code nIn') := by
  rw [SameInputs, if_neg Bool.false_ne_true] at hs
  obtain ⟨hprev, hseq, hplace⟩ := hs
  refine List.ext_getElem? fun i => ?_
  rw [List.getElem?_mapIdx, List.getElem?_mapIdx]
  have hp := (map_eq_iff _).mp hprev i
  cases ha : vin[i]? with
  | none =>
    rw [ha, Option.map_none, eq_comm, Option.map_eq_none_iff] at hp
    rw [hp]
    rfl
  | some a =>
    rw [ha, Option.map_some, eq_comm, Option.map_eq_some_iff] at hp
    obtain ⟨b, hb, hpb⟩ := hp
    rw [hb, Option.map_some, Option.map_some]
    simp only [Option.some.injEq, blankedInput, CTxIn.mk.injEq]
    refine ⟨hpb.symm, ?_, ?_⟩
    · rcases hplace with rfl | ⟨rfl, -⟩
      · rfl
      · simp
    · by_cases hk : kind = .all
      · rw [if_pos hk] at hseq
        have hi := (map_eq_iff _).mp hseq i
        rw [ha, hb] at hi
        simpa [hk] using hi
      · rw [if_neg hk] at hseq
        simp only [hk, or_false]
        -- only the own sequence is left, and it stands at one place or is zero
        rcases hplace with rfl | ⟨-, hzero⟩
        · split
          · rename_i hi
            subst hi
            rw [ha, hb] at hseq
            exact Option.some.inj hseq
          · rfl
        · have hzero := hzero.resolve_left hk
          have hzero' := hseq.symm.trans hzero
          have hleft : (if i = nIn then a.nSequence else 0) = 0 := by
            split
            · rename_i hi
              subst hi
              rw [ha] at hzero
              exact Option.some.inj hzero
            · rfl
          have hright : (if i = nIn' then b.nSequence else 0) = 0 := by
            split
            · rename_i hi
              subst hi
              rw [hb] at hzero'
              exact Option.some.inj hzero'
            · rfl
          rw [hleft, hright]

/-- The blanked inputs are equal when the covered parts are and the script codes. -/
theorem blankedInputs_iff (kind : HashKind) (fAnyone : Bool) (code code' : CScript)
    {nIn nIn' : Nat} {vin vin' : List CTxIn} (h : nIn < vin.length) (h' : nIn' < vin'.length) :
    blankedInputs kind fAnyone code nIn vin = blankedInputs kind fAnyone code' nIn' vin' ↔
      code = code' ∧ SameInputs kind fAnyone code nIn nIn' vin vin' := by
  unfold blankedInputs
  cases fAnyone with
  | true =>
    rw [if_pos rfl, if_pos rfl, SameInputs, if_pos rfl, List.getElem?_eq_getElem h,
      List.getElem?_eq_getElem h']
    simp only [Option.map_some, Option.toList_some, List.cons.injEq, and_true, CTxIn.mk.injEq,
      Option.some.injEq, Prod.mk.injEq]
    tauto
  | false =>
    rw [if_neg Bool.false_ne_true, if_neg Bool.false_ne_true]
    constructor
    · exact mapIdx_blanked h h'
    · rintro ⟨rfl, hs⟩
      exact hs.mapIdx h h'

/-- Where the hash of a byte string is injective, two signature hashes of one type are equal
exactly when the transactions agree on what that type covers. -/
theorem signatureHash_commits {Hash : List UInt8 → uint256} (hHash : Function.Injective Hash)
    (nHashType : Int32) {tx tx' : CTransaction} (ht : tx.Typed) (ht' : tx'.Typed)
    {nIn nIn' : Nat} (hin : nIn < tx.vin.length) (hin' : nIn' < tx'.vin.length)
    (hout : hashKind nHashType = .single → nIn < tx.vout.length ∧ nIn' < tx'.vout.length)
    {scriptCode scriptCode' : CScript} (hs : scriptCode.length < 256 ^ 8)
    (hs' : scriptCode'.length < 256 ^ 8) :
    signatureHash Hash scriptCode tx nIn nHashType =
        signatureHash Hash scriptCode' tx' nIn' nHashType ↔
      SameCovered nHashType tx tx' nIn nIn' scriptCode scriptCode' := by
  have hcode := (withoutSeparators_length scriptCode).trans_lt hs
  have hcode' := (withoutSeparators_length scriptCode').trans_lt hs'
  have htyped := blanked_typed ht hcode nHashType hin fun hk => (hout hk).1
  have htyped' := blanked_typed ht' hcode' nHashType hin' fun hk => (hout hk).2
  rw [signatureHash_eq Hash scriptCode nHashType hin fun hk => (hout hk).1,
    signatureHash_eq Hash scriptCode' nHashType hin' fun hk => (hout hk).2, hHash.eq_iff]
  have hser : (blanked nHashType (withoutSeparators scriptCode) tx nIn).serialize ++
      wordBytes 4 nHashType.toUInt32.toNat =
        (blanked nHashType (withoutSeparators scriptCode') tx' nIn').serialize ++
          wordBytes 4 nHashType.toUInt32.toNat ↔
      blanked nHashType (withoutSeparators scriptCode) tx nIn =
        blanked nHashType (withoutSeparators scriptCode') tx' nIn' :=
    ⟨serialize_injective htyped htyped', fun he => by rw [he]⟩
  rw [hser, blanked, blanked, CTransaction.mk.injEq,
    blankedInputs_iff _ _ _ _ hin hin', blankedOutputs_iff _ hout]
  constructor
  · rintro ⟨hv, htime, ⟨hscript, hi⟩, ho, hlock⟩
    exact ⟨hv, htime, hlock, hscript, hi, ho⟩
  · rintro ⟨hv, htime, hlock, hscript, hi, ho⟩
    exact ⟨hv, htime, ⟨hscript, hi⟩, ho, hlock⟩

namespace Sample

def byteHash (bytes : List UInt8) : Nat := leValue (bytes ++ [1])

theorem byteHash_pos (bytes : List UInt8) : 0 < byteHash bytes := by
  induction bytes with
  | nil => decide
  | cons b bytes ih =>
    rw [byteHash, List.cons_append, leValue]
    rw [byteHash] at ih
    omega

theorem byteHash_injective : Function.Injective byteHash := by
  intro l l' h
  induction l generalizing l' with
  | nil =>
    cases l' with
    | nil => rfl
    | cons b l' =>
      have hpos := byteHash_pos l'
      have hone : byteHash [] = 1 := rfl
      rw [hone] at h
      rw [byteHash] at hpos
      rw [byteHash, List.cons_append, leValue] at h
      omega
  | cons a l ih =>
    cases l' with
    | nil =>
      have hpos := byteHash_pos l
      have hone : byteHash [] = 1 := rfl
      rw [hone] at h
      rw [byteHash] at hpos
      rw [byteHash, List.cons_append, leValue] at h
      omega
    | cons b l' =>
      rw [byteHash, byteHash, List.cons_append, List.cons_append, leValue, leValue] at h
      have ha := a.toNat_lt
      have hb := b.toNat_lt
      have hhead : a.toNat = b.toNat := by omega
      have htail : byteHash l = byteHash l' := by
        rw [byteHash, byteHash]
        omega
      rw [UInt8.toNat_inj.mp hhead, ih htail]

def twoInputs (nSequence : UInt32) (scriptSig : CScript) (nValue : Int) : CTransaction where
  nTime := 1600000000
  vin := [{ prevout := ⟨5, 0⟩, scriptSig := scriptSig },
    { prevout := ⟨6, 1⟩, scriptSig := [], nSequence := nSequence }]
  vout := [{ nValue := nValue, scriptPubKey := [OP_1] }]

theorem twoInputs_typed (nSequence : UInt32) {scriptSig : CScript}
    (hs : scriptSig.length < 256 ^ 8) {nValue : Int} (hv : InSigned 8 nValue) :
    (twoInputs nSequence scriptSig nValue).Typed where
  nVersion := show InSigned 4 1 by decide
  vin_length := show 2 < 256 ^ 8 by decide
  vin := by
    simp only [twoInputs, List.mem_cons, List.not_mem_nil, or_false, forall_eq_or_imp, forall_eq]
    exact ⟨⟨show 5 < 256 ^ 32 by decide, hs⟩,
      ⟨show 6 < 256 ^ 32 by decide, show 0 < 256 ^ 8 by decide⟩⟩
  vout_length := show 1 < 256 ^ 8 by decide
  vout := by
    simp only [twoInputs, List.mem_cons, List.not_mem_nil, or_false, forall_eq]
    exact ⟨hv, show 1 < 256 ^ 8 by decide⟩

end Sample

/-- Under `SIGHASH_NONE` the outputs, the sequences of others, the scripts of the inputs and code
separators do not matter. -/
theorem signatureHash_commits_none :
    signatureHash Sample.byteHash [OP_1, OP_CODESEPARATOR] (Sample.twoInputs 3 [OP_1, OP_1] 7) 0
        SIGHASH_NONE =
      signatureHash Sample.byteHash [OP_1] (Sample.twoInputs 4 [] 9) 0 SIGHASH_NONE :=
  (signatureHash_commits Sample.byteHash_injective SIGHASH_NONE
    (Sample.twoInputs_typed 3 (by decide) (by decide))
    (Sample.twoInputs_typed 4 (by decide) (by decide))
    (by decide) (by decide) (by decide) (by decide) (by decide)).mpr
      ⟨rfl, rfl, rfl, by decide, ⟨rfl, rfl, .inl rfl⟩, trivial⟩

/-- The place of the own input is signed too: one transaction, one script code and one hash type
make different hashes for two inputs. -/
theorem signatureHash_shows_place : Function.Injective Sample.byteHash ∧
    signatureHash Sample.byteHash [OP_1] (Sample.twoInputs 0xffffffff [] 9) 0 SIGHASH_ALL ≠
      signatureHash Sample.byteHash [OP_1] (Sample.twoInputs 0xffffffff [] 9) 1 SIGHASH_ALL :=
  ⟨Sample.byteHash_injective, by decide +kernel⟩

end Triangles
