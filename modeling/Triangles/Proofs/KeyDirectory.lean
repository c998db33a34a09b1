import Triangles.Lib.Trace
import Triangles.Model.SecureMsg

/-! Which runs keep the directory of public keys right: the exact condition on every call that
adds keys. Keys recovered from signatures need none. -/

namespace Triangles

open Trace Outcome

/-- The point, in compressed or uncompressed form, hashes to the id. -/
def OwnKey (lib : SmsgLib) (id : uint160) (P : lib.Point) : Prop :=
  lib.hash160 (lib.i2o true P) = id ∨ lib.hash160 (lib.i2o false P) = id

def HashesTo (lib : SmsgLib) (id : uint160) (pk : List UInt8) : Prop :=
  ∃ P, lib.o2i pk = some P ∧ OwnKey lib id P

theorem hashesTo_i2o {lib : SmsgLib} {id : uint160} {fCompressed : Bool} {P : lib.Point} :
    HashesTo lib id (lib.i2o fCompressed P) ↔ OwnKey lib id P := by
  unfold HashesTo
  simp [lib.o2i_i2o]

/-- Every stored pair is an id and a key that hashes to it. -/
def DirectoryRight (lib : SmsgLib) (db : SmsgDb) : Prop :=
  ∀ id pk, db id = some pk → HashesTo lib id pk

def insertPair (db : SmsgDb) (x : uint160 × List UInt8) : SmsgDb :=
  (insertAddress db x.1 x.2 true).1

/-- Each pair that finds its id free hashes to it. -/
def PairsHonest (lib : SmsgLib) (db : SmsgDb) (pairs : List (uint160 × List UInt8)) : Prop :=
  ∀ x ∈ trace insertPair db pairs, x.1 x.2.1 = none → HashesTo lib x.2.1 x.2.2

section Insert

variable {lib : SmsgLib} {db : SmsgDb}

theorem insertPair_eq (x : uint160 × List UInt8) :
    insertPair db x = if db x.1 = none then Function.update db x.1 (some x.2) else db := by
  unfold insertPair insertAddress
  cases h : db x.1 with
  | none => simp
  | some pk => simp

theorem insertPair_free {x : uint160 × List UInt8} {id : uint160} :
    insertPair db x id = none ↔ db id = none ∧ id ≠ x.1 := by
  rw [insertPair_eq]
  by_cases hid : id = x.1
  · subst hid
    split
    · simp
    · simp_all
  · split <;> simp [Function.update_of_ne, hid]

/-- Entries are never overwritten. -/
theorem insertPair_keeps {x : uint160 × List UInt8} {id : uint160} {pk : List UInt8}
    (h : db id = some pk) : insertPair db x id = some pk := by
  rw [insertPair_eq]
  split
  · rename_i hnone
    have hne : id ≠ x.1 := by
      rintro rfl
      rw [hnone] at h
      cases h
    rw [Function.update_of_ne hne, h]
  · exact h

theorem insertAll_keeps {pairs : List (uint160 × List UInt8)} {id : uint160} {pk : List UInt8}
    (h : db id = some pk) : insertAll db pairs id = some pk := by
  induction pairs generalizing db with
  | nil => exact h
  | cons x pairs ih => exact ih (insertPair_keeps h)

theorem insertPair_right (hr : DirectoryRight lib db) (x : uint160 × List UInt8) :
    DirectoryRight lib (insertPair db x) ↔ (db x.1 = none → HashesTo lib x.1 x.2) := by
  rw [insertPair_eq]
  constructor
  · intro h hnone
    rw [if_pos hnone] at h
    exact h x.1 x.2 (Function.update_self ..)
  · intro h id pk hid
    split at hid
    · rename_i hnone
      by_cases hx : id = x.1
      · subst hx
        rw [Function.update_self] at hid
        cases hid
        exact h hnone
      · rw [Function.update_of_ne hx] at hid
        exact hr id pk hid
    · exact hr id pk hid

/-- A whole batch leaves the directory right exactly when every pair that is stored is. -/
theorem insertAll_right (hr : DirectoryRight lib db) (pairs : List (uint160 × List UInt8)) :
    DirectoryRight lib (insertAll db pairs) ↔ PairsHonest lib db pairs := by
  induction pairs generalizing db with
  | nil =>
    constructor
    · intro _ x hx
      cases hx
    · intro _
      exact hr
  | cons x pairs ih =>
    unfold PairsHonest
    rw [trace_cons, List.forall_mem_cons, ← insertPair_right hr x]
    constructor
    · intro h
      have hx : DirectoryRight lib (insertPair db x) := by
        intro id pk hid
        have hkept : insertAll (insertPair db x) pairs id = some pk := insertAll_keeps hid
        exact h id pk hkept
      exact ⟨hx, (ih hx).mp h⟩
    · rintro ⟨hx, h⟩
      exact (ih hx).mpr h

end Insert

/-- The key that `SecureMsgDecrypt` inserts is the one whose hash it compared. -/
theorem payloadSender_hashes {lib : SmsgLib} {host : SmsgHost} {vchPayload vchMessage : List UInt8}
    {pair : uint160 × List UInt8} (h : payloadSender lib host vchPayload vchMessage = .ok pair) :
    HashesTo lib pair.1 pair.2 := by
  simp only [payloadSender, bind_ok, check_ok, pure_ok, beq_iff_eq] at h
  obtain ⟨ckidFrom, -, -, -, vchSig, -, cpk, hcpk, -, -, -, haddr, rfl⟩ := h
  -- the signature recovers a point, written compressed or not
  obtain ⟨c, P, rfl⟩ : ∃ c P, cpk = lib.i2o c P := by
    unfold recoverPubKey at hcpk
    simp only at hcpk
    split at hcpk
    · cases hcpk
    · split at hcpk
      · cases hcpk
      · cases hcpk
        exact ⟨_, _, rfl⟩
  have hid : lib.hash160 (lib.i2o c P) = ckidFrom := by
    simp only [CTrianglesAddress.ofKeyID, CTrianglesAddress.mk.injEq, true_and] at haddr
    exact haddr.symm
  refine ⟨P, lib.o2i_i2o c P, ?_⟩
  cases c with
  | true => exact .inl hid
  | false => exact .inr hid

theorem decrypt_pair_hashes {lib : SmsgLib} {host : SmsgHost} {fTestOnly : Bool}
    {address payload : List UInt8} {smsg : SecureMessage} {msg : MessageData}
    {pair : uint160 × List UInt8}
    (h : secureMsgDecrypt lib host fTestOnly address smsg payload = .ok (some (msg, some pair))) :
    HashesTo lib pair.1 pair.2 := by
  simp only [secureMsgDecrypt, bind_ok, check_ok] at h
  obtain ⟨-, -, keyDest, -, keys, -, MAC, -, -, -, h⟩ := h
  split at h
  · cases h
  · simp only [bind_ok, pure_ok, Option.some.injEq] at h
    obtain ⟨r, hopen, rfl⟩ := h
    unfold openPayload at hopen
    split at hopen
    · cases hopen
    · simp only [parsePayload, bind_ok] at hopen
      obtain ⟨first, -, hopen⟩ := hopen
      split at hopen
      · simp only [parseAnonymous, bind_ok, pure_ok, Prod.mk.injEq] at hopen
        obtain ⟨vchMessage, -, -, hnone⟩ := hopen
        cases hnone
      · simp only [parseSigned, bind_ok, pure_ok, Prod.mk.injEq, Option.some.injEq] at hopen
        obtain ⟨vchMessage, -, pair', hpair, -, rfl⟩ := hopen
        exact payloadSender_hashes hpair

/-! What a scan is given to read: the 33-byte pushes of an input and the output it spends. -/

def pushedKeys : Nat → CScript → List (List UInt8)
  | 0, _ => []
  | rounds + 1, pc =>
    match getOp pc with
    | none => []
    | some (opcode, vch, pc) =>
      if opcode = 33 then vch :: pushedKeys rounds pc else pushedKeys rounds pc

def paidKeyID (lib : SmsgLib) (fTestNet : Bool) (txOut : CTxOut) : Option uint160 :=
  (extractDestination lib.hash160 txOut.scriptPubKey).bind fun dest =>
    (CTrianglesAddress.ofDestination fTestNet dest).getKeyID fTestNet

/-- The key id that the spent output pays to, with the first 33-byte push as a point. -/
def pairedKey (lib : SmsgLib) (fTestNet : Bool) (spent : Option CTxOut)
    (pushes : List (List UInt8)) : Option (uint160 × lib.Point) :=
  spent.bind fun txOut => pushes.head?.bind fun vch => (lib.o2i vch).bind fun P =>
    (paidKeyID lib fTestNet txOut).map fun id => (id, P)

def givenKey (lib : SmsgLib) (fTestNet : Bool) (view : ScanView) (txin : CTxIn) :
    Option (uint160 × lib.Point) :=
  pairedKey lib fTestNet (view.spentOutput txin) (pushedKeys txin.scriptSig.length txin.scriptSig)

def readPushes (spent : Option CTxOut) (pushes : List (List UInt8)) : List (List UInt8) :=
  if spent.isSome then pushes.take 1 else pushes

/-- No push makes `GetPubKey` throw. -/
def ReadsKeys (lib : SmsgLib) (view : ScanView) (txin : CTxIn) : Prop :=
  ∀ vch ∈ readPushes (view.spentOutput txin) (pushedKeys txin.scriptSig.length txin.scriptSig),
    (lib.o2i vch).isSome

/-- Each input that is the first to give a key for a free id gives the owner's. -/
def InputsHonest (lib : SmsgLib) (given : CTxIn → Option (uint160 × lib.Point)) (db : SmsgDb)
    (inputs : List CTxIn) : Prop :=
  ∀ before txin after, inputs = before ++ txin :: after → ∀ id P, given txin = some (id, P) →
    db id = none → (∀ earlier ∈ before, ∀ P', given earlier ≠ some (id, P')) → OwnKey lib id P

/-- The calls after which the directory is right, if it was before: the key that the user types
in with an address hashes to the key id of that address, and the key that an input pushes hashes
to the key id its spent output pays to, unless the id is taken or nothing is stored. -/
def SmsgOp.Honest (lib : SmsgLib) (fTestNet : Bool) (db : SmsgDb) : SmsgOp → Prop
  | .addAddress address publicKey fOpened fWritten =>
    fOpened = true → fWritten = true → ∀ id P,
      (CTrianglesAddress.setString lib.hash address).getKeyID fTestNet = some id →
      (CTrianglesAddress.setString lib.hash address).toString lib.hash = address →
      lib.o2i ((decodeBase58 publicKey).getD []) = some P → db id = none → OwnKey lib id P
  | .scanBlocks view blocks fOpened fCommitted =>
    fOpened = true → fCommitted = true →
      (∀ txin ∈ scannedInputs view blocks, ReadsKeys lib view txin) →
      InputsHonest lib (givenKey lib fTestNet view) db (scannedInputs view blocks)
  | .decrypt .. => True

section Scan

variable {lib : SmsgLib} {fTestNet : Bool} {db : SmsgDb}

theorem scanScript_ok {spent : Option CTxOut} {rounds : Nat} {pc : CScript}
    {r : Option (uint160 × List UInt8)} :
    scanScript lib fTestNet spent rounds pc = .ok r ↔
      (∀ vch ∈ readPushes spent (pushedKeys rounds pc), (lib.o2i vch).isSome) ∧
        r = (pairedKey lib fTestNet spent (pushedKeys rounds pc)).map
          fun x => (x.1, lib.i2o true x.2) := by
  induction rounds generalizing pc with
  | zero => cases spent <;> simp [scanScript, pushedKeys, readPushes, pairedKey, pure_ok, @eq_comm _ r]
  | succ rounds ih =>
    unfold scanScript pushedKeys
    cases hop : getOp pc with
    | none => cases spent <;> simp [readPushes, pairedKey, pure_ok, @eq_comm _ r]
    | some op =>
      obtain ⟨opcode, vch, rest⟩ := op
      by_cases hpush : opcode = 33
      · have hlen : ∀ P, (lib.i2o true P).length = 33 := fun P => by simp [lib.i2o_length]
        cases hP : lib.o2i vch with
        | none => cases spent <;> simp [hpush, hP, readPushes]
        | some P =>
          cases spent with
          | none => simp [hpush, hP, hlen, ih, readPushes, pairedKey]
          | some txOut =>
            -- the first push of a spent output settles the input
            cases hdest : extractDestination lib.hash160 txOut.scriptPubKey with
            | none => simp [hpush, hP, hlen, hdest, readPushes, pairedKey, paidKeyID, pure_ok,
                @eq_comm _ r]
            | some dest =>
              cases hid : (CTrianglesAddress.ofDestination fTestNet dest).getKeyID fTestNet <;>
                simp [hpush, hP, hlen, hdest, hid, readPushes, pairedKey, paidKeyID, pure_ok,
                  @eq_comm _ r]
      · simp only [ne_eq, hpush, not_false_eq_true, if_true, if_false, ih]

theorem scanPairs_ok {view : ScanView} {blocks : List CBlock}
    {pairs : List (uint160 × List UInt8)} :
    scanPairs lib fTestNet view blocks = .ok pairs ↔
      (∀ txin ∈ scannedInputs view blocks, ReadsKeys lib view txin) ∧
        pairs = (scannedInputs view blocks).filterMap fun txin =>
          (givenKey lib fTestNet view txin).map fun x => (x.1, lib.i2o true x.2) := by
  have hmap := @mapM_ok_iff _ _ _ (fun txin => scanScript lib fTestNet (view.spentOutput txin)
      txin.scriptSig.length txin.scriptSig) (ReadsKeys lib view)
      (fun txin => (givenKey lib fTestNet view txin).map fun x => (x.1, lib.i2o true x.2))
      (fun txin r => scanScript_ok)
  simp only [scanPairs, bind_ok, pure_ok, hmap]
  constructor
  · rintro ⟨found, ⟨hread, rfl⟩, rfl⟩
    exact ⟨hread, by rw [List.filterMap_map]; rfl⟩
  · rintro ⟨hread, rfl⟩
    exact ⟨_, ⟨hread, rfl⟩, by rw [List.filterMap_map]; rfl⟩

/-- Splitting off the first input, the ids that it takes are no longer free. -/
theorem inputsHonest_cons {given : CTxIn → Option (uint160 × lib.Point)} {txin : CTxIn}
    {inputs : List CTxIn} :
    InputsHonest lib given db (txin :: inputs) ↔
      (∀ id P, given txin = some (id, P) → db id = none → OwnKey lib id P) ∧
        ∀ before x after, inputs = before ++ x :: after → ∀ id P, given x = some (id, P) →
          db id = none → (∀ P', given txin ≠ some (id, P')) →
          (∀ earlier ∈ before, ∀ P', given earlier ≠ some (id, P')) → OwnKey lib id P := by
  constructor
  · intro h
    refine ⟨fun id P hgiven hfree => h [] txin inputs rfl id P hgiven hfree (by simp), ?_⟩
    rintro before x after rfl id P hgiven hfree hfirst hearlier
    exact h (txin :: before) x after rfl id P hgiven hfree
      (List.forall_mem_cons.mpr ⟨hfirst, hearlier⟩)
  · rintro ⟨hfirst, hrest⟩ before x after hsplit id P hgiven hfree hearlier
    cases before with
    | nil =>
      obtain ⟨rfl, rfl⟩ := List.cons.inj hsplit
      exact hfirst id P hgiven hfree
    | cons y before =>
      obtain ⟨rfl, rfl⟩ := List.cons.inj hsplit
      obtain ⟨hne, hearlier⟩ := List.forall_mem_cons.mp hearlier
      exact hrest before x after rfl id P hgiven hfree hne hearlier

theorem pairsHonest_inputs {given : CTxIn → Option (uint160 × lib.Point)} (inputs : List CTxIn) :
    PairsHonest lib db (inputs.filterMap fun txin =>
        (given txin).map fun x => (x.1, lib.i2o true x.2)) ↔
      InputsHonest lib given db inputs := by
  induction inputs generalizing db with
  | nil => simp [PairsHonest, InputsHonest]
  | cons txin inputs ih =>
    rw [inputsHonest_cons]
    cases hgiven : given txin with
    | none =>
      rw [List.filterMap_cons_none (by rw [hgiven]; rfl), ih]
      simp [InputsHonest]
    | some x =>
      obtain ⟨id, P⟩ := x
      rw [List.filterMap_cons_some (by rw [hgiven]; rfl), PairsHonest, trace_cons,
        List.forall_mem_cons]
      refine and_congr ?_ (ih.trans ?_)
      · simp [hashesTo_i2o]
      · simp only [InputsHonest, insertPair_free]
        constructor
        · intro h before x after hsplit id' P' hx hfree hne hearlier
          exact h before x after hsplit id' P' hx ⟨hfree, fun he => hne P (by rw [he])⟩ hearlier
        · intro h before x after hsplit id' P' hx hfree hearlier
          exact h before x after hsplit id' P' hx hfree.1
            (fun P'' he => hfree.2 (Prod.ext_iff.mp (Option.some.inj he)).1.symm) hearlier

/-- `SecureMsgAddAddress` gets as far as inserting for a key address in its own spelling and a
text that decodes to a point. -/
theorem addAddressPair_ok {address publicKey : List UInt8} {pair : uint160 × List UInt8} :
    addAddressPair lib fTestNet address publicKey = .ok pair ↔
      (CTrianglesAddress.setString lib.hash address).getKeyID fTestNet = some pair.1 ∧
        (CTrianglesAddress.setString lib.hash address).toString lib.hash = address ∧
        pair.2 = (decodeBase58 publicKey).getD [] ∧ (lib.o2i pair.2).isSome := by
  unfold addAddressPair
  simp only
  by_cases hvalid : (CTrianglesAddress.setString lib.hash address).isValid fTestNet = true
  · cases hid : (CTrianglesAddress.setString lib.hash address).getKeyID fTestNet with
    | none => simp [hvalid]
    | some id =>
      cases hP : lib.o2i ((decodeBase58 publicKey).getD []) with
      | none =>
        simp only [hvalid, Bool.not_true, Bool.false_eq_true, if_false, reduceCtorEq, false_iff]
        rintro ⟨-, -, hpair, hsome⟩
        rw [hpair, hP] at hsome
        cases hsome
      | some P =>
        by_cases htext : (CTrianglesAddress.setString lib.hash address).toString lib.hash = address
        · simp only [hvalid, htext, Bool.not_true, Bool.false_eq_true, if_false, ne_eq,
            not_true_eq_false, Except.ok.injEq, Option.some.injEq, true_and, Prod.ext_iff]
          constructor
          · rintro ⟨hfirst, hsecond⟩
            exact ⟨hfirst, hsecond.symm, by rw [← hsecond, hP]; rfl⟩
          · rintro ⟨hfirst, hsecond, -⟩
            exact ⟨hfirst, hsecond.symm⟩
        · simp [hvalid, htext]
  · simp [hvalid, CTrianglesAddress.getKeyID]

end Scan

section Run

variable {lib : SmsgLib} {fTestNet : Bool} {db : SmsgDb}

theorem pairsHonest_singleton {x : uint160 × List UInt8} :
    PairsHonest lib db [x] ↔ (db x.1 = none → HashesTo lib x.1 x.2) := by
  simp [PairsHonest]

/-- What a call inserts is honest. -/
def InsertsHonest (lib : SmsgLib) (fTestNet : Bool) (db : SmsgDb) (op : SmsgOp) : Prop :=
  (op.inserts lib fTestNet).2 = true → PairsHonest lib db (op.inserts lib fTestNet).1

theorem addAddress_honest {address publicKey : List UInt8} {fOpened fWritten : Bool} :
    InsertsHonest lib fTestNet db (.addAddress address publicKey fOpened fWritten) ↔
      SmsgOp.Honest lib fTestNet db (.addAddress address publicKey fOpened fWritten) := by
  simp only [InsertsHonest, SmsgOp.inserts, SmsgOp.Honest]
  cases hp : addAddressPair lib fTestNet address publicKey with
  | error n =>
    simp only [Bool.false_eq_true, false_implies, true_iff]
    intro _ _ id P hid htext hP
    have hok : addAddressPair lib fTestNet address publicKey =
        .ok (id, (decodeBase58 publicKey).getD []) :=
      addAddressPair_ok.mpr ⟨hid, htext, rfl, Option.isSome_iff_exists.mpr ⟨P, hP⟩⟩
    rw [hp] at hok
    cases hok
  | ok pair =>
    obtain ⟨hid, htext, hkey, hsome⟩ := addAddressPair_ok.mp hp
    simp only [pairsHonest_singleton, Bool.and_eq_true, and_imp, HashesTo, hkey]
    constructor
    · intro h hopened hwritten id P hid' _ hP hfree
      obtain rfl : pair.1 = id := Option.some.inj (hid.symm.trans hid')
      obtain ⟨P', hP', hown⟩ := h hopened hwritten hfree
      obtain rfl : P' = P := Option.some.inj (hP'.symm.trans hP)
      exact hown
    · intro h hopened hwritten hfree
      rw [hkey] at hsome
      obtain ⟨P, hP⟩ := Option.isSome_iff_exists.mp hsome
      exact ⟨P, hP, h hopened hwritten pair.1 P hid htext hP hfree⟩

theorem scanBlocks_honest {view : ScanView} {blocks : List CBlock} {fOpened fCommitted : Bool} :
    InsertsHonest lib fTestNet db (.scanBlocks view blocks fOpened fCommitted) ↔
      SmsgOp.Honest lib fTestNet db (.scanBlocks view blocks fOpened fCommitted) := by
  simp only [InsertsHonest, SmsgOp.inserts, SmsgOp.Honest]
  cases hp : scanPairs lib fTestNet view blocks with
  | error e =>
    simp only [Bool.false_eq_true, false_implies, true_iff]
    intro _ _ hread
    obtain ⟨pairs, hok⟩ : ∃ pairs, scanPairs lib fTestNet view blocks = .ok pairs :=
      ⟨_, scanPairs_ok.mpr ⟨hread, rfl⟩⟩
    rw [hp] at hok
    cases hok
  | ok pairs =>
    obtain ⟨hread, rfl⟩ := scanPairs_ok.mp hp
    simp only [Bool.and_eq_true, and_imp, pairsHonest_inputs]
    constructor
    · intro h hopened hcommitted _
      exact h hopened hcommitted
    · intro h hopened hcommitted
      exact h hopened hcommitted hread

theorem insertsHonest_iff (op : SmsgOp) :
    InsertsHonest lib fTestNet db op ↔ op.Honest lib fTestNet db := by
  cases op with
  | addAddress address publicKey fOpened fWritten => exact addAddress_honest
  | scanBlocks view blocks fOpened fCommitted => exact scanBlocks_honest
  | decrypt host fTestOnly address smsg payload fOpened fWritten =>
    simp only [InsertsHonest, SmsgOp.inserts, SmsgOp.Honest, iff_true]
    intro _
    split
    · rename_i msg pair h
      exact pairsHonest_singleton.mpr fun _ => decrypt_pair_hashes h
    · intro x hx
      cases hx

theorem run_right (hr : DirectoryRight lib db) (op : SmsgOp) :
    DirectoryRight lib (op.run lib fTestNet db) ↔ op.Honest lib fTestNet db := by
  rw [← insertsHonest_iff, SmsgOp.run, InsertsHonest]
  cases (op.inserts lib fTestNet).2 with
  | false => simpa using hr
  | true => simpa using insertAll_right hr _

end Run

/-- From an empty database, every stored pair of every state of a run is right exactly when
every call is honest in the state it meets. Messages need no condition. -/
theorem keyDirectory_right_iff (lib : SmsgLib) (fTestNet : Bool) (ops : List SmsgOp) :
    (∀ p, p <+: ops →
      DirectoryRight lib (p.foldl (SmsgOp.run lib fTestNet) fun _ => none)) ↔
      ∀ x ∈ trace (SmsgOp.run lib fTestNet) (fun _ => none) ops, x.2.Honest lib fTestNet x.1 := by
  refine prefixes_iff (g := SmsgOp.run lib fTestNet) (I := DirectoryRight lib) (K := fun _ => True)
    (fun db op hr _ => run_right hr op) (fun _ _ _ => trivial) ?_ trivial
  intro id pk h
  cases h

namespace Sample

def keyBytes (fCompressed : Bool) (P : UInt8) : List UInt8 :=
  if fCompressed then 2 :: (List.replicate 31 0 ++ [P]) else 4 :: (List.replicate 63 0 ++ [P])

theorem keyBytes_last (fCompressed : Bool) (P : UInt8) :
    (keyBytes fCompressed P).getLastD 0 = P := by
  cases fCompressed <;> rfl

def smsgLib : SmsgLib where
  Point := UInt8
  o2i v :=
    if v = keyBytes true (v.getLastD 0) ∨ v = keyBytes false (v.getLastD 0) then
      some (v.getLastD 0)
    else none
  i2o := keyBytes
  o2i_i2o := by
    intro c P
    rw [keyBytes_last, if_pos (by cases c <;> simp)]
  i2o_length fCompressed _ := by cases fCompressed <;> rfl
  recover _ rs _ := rs.head?
  hash v := List.replicate 31 0 ++ [v.getLastD 0]
  hash160 v := List.replicate 19 0 ++ [v.getLastD 0]
  hash160_length _ := rfl
  computeKey secret P := some (List.replicate 31 0 ++ [secret.getLastD 0 + P])
  sha512 v := List.replicate 63 0 ++ [v.getLastD 0]
  sha512_length _ := rfl
  hmac key_m data := some (List.replicate 30 0 ++ [key_m.getLastD 0, data.getLastD 0])
  aesDecrypt _ block := block.take 16 ++ List.replicate (16 - block.length) 0
  aesDecrypt_length := by
    intro _ block
    rw [List.length_append, List.length_take, List.length_replicate]
    omega
  lz4Decompress v n := (v.length, v.take n ++ List.replicate (n - v.length) 0)
  lz4Decompress_length := by
    intro v n
    rw [List.length_append, List.length_take, List.length_replicate]
    omega

def addressOfFive : List UInt8 :=
  (CTrianglesAddress.ofKeyID false (List.replicate 19 0 ++ [5])).toString smsgLib.hash

def wrongKeyTyped : SmsgOp :=
  .addAddress addressOfFive (encodeBase58 (keyBytes true 6)) true true

end Sample

/-- `SecureMsgAddAddress` stores a key under an address that it does not hash to. -/
theorem typed_key_unchecked : ¬DirectoryRight Sample.smsgLib
    ([Sample.wrongKeyTyped].foldl (SmsgOp.run Sample.smsgLib false) fun _ => none) := by
  intro h
  have hstored : [Sample.wrongKeyTyped].foldl (SmsgOp.run Sample.smsgLib false) (fun _ => none)
      (List.replicate 19 0 ++ [5]) = some (Sample.keyBytes true 6) := by decide
  obtain ⟨P, hP, hhash⟩ := h _ _ hstored
  have hsix := Sample.smsgLib.o2i_i2o true (6 : UInt8)
  obtain rfl : (6 : UInt8) = P := Option.some.inj (hsix.symm.trans hP)
  unfold OwnKey at hhash
  revert hhash
  decide

end Triangles
