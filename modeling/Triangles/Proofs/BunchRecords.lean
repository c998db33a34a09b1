import Triangles.Proofs.BunchBounds

/-! What becomes of the records of a bunch, whatever the others are. -/

namespace Triangles

open Std (ExtTreeMap)

section Loop

variable {xxh32 : List UInt8 → UInt32} {now : Int} {lib : SmsgLib}
  {scan : Smsg → Except SmsgFailure (Option (List UInt8))} {vchData : List UInt8}
  {beyond : Nat → UInt8} {n : Nat} {s : SmsgStore}

def recordScore (lib : SmsgLib) (m : Smsg) : Nat := if secureMsgValidate lib m = 2 then 10 else 1

variable (xxh32 now scan s) in
/-- A record that fails validation is looked at in every round that is left. -/
theorem receiveScans_invalid
    (hlong : ¬(n ≤ vchData.length ∧ vchData.length - n < SMSG_HDR_LEN))
    (hrv : secureMsgValidate lib (smsgAt vchData beyond n) ≠ 0) (rounds : Nat) :
    receiveScans xxh32 now lib scan vchData beyond rounds n s =
      { store := s
        scores := List.replicate rounds (n, recordScore lib (smsgAt vchData beyond n)) } := by
  induction rounds with
  | zero => rfl
  | succ rounds ih =>
    rw [receiveScans, if_neg hlong]
    simp only [if_pos hrv, ih, List.replicate_succ]
    rfl

variable (scan) in
/-- A record that is not stored ends the loop. -/
theorem receiveScans_refused
    (hlong : ¬(n ≤ vchData.length ∧ vchData.length - n < SMSG_HDR_LEN))
    (hrv : secureMsgValidate lib (smsgAt vchData beyond n) = 0)
    (hstore : (secureMsgStore xxh32 now false (smsgAt vchData beyond n) s).1 ≠ 0) (rounds : Nat) :
    receiveScans xxh32 now lib scan vchData beyond (rounds + 1) n s =
      { store := (secureMsgStore xxh32 now false (smsgAt vchData beyond n) s).2 } := by
  rw [receiveScans, if_neg hlong]
  simp only [hrv, ne_eq, not_true_eq_false, if_false]
  rcases hcode : secureMsgStore xxh32 now false (smsgAt vchData beyond n) s with ⟨code, s'⟩
  rw [hcode] at hstore
  cases code with
  | zero => exact absurd rfl hstore
  | succ code => rfl

variable (scan) in
/-- A record that is stored is scanned, and then comes the next. -/
theorem receiveScans_stored
    (hlong : ¬(n ≤ vchData.length ∧ vchData.length - n < SMSG_HDR_LEN))
    (hrv : secureMsgValidate lib (smsgAt vchData beyond n) = 0)
    (hstore : (secureMsgStore xxh32 now false (smsgAt vchData beyond n) s).1 = 0) (rounds : Nat) :
    receiveScans xxh32 now lib scan vchData beyond (rounds + 1) n s =
      match scan (smsgAt vchData beyond n) with
      | .error _ =>
        { store := (secureMsgStore xxh32 now false (smsgAt vchData beyond n) s).2, fThrown := true }
      | .ok _ =>
        receiveScans xxh32 now lib scan vchData beyond rounds
          (n + SMSG_HDR_LEN + (smsgAt vchData beyond n).payload.length)
          (secureMsgStore xxh32 now false (smsgAt vchData beyond n) s).2 := by
  rw [receiveScans, if_neg hlong]
  simp only [hrv, ne_eq, not_true_eq_false, if_false]
  rcases hcode : secureMsgStore xxh32 now false (smsgAt vchData beyond n) s with ⟨code, s'⟩
  rw [hcode] at hstore
  subst hstore
  rfl

/-- No token goes away. -/
theorem receiveScans_keeps {k : TokenKey} (hk : k ∈ s.tokens (bucketOf k.timestamp)) (rounds : Nat) :
    k ∈ (receiveScans xxh32 now lib scan vchData beyond rounds n s).store.tokens
      (bucketOf k.timestamp) := by
  induction rounds generalizing n s with
  | zero => exact hk
  | succ rounds ih =>
    have hstored : k ∈ (secureMsgStore xxh32 now false (smsgAt vchData beyond n) s).2.tokens
        (bucketOf k.timestamp) := by
      rcases secureMsgStore_cases xxh32 now false (smsgAt vchData beyond n) s with
        ⟨-, hsame⟩ | ⟨-, -, hadds⟩
      · rw [(hsame _).1]
        exact hk
      · exact (hadds.mem_token k).mpr (.inr hk)
    by_cases hshort : n ≤ vchData.length ∧ vchData.length - n < SMSG_HDR_LEN
    · rw [receiveScans, if_pos hshort]
      exact hk
    · by_cases hrv : secureMsgValidate lib (smsgAt vchData beyond n) = 0
      · by_cases hstore : (secureMsgStore xxh32 now false (smsgAt vchData beyond n) s).1 = 0
        · rw [receiveScans_stored scan hshort hrv hstore]
          generalize (secureMsgStore xxh32 now false (smsgAt vchData beyond n) s).2 = s'
            at hstored ⊢
          cases scan (smsgAt vchData beyond n) with
          | error e => exact hstored
          | ok addressTo => exact ih hstored
        · rw [receiveScans_refused scan hshort hrv hstore]
          generalize (secureMsgStore xxh32 now false (smsgAt vchData beyond n) s).2 = s'
            at hstored ⊢
          exact hstored
      · rw [receiveScans_invalid xxh32 now scan s hshort hrv]
        exact hk

end Loop

section Records

variable (lib : SmsgLib) (now : Int) (scan : Smsg → Except SmsgFailure (Option (List UInt8)))

def misbehaviours : Nat → List Smsg → List (Nat × Nat)
  | _, [] => []
  | n, m :: ms =>
    if secureMsgValidate lib m = 0 then misbehaviours (n + m.bytes.length) ms
    else (n, recordScore lib m) :: misbehaviours (n + m.bytes.length) ms

/-- No record spoils the others: each that is valid and in time is in the store, and the peer is
given a score for each that is not valid. -/
structure EachRecord (n : Nat) (ms : List Smsg) (r : ScannedBunch) : Prop where
  stored : ∀ m ∈ ms, secureMsgValidate lib m = 0 → InWindow now m →
    m.token ∈ r.store.tokens (bucketOf m.header.timestamp)
  scores : r.scores = misbehaviours lib n ms

def SmsgStore.Knows (s : SmsgStore) (k : TokenKey) : Prop := k ∈ s.tokens (bucketOf k.timestamp)

/-- Records that need nothing: they are valid, and there already or out of time. -/
def NothingToDo (known : TokenKey → Prop) (ms : List Smsg) : Prop :=
  ∀ m ∈ ms, secureMsgValidate lib m = 0 ∧ (InWindow now m → known m.token)

/-- The orders of records in which none spoils the others. Valid new records may come first; one
that is not valid, only as the last; one that is refused, or whose scan throws, only before records
that need nothing. -/
inductive Unspoiled : (TokenKey → Prop) → List Smsg → Prop where
  | nothing {known ms} (h : NothingToDo lib now known ms) : Unspoiled known ms
  | last {known m} (hinvalid : secureMsgValidate lib m ≠ 0) : Unspoiled known [m]
  | taken {known m ms addressTo} (hvalid : secureMsgValidate lib m = 0) (hwindow : InWindow now m)
      (hnew : ¬known m.token) (hscan : scan m = .ok addressTo)
      (hrest : Unspoiled (fun k => k = m.token ∨ known k) ms) : Unspoiled known (m :: ms)
  | thrown {known m ms e} (hvalid : secureMsgValidate lib m = 0) (hwindow : InWindow now m)
      (hnew : ¬known m.token) (hscan : scan m = .error e)
      (hrest : NothingToDo lib now (fun k => k = m.token ∨ known k) ms) : Unspoiled known (m :: ms)

variable {lib now scan}

theorem misbehaviours_ge {n : Nat} {ms : List Smsg} : ∀ x ∈ misbehaviours lib n ms, n ≤ x.1 := by
  induction ms generalizing n with
  | nil => nofun
  | cons m ms ih =>
    unfold misbehaviours
    intro x hx
    split at hx
    · exact Nat.le_of_add_right_le (ih x hx)
    · rcases List.mem_cons.mp hx with rfl | hx
      · exact Nat.le_refl _
      · exact Nat.le_of_add_right_le (ih x hx)

theorem misbehaviours_nil_iff {n : Nat} {ms : List Smsg} :
    misbehaviours lib n ms = [] ↔ ∀ m ∈ ms, secureMsgValidate lib m = 0 := by
  induction ms generalizing n with
  | nil => exact ⟨fun _ => nofun, fun _ => rfl⟩
  | cons m ms ih =>
    rw [List.forall_mem_cons, misbehaviours]
    split
    · rename_i hvalid
      rw [ih, and_iff_right hvalid]
    · rename_i hinvalid
      exact ⟨nofun, fun h => absurd h.1 hinvalid⟩

/-- Records that need nothing are done with by a loop that ends at once. -/
theorem eachRecord_end_iff {n : Nat} {ms : List Smsg} {r : ScannedBunch} (hscores : r.scores = [])
    {known : TokenKey → Prop} (hknown : ∀ k, r.store.Knows k ↔ known k) :
    EachRecord lib now n ms r ↔ NothingToDo lib now known ms := by
  constructor
  · rintro ⟨hstored, hlog⟩
    rw [hscores] at hlog
    have hvalid := misbehaviours_nil_iff.mp hlog.symm
    exact fun m hm => ⟨hvalid m hm, fun hwindow =>
      (hknown m.token).mp (hstored m hm (hvalid m hm) hwindow)⟩
  · intro h
    exact ⟨fun m hm _ hwindow => (hknown m.token).mpr ((h m hm).2 hwindow), by
      rw [hscores, misbehaviours_nil_iff.mpr fun m hm => (h m hm).1]⟩

section Orders

variable {known : TokenKey → Prop} {m : Smsg} {ms : List Smsg}

theorem unspoiled_invalid_iff (hinvalid : secureMsgValidate lib m ≠ 0) :
    Unspoiled lib now scan known (m :: ms) ↔ ms = [] := by
  constructor
  · intro h
    cases h with
    | nothing h => exact absurd (h m List.mem_cons_self).1 hinvalid
    | last _ => rfl
    | taken hvalid => exact absurd hvalid hinvalid
    | thrown hvalid => exact absurd hvalid hinvalid
  · rintro rfl
    exact .last hinvalid

theorem unspoiled_refused_iff (hvalid : secureMsgValidate lib m = 0)
    (hrefused : ¬(InWindow now m ∧ ¬known m.token)) :
    Unspoiled lib now scan known (m :: ms) ↔ NothingToDo lib now known (m :: ms) := by
  constructor
  · intro h
    cases h with
    | nothing h => exact h
    | last hinvalid => exact absurd hvalid hinvalid
    | taken _ hwindow hnew => exact absurd ⟨hwindow, hnew⟩ hrefused
    | thrown _ hwindow hnew => exact absurd ⟨hwindow, hnew⟩ hrefused
  · exact .nothing

theorem unspoiled_taken_iff (hvalid : secureMsgValidate lib m = 0) (hwindow : InWindow now m)
    (hnew : ¬known m.token) {addressTo : Option (List UInt8)} (hscan : scan m = .ok addressTo) :
    Unspoiled lib now scan known (m :: ms) ↔
      Unspoiled lib now scan (fun k => k = m.token ∨ known k) ms := by
  constructor
  · intro h
    cases h with
    | nothing h => exact absurd ((h m List.mem_cons_self).2 hwindow) hnew
    | last hinvalid => exact absurd hvalid hinvalid
    | taken _ _ _ _ hrest => exact hrest
    | thrown _ _ _ hthrown =>
      rw [hscan] at hthrown
      cases hthrown
  · exact .taken hvalid hwindow hnew hscan

theorem unspoiled_thrown_iff (hvalid : secureMsgValidate lib m = 0) (hwindow : InWindow now m)
    (hnew : ¬known m.token) {e : SmsgFailure} (hscan : scan m = .error e) :
    Unspoiled lib now scan known (m :: ms) ↔
      NothingToDo lib now (fun k => k = m.token ∨ known k) ms := by
  constructor
  · intro h
    cases h with
    | nothing h => exact absurd ((h m List.mem_cons_self).2 hwindow) hnew
    | last hinvalid => exact absurd hvalid hinvalid
    | taken _ _ _ hok =>
      rw [hscan] at hok
      cases hok
    | thrown _ _ _ _ hrest => exact hrest
  · exact .thrown hvalid hwindow hnew hscan

end Orders

variable {xxh32 : List UInt8 → UInt32} {beyond : Nat → UInt8}

/-- The first record adds nothing to what is asked of the others once it is stored. -/
theorem eachRecord_stored_iff {n : Nat} {m : Smsg} {ms : List Smsg} {r : ScannedBunch}
    (hvalid : secureMsgValidate lib m = 0)
    (hstored : m.token ∈ r.store.tokens (bucketOf m.header.timestamp)) :
    EachRecord lib now n (m :: ms) r ↔ EachRecord lib now (n + m.bytes.length) ms r := by
  have hlog : misbehaviours lib n (m :: ms) = misbehaviours lib (n + m.bytes.length) ms := by
    rw [misbehaviours, if_pos hvalid]
  constructor
  · rintro ⟨hall, hscores⟩
    exact ⟨fun m' h => hall m' (List.mem_cons_of_mem _ h), by rw [hscores, hlog]⟩
  · rintro ⟨hall, hscores⟩
    refine ⟨fun m' h => ?_, by rw [hscores, hlog]⟩
    rcases List.mem_cons.mp h with rfl | h
    · exact fun _ _ => hstored
    · exact hall m' h

/-- A record that is not valid stands in the way of all that come after it. -/
theorem eachRecord_invalid_iff {n : Nat} {m : Smsg} {ms : List Smsg} {s : SmsgStore}
    (hinvalid : secureMsgValidate lib m ≠ 0) :
    EachRecord lib now n (m :: ms)
        { store := s, scores := List.replicate (ms.length + 1) (n, recordScore lib m) } ↔
      ms = [] := by
  have hlog : misbehaviours lib n (m :: ms) =
      (n, recordScore lib m) :: misbehaviours lib (n + m.bytes.length) ms := by
    rw [misbehaviours, if_neg hinvalid]
  constructor
  · rintro ⟨-, hscores⟩
    rw [hlog] at hscores
    have htail := (List.cons.inj hscores).2
    cases ms with
    | nil => rfl
    | cons m' ms =>
      have hmem : (n, recordScore lib m) ∈ misbehaviours lib (n + m.bytes.length) (m' :: ms) := by
        rw [← htail]
        exact List.mem_cons_self
      have hge := misbehaviours_ge _ hmem
      have hpos := m.bytes_pos
      simp only at hge
      omega
  · rintro rfl
    refine ⟨fun m' h hvalid => ?_, by rw [hlog]; rfl⟩
    rw [List.mem_singleton] at h
    subst h
    exact absurd hvalid hinvalid

variable (lib now scan xxh32 beyond) in
/-- No record is spoiled exactly in the orders that are not spoiled. -/
theorem receiveScans_each_iff (pre : List UInt8) (ms : List Smsg) (s : SmsgStore) :
    EachRecord lib now pre.length ms (receiveScans xxh32 now lib scan
        (pre ++ ms.flatMap Smsg.bytes) beyond ms.length pre.length s) ↔
      Unspoiled lib now scan s.Knows ms := by
  induction ms generalizing pre s with
  | nil =>
    exact ⟨fun _ => .nothing nofun, fun _ => ⟨nofun, rfl⟩⟩
  | cons m ms ih =>
    rw [List.flatMap_cons, List.length_cons]
    have hm := smsgAt_append pre (ms.flatMap Smsg.bytes) m beyond
    have hlong := record_not_short pre (ms.flatMap Smsg.bytes) m
    by_cases hvalid : secureMsgValidate lib m = 0
    · by_cases hstore : (secureMsgStore xxh32 now false m s).1 = 0
      · obtain ⟨hwindow, hnew⟩ := store_succeeds_iff.mp hstore
        have hnew : ¬s.Knows m.token := hnew
        have hround := receiveScans_stored scan hlong (by rwa [hm]) (by rwa [hm]) ms.length
        rw [hm] at hround
        have hadds := store_adds hstore
        have hnext := ih (pre ++ m.bytes) (secureMsgStore xxh32 now false m s).2
        rw [hround]
        generalize (secureMsgStore xxh32 now false m s).2 = s' at hadds hnext
        have hthere : m.token ∈ s'.tokens (bucketOf m.token.timestamp) :=
          (hadds.mem_token m.token).mpr (.inl rfl)
        have hknown : s'.Knows = fun k => k = m.token ∨ s.Knows k :=
          funext fun k => propext (hadds.mem_token k)
        cases hscan : scan m with
        | error e =>
          rw [unspoiled_thrown_iff hvalid hwindow hnew hscan, eachRecord_stored_iff hvalid hthere]
          exact eachRecord_end_iff rfl hadds.mem_token
        | ok addressTo =>
          have hpos : (pre ++ m.bytes).length = pre.length + SMSG_HDR_LEN + m.payload.length := by
            rw [List.length_append, m.bytes_length, Nat.add_assoc]
          have hbytes : pre.length + m.bytes.length = pre.length + SMSG_HDR_LEN + m.payload.length := by
            rw [m.bytes_length, Nat.add_assoc]
          rw [List.append_assoc, hpos, hknown] at hnext
          rw [unspoiled_taken_iff hvalid hwindow hnew hscan, ← hnext,
            eachRecord_stored_iff hvalid (receiveScans_keeps hthere _), hbytes]
      · have hrefused : ¬(InWindow now m ∧ ¬s.Knows m.token) := mt store_succeeds_iff.mpr hstore
        have hround := receiveScans_refused scan hlong (by rwa [hm]) (by rwa [hm]) ms.length
        rw [hm] at hround
        have hsame := store_same hstore
        rw [hround, unspoiled_refused_iff hvalid hrefused]
        generalize (secureMsgStore xxh32 now false m s).2 = s' at hsame
        exact eachRecord_end_iff rfl fun k => by
          unfold SmsgStore.Knows
          rw [(hsame _).1]
    · have hround := receiveScans_invalid xxh32 now scan s hlong (by rwa [hm]) (ms.length + 1)
      rw [hm] at hround
      rw [hround, unspoiled_invalid_iff hvalid]
      exact eachRecord_invalid_iff hvalid

theorem EachRecord.same {n : Nat} {ms : List Smsg} {r r' : ScannedBunch}
    (h : EachRecord lib now n ms r) (hsame : SameSlots r.store r'.store)
    (hscores : r'.scores = r.scores) : EachRecord lib now n ms r' where
  stored m hm hvalid hwindow := by
    rw [(hsame _).1]
    exact h.stored m hm hvalid hwindow
  scores := by rw [hscores, h.scores]

end Records

section Bunch

variable (xxh32 : List UInt8 → UInt32) (now : Int) (lib : SmsgLib)

/-- In a well-formed bunch no record spoils the others exactly when they come in such an order. -/
theorem bunch_each_iff (host : SmsgHost) (fLocked : Bool) (smsgAddresses : List SecMsgAddress)
    (beyond : Nat → UInt8) (s : SmsgStore) {time : Int} (htime : InInt64 time)
    (hlive : now - SMSG_RETENTION ≤ time) (hpast : time ≤ now + SMSG_TIME_LEEWAY)
    (ms : List Smsg) (hsome : 1 ≤ ms.length) (hsize : ms.length ≤ 500) :
    let scan := scanResult lib host fLocked smsgAddresses
    EachRecord lib now 12 ms
        (secureMsgReceiveScans xxh32 now lib scan (bunchData time ms) beyond s) ↔
      Unspoiled lib now scan s.Knows ms := by
  intro scan
  have hloop := receiveScans_each_iff lib now scan xxh32 beyond
    (wordBytes 4 ms.length ++ signedBytes 8 time) ms s
  rw [bunchData_header] at hloop
  have hcount : leValue (slice (bunchData time ms) 0 4) = ms.length := bunchSize_data hsize
  have hbucket : int64Of (slice (bunchData time ms) 4 8) = time := bunchTime_data htime ms
  have htwelve : ¬(bunchData time ms).length < 12 :=
    Nat.not_lt.mpr (takesBunch_data htime hlive hpast ms).1
  unfold secureMsgReceiveScans
  simp only [if_neg htwelve, hcount, hbucket]
  rw [if_neg (by omega), if_neg (by omega), if_neg (by omega), ← hloop]
  have hdata : bunchData time ms = wordBytes 4 ms.length ++ signedBytes 8 time ++
      ms.flatMap Smsg.bytes := rfl
  rw [hdata]
  split
  · rfl
  · have hsame : ∀ s' : SmsgStore, SameSlots s' (s'.updateBucket time fun b =>
        { b with nLockCount := 0, nLockPeerId := 0 }.hashBucket xxh32 now) :=
      fun s' => updateBucket_sameSlots time fun _ => rfl
    exact ⟨fun h => h.same (fun t => ⟨(hsame _ t).1.symm, (hsame _ t).2.symm⟩) rfl,
      fun h => h.same (hsame _) rfl⟩

end Bunch

namespace Sample

def badNote : Smsg where
  header := ⟨[1, 0, 0, 0, 1, 0, 0] ++ signedBytes 8 1700000102 ++ List.replicate 85 0 ++
    wordBytes 4 8, by simp [signedBytes, SMSG_HDR_LEN]⟩
  payload := [1, 2, 3, 4, 5, 6, 7, 8]
  nPayload_eq := by decide

theorem note_unspoiled : Unspoiled zeroWork 1700000200 (scanResult zeroWork smsgHost true [])
    (SmsgStore.Knows {}) [note] := by
  have hscan : scanResult zeroWork smsgHost true [] note = .ok none := rfl
  refine .taken (by decide) ⟨by decide, by decide⟩ ?_ hscan (.nothing nofun)
  intro h
  simp [SmsgStore.Knows, SmsgStore.tokens, SmsgStore.bucket] at h

/-- The note is valid and in time, and comes after a message that is not valid. -/
theorem badBunch_loses_note :
    secureMsgValidate zeroWork note = 0 ∧
      note.token ∉ (secureMsgReceiveScans xxh32 1700000200 zeroWork
        (scanResult zeroWork smsgHost true []) (bunchData 1699999800 [badNote, note])
        (fun _ => 0) {}).store.tokens (bucketOf note.header.timestamp) := by
  decide +kernel

end Sample

theorem bunch_each_note :
    EachRecord Sample.zeroWork 1700000200 12 [Sample.note] (secureMsgReceiveScans Sample.xxh32
      1700000200 Sample.zeroWork (scanResult Sample.zeroWork Sample.smsgHost true [])
      (bunchData 1699999800 [Sample.note]) (fun _ => 0) {}) :=
  (bunch_each_iff Sample.xxh32 1700000200 Sample.zeroWork Sample.smsgHost true [] (fun _ => 0) {}
    ⟨by decide, by decide⟩ (by decide) (by decide) [Sample.note] (by decide) (by decide)).mpr
      Sample.note_unspoiled

/-- A message that fails validation keeps the next one out. -/
theorem bad_record_spoils_bunch :
    ¬EachRecord Sample.zeroWork 1700000200 12 [Sample.badNote, Sample.note]
      (secureMsgReceiveScans Sample.xxh32 1700000200 Sample.zeroWork
        (scanResult Sample.zeroWork Sample.smsgHost true [])
        (bunchData 1699999800 [Sample.badNote, Sample.note]) (fun _ => 0) {}) :=
  fun h => Sample.badBunch_loses_note.2 (h.stored Sample.note
    (List.mem_cons_of_mem _ List.mem_cons_self) Sample.badBunch_loses_note.1
    ⟨by decide, by decide⟩)

end Triangles
