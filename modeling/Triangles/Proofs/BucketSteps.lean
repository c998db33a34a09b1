import Triangles.Model.SmsgNet
import Triangles.Proofs.MessageStore

/-! What each call does to the buckets in memory. -/

namespace Triangles

open Std (ExtTreeMap)

section Store

variable {xxh32 : List UInt8 → UInt32} {lib : SmsgLib} {now : Int} {s : SmsgStore}

def SecMsgBucket.withMessage (b : SecMsgBucket) (m : Smsg) (offset : Nat) : SecMsgBucket :=
  { b with setTokens := b.setTokens.insert m.token offset }

/-- A call that fails leaves the buckets alone, and one that succeeds adds a token to one. -/
theorem secureMsgStore_bucket (xxh32 : List UInt8 → UInt32) (now : Int) (fUpdateBucket : Bool)
    (m : Smsg) (s : SmsgStore) :
    ((secureMsgStore xxh32 now fUpdateBucket m s).1 = 1 ∧
        (InWindow now m → m.token ∈ s.tokens (bucketOf m.header.timestamp)) ∧
        ∀ time, (secureMsgStore xxh32 now fUpdateBucket m s).2.bucket time = s.bucket time) ∨
      ((secureMsgStore xxh32 now fUpdateBucket m s).1 = 0 ∧ InWindow now m ∧
        m.token ∉ s.tokens (bucketOf m.header.timestamp) ∧
        ∀ time, (secureMsgStore xxh32 now fUpdateBucket m s).2.bucket time =
          if bucketOf m.header.timestamp = time then
            let b := (s.bucket time).withMessage m (s.file time).length
            if fUpdateBucket then b.hashBucket xxh32 now else b
          else s.bucket time) := by
  unfold secureMsgStore
  simp only
  split
  · rename_i hnew
    exact .inl ⟨rfl, fun h => absurd h.2 (by omega), fun _ => rfl⟩
  · rename_i hnew
    split
    · rename_i hold
      exact .inl ⟨rfl, fun h => absurd h.1 (by omega), fun _ => rfl⟩
    · rename_i hold
      split
      · rename_i hmem
        refine .inl ⟨rfl, fun _ => hmem, fun time => ?_⟩
        rw [bucket_setBucket]
        split
        · rename_i ht
          rw [ht]
        · rfl
      · rename_i habsent
        refine .inr ⟨rfl, ⟨Int.not_lt.mp hold, Int.not_lt.mp hnew⟩, habsent, fun time => ?_⟩
        by_cases ht : bucketOf m.header.timestamp = time
        · subst ht
          rw [if_pos rfl]
          exact (bucket_setBucket s _ _ _).trans (if_pos rfl)
        · rw [if_neg ht]
          exact (bucket_setBucket s _ _ _).trans (if_neg ht)

theorem bucket_of_some {time : Int} {b : SecMsgBucket} (h : s.smsgBuckets[time]? = some b) :
    s.bucket time = b := by
  simp [SmsgStore.bucket, h]

theorem some_bucket {time : Int} (h : (s.smsgBuckets[time]?).isSome = true) :
    s.smsgBuckets[time]? = some (s.bucket time) := by
  obtain ⟨b, hb⟩ := Option.isSome_iff_exists.mp h
  rw [bucket_of_some hb, hb]

theorem bucket_of_none {time : Int} (h : s.smsgBuckets[time]? = none) : s.bucket time = {} := by
  simp [SmsgStore.bucket, h]

theorem expiryPass_bucketD (now : Int) (s : SmsgStore) (time : Int) :
    (expiryPass now s).1.bucket time =
      if now - SMSG_RETENTION ≤ time then (s.bucket time).tick else {} := by
  unfold SmsgStore.bucket
  rw [expiryPass_bucket]
  split
  · cases s.smsgBuckets[time]? <;> rfl
  · rfl

def bunchTime (vchData : List UInt8) : Int := int64Of (slice vchData 4 8)

def bunchSize (vchData : List UInt8) : Nat := leValue (slice vchData 0 4)

/-- A bunch has its length and its time, and the time is taken. -/
def TakesBunch (now : Int) (vchData : List UInt8) : Prop :=
  12 ≤ vchData.length ∧ now - SMSG_RETENTION ≤ bunchTime vchData ∧
    bunchTime vchData ≤ now + SMSG_TIME_LEEWAY

variable (xxh32 lib now s) in
/-- What a bunch does to the buckets: nothing; or, when its size is wrong, it takes a lock away;
or its messages are stored, and a bucket that it names has its lock taken away and is hashed. -/
theorem secureMsgReceive_bucket (vchData : List UInt8) (beyond : Nat → UInt8) :
    (¬TakesBunch now vchData ∧
        (secureMsgReceive xxh32 now lib vchData beyond s).scanned = [] ∧
        (secureMsgReceive xxh32 now lib vchData beyond s).store = s) ∨
      (TakesBunch now vchData ∧ (bunchSize vchData = 0 ∨ 500 < bunchSize vchData) ∧
        (secureMsgReceive xxh32 now lib vchData beyond s).scanned = [] ∧
        ∀ time, (secureMsgReceive xxh32 now lib vchData beyond s).store.bucket time =
          if bunchTime vchData = time then { s.bucket time with nLockCount := 0 }
          else s.bucket time) ∨
      (TakesBunch now vchData ∧ ¬(bunchSize vchData = 0 ∨ 500 < bunchSize vchData) ∧
        (secureMsgReceive xxh32 now lib vchData beyond s).scanned =
          (storeUntil xxh32 now s
            (bunchMessages lib vchData beyond (bunchSize vchData) 12)).1 ∧
        ∀ time, (secureMsgReceive xxh32 now lib vchData beyond s).store.bucket time =
          let s' := (storeUntil xxh32 now s
            (bunchMessages lib vchData beyond (bunchSize vchData) 12)).2
          if bunchTime vchData = time ∧ time ∈ s'.smsgBuckets then
            { s'.bucket time with nLockCount := 0, nLockPeerId := 0 }.hashBucket xxh32 now
          else s'.bucket time) := by
  unfold secureMsgReceive TakesBunch
  simp only
  split
  · exact .inl ⟨by omega, rfl, rfl⟩
  · split
    · rename_i hnew
      exact .inl ⟨fun h => absurd h.2.2 (Int.not_le.mpr hnew), rfl, rfl⟩
    · split
      · rename_i hold
        exact .inl ⟨fun h => absurd h.2.1 (Int.not_le.mpr hold), rfl, rfl⟩
      · rename_i hlong hnew hold
        have htakes : 12 ≤ vchData.length ∧ now - SMSG_RETENTION ≤ bunchTime vchData ∧
            bunchTime vchData ≤ now + SMSG_TIME_LEEWAY :=
          ⟨Nat.not_lt.mp hlong, Int.not_lt.mp hold, Int.not_lt.mp hnew⟩
        split
        · rename_i hsize
          refine .inr (.inl ⟨htakes, hsize, rfl, fun time => ?_⟩)
          rw [bucket_updateBucket]
          by_cases hmem : time ∈ s.smsgBuckets
          · simp only [hmem, and_true]
            rfl
          · have hb := bucket_of_none (ExtTreeMap.getElem?_eq_none hmem)
            simp only [hmem, and_false, if_false, hb]
            split <;> rfl
        · rename_i hsize
          have hloop := receiveLoop_eq xxh32 lib now vchData beyond
            (bunchSize vchData) 12 s
          obtain ⟨hscanned, hstore⟩ := Prod.ext_iff.mp hloop
          refine .inr (.inr ⟨htakes, hsize, hscanned, fun time => ?_⟩)
          rw [bucket_updateBucket, ← hstore]
          rfl

variable (xxh32 lib s) in
/-- A bunch that is taken leaves tokens and files as its messages do. -/
theorem secureMsgReceive_slots {vchData : List UInt8} (htakes : TakesBunch now vchData)
    (hsize : ¬(bunchSize vchData = 0 ∨ 500 < bunchSize vchData)) (beyond : Nat → UInt8) :
    SameSlots (storeUntil xxh32 now s
        (bunchMessages lib vchData beyond (bunchSize vchData) 12)).2
      (secureMsgReceive xxh32 now lib vchData beyond s).store := by
  obtain ⟨hlong, hlive, hpast⟩ := htakes
  have hloop := receiveLoop_eq xxh32 lib now vchData beyond
    (bunchSize vchData) 12 s
  obtain ⟨-, hstore⟩ := Prod.ext_iff.mp hloop
  unfold secureMsgReceive
  rw [if_neg (Nat.not_lt.mpr hlong)]
  simp only
  unfold bunchTime at hlive hpast
  unfold bunchSize at hsize
  rw [if_neg (Int.not_lt.mpr hpast), if_neg (Int.not_lt.mpr hlive), if_neg hsize, ← hstore]
  exact updateBucket_sameSlots _ fun _ => rfl

end Store

section Handlers

variable {xxh32 : List UInt8 → UInt32} {lib : SmsgLib} {now : Int} {peer : SecMsgNode}
  {s : SmsgStore} {vchData : List UInt8}

theorem receiveInvEntry_bucket (r : InvState) (p : List UInt8) (time : Int) :
    (receiveInvEntry now r p).store.bucket time = r.store.bucket time := by
  have hset : ∀ t, (r.store.setBucket t (r.store.bucket t)).bucket time = r.store.bucket time := by
    intro t
    rw [bucket_setBucket]
    split
    · rename_i ht
      rw [ht]
    · rfl
  unfold receiveInvEntry
  simp only
  repeat' split
  all_goals first | rfl | exact hset _

theorem receiveInv_bucket (time : Int) :
    (receiveInv now peer s vchData).store.bucket time = s.bucket time := by
  have hfold : ∀ (l : List Nat) (r : InvState),
      (l.foldl (fun r i => receiveInvEntry now r (slice vchData (4 + 16 * i) 16)) r).store.bucket
        time = r.store.bucket time := by
    intro l
    induction l with
    | nil => exact fun _ => rfl
    | cons i l ih =>
      intro r
      rw [List.foldl_cons, ih, receiveInvEntry_bucket]
  unfold receiveInv
  simp only
  repeat' split
  all_goals first | rfl | exact hfold _ _

theorem receiveInvEntry_files (r : InvState) (p : List UInt8) :
    (receiveInvEntry now r p).store.files = r.store.files := by
  unfold receiveInvEntry
  simp only
  repeat' split
  all_goals rfl

theorem receiveInv_same : SameSlots s (receiveInv now peer s vchData).store := by
  have hfold : ∀ (l : List Nat) (r : InvState),
      (l.foldl (fun r i => receiveInvEntry now r (slice vchData (4 + 16 * i) 16)) r).store.files =
        r.store.files := by
    intro l
    induction l with
    | nil => exact fun _ => rfl
    | cons i l ih =>
      intro r
      rw [List.foldl_cons, ih, receiveInvEntry_files]
  have hfiles : (receiveInv now peer s vchData).store.files = s.files := by
    unfold receiveInv
    simp only
    repeat' split
    all_goals first | rfl | exact hfold _ _
  intro time
  unfold SmsgStore.tokens SmsgStore.file
  rw [receiveInv_bucket, hfiles]
  exact ⟨rfl, rfl⟩

variable (now peer s vchData) in
/-- A list of tokens locks its bucket, or leaves all buckets alone. -/
theorem receiveHave_bucket (time : Int) :
    (receiveHave now peer s vchData).store.bucket time =
      if int64Of (slice vchData 0 8) = time ∧ (receiveHave now peer s vchData).pushed ≠ [] then
        { s.bucket time with nLockCount := 3, nLockPeerId := peer.nPeerId }
      else s.bucket time := by
  unfold receiveHave
  simp only
  repeat' split
  all_goals simp_all

/-- What a list of tokens makes a node push: one `smsgWant`, for the bucket of the list, which was not
locked. -/
theorem receiveHave_pushed {strCommand : SmsgCommand} {data : List UInt8}
    (h : (strCommand, data) ∈ (receiveHave now peer s vchData).pushed) :
    strCommand = .smsgWant ∧ slice data 0 8 = slice vchData 0 8 ∧
      (s.bucket (int64Of (slice vchData 0 8))).nLockCount = 0 := by
  revert h
  unfold receiveHave
  simp only
  split
  · nofun
  · rename_i hlong
    split
    · nofun
    · split
      · nofun
      · split
        · nofun
        · rename_i hunlocked
          split
          · nofun
          · intro h
            obtain ⟨rfl, rfl⟩ := Prod.mk.inj (List.mem_singleton.mp h)
            have hlen : (slice vchData 0 8).length = 8 := by
              rw [slice, List.drop_zero, List.length_take]
              omega
            refine ⟨rfl, ?_, Nat.eq_zero_of_not_pos hunlocked⟩
            rw [slice, List.drop_zero, List.take_left' hlen]

variable (now peer s vchData) in
theorem receiveHave_files : (receiveHave now peer s vchData).store.files = s.files := by
  unfold receiveHave
  simp only
  repeat' split
  all_goals rfl

end Handlers

end Triangles
