import Triangles.Proofs.BucketSteps
import Triangles.Proofs.MessageFile
import Triangles.Proofs.MessageRestart

/-! One node pulls a bucket from another: `smsgShow`, `smsgHave`, `smsgWant` and `smsgMsg`. -/

namespace Triangles

open Std (ExtTreeMap)

section Show

variable {now : Int} {peer : SecMsgNode} {s : SmsgStore} {vchData : List UInt8}

/-- A bucket that may be asked for: its time is taken, and it is not locked. -/
def Askable (now : Int) (s : SmsgStore) (time : Int) : Prop :=
  InInt64 time ∧ now - SMSG_RETENTION ≤ time ∧ time ≤ now + SMSG_TIME_LEEWAY ∧
    (s.bucket time).nLockCount = 0

variable (now) in
theorem receiveInvEntry_asks (r : InvState) (p : List UInt8) :
    (receiveInvEntry now r p).shown = r.shown ∨
      (receiveInvEntry now r p).shown = r.shown ++ [int64Of (slice p 0 8)] ∧
        Askable now r.store (int64Of (slice p 0 8)) := by
  unfold receiveInvEntry
  simp only
  split
  · split <;> exact .inl rfl
  · rename_i hlive
    split
    · exact .inl rfl
    · rename_i hpast
      split
      · exact .inl rfl
      · split
        · exact .inl rfl
        · rename_i hunlocked
          split
          · exact .inr ⟨rfl, int64Of_range _, Int.not_lt.mp hlive, Int.not_lt.mp hpast,
              Nat.eq_zero_of_not_pos hunlocked⟩
          · exact .inl rfl

variable (now) in
/-- The loop over an inventory asks for buckets of the inventory that may be asked for, one for an entry
at most. -/
theorem receiveInvEntries_asks {Q : Int → Prop} (vchData : List UInt8) (l : List Nat) (r : InvState)
    (hl : ∀ i ∈ l, Q (int64Of (slice (slice vchData (4 + 16 * i) 16) 0 8)))
    (hr : ∀ time ∈ r.shown, Q time ∧ Askable now r.store time) :
    let r' := l.foldl (fun r i => receiveInvEntry now r (slice vchData (4 + 16 * i) 16)) r
    r'.shown.length ≤ r.shown.length + l.length ∧
      ∀ time ∈ r'.shown, Q time ∧ Askable now r.store time := by
  induction l generalizing r with
  | nil => exact ⟨Nat.le_refl _, hr⟩
  | cons i l ih =>
    have hsame : ∀ time, Askable now (receiveInvEntry now r (slice vchData (4 + 16 * i) 16)).store
        time ↔ Askable now r.store time := by
      intro time
      unfold Askable
      rw [receiveInvEntry_bucket]
    have hstep : (receiveInvEntry now r (slice vchData (4 + 16 * i) 16)).shown.length ≤
          r.shown.length + 1 ∧
        ∀ time ∈ (receiveInvEntry now r (slice vchData (4 + 16 * i) 16)).shown,
          Q time ∧ Askable now r.store time := by
      rcases receiveInvEntry_asks now r (slice vchData (4 + 16 * i) 16) with hshown | ⟨hshown, hask⟩
      · rw [hshown]
        exact ⟨Nat.le_succ _, hr⟩
      · rw [hshown, List.length_append]
        refine ⟨Nat.le_refl _, fun t ht => ?_⟩
        rcases List.mem_append.mp ht with ht | ht
        · exact hr t ht
        · rw [List.mem_singleton.mp ht]
          exact ⟨hl i List.mem_cons_self, hask⟩
    obtain ⟨hlen, hall⟩ := ih (receiveInvEntry now r (slice vchData (4 + 16 * i) 16))
      (fun j hj => hl j (List.mem_cons_of_mem i hj))
      fun time ht => ⟨(hstep.2 time ht).1, (hsame time).mpr (hstep.2 time ht).2⟩
    intro r'
    rw [List.length_cons]
    have hlen' : r'.shown.length ≤ _ := hlen
    exact ⟨by omega, fun time ht => ⟨(hall time ht).1, (hsame time).mp (hall time ht).2⟩⟩

/-- What a node asks for when it receives an inventory: buckets that the inventory names. -/
theorem receiveInv_show {vShow : List UInt8}
    (h : (.smsgShow, vShow) ∈ (receiveInv now peer s vchData).pushed) :
    ∃ times : List Int, vShow = wordBytes 4 times.length ++ times.flatMap (signedBytes 8) ∧
      times.length < 2 ^ 29 - 1 ∧ ∀ time ∈ times,
        (∃ i < leValue (slice vchData 0 4), time = int64Of (slice (slice vchData (4 + 16 * i) 16) 0 8)) ∧
          Askable now s time := by
  have hasks := receiveInvEntries_asks now
    (Q := fun time => ∃ i < leValue (slice vchData 0 4),
      time = int64Of (slice (slice vchData (4 + 16 * i) 16) 0 8)) vchData
    (List.range (leValue (slice vchData 0 4))) { store := s }
    (fun i hi => ⟨i, List.mem_range.mp hi, rfl⟩) nofun
  have hmax : SMSG_RETENTION / SMSG_BUCKET_LEN + 1 = 289 := by decide
  revert h
  unfold receiveInv
  simp only [hmax]
  split
  · nofun
  · split
    · nofun
    · split
      · nofun
      · rename_i hbuckets
        split
        · nofun
        · simp only
          split
          · intro h
            obtain ⟨-, rfl⟩ := Prod.mk.inj (List.mem_singleton.mp h)
            obtain ⟨hlen, hall⟩ := hasks
            rw [List.length_range] at hlen
            refine ⟨_, rfl, ?_, hall⟩
            simp only [List.length_nil] at hlen
            omega
          · split
            · intro h
              cases (Prod.mk.inj (List.mem_singleton.mp h)).1
            · nofun

theorem inventoryEntry_length (p : Int × SecMsgBucket) : (inventoryEntry p.1 p.2).length = 16 := by
  simp [inventoryEntry, signedBytes_length]

theorem inventoryEntry_time {time : Int} (h : InInt64 time) (b : SecMsgBucket) :
    int64Of (slice (inventoryEntry time b) 0 8) = time := by
  unfold inventoryEntry
  rw [List.append_assoc, slice_left (signedBytes_length 8 time), int64Of_signedBytes h]

/-- The times of the buckets that are shown: in order, and of buckets with tokens. -/
theorem shownBuckets_times (lastMatched : Int) (s : SmsgStore) :
    ((shownBuckets lastMatched s).map Prod.fst).Pairwise (· < ·) ∧
      ∀ p ∈ shownBuckets lastMatched s, s.tokens p.1 ≠ ∅ := by
  constructor
  · rw [List.pairwise_map]
    refine (s.smsgBuckets.ordered_keys_toList.filter _).imp fun {a b} h => ?_
    exact Int.compare_eq_lt.mp h
  · intro p hp hempty
    obtain ⟨hmem, hshown⟩ := List.mem_filter.mp hp
    rw [tokens_of_some (ExtTreeMap.mem_toList_iff_getElem?_eq_some.mp hmem)] at hempty
    simp [hempty] at hshown

/-- The entries of an inventory name the buckets that are shown. -/
theorem inventory_entry {lastMatched : Int} (hrange : ∀ p ∈ shownBuckets lastMatched s, InInt64 p.1)
    (i : Nat) (hi : i < (shownBuckets lastMatched s).length) :
    int64Of (slice (slice (inventory lastMatched s) (4 + 16 * i) 16) 0 8) =
      (shownBuckets lastMatched s)[i].1 := by
  have hslice := slice_entry inventoryEntry_length
    (wordBytes 4 (shownBuckets lastMatched s).length) (shownBuckets lastMatched s) i hi
  rw [wordBytes_length] at hslice
  unfold inventory
  rw [hslice, inventoryEntry_time (hrange _ (List.getElem_mem hi))]

/-- A node answers once for each bucket that it is asked for and has. -/
theorem receiveShow_have {times : List Int} (hlen : times.length < 2 ^ 29 - 1)
    (hrange : ∀ time ∈ times, InInt64 time) (hthere : ∀ time ∈ times, time ∈ s.smsgBuckets)
    (beyond : Nat → UInt8) :
    (receiveShow peer s (wordBytes 4 times.length ++ times.flatMap (signedBytes 8)) beyond).pushed =
      times.map fun time => (.smsgHave, tokenList time (s.tokens time)) := by
  have hcount : leValue (slice (wordBytes 4 times.length ++ times.flatMap (signedBytes 8)) 0 4) =
      times.length := by
    rw [slice_left (wordBytes_length 4 _), leValue_wordBytes]
    exact Nat.mod_eq_of_lt (by omega)
  have hsize : (wordBytes 4 times.length ++ times.flatMap (signedBytes 8)).length =
      4 + 8 * times.length := by
    rw [List.length_append, wordBytes_length, entries_length (signedBytes_length 8)]
  have hentry : ∀ i (hi : i < times.length),
      int64Of (readMemory (wordBytes 4 times.length ++ times.flatMap (signedBytes 8)) beyond
        (4 + 8 * i) 8) = times[i] := by
    intro i hi
    have hslice := slice_entry (signedBytes_length 8) (wordBytes 4 times.length) times i hi
    rw [wordBytes_length] at hslice
    rw [readMemory_eq_slice (by omega), hslice,
      int64Of_signedBytes (hrange _ (List.getElem_mem hi))]
  have htimes : (List.range times.length).map (fun i => int64Of (readMemory
      (wordBytes 4 times.length ++ times.flatMap (signedBytes 8)) beyond (4 + 8 * i) 8)) = times := by
    rw [range_map times (h := id) hentry, List.map_id]
  have hround : ∀ time ∈ times,
      ((s.smsgBuckets[time]?).map fun b => (SmsgCommand.smsgHave, tokenList time b.setTokens)) =
        some (.smsgHave, tokenList time (s.tokens time)) := by
    intro time htime
    obtain ⟨b, hb⟩ := Option.isSome_iff_exists.mp
      (ExtTreeMap.mem_iff_isSome_getElem?.mp (hthere time htime))
    rw [hb, tokens_of_some hb]
    rfl
  have hpushed := List.filterMap_congr hround
  rw [List.filterMap_eq_map'] at hpushed
  rw [← hpushed]
  conv_rhs => rw [← htimes, List.filterMap_map]
  unfold receiveShow
  simp only [hcount, hsize]
  rw [if_neg (by omega), if_neg (by omega)]
  rfl

end Show

def missing (ours theirs : TokenSet) : List TokenKey :=
  theirs.keys.filter fun k => !ours.contains k

section Tokens

variable {now : Int} {peer : SecMsgNode} {s : SmsgStore} {time : Int}

theorem tokenList_time (htime : InInt64 time) (tokens : TokenSet) :
    slice (tokenList time tokens) 0 8 = signedBytes 8 time ∧
      int64Of (slice (tokenList time tokens) 0 8) = time := by
  have hslice : slice (tokenList time tokens) 0 8 = signedBytes 8 time :=
    slice_left (signedBytes_length 8 time)
  rw [hslice]
  exact ⟨rfl, int64Of_signedBytes htime⟩

theorem tokenBytes_length (time : Int) (ks : List TokenKey) :
    (signedBytes 8 time ++ ks.flatMap TokenKey.bytes).length = 8 + 16 * ks.length := by
  rw [List.length_append, signedBytes_length, entries_length TokenKey.bytes_length]

theorem tokenBytes_entry (time : Int) (ks : List TokenKey) (i : Nat) (hi : i < ks.length) :
    slice (signedBytes 8 time ++ ks.flatMap TokenKey.bytes) (8 + 16 * i) 16 = ks[i].bytes := by
  have hslice := slice_entry TokenKey.bytes_length (signedBytes 8 time) ks i hi
  rwa [signedBytes_length] at hslice

/-- The tokens of a list that a node wants are those that it misses. -/
theorem wantedTokens_eq (time : Int) (ours theirs : TokenSet) :
    wantedTokens (tokenList time theirs) ours = (missing ours theirs).map TokenKey.bytes := by
  have hcount : ((tokenList time theirs).length - 8) / 16 = theirs.keys.length := by
    rw [tokenList, tokenBytes_length, Nat.add_sub_cancel_left, Nat.mul_div_cancel_left _ (by decide)]
  unfold wantedTokens missing
  rw [hcount]
  refine range_filter_map theirs.keys (fun i hi => ?_) fun i hi => tokenBytes_entry time _ i hi
  have hentry := tokenAt_eq (tokenBytes_entry time theirs.keys i hi)
  rw [tokenList, hentry]

variable (peer) in
theorem receiveHave_nothing (hask : Askable now s time) {theirs : TokenSet}
    (hnone : missing (s.tokens time) theirs = []) :
    (receiveHave now peer s (tokenList time theirs)).pushed = [] ∧
      ∀ t, (receiveHave now peer s (tokenList time theirs)).store.bucket t = s.bucket t := by
  have hpushed : (receiveHave now peer s (tokenList time theirs)).pushed = [] := by
    obtain ⟨htime, -, -, -⟩ := hask
    have hwanted := wantedTokens_eq time (s.tokens time) theirs
    rw [hnone, List.map_nil] at hwanted
    change wantedTokens (tokenList time theirs) (s.bucket time).setTokens = [] at hwanted
    unfold receiveHave
    simp only [(tokenList_time htime theirs).2, hwanted, List.isEmpty_nil, if_true]
    split
    · rfl
    · split
      · rfl
      · split
        · rfl
        · split <;> rfl
  refine ⟨hpushed, fun t => ?_⟩
  rw [receiveHave_bucket, if_neg (fun h => h.2 hpushed)]

variable (peer) in
/-- A node that misses tokens locks the bucket and asks for them. -/
theorem receiveHave_want (hask : Askable now s time) {theirs : TokenSet}
    (hsome : missing (s.tokens time) theirs ≠ []) :
    (receiveHave now peer s (tokenList time theirs)).pushed =
        [(.smsgWant, signedBytes 8 time ++
          (missing (s.tokens time) theirs).flatMap TokenKey.bytes)] ∧
      (receiveHave now peer s (tokenList time theirs)).store =
        s.setBucket time { s.bucket time with nLockCount := 3, nLockPeerId := peer.nPeerId } := by
  obtain ⟨htime, hlive, hpast, hunlocked⟩ := hask
  obtain ⟨hslice, -⟩ := tokenList_time htime theirs
  have hlong : ¬(tokenList time theirs).length < 8 := by
    rw [tokenList, tokenBytes_length]
    omega
  have hwanted : wantedTokens (tokenList time theirs) (s.bucket time).setTokens =
      (missing (s.tokens time) theirs).map TokenKey.bytes := wantedTokens_eq time _ theirs
  unfold receiveHave
  simp only [hslice, int64Of_signedBytes htime, hwanted]
  rw [if_neg hlong, if_neg (Int.not_lt.mpr hlive), if_neg (Int.not_lt.mpr hpast),
    if_neg (by omega), if_neg (by simpa using hsome)]
  exact ⟨by rw [List.flatMap_def], rfl⟩

variable (peer) in
/-- A node that has the bucket answers with the bunch of the tokens that are wanted. -/
theorem receiveWant_eq (htime : InInt64 time) {b : SecMsgBucket} (hb : s.smsgBuckets[time]? = some b)
    (ks : List TokenKey) :
    (receiveWant peer s (signedBytes 8 time ++ ks.flatMap TokenKey.bytes)).pushed =
      if 0 < (bunchLoop s b.setTokens ks (0, [])).1 then
        [(.smsgMsg, wordBytes 4 (bunchLoop s b.setTokens ks (0, [])).1 ++ signedBytes 8 time ++
          (bunchLoop s b.setTokens ks (0, [])).2)]
      else [] := by
  have hslice : slice (signedBytes 8 time ++ ks.flatMap TokenKey.bytes) 0 8 = signedBytes 8 time :=
    slice_left (signedBytes_length 8 time)
  have hcount : ((signedBytes 8 time ++ ks.flatMap TokenKey.bytes).length - 8) / 16 = ks.length := by
    rw [tokenBytes_length, Nat.add_sub_cancel_left, Nat.mul_div_cancel_left _ (by decide)]
  have htokens : (List.range ks.length).map (fun i =>
      tokenAt (signedBytes 8 time ++ ks.flatMap TokenKey.bytes) (8 + 16 * i)) = ks := by
    rw [range_map ks (h := id) fun i hi => tokenAt_eq (tokenBytes_entry time ks i hi), List.map_id]
  unfold receiveWant
  simp only [hslice, int64Of_signedBytes htime, hcount, htokens, hb]
  rw [if_neg (by rw [tokenBytes_length]; omega)]

end Tokens

section Bunch

variable {s : SmsgStore} {tokens : TokenSet}

def Readable (s : SmsgStore) (tokens : TokenSet) (m : Smsg) : Prop :=
  ∃ offset, tokens[m.token]? = some offset ∧
    secureMsgRetrieve s m.token.timestamp offset = some m.bytes

/-- A bunch is a beginning of the messages that are wanted: one at least, and all that fit. -/
theorem bunchLoop_messages (ms : List Smsg) (hms : ∀ m ∈ ms, Readable s tokens m)
    (r : Nat × List UInt8) (hr : r.1 < 500) :
    ∃ n, bunchLoop s tokens (ms.map Smsg.token) r =
        (r.1 + (ms.take n).length, r.2 ++ (ms.take n).flatMap Smsg.bytes) ∧
      r.1 + (ms.take n).length ≤ 500 ∧ (ms ≠ [] → ms.take n ≠ []) ∧
      (r.1 + ms.length ≤ 500 → 12 + (r.2 ++ ms.flatMap Smsg.bytes).length < 96000 →
        ms.take n = ms) := by
  induction ms generalizing r with
  | nil =>
    refine ⟨0, ?_, ?_, fun h => absurd rfl h, fun _ _ => rfl⟩
    · simp [bunchLoop]
    · simp only [List.take_nil, List.length_nil]
      omega
  | cons m ms ih =>
    obtain ⟨offset, hoffset, hread⟩ := hms m List.mem_cons_self
    rw [List.map_cons, bunchLoop]
    simp only [hoffset, hread]
    split
    · rename_i hfull
      refine ⟨1, ?_, ?_, fun _ => by simp, fun hcount hsize => ?_⟩
      · simp
      · simp only [List.take_succ_cons, List.take_zero, List.length_singleton]
        omega
      · simp only [List.flatMap_cons, List.length_append, List.length_cons] at hcount hsize hfull
        have hms : ms = [] := List.eq_nil_of_length_eq_zero (by omega)
        simp [hms]
    · rename_i hopen
      obtain ⟨n, heq, hmax, -, hall⟩ := ih (fun m' h => hms m' (List.mem_cons_of_mem _ h))
        (r.1 + 1, r.2 ++ m.bytes) (by omega)
      refine ⟨n + 1, ?_, ?_, fun _ => by simp, fun hcount hsize => ?_⟩
      · rw [heq]
        simp [Nat.add_assoc, Nat.add_comm 1]
      · simp only [List.take_succ_cons, List.length_cons]
        simp only at hmax
        omega
      · rw [List.take_succ_cons, hall (by simp only [List.length_cons] at hcount ⊢; omega)]
        simpa using hsize

end Bunch

section Receive

variable {xxh32 : List UInt8 → UInt32} {lib : SmsgLib} {now : Int} {s : SmsgStore} {time : Int}

theorem smsgAt_append (pre post : List UInt8) (m : Smsg) (beyond : Nat → UInt8) :
    smsgAt (pre ++ (m.bytes ++ post)) beyond pre.length = m := by
  have hlen : (pre ++ (m.bytes ++ post)).length = pre.length + (SMSG_HDR_LEN + m.payload.length) +
      post.length := by
    rw [List.length_append, List.length_append, m.bytes_length]
    omega
  have hheader : readMemory (pre ++ (m.bytes ++ post)) beyond pre.length SMSG_HDR_LEN =
      m.header.bytes := by
    rw [readMemory_eq_slice (by omega), slice_header]
  have hpayload : readMemory (pre ++ (m.bytes ++ post)) beyond (pre.length + SMSG_HDR_LEN)
      m.header.nPayload = m.payload := by
    rw [← m.nPayload_eq, readMemory_eq_slice (by omega),
      slice_payload pre post m (Nat.le_refl _), List.take_length]
  obtain ⟨⟨bytes, hbytes⟩, payload, hp⟩ := m
  unfold smsgAt
  simp only at hheader hpayload
  simp only [hheader, hpayload]

variable (lib) in
/-- The messages of a bunch are found again when they are valid. -/
theorem bunchMessages_append (pre : List UInt8) (ms : List Smsg)
    (hvalid : ∀ m ∈ ms, secureMsgValidate lib m = 0) (beyond : Nat → UInt8) :
    bunchMessages lib (pre ++ ms.flatMap Smsg.bytes) beyond ms.length pre.length = ms := by
  induction ms generalizing pre with
  | nil => rfl
  | cons m ms ih =>
    have hrest := ih (pre ++ m.bytes) fun m' h => hvalid m' (List.mem_cons_of_mem _ h)
    have hlen : (pre ++ (m.bytes ++ ms.flatMap Smsg.bytes)).length =
        pre.length + (SMSG_HDR_LEN + m.payload.length) + (ms.flatMap Smsg.bytes).length := by
      rw [List.length_append, List.length_append, m.bytes_length]
      omega
    rw [List.append_assoc, List.length_append, m.bytes_length, ← Nat.add_assoc] at hrest
    rw [List.flatMap_cons, List.length_cons]
    unfold bunchMessages
    rw [if_neg (by omega)]
    simp only [smsgAt_append, hvalid m List.mem_cons_self]
    rw [if_neg (by decide), hrest]

variable (xxh32) in
/-- Messages that are in time and not there yet are all stored. -/
theorem storeUntil_all (ms : List Smsg) (hwindow : ∀ m ∈ ms, InWindow now m)
    (hhome : ∀ m ∈ ms, bucketOf m.header.timestamp = time)
    (hnew : ∀ m ∈ ms, m.token ∉ s.tokens time) (hnodup : (ms.map Smsg.token).Nodup) :
    (storeUntil xxh32 now s ms).1 = ms ∧
      (∀ k, k ∈ (storeUntil xxh32 now s ms).2.tokens time ↔
        k ∈ s.tokens time ∨ k ∈ ms.map Smsg.token) ∧
      (storeUntil xxh32 now s ms).2.file time = s.file time ++ ms.flatMap Smsg.bytes ∧
      ∀ t, t ≠ time → (storeUntil xxh32 now s ms).2.tokens t = s.tokens t := by
  induction ms generalizing s with
  | nil =>
    refine ⟨rfl, fun k => ?_, ?_, fun _ _ => rfl⟩
    · simp [storeUntil]
    · simp [storeUntil]
  | cons m ms ih =>
    have hm := hhome m List.mem_cons_self
    rw [List.map_cons, List.nodup_cons] at hnodup
    rcases secureMsgStore_cases xxh32 now false m s with ⟨hcode, -⟩ | ⟨hcode, -, hadds⟩
    · rcases secureMsgStore_bucket xxh32 now false m s with ⟨-, hthere, -⟩ | ⟨hok, -, -, -⟩
      · have hmem := hthere (hwindow m List.mem_cons_self)
        rw [hm] at hmem
        exact absurd hmem (hnew m List.mem_cons_self)
      · rw [hcode] at hok
        cases hok
    · rw [storeUntil_stored hcode]
      generalize (secureMsgStore xxh32 now false m s).2 = s' at hadds
      have htokens := hadds.tokens
      have hfile := hadds.file
      have hothers := hadds.others
      rw [hm] at htokens hfile hothers
      have hmem : ∀ k, k ∈ s'.tokens time ↔ k = m.token ∨ k ∈ s.tokens time := by
        intro k
        rw [htokens, ExtTreeMap.mem_insert, Std.LawfulEqCmp.compare_eq_iff_eq, eq_comm]
      obtain ⟨hstored, hall, hbytes, hrest⟩ := ih (s := s')
        (fun m' h => hwindow m' (List.mem_cons_of_mem _ h))
        (fun m' h => hhome m' (List.mem_cons_of_mem _ h))
        (fun m' h hin => (hmem _).mp hin |>.elim
          (fun heq => hnodup.1 (heq ▸ List.mem_map_of_mem h))
          (hnew m' (List.mem_cons_of_mem _ h))) hnodup.2
      refine ⟨by rw [hstored], fun k => ?_, ?_, fun t ht => ?_⟩
      · rw [hall, hmem, List.map_cons, List.mem_cons]
        constructor
        · rintro ((hk | hk) | hk)
          · exact .inr (.inl hk)
          · exact .inl hk
          · exact .inr (.inr hk)
        · rintro (hk | hk | hk)
          · exact .inl (.inr hk)
          · exact .inl (.inl hk)
          · exact .inr hk
      · rw [hbytes, hfile, List.flatMap_cons, List.append_assoc]
      · rw [hrest t ht, (hothers t ht).1]

end Receive

/-- A message that is valid, and not of the future: what the nodes of this clock have stored. -/
structure Admitted (lib : SmsgLib) (now : Int) (m : Smsg) : Prop where
  valid : secureMsgValidate lib m = 0
  dated : 0 ≤ m.header.timestamp
  past : m.header.timestamp ≤ now + SMSG_TIME_LEEWAY

/-- Message-store integrity: every token leads to the message that was stored under it, which was
admitted and is there once. -/
def Integrity (lib : SmsgLib) (now : Int) (s : SmsgStore) : Prop :=
  ∃ log, StoreSound (Admitted lib now) log s

/-- Safe runs up to now, with valid messages, keep the integrity. -/
theorem StoreCall.run_integrity {xxh32 : List UInt8 → UInt32} {lib : SmsgLib} {now : Int}
    (calls : List (Int × StoreCall)) (hsafe : SafeRun xxh32 lib {} calls)
    (hpast : ∀ c ∈ calls, c.1 ≤ now)
    (hvalid : ∀ c ∈ calls, ∀ m, c.2.Brings lib c.1 m → secureMsgValidate lib m = 0) :
    Integrity lib now (run xxh32 lib {} calls).store := by
  refine ⟨_, run_sound calls (storeSound_start _) hsafe fun c hc s hsafe' m hm => ?_⟩
  have hdated := hsafe'.dated hm
  have hwindow := hm.1.2
  have hclock := hpast c hc
  exact ⟨hvalid c hc m hm, hdated, by omega⟩

section Pull

variable (xxh32 : List UInt8 → UInt32) (lib : SmsgLib) (now : Int)

/-- The exchange from the `smsgHave` on, as node B has it: B handles it, A the `smsgWant`, and B the
`smsgMsg`. `peerA` is what B keeps about A, and `peerB` what A keeps about B. -/
def pull (peerA peerB : SecMsgNode) (sA sB : SmsgStore) (vHave : List UInt8)
    (beyond : Nat → UInt8) : SmsgStore :=
  let r := receiveHave now peerA sB vHave
  match pushedData .smsgWant r.pushed with
  | [] => r.store
  | vWant :: _ =>
    match pushedData .smsgMsg (receiveWant peerB sA vWant).pushed with
    | [] => r.store
    | vMsg :: _ => (receiveMsg now peerA r.store xxh32 lib vMsg beyond).store

def recordBytes (s : SmsgStore) (tokens : TokenSet) (ks : List TokenKey) : List UInt8 :=
  ks.flatMap fun k => ((tokens[k]?).bind (secureMsgRetrieve s k.timestamp)).getD []

/-- The bucket has gained messages: those that were missing, all of them when they fit in a bunch,
and one at least when there is one. -/
structure Merged (sA sB s' : SmsgStore) (time : Int) : Prop where
  union : (missing (sB.tokens time) (sA.tokens time)).length ≤ 500 →
    (recordBytes sA (sA.tokens time) (missing (sB.tokens time) (sA.tokens time))).length <
      96000 - 12 →
    ∀ k, k ∈ s'.tokens time ↔ k ∈ sB.tokens time ∨ k ∈ sA.tokens time
  gain : missing (sB.tokens time) (sA.tokens time) ≠ [] →
    ∃ k, k ∈ sA.tokens time ∧ k ∉ sB.tokens time ∧ k ∈ s'.tokens time
  kept : ∀ k, k ∈ sB.tokens time → k ∈ s'.tokens time
  nothing_else : ∀ k, k ∈ s'.tokens time → k ∈ sB.tokens time ∨ k ∈ sA.tokens time
  once : ∃ new : List Smsg, s'.file time = sB.file time ++ new.flatMap Smsg.bytes ∧
    (new.map Smsg.token).Nodup ∧ ∀ m ∈ new, m.token ∉ sB.tokens time
  others : ∀ t, t ≠ time → s'.tokens t = sB.tokens t
  unlocked : (s'.bucket time).nLockCount = 0

end Pull

section Merge

variable {xxh32 : List UInt8 → UInt32} {lib : SmsgLib} {now : Int} {peerA peerB : SecMsgNode}
  {sA sB : SmsgStore} {time : Int}

theorem mem_missing {ours theirs : TokenSet} {k : TokenKey} :
    k ∈ missing ours theirs ↔ k ∈ theirs ∧ k ∉ ours := by
  unfold missing
  rw [List.mem_filter, ExtTreeMap.mem_keys, Bool.not_eq_true', ← Bool.not_eq_true,
    ExtTreeMap.contains_iff_mem]

theorem missing_nodup (ours theirs : TokenSet) : (missing ours theirs).Nodup := by
  have hkeys := Slots.toList_keys_nodup theirs
  rw [ExtTreeMap.map_fst_toList_eq_keys] at hkeys
  exact hkeys.filter _

/-- The messages of some tokens of a sound store. -/
theorem Integrity.messages (h : Integrity lib now sA) (ks : List TokenKey)
    (hks : ∀ k ∈ ks, k ∈ sA.tokens time) :
    ∃ ms : List Smsg, ms.map Smsg.token = ks ∧ ∀ m ∈ ms, Admitted lib now m ∧
      bucketOf m.header.timestamp = time ∧ Readable sA (sA.tokens time) m := by
  induction ks with
  | nil => exact ⟨[], rfl, nofun⟩
  | cons k ks ih =>
    obtain ⟨ms, hms, hall⟩ := ih fun k' h => hks k' (List.mem_cons_of_mem _ h)
    obtain ⟨offset, hoffset⟩ := Option.isSome_iff_exists.mp
      (ExtTreeMap.mem_iff_isSome_getElem?.mp (hks k List.mem_cons_self))
    obtain ⟨log, hsound⟩ := h
    obtain ⟨m, hm, rfl, hhome, -, hread⟩ := hsound.retrieve hoffset
    refine ⟨m :: ms, by rw [List.map_cons, hms], fun m' hm' => ?_⟩
    rcases List.mem_cons.mp hm' with rfl | hm'
    · exact ⟨hm, hhome, offset, hoffset, hread⟩
    · exact hall m' hm'

theorem recordBytes_eq {s : SmsgStore} {tokens : TokenSet} (ms : List Smsg)
    (hms : ∀ m ∈ ms, Readable s tokens m) :
    recordBytes s tokens (ms.map Smsg.token) = ms.flatMap Smsg.bytes := by
  unfold recordBytes
  rw [List.flatMap_map]
  apply List.flatMap_congr
  intro m hm
  obtain ⟨offset, hoffset, hread⟩ := hms m hm
  rw [hoffset, Option.bind_some, hread, Option.getD_some]

def bunchData (time : Int) (ms : List Smsg) : List UInt8 :=
  wordBytes 4 ms.length ++ signedBytes 8 time ++ ms.flatMap Smsg.bytes

theorem bunchData_header (time : Int) (ms : List Smsg) :
    (wordBytes 4 ms.length ++ signedBytes 8 time).length = 12 := by
  rw [List.length_append, wordBytes_length, signedBytes_length]

theorem bunchSize_data {ms : List Smsg} (hsize : ms.length ≤ 500) :
    bunchSize (bunchData time ms) = ms.length := by
  unfold bunchSize bunchData
  rw [List.append_assoc, slice_left (wordBytes_length 4 _), leValue_wordBytes]
  exact Nat.mod_eq_of_lt (by omega)

theorem bunchTime_data (htime : InInt64 time) (ms : List Smsg) :
    bunchTime (bunchData time ms) = time := by
  have hslice := slice_right (wordBytes 4 ms.length)
    (l := signedBytes 8 time ++ ms.flatMap Smsg.bytes) (k := 8) 0 (wordBytes_length 4 _)
  unfold bunchTime bunchData
  rw [List.append_assoc, hslice, slice_left (signedBytes_length 8 time), int64Of_signedBytes htime]

theorem takesBunch_data (htime : InInt64 time) (hlive : now - SMSG_RETENTION ≤ time)
    (hpast : time ≤ now + SMSG_TIME_LEEWAY) (ms : List Smsg) :
    TakesBunch now (bunchData time ms) := by
  unfold TakesBunch
  rw [bunchTime_data htime, bunchData, List.length_append, bunchData_header]
  exact ⟨Nat.le_add_right _ _, hlive, hpast⟩

/-- A bucket with a token is in the map of buckets. -/
theorem mem_buckets_of_token {s : SmsgStore} {k : TokenKey} (h : k ∈ s.tokens time) :
    time ∈ s.smsgBuckets := by
  by_contra hnone
  unfold SmsgStore.tokens at h
  rw [bucket_of_none (ExtTreeMap.getElem?_eq_none hnone)] at h
  simp at h

variable (xxh32 lib) in
/-- A bunch of admitted messages of one bucket that are not there yet is stored as a whole. -/
theorem receive_bunch {s : SmsgStore} (htime : InInt64 time) (hlive : now - SMSG_RETENTION ≤ time)
    (hpast : time ≤ now + SMSG_TIME_LEEWAY) (ms : List Smsg) (hsize : ms.length ≤ 500)
    (hsome : ms ≠ []) (hms : ∀ m ∈ ms, Admitted lib now m ∧ bucketOf m.header.timestamp = time)
    (hnew : ∀ m ∈ ms, m.token ∉ s.tokens time) (hnodup : (ms.map Smsg.token).Nodup)
    (beyond : Nat → UInt8) :
    let s' := (secureMsgReceive xxh32 now lib (bunchData time ms) beyond s).store
    (∀ k, k ∈ s'.tokens time ↔ k ∈ s.tokens time ∨ k ∈ ms.map Smsg.token) ∧
      s'.file time = s.file time ++ ms.flatMap Smsg.bytes ∧
      (∀ t, t ≠ time → s'.tokens t = s.tokens t) ∧ (s'.bucket time).nLockCount = 0 ∧
      (Integrity lib now s → Integrity lib now s') := by
  have hcount : bunchSize (bunchData time ms) = ms.length := bunchSize_data hsize
  have htakes : TakesBunch now (bunchData time ms) := takesBunch_data htime hlive hpast ms
  have hbunch : bunchMessages lib (bunchData time ms) beyond ms.length 12 = ms := by
    have happend := bunchMessages_append lib (wordBytes 4 ms.length ++ signedBytes 8 time) ms
      (fun m hm => (hms m hm).1.valid) beyond
    rwa [bunchData_header] at happend
  have hlen : ms.length ≠ 0 := fun h => hsome (List.eq_nil_of_length_eq_zero h)
  have hok : ¬(bunchSize (bunchData time ms) = 0 ∨ 500 < bunchSize (bunchData time ms)) := by
    rw [hcount]
    omega
  have hwindow : ∀ m ∈ ms, InWindow now m := by
    intro m hm
    obtain ⟨hadmitted, hhome⟩ := hms m hm
    have hbounds := bucketOf_bounds hadmitted.dated
    rw [hhome] at hbounds
    exact ⟨hlive.trans hbounds.1, hadmitted.past⟩
  obtain ⟨hstored, hall, hfile, hothers⟩ := storeUntil_all xxh32 ms hwindow
    (fun m hm => (hms m hm).2) hnew hnodup
  have hsame := secureMsgReceive_slots xxh32 lib s htakes hok beyond
  rw [hcount, hbunch] at hsame
  refine ⟨fun k => ?_, ?_, fun t ht => ?_, ?_, fun ⟨log, hsound⟩ => ?_⟩
  · rw [(hsame time).1, hall]
  · rw [(hsame time).2, hfile]
  · rw [(hsame t).1, hothers t ht]
  · rcases secureMsgReceive_bucket xxh32 lib now s (bunchData time ms) beyond with
      ⟨hnot, -⟩ | ⟨-, hbad, -⟩ | ⟨-, -, -, hbucket⟩
    · exact absurd htakes hnot
    · exact absurd hbad hok
    · have hthere : time ∈ (storeUntil xxh32 now s ms).2.smsgBuckets := by
        obtain ⟨m, hm⟩ := List.exists_mem_of_ne_nil ms hsome
        exact mem_buckets_of_token ((hall m.token).mpr (.inr (List.mem_map_of_mem hm)))
      rw [hcount, hbunch] at hbucket
      rw [hbucket time, bunchTime_data htime]
      simp only [hthere, and_self, if_true]
      rfl
  · exact ⟨_, (storeUntil_sound xxh32 ms (fun m hm _ => (hms m hm).1) hsound).same hsame⟩

theorem pushedData_one (strCommand : SmsgCommand) (data : List UInt8) :
    pushedData strCommand [(strCommand, data)] = [data] := by
  simp [pushedData]

variable (xxh32 lib peerB sA) in
theorem pull_nothing {vHave : List UInt8} (beyond : Nat → UInt8)
    (h : (receiveHave now peerA sB vHave).pushed = []) :
    pull xxh32 lib now peerA peerB sA sB vHave beyond = (receiveHave now peerA sB vHave).store := by
  unfold pull
  simp only [h]
  rfl

variable (xxh32 lib) in
theorem pull_bunch {vHave vWant vMsg : List UInt8} (beyond : Nat → UInt8)
    (hwant : (receiveHave now peerA sB vHave).pushed = [(.smsgWant, vWant)])
    (hmsg : (receiveWant peerB sA vWant).pushed = [(.smsgMsg, vMsg)]) :
    pull xxh32 lib now peerA peerB sA sB vHave beyond =
      (secureMsgReceive xxh32 now lib vMsg beyond (receiveHave now peerA sB vHave).store).store := by
  unfold pull
  simp only [hwant, hmsg, pushedData_one, receiveMsg]

section Bucket

variable (xxh32 peerA peerB)
variable (hask : Askable now sB time) {b : SecMsgBucket} (hb : sA.smsgBuckets[time]? = some b)
  (beyond : Nat → UInt8)
include hask hb

/-- Nothing is missing: B asks for nothing. -/
theorem pull_same (hmissing : missing (sB.tokens time) b.setTokens = []) :
    Merged sA sB (pull xxh32 lib now peerA peerB sA sB (tokenList time b.setTokens) beyond) time ∧
      (Integrity lib now sB →
        Integrity lib now
          (pull xxh32 lib now peerA peerB sA sB (tokenList time b.setTokens) beyond)) := by
  have htokens := tokens_of_some hb
  obtain ⟨hpushed, hbuckets⟩ := receiveHave_nothing peerA hask hmissing
  have hfile := receiveHave_files now peerA sB (tokenList time b.setTokens)
  have hsame : ∀ t, (receiveHave now peerA sB (tokenList time b.setTokens)).store.tokens t =
      sB.tokens t := by
    intro t
    unfold SmsgStore.tokens
    rw [hbuckets]
  have hsub : ∀ k, k ∈ b.setTokens → k ∈ sB.tokens time := by
    intro k hk
    by_contra hnot
    have hmem := mem_missing.mpr ⟨hk, hnot⟩
    rw [hmissing] at hmem
    cases hmem
  have hslots : SameSlots sB (receiveHave now peerA sB (tokenList time b.setTokens)).store := by
    intro t
    unfold SmsgStore.file
    rw [hfile]
    exact ⟨hsame t, rfl⟩
  rw [pull_nothing xxh32 lib peerB sA beyond hpushed]
  refine ⟨⟨fun _ _ k => ?_, fun h => ?_, fun k hk => ?_, fun k hk => ?_, ⟨[], ?_, ?_, nofun⟩,
    fun t _ => hsame t, ?_⟩, fun ⟨log, hsound⟩ => ⟨log, hsound.same hslots⟩⟩
  · rw [hsame, htokens]
    exact ⟨.inl, fun h => h.elim id (hsub k)⟩
  · rw [htokens] at h
    exact absurd hmissing h
  · rw [hsame]
    exact hk
  · rw [hsame] at hk
    exact .inl hk
  · rw [List.flatMap_nil, List.append_nil]
    exact (hslots time).2
  · exact List.nodup_nil
  · rw [hbuckets]
    exact hask.2.2.2

variable (hA : Integrity lib now sA)
include hA

omit hask in
/-- A answers with a beginning of the messages that B misses: one at least, and all that fit. -/
theorem answered_bunch (htime : InInt64 time)
    (hmissing : missing (sB.tokens time) b.setTokens ≠ []) :
    ∃ all : List Smsg, ∃ n, all.map Smsg.token = missing (sB.tokens time) b.setTokens ∧
      (∀ m ∈ all, Admitted lib now m ∧ bucketOf m.header.timestamp = time ∧
        Readable sA b.setTokens m) ∧
      (receiveWant peerB sA (signedBytes 8 time ++
        (missing (sB.tokens time) b.setTokens).flatMap TokenKey.bytes)).pushed =
          [(.smsgMsg, bunchData time (all.take n))] ∧
      (all.take n).length ≤ 500 ∧ all.take n ≠ [] ∧
      (all.length ≤ 500 → (all.flatMap Smsg.bytes).length < 96000 - 12 → all.take n = all) := by
  have htokens := tokens_of_some hb
  obtain ⟨all, hall, hmessages⟩ := hA.messages (missing (sB.tokens time) b.setTokens)
    (fun k hk => by rw [htokens]; exact (mem_missing.mp hk).1)
  rw [htokens] at hmessages
  obtain ⟨n, hbunch, hmax, hsome, hfits⟩ := bunchLoop_messages all
    (fun m hm => (hmessages m hm).2.2) (0, []) (by decide)
  rw [hall, Nat.zero_add, List.nil_append] at hbunch
  rw [Nat.zero_add] at hmax
  have hne : all.take n ≠ [] := hsome fun hnil => by
    rw [hnil] at hall
    exact hmissing hall.symm
  have hpos : 0 < (all.take n).length := List.length_pos_iff.mpr hne
  have hwant := receiveWant_eq peerB htime hb (missing (sB.tokens time) b.setTokens)
  rw [hbunch] at hwant
  simp only [hpos, if_true] at hwant
  exact ⟨all, n, hall, hmessages, hwant, hmax, hne, fun hcount hsize =>
    hfits (by omega) (by rw [List.nil_append]; omega)⟩

/-- Something is missing: B stores the bunch that A answers with. -/
theorem pull_missing (hmissing : missing (sB.tokens time) b.setTokens ≠ []) :
    Merged sA sB (pull xxh32 lib now peerA peerB sA sB (tokenList time b.setTokens) beyond) time ∧
      (Integrity lib now sB →
        Integrity lib now
          (pull xxh32 lib now peerA peerB sA sB (tokenList time b.setTokens) beyond)) := by
  have htokens := tokens_of_some hb
  obtain ⟨hpushed, hstore⟩ := receiveHave_want peerA hask hmissing
  obtain ⟨htime, hlive, hpast, -⟩ := hask
  obtain ⟨all, n, hall, hmessages, hwant, hmax, hne, hfits⟩ :=
    answered_bunch peerB hb hA htime hmissing
  have hpull := pull_bunch xxh32 lib beyond hpushed hwant
  rw [hstore] at hpull
  have hlocked : SameSlots sB (sB.setBucket time
      { sB.bucket time with nLockCount := 3, nLockPeerId := peerA.nPeerId }) :=
    setBucket_sameSlots rfl
  have hsub : (all.take n).Sublist all := List.take_sublist n all
  have hkeys : ((all.take n).map Smsg.token).Nodup := by
    have hnodup := missing_nodup (sB.tokens time) b.setTokens
    rw [← hall] at hnodup
    exact hnodup.sublist (hsub.map _)
  have hnew : ∀ m ∈ all.take n, m.token ∈ b.setTokens ∧ m.token ∉ sB.tokens time := by
    intro m hm
    apply mem_missing.mp
    rw [← hall]
    exact List.mem_map_of_mem (hsub.subset hm)
  obtain ⟨hresult, hfile, hothers, hunlocked, hintegrity⟩ := receive_bunch xxh32 lib
    (s := sB.setBucket time { sB.bucket time with nLockCount := 3, nLockPeerId := peerA.nPeerId })
    htime hlive hpast (all.take n) hmax hne
    (fun m hm => ⟨(hmessages m (hsub.subset hm)).1, (hmessages m (hsub.subset hm)).2.1⟩)
    (fun m hm => by rw [(hlocked time).1]; exact (hnew m hm).2) hkeys beyond
  rw [(hlocked time).1] at hresult
  rw [(hlocked time).2] at hfile
  rw [hpull]
  refine ⟨⟨fun hcount hsize k => ?_, fun _ => ?_, fun k hk => (hresult k).mpr (.inl hk),
    fun k hk => ?_, ⟨all.take n, hfile, hkeys, fun m hm => (hnew m hm).2⟩, fun t ht => ?_,
    hunlocked⟩, fun ⟨log, hsound⟩ => hintegrity ⟨log, hsound.same hlocked⟩⟩
  · rw [htokens, ← hall] at hcount hsize
    rw [recordBytes_eq all fun m hm => (hmessages m hm).2.2] at hsize
    rw [List.length_map] at hcount
    rw [hresult, hfits hcount hsize, hall, htokens, mem_missing]
    by_cases hk : k ∈ sB.tokens time <;> simp [hk]
  · obtain ⟨m, hm⟩ := List.exists_mem_of_ne_nil _ hne
    rw [htokens]
    exact ⟨m.token, (hnew m hm).1, (hnew m hm).2, (hresult _).mpr (.inr (List.mem_map_of_mem hm))⟩
  · rw [htokens]
    refine ((hresult k).mp hk).imp_right fun hmem => ?_
    obtain ⟨m, hm, rfl⟩ := List.mem_map.mp hmem
    exact (hnew m hm).1
  · rw [hothers t ht, (hlocked t).1]

/-- The exchange about a bucket that B may ask for. -/
theorem pull_bucket :
    Merged sA sB (pull xxh32 lib now peerA peerB sA sB (tokenList time b.setTokens) beyond) time ∧
      (Integrity lib now sB →
        Integrity lib now
          (pull xxh32 lib now peerA peerB sA sB (tokenList time b.setTokens) beyond)) := by
  by_cases hmissing : missing (sB.tokens time) b.setTokens = []
  · exact pull_same xxh32 peerA peerB hask hb beyond hmissing
  · exact pull_missing xxh32 peerA peerB hask hb beyond hA hmissing

end Bucket

theorem Merged.same {sB' s' : SmsgStore} (h : Merged sA sB' s' time) (hs : SameSlots sB sB') :
    Merged sA sB s' time := by
  obtain ⟨hunion, hgain, hkept, hnothing, honce, hothers, hunlocked⟩ := h
  rw [(hs time).1] at hunion hgain hkept hnothing honce
  rw [(hs time).2] at honce
  exact ⟨hunion, hgain, hkept, hnothing, honce, fun t ht => by rw [hothers t ht, (hs t).1], hunlocked⟩

/-- The buckets that a sound store shows have times that an entry holds. -/
theorem Integrity.shown_range (h : Integrity lib now sA) (lastMatched : Int) :
    ∀ p ∈ shownBuckets lastMatched sA, InInt64 p.1 := by
  intro p hp
  obtain ⟨k, hk⟩ : ∃ k, k ∈ sA.tokens p.1 := by
    by_contra hnone
    exact (shownBuckets_times lastMatched sA).2 p hp
      (ExtTreeMap.eq_empty_iff_forall_not_mem.mpr (not_exists.mp hnone))
  obtain ⟨ms, hms, hall⟩ := h.messages [k] fun k' hk' => by rwa [List.mem_singleton.mp hk']
  cases ms with
  | nil => cases hms
  | cons m ms =>
    have hhome := (hall m List.mem_cons_self).2.1
    rw [← hhome]
    exact (bucketOf_near (int64Of_range (slice m.header.bytes 7 8))).2.1

/-- B asks only for buckets that A has. -/
theorem Integrity.asked_there (h : Integrity lib now sA) {lastMatched : Int} {i : Nat}
    (hi : i < leValue (slice (inventory lastMatched sA) 0 4)) :
    int64Of (slice (slice (inventory lastMatched sA) (4 + 16 * i) 16) 0 8) ∈ sA.smsgBuckets := by
  have hcount : leValue (slice (inventory lastMatched sA) 0 4) ≤
      (shownBuckets lastMatched sA).length := by
    rw [inventory, slice_left (wordBytes_length 4 _), leValue_wordBytes]
    exact Nat.mod_le _ _
  have hlt : i < (shownBuckets lastMatched sA).length := by omega
  rw [inventory_entry (h.shown_range lastMatched) i hlt]
  have hshown := (List.mem_filter.mp (List.getElem_mem hlt)).1
  exact ExtTreeMap.mem_iff_isSome_getElem?.mpr (Option.isSome_iff_exists.mpr
    ⟨_, ExtTreeMap.mem_toList_iff_getElem?_eq_some.mp hshown⟩)

end Merge

namespace Sample

def fillCalls : List (Int × StoreCall) :=
  [(1700000100, .store true note), (1700000101, .store true reply)]

def fullStore : SmsgStore := (StoreCall.run xxh32 zeroWork {} fillCalls).store

theorem fullStore_integrity : Integrity zeroWork 1700000200 fullStore := by
  refine StoreCall.run_integrity fillCalls
    ⟨by decide, by decide, trivial⟩ (by decide) fun c hc m hm => ?_
  rcases List.mem_cons.mp hc with rfl | hc
  · obtain ⟨-, rfl⟩ := hm
    decide
  · rw [List.mem_singleton] at hc
    subst hc
    obtain ⟨-, rfl⟩ := hm
    decide

def showData : List UInt8 := wordBytes 4 1 ++ signedBytes 8 1699999800

theorem shown_first :
    (.smsgShow, showData) ∈ (receiveInv 1700000200 {} {} (inventory 0 fullStore)).pushed := by
  decide

end Sample

end Triangles
