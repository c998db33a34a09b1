import Triangles.Proofs.PullExchange

/-! What a node that keeps its buckets in time shows to another one, and whether it is punished. -/

namespace Triangles

open Std (ExtTreeMap)

/-- A multiple of the length of a bucket for each of distinct times: how many fit between two
bounds. -/
theorem spaced_length (lo hi : Int) (h : lo ≤ hi + SMSG_BUCKET_LEN) (l : List Int)
    (hl : l.Pairwise (· < ·)) (hin : ∀ x ∈ l, SMSG_BUCKET_LEN ∣ x ∧ lo ≤ x ∧ x ≤ hi) :
    SMSG_BUCKET_LEN * l.length ≤ hi - lo + SMSG_BUCKET_LEN := by
  have hlen : SMSG_BUCKET_LEN = 600 := rfl
  rw [hlen] at h hin ⊢
  induction l generalizing lo with
  | nil =>
    simp only [List.length_nil]
    omega
  | cons x l ih =>
    obtain ⟨hlt, hl⟩ := List.pairwise_cons.mp hl
    obtain ⟨⟨k, hk⟩, hlo, hhi⟩ := hin x List.mem_cons_self
    have hrest := ih (x + 600) (by omega) hl fun y hy => by
      obtain ⟨⟨j, hj⟩, -, hy'⟩ := hin y (List.mem_cons_of_mem _ hy)
      have hxy := hlt y hy
      exact ⟨⟨j, hj⟩, by omega, hy'⟩
    rw [List.length_cons]
    push_cast
    omega

section Times

variable {xxh32 : List UInt8 → UInt32} {lib : SmsgLib} {now : Int} {Q : Int → Prop} {s : SmsgStore}

/-- The times of the buckets that have tokens. -/
def BucketTimes (Q : Int → Prop) (s : SmsgStore) : Prop := ∀ time, s.tokens time ≠ ∅ → Q time

theorem BucketTimes.same {s' : SmsgStore} (h : BucketTimes Q s)
    (hs : ∀ time, s'.tokens time = s.tokens time) : BucketTimes Q s' := fun time htime =>
  h time (by rwa [hs] at htime)

variable (xxh32 now) in
theorem BucketTimes.store (h : BucketTimes Q s) (fUpdateBucket : Bool) (m : Smsg)
    (hm : InWindow now m → Q (bucketOf m.header.timestamp)) :
    BucketTimes Q (secureMsgStore xxh32 now fUpdateBucket m s).2 := by
  rcases secureMsgStore_cases xxh32 now fUpdateBucket m s with ⟨-, hsame⟩ | ⟨-, hwindow, hadds⟩
  · exact h.same fun time => (hsame time).1
  · intro time htime
    by_cases ht : time = bucketOf m.header.timestamp
    · rw [ht]
      exact hm hwindow
    · rw [(hadds.others time ht).1] at htime
      exact h time htime

variable (xxh32 now) in
theorem BucketTimes.storeUntil (ms : List Smsg) (h : BucketTimes Q s)
    (hms : ∀ m ∈ ms, InWindow now m → Q (bucketOf m.header.timestamp)) :
    BucketTimes Q (storeUntil xxh32 now s ms).2 :=
  storeUntil_preserves ms (fun m hm _ h => h.store xxh32 now false m (hms m hm)) h

variable (xxh32 now) in
theorem BucketTimes.receive (h : BucketTimes Q s) (vchData : List UInt8) (beyond : Nat → UInt8)
    (hQ : ∀ m, InWindow now m → secureMsgValidate lib m = 0 → Q (bucketOf m.header.timestamp)) :
    BucketTimes Q (secureMsgReceive xxh32 now lib vchData beyond s).store := by
  rcases secureMsgReceive_bucket xxh32 lib now s vchData beyond
    with ⟨-, -, hstore⟩ | ⟨-, -, -, hbucket⟩ | ⟨htakes, hsize, -, -⟩
  · rw [hstore]
    exact h
  · refine h.same fun time => ?_
    unfold SmsgStore.tokens
    rw [hbucket]
    split <;> rfl
  · have hslots := secureMsgReceive_slots xxh32 lib s htakes hsize beyond
    refine (h.storeUntil xxh32 now _ fun m hm hwindow => ?_).same
      fun time => (hslots time).1
    exact hQ m hwindow (bunchMessages_valid vchData beyond _ _ m hm)

variable (now) in
theorem BucketTimes.expiry (h : BucketTimes Q s) :
    BucketTimes (fun time => Q time ∧ now - SMSG_RETENTION ≤ time) (expiryPass now s).1 := by
  intro time htime
  rw [expiryPass_tokens] at htime
  split at htime
  · rename_i hlive
    exact ⟨h time htime, hlive⟩
  · exact absurd rfl htime

end Times

/-- The calls that the buckets of a running node see. -/
def StoreCall.Ordinary : StoreCall → Prop
  | .store _ _ | .receive _ _ | .expiry => True
  | _ => False

def passTime (lastPass : Int) (c : Int × StoreCall) : Int :=
  match c.2 with
  | .expiry => c.1
  | _ => lastPass

/-- The clock does not go back, and there are never more than 21 seconds without an expiry pass. -/
def Timely (now : Int) : Int → Int → List (Int × StoreCall) → Prop
  | lastPass, clock, [] => clock ≤ now ∧ now ≤ lastPass + 21
  | lastPass, clock, c :: calls =>
    clock ≤ c.1 ∧ c.1 ≤ lastPass + 21 ∧ c.2.Ordinary ∧ Timely now (passTime lastPass c) c.1 calls

/-- The messages that the calls may add lie in buckets that have not expired by more than `slack`. -/
def Unexpired (lib : SmsgLib) (slack : Int) (calls : List (Int × StoreCall)) : Prop :=
  ∀ c ∈ calls, ∀ m, c.2.Brings lib c.1 m → c.1 - SMSG_RETENTION - slack ≤ bucketOf m.header.timestamp

/-- The time of a bucket, as the last pass and the clock bound it. -/
structure Spans (slack lastPass clock time : Int) : Prop where
  multiple : SMSG_BUCKET_LEN ∣ time
  range : InInt64 time
  past : time ≤ clock + SMSG_TIME_LEEWAY
  live : lastPass - SMSG_RETENTION - slack ≤ time

section Runs

variable {xxh32 : List UInt8 → UInt32} {lib : SmsgLib} {now slack lastPass clock : Int}

theorem passTime_le {c : Int × StoreCall} (h : lastPass ≤ c.1) : passTime lastPass c ≤ c.1 := by
  unfold passTime
  split <;> omega

variable (xxh32) in
/-- A call keeps the times of the buckets within the bounds. -/
theorem StoreCall.step_spans {st : Logged} {c : Int × StoreCall} (hpass : lastPass ≤ c.1)
    (hclock : 0 ≤ c.1) (hle : clock ≤ c.1) (hordinary : c.2.Ordinary)
    (hfresh : ∀ m, c.2.Brings lib c.1 m →
      c.1 - SMSG_RETENTION - slack ≤ bucketOf m.header.timestamp)
    (h : BucketTimes (Spans slack lastPass clock) st.store) (hslack : 0 ≤ slack) :
    BucketTimes (Spans slack (passTime lastPass c) c.1) (c.2.step xxh32 lib c.1 st).store := by
  have hleeway : (0 : Int) ≤ SMSG_TIME_LEEWAY := by decide
  have hold : BucketTimes (Spans slack lastPass c.1) st.store := fun time htime => by
    obtain ⟨hmultiple, hrange, hpast, hlive⟩ := h time htime
    exact ⟨hmultiple, hrange, by omega, hlive⟩
  have hnew : ∀ m, c.2.Brings lib c.1 m →
      Spans slack lastPass c.1 (bucketOf m.header.timestamp) := by
    intro m hm
    have hbucket := hfresh m hm
    obtain ⟨hmultiple, hrange, -, hbefore⟩ := bucketOf_near (int64Of_range (slice m.header.bytes 7 8))
    have hpast := hm.1.2
    exact ⟨hmultiple, hrange, hbefore.elim (fun h => h.trans hpast) (fun h => by
      have h' : bucketOf m.header.timestamp ≤ 0 := h
      omega), by omega⟩
  obtain ⟨now, call⟩ := c
  cases call with
  | store fUpdateBucket m =>
    have hstore := hold.store xxh32 now fUpdateBucket m
      fun hwindow => hnew m ⟨hwindow, rfl⟩
    rcases secureMsgStore_cases xxh32 now fUpdateBucket m st.store with
      ⟨hcode, -⟩ | ⟨hcode, -, -⟩
    · rw [StoreCall.step_refused hcode]
      exact hstore
    · rw [StoreCall.step_stored hcode]
      exact hstore
  | receive vchData beyond =>
    exact hold.receive xxh32 now vchData beyond fun m hwindow hvalid =>
      hnew m ⟨hwindow, hvalid⟩
  | expiry =>
    intro time htime
    obtain ⟨⟨hmultiple, hrange, hpast, -⟩, hlive⟩ := hold.expiry now time htime
    have hpassed : passTime lastPass (now, .expiry) = now := rfl
    rw [hpassed]
    exact ⟨hmultiple, hrange, hpast, by omega⟩
  | scanBuckets fSecMsgEnabled fLocked => exact hordinary.elim
  | buildBucketSet => exact hordinary.elim
  | restart => exact hordinary.elim

variable (xxh32) in
theorem StoreCall.run_spans (calls : List (Int × StoreCall)) (st : Logged)
    (hpass : lastPass ≤ clock) (hclock : 0 ≤ clock) (htimely : Timely now lastPass clock calls)
    (hfresh : Unexpired lib slack calls) (hslack : 0 ≤ slack)
    (h : BucketTimes (Spans slack lastPass clock) st.store) :
    BucketTimes (Spans slack (now - 21) now) (run xxh32 lib st calls).store := by
  induction calls generalizing st lastPass clock with
  | nil =>
    obtain ⟨hle, hrecent⟩ := htimely
    intro time htime
    obtain ⟨hmultiple, hrange, hpast, hlive⟩ := h time htime
    exact ⟨hmultiple, hrange, by omega, by omega⟩
  | cons c calls ih =>
    obtain ⟨hle, -, hordinary, hrest⟩ := htimely
    have hstep := step_spans xxh32 (by omega) (by omega) hle hordinary
      (hfresh c List.mem_cons_self) h hslack
    exact ih _ (passTime_le (by omega)) (by omega) hrest
      (fun c' hc' => hfresh c' (List.mem_cons_of_mem _ hc')) hstep

/-- Whatever the calls add has not expired by more than the length of a bucket. -/
theorem fresh_bucket (lib : SmsgLib) (calls : List (Int × StoreCall)) :
    Unexpired lib (SMSG_BUCKET_LEN - 1) calls := by
  intro c _ m hm
  obtain ⟨-, -, hnear, -⟩ := bucketOf_near (int64Of_range (slice m.header.bytes 7 8))
  have hnear' : m.header.timestamp - (SMSG_BUCKET_LEN - 1) ≤ bucketOf m.header.timestamp := hnear
  have hlive := hm.1.1
  omega

theorem bucketTimes_start (Q : Int → Prop) : BucketTimes Q {} := fun time htime =>
  absurd (by simp [SmsgStore.tokens, SmsgStore.bucket]) htime

end Runs

section Inventory

variable {now : Int} {s : SmsgStore} {peer : SecMsgNode} {lastMatched : Int}

/-- A header is punished when its bucket is out of time by more than the leeway. -/
theorem receiveInvEntry_scores (r : InvState) (p : List UInt8) :
    (receiveInvEntry now r p).scores = [] ↔ r.scores = [] ∧
      now - SMSG_RETENTION - SMSG_TIME_LEEWAY ≤ int64Of (slice p 0 8) ∧
        int64Of (slice p 0 8) ≤ now + SMSG_TIME_LEEWAY := by
  have hleeway : SMSG_TIME_LEEWAY = 60 := rfl
  have hretention : SMSG_RETENTION = 172800 := rfl
  unfold receiveInvEntry
  simp only [hleeway, hretention]
  repeat' split
  all_goals simp
  all_goals omega

theorem receiveInvEntries_scores (vchData : List UInt8) (l : List Nat) (r : InvState) :
    (l.foldl (fun r i => receiveInvEntry now r (slice vchData (4 + 16 * i) 16)) r).scores = [] ↔
      r.scores = [] ∧ ∀ i ∈ l,
        now - SMSG_RETENTION - SMSG_TIME_LEEWAY ≤
            int64Of (slice (slice vchData (4 + 16 * i) 16) 0 8) ∧
          int64Of (slice (slice vchData (4 + 16 * i) 16) 0 8) ≤ now + SMSG_TIME_LEEWAY := by
  induction l generalizing r with
  | nil => simp
  | cons i l ih =>
    rw [List.foldl_cons, ih, receiveInvEntry_scores]
    simp only [List.mem_cons, forall_eq_or_imp, and_assoc]

section Bounded

variable (hspans : BucketTimes (Spans (SMSG_BUCKET_LEN - 1) (now - 21) now) s)
include hspans

theorem shownBuckets_spans (lastMatched : Int) :
    ∀ p ∈ shownBuckets lastMatched s, Spans (SMSG_BUCKET_LEN - 1) (now - 21) now p.1 :=
  fun p hp => hspans p.1 ((shownBuckets_times lastMatched s).2 p hp)

/-- From any time on there are no more buckets than lengths of a bucket. -/
theorem shownBuckets_count {lo : Int} (hlo : lo ≤ now + 660)
    (hall : ∀ p ∈ shownBuckets lastMatched s, lo ≤ p.1) :
    600 * ((shownBuckets lastMatched s).length : Int) ≤ now + 60 - lo + 600 := by
  have hbucket : SMSG_BUCKET_LEN = 600 := rfl
  have hleeway : SMSG_TIME_LEEWAY = 60 := rfl
  have hspaced := spaced_length lo (now + SMSG_TIME_LEEWAY) (by omega) _
    (shownBuckets_times lastMatched s).1 ?_
  · rw [List.length_map, hbucket, hleeway] at hspaced
    exact hspaced
  · intro x hx
    obtain ⟨p, hp, rfl⟩ := List.mem_map.mp hx
    have hspan := shownBuckets_spans hspans lastMatched p hp
    exact ⟨hspan.multiple, hall p hp, hspan.past⟩

/-- An inventory is read as the buckets that it shows. -/
theorem inventory_reads (lastMatched : Int) :
    (inventory lastMatched s).length = 4 + 16 * (shownBuckets lastMatched s).length ∧
      leValue (slice (inventory lastMatched s) 0 4) = (shownBuckets lastMatched s).length ∧
      ∀ i (hi : i < (shownBuckets lastMatched s).length),
        int64Of (slice (slice (inventory lastMatched s) (4 + 16 * i) 16) 0 8) =
          (shownBuckets lastMatched s)[i].1 := by
  have hlive := fun p hp => (shownBuckets_spans hspans lastMatched p hp).live
  have hretention : SMSG_RETENTION = 172800 := rfl
  have hbucket : SMSG_BUCKET_LEN = 600 := rfl
  have hcount := shownBuckets_count hspans (by omega) hlive
  unfold inventory
  refine ⟨?_, ?_, fun i hi => ?_⟩
  · rw [List.length_append, wordBytes_length, entries_length inventoryEntry_length]
  · rw [slice_left (wordBytes_length 4 _), leValue_wordBytes]
    exact Nat.mod_eq_of_lt (by omega)
  · exact inventory_entry (fun p hp => (shownBuckets_spans hspans lastMatched p hp).range) i hi

/-- The headers of an inventory are in time exactly when the buckets that it shows are. -/
theorem inventory_inTime (lastMatched : Int) :
    (∀ i ∈ List.range (shownBuckets lastMatched s).length,
      now - SMSG_RETENTION - SMSG_TIME_LEEWAY ≤
          int64Of (slice (slice (inventory lastMatched s) (4 + 16 * i) 16) 0 8) ∧
        int64Of (slice (slice (inventory lastMatched s) (4 + 16 * i) 16) 0 8) ≤
          now + SMSG_TIME_LEEWAY) ↔
      ∀ p ∈ shownBuckets lastMatched s, now - SMSG_RETENTION - SMSG_TIME_LEEWAY ≤ p.1 := by
  obtain ⟨-, -, hentry⟩ := inventory_reads hspans lastMatched
  constructor
  · intro hall p hp
    obtain ⟨i, hi, rfl⟩ := List.getElem_of_mem hp
    rw [← hentry i hi]
    exact (hall i (List.mem_range.mpr hi)).1
  · intro hall i hi
    rw [hentry i (List.mem_range.mp hi)]
    have hp := List.getElem_mem (List.mem_range.mp hi)
    exact ⟨hall _ hp, (shownBuckets_spans hspans lastMatched _ hp).past⟩

/-- Among buckets within the bounds, those that are not out of time by more than the leeway are the
ones for which a node is not punished, and they are not too many. -/
theorem receiveInv_scores {sB : SmsgStore} :
    (receiveInv now peer sB (inventory lastMatched s)).scores = [] ↔
      now < peer.ignoreUntil ∨ ∀ p ∈ shownBuckets lastMatched s,
        now - SMSG_RETENTION - SMSG_TIME_LEEWAY ≤ p.1 := by
  have hbucket : SMSG_BUCKET_LEN = 600 := rfl
  have hleeway : SMSG_TIME_LEEWAY = 60 := rfl
  have hretention : SMSG_RETENTION = 172800 := rfl
  obtain ⟨hlen, hsize, -⟩ := inventory_reads hspans lastMatched
  unfold receiveInv
  simp only [hsize, hlen]
  rw [if_neg (by omega)]
  by_cases hignored : now < peer.ignoreUntil
  · rw [if_pos hignored]
    exact ⟨fun _ => .inl hignored, fun _ => rfl⟩
  · rw [if_neg hignored]
    split
    · rename_i htoo
      refine ⟨nofun, fun h => ?_⟩
      have hfit := shownBuckets_count hspans (by omega) (h.resolve_left hignored)
      rw [hretention, hbucket] at htoo
      omega
    · rw [if_neg (by omega)]
      simp only [receiveInvEntries_scores, true_and, inventory_inTime hspans, hignored, false_or]

end Bounded

end Inventory

/-- A node that keeps its buckets in time is not punished for what it shows exactly when it shows no
bucket that starts more than the leeway before the retention period; and it shows none when no message
is added to a bucket that has expired. -/
theorem honest_inventory (xxh32 : List UInt8 → UInt32) (lib : SmsgLib) (start now : Int)
    (hstart : 0 ≤ start) (calls : List (Int × StoreCall)) (htimely : Timely now start start calls)
    (lastMatched : Int) (peer : SecMsgNode) (sB : SmsgStore) :
    let s := (StoreCall.run xxh32 lib {} calls).store
    ((receiveInv now peer sB (inventory lastMatched s)).scores = [] ↔
        now < peer.ignoreUntil ∨ ∀ p ∈ shownBuckets lastMatched s,
          now - SMSG_RETENTION - SMSG_TIME_LEEWAY ≤ p.1) ∧
      (Unexpired lib 0 calls → (receiveInv now peer sB (inventory lastMatched s)).scores = []) := by
  intro s
  have hspans := StoreCall.run_spans xxh32 calls {} (Int.le_refl start) hstart
    htimely (fresh_bucket lib calls) (by decide) (bucketTimes_start _)
  refine ⟨receiveInv_scores hspans, fun hfresh => (receiveInv_scores hspans).mpr (.inr fun p hp => ?_)⟩
  have hlive := StoreCall.run_spans xxh32 calls {} (Int.le_refl start) hstart
    htimely hfresh (Int.le_refl 0) (bucketTimes_start _) p.1
    ((shownBuckets_times lastMatched _).2 p hp)
  have hleeway : SMSG_TIME_LEEWAY = 60 := rfl
  have hbound := hlive.live
  omega

namespace Sample

def oldNote : Smsg := smsg 1700000000 [1, 2, 3, 4, 5, 6, 7, 8] (by decide)

def oldCalls : List (Int × StoreCall) := [(1700172800, .store true oldNote)]

end Sample

theorem honest_inventory_note :
    (receiveInv 1700000110 {} {} (inventory 0
      (StoreCall.run Sample.xxh32 Sample.zeroWork {} Sample.fillCalls).store)).scores = [] := by
  refine (honest_inventory Sample.xxh32 Sample.zeroWork 1700000100 1700000110 (by decide)
    Sample.fillCalls ?_ 0 {} {}).2 ?_
  · exact ⟨by decide, by decide, trivial, by decide, by decide, trivial, by decide, by decide⟩
  · intro c hc m hm
    rcases List.mem_cons.mp hc with rfl | hc
    · obtain ⟨-, rfl⟩ := hm
      decide
    · rw [List.mem_singleton] at hc
      subst hc
      obtain ⟨-, rfl⟩ := hm
      decide

/-- The message is taken, and the node that shows it in the same second is punished. -/
theorem honest_inventory_punished :
    Timely 1700172800 1700172800 1700172800 Sample.oldCalls ∧
      (receiveInv 1700172800 {} {} (inventory 0
        (StoreCall.run Sample.xxh32 Sample.zeroWork {} Sample.oldCalls).store)).scores = [1] :=
  ⟨⟨by decide, by decide, trivial, by decide, by decide⟩, by decide⟩

end Triangles
