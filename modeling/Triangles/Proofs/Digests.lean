import Triangles.Proofs.BucketSteps
import Triangles.Proofs.MessageFile
import Triangles.Proofs.MessageRestart

/-! Whether the hash and the time of a bucket keep up with its tokens, in runs with the messages of
any peers. -/

namespace Triangles

open Std (ExtTreeMap)

/-- What happens to the buckets of a running node. A message of a peer comes with what the node
keeps about that peer. -/
inductive BucketEvent where
  | data (peer : SecMsgNode) (strCommand : SmsgCommand) (vchData : List UInt8)
      (beyond : Nat → UInt8)
  | pow (m : Smsg)
  | expiry

structure Stamped where
  store : SmsgStore := {}
  inserted : List (Int × Int) := []

section Run

variable (xxh32 : List UInt8 → UInt32) (lib : SmsgLib) (now : Int)

def BucketEvent.step (st : Stamped) : BucketEvent → Stamped
  | .data peer strCommand vchData beyond =>
    let r := secureMsgReceiveData now peer st.store xxh32 lib strCommand vchData beyond
    ⟨r.store, r.scanned.map (fun m => (bucketOf m.header.timestamp, now)) ++ st.inserted⟩
  | .pow m =>
    match secureMsgStore xxh32 now true m st.store with
    | (0, s) => ⟨s, (bucketOf m.header.timestamp, now) :: st.inserted⟩
    | (_ + 1, s) => ⟨s, st.inserted⟩
  | .expiry => ⟨(expiryPass now st.store).1, st.inserted⟩

def BucketEvent.run (st : Stamped) (events : List (Int × BucketEvent)) : Stamped :=
  events.foldl (fun st e => e.2.step xxh32 lib e.1 st) st

/-- The hash is the digest of the samples, and the bucket has changed since the last insertion. -/
def Current (inserted : List (Int × Int)) (time : Int) (b : SecMsgBucket) : Prop :=
  b.setTokens.isEmpty = false →
    b.hash = xxh32 b.setTokens.samples ∧ ∀ t, (time, t) ∈ inserted → t ≤ b.timeChanged

def SmsgStore.has (s : SmsgStore) (k : TokenKey) : Bool :=
  (s.tokens (bucketOf k.timestamp)).contains k

/-- Of the messages of a bunch, those that are stored belong to the bucket that it names: a message
that is out of time, or there already, ends the bunch. -/
def NoStray (bktTime : Int) : (TokenKey → Bool) → List Smsg → Prop
  | _, [] => True
  | has, m :: ms =>
    InWindow now m → has m.token = false →
      bucketOf m.header.timestamp = bktTime ∧
        NoStray bktTime (fun k => decide (k = m.token) || has k) ms

/-- The condition on an event: the clock has not gone back behind an insertion, and a bunch that is
taken has no stray. -/
def BucketEvent.Safe (st : Stamped) (e : BucketEvent) : Prop :=
  (∀ p ∈ st.inserted, p.2 ≤ now) ∧
    match e with
    | .data _ .smsgMsg vchData beyond =>
      TakesBunch now vchData → bunchSize vchData ≤ 500 →
        NoStray now (bunchTime vchData) st.store.has
          (bunchMessages lib vchData beyond (bunchSize vchData) 12)
    | _ => True

def BucketEvent.SafeRun : Stamped → List (Int × BucketEvent) → Prop
  | _, [] => True
  | st, e :: events => e.2.Safe lib e.1 st ∧ SafeRun (e.2.step xxh32 lib e.1 st) events

end Run

section Steps

variable {xxh32 : List UInt8 → UInt32} {lib : SmsgLib} {now : Int} {s : SmsgStore}
  {inserted : List (Int × Int)}

theorem current_empty (time : Int) : Current xxh32 inserted time {} := by
  intro h
  simp at h

/-- Only the tokens, the hash and the time of a bucket matter. -/
theorem Current.same {time : Int} {b b' : SecMsgBucket} (h : Current xxh32 inserted time b)
    (htokens : b'.setTokens = b.setTokens) (hhash : b'.hash = b.hash)
    (htime : b'.timeChanged = b.timeChanged) : Current xxh32 inserted time b' := by
  unfold Current
  rw [htokens, hhash, htime]
  exact h

theorem current_hashBucket {time : Int} (b : SecMsgBucket) (hclock : ∀ p ∈ inserted, p.2 ≤ now) :
    Current xxh32 inserted time (b.hashBucket xxh32 now) := fun _ =>
  ⟨rfl, fun t ht => hclock (time, t) ht⟩

theorem Current.other {time : Int} {b : SecMsgBucket} (stamps : List (Int × Int))
    (h : Current xxh32 inserted time b) (hother : ∀ p ∈ stamps, p.1 ≠ time) :
    Current xxh32 (stamps ++ inserted) time b := by
  intro hb
  obtain ⟨hhash, htime⟩ := h hb
  refine ⟨hhash, fun t ht => ?_⟩
  rcases List.mem_append.mp ht with ht | ht
  · exact absurd rfl (hother _ ht)
  · exact htime t ht

theorem has_iff (k : TokenKey) : s.has k = true ↔ k ∈ s.tokens (bucketOf k.timestamp) :=
  ExtTreeMap.contains_iff_mem

/-- After a message is stored, its token is there besides those that were. -/
theorem has_store {m : Smsg} {fUpdateBucket : Bool}
    (h : (secureMsgStore xxh32 now fUpdateBucket m s).1 = 0) :
    (secureMsgStore xxh32 now fUpdateBucket m s).2.has =
      fun k => decide (k = m.token) || s.has k := by
  funext k
  rw [Bool.eq_iff_iff, Bool.or_eq_true, decide_eq_true_eq, has_iff, has_iff]
  exact (store_adds h).mem_token k

variable (xxh32) in
/-- The messages that are stored lie in the bucket that the bunch names, and the other buckets stay
as they are. -/
theorem storeUntil_noStray {bktTime : Int} (ms : List Smsg)
    (h : NoStray now bktTime s.has ms) :
    (∀ m ∈ (storeUntil xxh32 now s ms).1, bucketOf m.header.timestamp = bktTime) ∧
      ∀ time, time ≠ bktTime → (storeUntil xxh32 now s ms).2.bucket time = s.bucket time := by
  induction ms generalizing s with
  | nil => exact ⟨nofun, fun _ _ => rfl⟩
  | cons m ms ih =>
    rcases secureMsgStore_bucket xxh32 now false m s with
      ⟨hcode, -, hbuckets⟩ | ⟨hcode, hwindow, habsent, hbuckets⟩
    · rw [storeUntil_refused hcode]
      exact ⟨fun m' hm' => (List.not_mem_nil hm').elim, fun time _ => hbuckets time⟩
    · have hhas := has_store hcode
      have hnew : s.has m.token = false := by
        rw [← Bool.not_eq_true, has_iff]
        exact habsent
      obtain ⟨hhome, hrest⟩ := h hwindow hnew
      rw [← hhas] at hrest
      obtain ⟨hstored, hothers⟩ := ih hrest
      rw [storeUntil_stored hcode]
      refine ⟨fun m' hm' => ?_, fun time ht => ?_⟩
      · rcases List.mem_cons.mp hm' with rfl | hm'
        · exact hhome
        · exact hstored m' hm'
      · rw [hothers time ht, hbuckets, if_neg (hhome ▸ ht.symm)]

variable (xxh32 lib now s) in
/-- A message that does not bring messages leaves tokens, hash and time of every bucket alone. -/
theorem receiveData_other (peer : SecMsgNode) {strCommand : SmsgCommand} (vchData : List UInt8)
    (beyond : Nat → UInt8) (hcommand : strCommand ≠ .smsgMsg) (time : Int) :
    let r := secureMsgReceiveData now peer s xxh32 lib strCommand vchData beyond
    r.scanned = [] ∧ (r.store.bucket time).setTokens = (s.bucket time).setTokens ∧
      (r.store.bucket time).hash = (s.bucket time).hash ∧
      (r.store.bucket time).timeChanged = (s.bucket time).timeChanged := by
  cases strCommand with
  | smsgMsg => exact absurd rfl hcommand
  | smsgInv =>
    simp only [secureMsgReceiveData, receiveInv_bucket]
    refine ⟨?_, trivial, trivial, trivial⟩
    unfold receiveInv
    simp only
    repeat' split
    all_goals rfl
  | smsgHave =>
    simp only [secureMsgReceiveData, receiveHave_bucket]
    constructor
    · unfold receiveHave
      simp only
      repeat' split
      all_goals rfl
    · split <;> exact ⟨rfl, rfl, rfl⟩
  | smsgShow =>
    unfold secureMsgReceiveData receiveShow
    simp only
    repeat' split
    all_goals exact ⟨rfl, rfl, rfl, rfl⟩
  | smsgWant =>
    unfold secureMsgReceiveData receiveWant
    simp only
    repeat' split
    all_goals exact ⟨rfl, rfl, rfl, rfl⟩
  | smsgMatch =>
    unfold secureMsgReceiveData receiveMatch
    simp only
    split <;> exact ⟨rfl, rfl, rfl, rfl⟩
  | smsgIgnore =>
    unfold secureMsgReceiveData receiveIgnore
    simp only
    split <;> exact ⟨rfl, rfl, rfl, rfl⟩
  | smsgPing => exact ⟨rfl, rfl, rfl, rfl⟩
  | smsgPong => exact ⟨rfl, rfl, rfl, rfl⟩
  | smsgDisabled => exact ⟨rfl, rfl, rfl, rfl⟩

def DigestsCurrent (xxh32 : List UInt8 → UInt32) (st : Stamped) : Prop :=
  ∀ time, Current xxh32 st.inserted time (st.store.bucket time)

variable {st : Stamped}

theorem DigestsCurrent.receive (h : DigestsCurrent xxh32 st) {vchData : List UInt8}
    {beyond : Nat → UInt8} (hclock : ∀ p ∈ st.inserted, p.2 ≤ now)
    (hstray : TakesBunch now vchData → bunchSize vchData ≤ 500 →
      NoStray now (bunchTime vchData) st.store.has
        (bunchMessages lib vchData beyond (bunchSize vchData) 12)) :
    DigestsCurrent xxh32
      ⟨(secureMsgReceive xxh32 now lib vchData beyond st.store).store,
        (secureMsgReceive xxh32 now lib vchData beyond st.store).scanned.map
          (fun m => (bucketOf m.header.timestamp, now)) ++ st.inserted⟩ := by
  intro time
  rcases secureMsgReceive_bucket xxh32 lib now st.store vchData
    beyond with ⟨-, hscanned, hstore⟩ | ⟨-, -, hscanned, hbucket⟩ | ⟨htakes, hsize, hscanned, hbucket⟩
  · simp only [hscanned, hstore]
    exact h time
  · simp only [hscanned, hbucket]
    split
    · exact (h time).same rfl rfl rfl
    · exact h time
  · obtain ⟨hhome, hothers⟩ := storeUntil_noStray xxh32 _ (hstray htakes (by omega))
    simp only [hscanned, hbucket]
    split
    · apply current_hashBucket
      intro p hp
      rcases List.mem_append.mp hp with hp | hp
      · obtain ⟨m, -, rfl⟩ := List.mem_map.mp hp
        exact Int.le_refl now
      · exact hclock p hp
    · rename_i hnamed
      by_cases ht : bunchTime vchData = time
      · rw [bucket_of_none (ExtTreeMap.getElem?_eq_none fun hmem => hnamed ⟨ht, hmem⟩)]
        exact current_empty time
      · rw [hothers time (Ne.symm ht)]
        apply (h time).other _
        intro p hp
        obtain ⟨m, hm, rfl⟩ := List.mem_map.mp hp
        rw [hhome m hm]
        exact ht

theorem BucketEvent.step_current (h : DigestsCurrent xxh32 st) {e : BucketEvent}
    (hsafe : e.Safe lib now st) : DigestsCurrent xxh32 (e.step xxh32 lib now st) := by
  obtain ⟨hclock, hbunch⟩ := hsafe
  cases e with
  | data peer strCommand vchData beyond =>
    by_cases hcommand : strCommand = .smsgMsg
    · subst hcommand
      exact h.receive hclock hbunch
    · intro time
      obtain ⟨hscanned, htokens, hhash, htime⟩ := receiveData_other xxh32 lib now st.store
        peer vchData beyond hcommand time
      unfold BucketEvent.step
      simp only [hscanned, List.map_nil, List.nil_append]
      exact (h time).same htokens hhash htime
  | pow m =>
    intro time
    unfold BucketEvent.step
    simp only
    rcases secureMsgStore_bucket xxh32 now true m st.store with
      ⟨hcode, -, hbuckets⟩ | ⟨hcode, -, -, hbuckets⟩
    · revert hcode hbuckets
      rcases secureMsgStore xxh32 now true m st.store with ⟨code, s'⟩
      rintro rfl hbuckets
      simp only [hbuckets]
      exact h time
    · revert hcode hbuckets
      rcases secureMsgStore xxh32 now true m st.store with ⟨code, s'⟩
      rintro rfl hbuckets
      simp only [hbuckets]
      split
      · rename_i ht
        apply current_hashBucket
        intro p hp
        rcases List.mem_cons.mp hp with rfl | hp
        · exact Int.le_refl now
        · exact hclock p hp
      · rename_i ht
        apply (h time).other [(bucketOf m.header.timestamp, now)]
        intro p hp
        rw [List.mem_singleton.mp hp]
        exact ht
  | expiry =>
    intro time
    unfold BucketEvent.step
    simp only [expiryPass_bucketD]
    split
    · refine (h time).same (tick_setTokens _) ?_ ?_ <;>
      · unfold SecMsgBucket.tick
        repeat' split
        all_goals rfl
    · exact current_empty time

theorem BucketEvent.run_current (events : List (Int × BucketEvent)) (h : DigestsCurrent xxh32 st)
    (hsafe : SafeRun xxh32 lib st events) : DigestsCurrent xxh32 (run xxh32 lib st events) := by
  induction events generalizing st with
  | nil => exact h
  | cons e events ih => exact ih (step_current h hsafe.1) hsafe.2

theorem digestsCurrent_start : DigestsCurrent xxh32 {} := fun time => by
  rw [bucket_of_none (by simp)]
  exact current_empty time

/-- The header of a bucket says how many tokens there are, and their digest. -/
theorem inventoryEntry_eq {time : Int} {b b' : SecMsgBucket}
    (hb : b.hash = xxh32 b.setTokens.samples) (hb' : b'.hash = xxh32 b'.setTokens.samples)
    (hkeys : b.setTokens.keys = b'.setTokens.keys) :
    inventoryEntry time b = inventoryEntry time b' := by
  have hsize : b.setTokens.size = b'.setTokens.size := by
    rw [← ExtTreeMap.length_keys, hkeys, ExtTreeMap.length_keys]
  have hsamples : b.setTokens.samples = b'.setTokens.samples := by
    unfold TokenSet.samples
    rw [hkeys]
  unfold inventoryEntry
  rw [hb, hb', hsize, hsamples]

end Steps

namespace Sample

def noteBunch (bktTime : Int) : List UInt8 := wordBytes 4 1 ++ signedBytes 8 bktTime ++ note.bytes

def homeEvents : List (Int × BucketEvent) :=
  [(1700000100, .data {} .smsgMsg (noteBunch 1699999800) fun _ => 0), (1700000101, .pow reply)]

def strayEvents : List (Int × BucketEvent) :=
  [(1700000100, .data {} .smsgMsg (noteBunch 1699999200) fun _ => 0)]

theorem noteBunch_messages :
    bunchMessages zeroWork (noteBunch 1699999800) (fun _ => 0) (bunchSize (noteBunch 1699999800)) 12 =
      [note] := by decide +kernel

end Sample

end Triangles

/-! Node A shows its buckets to node B, B answers that it wants none of them, and meanwhile the
buckets of A change. Both read the same clock. -/

namespace Triangles

open Std (ExtTreeMap)

abbrev Clock := { n : Int // InInt64 n }

structure SentInv where
  data : List UInt8
  shown : SmsgStore

/-- A `smsgMatch` on its way to A, with the buckets of A when the `smsgInv` was sent that it answers,
and the time when B handled that. -/
structure SentMatch where
  data : List UInt8
  shown : SmsgStore
  handled : Int

structure Exchange where
  clock : Clock
  a : SmsgStore
  peer : SecMsgNode
  invs : List SentInv := []
  matched : List SentMatch := []

/-- What may happen. The clock does not go back; the messages on their way arrive in any order; and
nothing is said about the buckets of B when one arrives there. -/
inductive ExchangeEvent where
  | tick (clock : Clock)
  | bucket (e : BucketEvent)
  | send (nPeerIdCounter nRand : Nat)
  | deliverInv (i : Nat) (b : SmsgStore) (peer : SecMsgNode)
  | deliverMatch (i : Nat)

section Run

variable (xxh32 : List UInt8 → UInt32) (lib : SmsgLib)

def Exchange.receive (st : Exchange) (m : SentMatch) : SecMsgNode :=
  (receiveMatch st.clock.val st.peer st.a m.data).peer

def ExchangeEvent.step (st : Exchange) : ExchangeEvent → Exchange
  | .tick clock => if st.clock.val ≤ clock.val then { st with clock } else st
  | .bucket e => { st with a := (e.step xxh32 lib st.clock.val ⟨st.a, []⟩).store }
  | .send nPeerIdCounter nRand =>
    let r := secureMsgSendData st.clock.val nPeerIdCounter nRand st.a st.peer
    { st with
      peer := r.1
      invs := st.invs ++ (pushedData .smsgInv r.2).map fun data => ⟨data, st.a⟩ }
  | .deliverInv i b peer =>
    match st.invs[i]? with
    | none => st
    | some inv =>
      { st with
        invs := st.invs.eraseIdx i
        matched := st.matched ++
          (pushedData .smsgMatch (receiveInv st.clock.val peer b inv.data).pushed).map
            fun data => ⟨data, inv.shown, st.clock.val⟩ }
  | .deliverMatch i =>
    match st.matched[i]? with
    | none => st
    | some m => { st with matched := st.matched.eraseIdx i, peer := st.receive m }

def ExchangeEvent.run (st : Exchange) (events : List ExchangeEvent) : Exchange :=
  events.foldl (fun st e => e.step xxh32 lib st) st

end Run

/-- The bucket is in the next `smsgInv` for B, under what A keeps about B. -/
def InNextInv (nRand : Nat) (peer : SecMsgNode) (s : SmsgStore) (p : Int × SecMsgBucket) : Prop :=
  p ∈ shownBuckets (wake nRand peer).lastMatched s

/-- No bucket that changed since the `smsgInv` was sent is left out because of the answer. -/
def HidesNothing (nRand : Nat) (st : Exchange) (m : SentMatch) : Prop :=
  ∀ (time : Int) (b : SecMsgBucket), st.a.smsgBuckets[time]? = some b →
    b.setTokens ≠ m.shown.tokens time →
      InNextInv nRand st.peer st.a (time, b) → InNextInv nRand (st.receive m) st.a (time, b)

/-- A `smsgMatch` says when B handled the `smsgInv`, which is not in the future. -/
def MatchTimed (st : Exchange) : Prop :=
  ∀ m ∈ st.matched, m.data = signedBytes 8 m.handled ∧ InInt64 m.handled ∧
    m.handled ≤ st.clock.val

section Steps

variable {xxh32 : List UInt8 → UInt32} {lib : SmsgLib} {st : Exchange}

/-- An inventory is answered with the time, if with a match. -/
theorem receiveInv_match {now : Int} {peer : SecMsgNode} {s : SmsgStore} {vchData data : List UInt8}
    (h : data ∈ pushedData .smsgMatch (receiveInv now peer s vchData).pushed) :
    data = signedBytes 8 now := by
  revert h
  unfold receiveInv
  simp only
  repeat' split
  all_goals simp [pushedData]

theorem ExchangeEvent.step_timed (h : MatchTimed st) (e : ExchangeEvent) :
    MatchTimed (e.step xxh32 lib st) := by
  intro m hm
  cases e with
  | tick clock =>
    unfold ExchangeEvent.step at hm ⊢
    simp only at hm ⊢
    split at hm
    · rename_i hle
      rw [if_pos hle]
      obtain ⟨hdata, hrange, hpast⟩ := h m hm
      exact ⟨hdata, hrange, hpast.trans hle⟩
    · rename_i hle
      rw [if_neg hle]
      exact h m hm
  | bucket e => exact h m hm
  | send nPeerIdCounter nRand => exact h m hm
  | deliverInv i b peer =>
    unfold ExchangeEvent.step at hm ⊢
    simp only at hm ⊢
    cases hinv : st.invs[i]? with
    | none =>
      rw [hinv] at hm
      exact h m hm
    | some inv =>
      rw [hinv] at hm
      rcases List.mem_append.mp hm with hm | hm
      · exact h m hm
      · obtain ⟨data, hdata, rfl⟩ := List.mem_map.mp hm
        exact ⟨receiveInv_match hdata, st.clock.property, Int.le_refl _⟩
  | deliverMatch i =>
    unfold ExchangeEvent.step at hm ⊢
    simp only at hm ⊢
    cases hmatch : st.matched[i]? with
    | none =>
      rw [hmatch] at hm
      exact h m hm
    | some m' =>
      rw [hmatch] at hm
      exact h m (List.mem_of_mem_eraseIdx hm)

theorem ExchangeEvent.run_timed (events : List ExchangeEvent) (h : MatchTimed st) :
    MatchTimed (run xxh32 lib st events) := by
  induction events generalizing st with
  | nil => exact h
  | cons e events ih => exact ih (step_timed h e)

theorem MatchTimed.receive (h : MatchTimed st) {m : SentMatch} (hm : m ∈ st.matched) :
    st.receive m = { st.peer with lastMatched := m.handled } := by
  obtain ⟨hdata, hrange, hpast⟩ := h m hm
  have hleeway : (0 : Int) ≤ SMSG_TIME_LEEWAY := by decide
  have hslice : slice m.data 0 8 = signedBytes 8 m.handled := by
    have h : slice (signedBytes 8 m.handled ++ []) 0 8 = _ := slice_left (signedBytes_length 8 _)
    rw [List.append_nil] at h
    rw [hdata, h]
  unfold Exchange.receive receiveMatch
  rw [if_neg (by simp [hdata, signedBytes_length])]
  simp only [hslice, int64Of_signedBytes hrange]
  rw [if_neg (by omega)]

theorem inNextInv_iff {nRand : Nat} {peer : SecMsgNode} {s : SmsgStore} {time : Int}
    {b : SecMsgBucket} (hb : s.smsgBuckets[time]? = some b) :
    InNextInv nRand peer s (time, b) ↔
      (wake nRand peer).lastMatched ≤ b.timeChanged ∧ 1 ≤ b.setTokens.size % 2 ^ 32 := by
  unfold InNextInv shownBuckets
  rw [List.mem_filter, ExtTreeMap.mem_toList_iff_getElem?_eq_some]
  simp [hb]
  omega

theorem wake_lastMatched (nRand : Nat) (peer : SecMsgNode) :
    (wake nRand peer).lastMatched = if peer.nWakeCounter < 1 then 0 else peer.lastMatched := by
  unfold wake
  simp only
  split <;> rfl

/-- Whenever a match arrives, it hides nothing exactly when each bucket that changed since the
`smsgInv` was sent last changed no earlier than B handled that; unless the next `smsgInv` shows all
buckets, or would leave the bucket out in any case. -/
theorem match_hides_nothing_iff (xxh32 : List UInt8 → UInt32) (lib : SmsgLib) (clock : Clock)
    (a : SmsgStore) (peer : SecMsgNode) (events : List ExchangeEvent) (m : SentMatch)
    (hm : m ∈ (ExchangeEvent.run xxh32 lib ⟨clock, a, peer, [], []⟩ events).matched)
    (nRand : Nat) :
    let st := ExchangeEvent.run xxh32 lib ⟨clock, a, peer, [], []⟩ events
    HidesNothing nRand st m ↔
      ∀ (time : Int) (b : SecMsgBucket), st.a.smsgBuckets[time]? = some b →
        b.setTokens ≠ m.shown.tokens time → InNextInv nRand st.peer st.a (time, b) →
          st.peer.nWakeCounter < 1 ∨ m.handled ≤ b.timeChanged := by
  intro st
  have hreceive := (ExchangeEvent.run_timed events (nofun : MatchTimed ⟨clock, a, peer, [], []⟩)).receive
    hm
  unfold HidesNothing
  refine forall_congr' fun time => forall_congr' fun b => forall_congr' fun hb =>
    forall_congr' fun _ => forall_congr' fun hshown => ?_
  rw [hreceive, inNextInv_iff hb, wake_lastMatched]
  rw [inNextInv_iff hb, wake_lastMatched] at hshown
  simp only
  split
  · rename_i hwoken
    rw [if_pos hwoken] at hshown
    exact ⟨fun _ => .inl hwoken, fun _ => hshown⟩
  · rename_i hasleep
    exact ⟨fun h => .inr h.1, fun h => ⟨h.resolve_left hasleep, hshown.2⟩⟩

end Steps

namespace Sample

def second (n : Fin 100) : Clock := ⟨1700000100 + n, by unfold InInt64; omega⟩

def matchPeer : SecMsgNode :=
  { lastSeen := 1700000000, nWakeCounter := 50, nPeerId := 1, fEnabled := true }

def noteStore : SmsgStore := (secureMsgStore xxh32 1700000100 true note {}).2

/-- A shows a message to B and adds another; the seconds `change` and `handle` pass before A does and
before B answers. -/
def matchRun (change handle : Fin 100) : Exchange :=
  ExchangeEvent.run xxh32 zeroWork ⟨second 0, {}, matchPeer, [], []⟩
    [.bucket (.pow note), .send 0 0, .tick (second change), .bucket (.pow reply),
      .tick (second handle), .deliverInv 0 noteStore {}]

theorem matchRun_matched (change handle : Fin 100)
    (h : (matchRun change handle).matched.length = 1) : (matchRun change handle).matched ≠ [] :=
  List.ne_nil_of_length_pos (by omega)

end Sample

/-- B handles the inventory in the second in which the other message was added. -/
theorem match_hides_nothing_same_second :
    HidesNothing 0 (Sample.matchRun 1 1)
      ((Sample.matchRun 1 1).matched.head (Sample.matchRun_matched 1 1 (by decide))) := by
  have hlate : ∀ p ∈ (Sample.matchRun 1 1).a.smsgBuckets.toList,
      ((Sample.matchRun 1 1).matched.head
        (Sample.matchRun_matched 1 1 (by decide))).handled ≤ p.2.timeChanged := by
    decide
  refine (match_hides_nothing_iff Sample.xxh32 Sample.zeroWork (Sample.second 0) {}
    Sample.matchPeer _ _ (List.head_mem _) 0).mpr fun time b hb _ _ => .inr ?_
  exact hlate (time, b) (ExtTreeMap.mem_toList_iff_getElem?_eq_some.mpr hb)

/-- B handles the inventory a second after the other message was added. -/
theorem stale_match_hides :
    ¬HidesNothing 0 (Sample.matchRun 1 2)
      ((Sample.matchRun 1 2).matched.head (Sample.matchRun_matched 1 2 (by decide))) := by
  intro h
  have hb : (Sample.matchRun 1 2).a.smsgBuckets[(1699999800 : Int)]? =
      some ((Sample.matchRun 1 2).a.bucket 1699999800) := some_bucket (by decide)
  have hchanged : ((Sample.matchRun 1 2).a.bucket 1699999800).setTokens ≠
      ((Sample.matchRun 1 2).matched.head
        (Sample.matchRun_matched 1 2 (by decide))).shown.tokens 1699999800 := by
    intro heq
    have hsize := congrArg (fun t : TokenSet => t.size) heq
    revert hsize
    decide
  have hleft := h 1699999800 _ hb hchanged ((inNextInv_iff hb).mpr (by decide))
  rw [inNextInv_iff hb] at hleft
  revert hleft
  decide

end Triangles
