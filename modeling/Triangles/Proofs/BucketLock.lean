import Triangles.Proofs.HonestInv

/-! How long a bucket stays locked for the peer that was asked for its messages. -/

namespace Triangles

open Std (ExtTreeMap)

structure LockState where
  store : SmsgStore
  vNodes : List SecMsgNode

inductive LockEvent where
  | data (i : Nat) (strCommand : SmsgCommand) (vchData : List UInt8) (beyond : Nat → UInt8)
  | tick

section Run

variable (xxh32 : List UInt8 → UInt32) (lib : SmsgLib) (now : Int)

def LockEvent.step (st : LockState) :
    LockEvent → LockState × List (Nat × SmsgCommand × List UInt8)
  | .data i strCommand vchData beyond =>
    let r := secureMsgReceiveData now (st.vNodes.getD i {}) st.store xxh32 lib strCommand vchData
      beyond
    (⟨r.store, st.vNodes.set i r.peer⟩, r.pushed.map fun p => (i, p))
  | .tick =>
    let r := threadSecureMsg now st.store st.vNodes
    (⟨r.1, r.2.1⟩, r.2.2)

/-- A `smsgWant` for the bucket was pushed to somebody. -/
def Wants (time : Int) (pushed : List (Nat × SmsgCommand × List UInt8)) : Prop :=
  ∃ i data, (i, .smsgWant, data) ∈ pushed ∧ int64Of (slice data 0 8) = time

def LockedFor (time : Int) (nPeerId n : Nat) (s : SmsgStore) : Prop :=
  (s.bucket time).nLockCount = n ∧ (s.bucket time).nLockPeerId = nPeerId

def LockEvent.ticks : LockEvent → Nat
  | .tick => 1
  | .data _ _ _ _ => 0

/-- The bucket stays locked for the peer through a run, but for the rounds of the thread that count
the lock down, and nobody is asked for it. -/
def Held (time : Int) (nPeerId : Nat) : Nat → LockState → List (Int × LockEvent) → Prop
  | n, st, [] => LockedFor time nPeerId n st.store
  | n, st, e :: events =>
    LockedFor time nPeerId n st.store ∧ ¬Wants time (e.2.step xxh32 lib e.1 st).2 ∧
      Held time nPeerId (n - e.2.ticks) (e.2.step xxh32 lib e.1 st).1 events

def LockEvent.run (st : LockState) (events : List (Int × LockEvent)) : LockState :=
  events.foldl (fun st e => (e.2.step xxh32 lib e.1 st).1) st

end Run

/-- A `smsgMsg` that is taken and names the bucket. -/
def Names (time : Int) (e : Int × LockEvent) : Prop :=
  match e.2 with
  | .data _ .smsgMsg vchData _ => TakesBunch e.1 vchData ∧ bunchTime vchData = time
  | _ => False

/-- Nothing that may rightly end a lock: no `smsgMsg` of the peer for the bucket, and no expiry of
the bucket. -/
def Quiet (p : Nat) (time : Int) (e : Int × LockEvent) : Prop :=
  match e.2 with
  | .data i _ _ _ => i = p → ¬Names time e
  | .tick => e.1 - SMSG_RETENTION ≤ time

def tickCount (events : List (Int × LockEvent)) : Nat := (events.map fun e => e.2.ticks).sum

section Steps

variable {xxh32 : List UInt8 → UInt32} {lib : SmsgLib} {now : Int} {s : SmsgStore} {time : Int}
  {nPeerId n : Nat}

variable (xxh32 now) in
theorem storeUntil_lock (ms : List Smsg) (h : LockedFor time nPeerId n s) :
    LockedFor time nPeerId n (storeUntil xxh32 now s ms).2 := by
  refine storeUntil_preserves ms (fun m _ s h => ?_) h
  unfold LockedFor
  rcases secureMsgStore_bucket xxh32 now false m s with ⟨-, -, hbuckets⟩ | ⟨-, -, -, hbuckets⟩
  · rw [hbuckets]
    exact h
  · rw [hbuckets]
    split <;> exact h

/-- A bunch leaves the locks of all buckets alone but for that of the bucket it names, which it takes
away, whoever sent it. -/
theorem receive_lock (vchData : List UInt8) (beyond : Nat → UInt8) (hn : 0 < n)
    (h : LockedFor time nPeerId n s) :
    LockedFor time nPeerId n (secureMsgReceive xxh32 now lib vchData beyond s).store ↔
      ¬(TakesBunch now vchData ∧ bunchTime vchData = time) := by
  rcases secureMsgReceive_bucket xxh32 lib now s vchData beyond
    with ⟨hnot, -, hstore⟩ | ⟨htakes, -, -, hbucket⟩ | ⟨htakes, hsize, -, hbucket⟩
  · rw [hstore]
    exact ⟨fun _ hnames => hnot hnames.1, fun _ => h⟩
  · unfold LockedFor
    rw [hbucket]
    by_cases hnamed : bunchTime vchData = time
    · rw [if_pos hnamed]
      exact ⟨fun hkept => absurd hkept.1.symm hn.ne', fun hnot => absurd ⟨htakes, hnamed⟩ hnot⟩
    · rw [if_neg hnamed]
      exact ⟨fun _ hnames => hnamed hnames.2, fun _ => h⟩
  · have hkept := storeUntil_lock xxh32 now
      (bunchMessages lib vchData beyond (bunchSize vchData) 12) h
    unfold LockedFor
    rw [hbucket]
    simp only
    by_cases hnamed : bunchTime vchData = time
    · have hthere : time ∈ (storeUntil xxh32 now s
          (bunchMessages lib vchData beyond (bunchSize vchData) 12)).2.smsgBuckets := by
        by_contra hnone
        have hcount := hkept.1
        rw [bucket_of_none (ExtTreeMap.getElem?_eq_none hnone)] at hcount
        exact absurd hcount hn.ne
      rw [if_pos ⟨hnamed, hthere⟩]
      exact ⟨fun hkept => absurd hkept.1.symm hn.ne', fun hnot => absurd ⟨htakes, hnamed⟩ hnot⟩
    · rw [if_neg fun hand => hnamed hand.1]
      exact ⟨fun _ hnames => hnamed hnames.2, fun _ => hkept⟩

/-- A list of tokens of a locked bucket changes nothing and is not answered. -/
theorem receiveHave_lock (peer : SecMsgNode) (vchData : List UInt8) (hn : 0 < n)
    (h : LockedFor time nPeerId n s) :
    LockedFor time nPeerId n (receiveHave now peer s vchData).store ∧
      ∀ data, (.smsgWant, data) ∈ (receiveHave now peer s vchData).pushed →
        int64Of (slice data 0 8) ≠ time := by
  have hother : ∀ data, (.smsgWant, data) ∈ (receiveHave now peer s vchData).pushed →
      int64Of (slice data 0 8) ≠ time := by
    rintro data hdata rfl
    obtain ⟨-, hslice, hunlocked⟩ := receiveHave_pushed hdata
    rw [← hslice] at hunlocked
    exact absurd (h.1.symm.trans hunlocked) hn.ne'
  refine ⟨?_, hother⟩
  unfold LockedFor
  rw [receiveHave_bucket]
  split
  · rename_i hpushed
    obtain ⟨⟨strCommand, data⟩, hdata⟩ := List.exists_mem_of_ne_nil _ hpushed.2
    obtain ⟨rfl, hslice, -⟩ := receiveHave_pushed hdata
    exact absurd (hslice ▸ hpushed.1) (hother data hdata)
  · exact h

/-- An inventory changes no bucket, and asks for nothing by a `smsgWant`. -/
theorem receiveInv_lock (peer : SecMsgNode) (vchData : List UInt8)
    (h : LockedFor time nPeerId n s) :
    LockedFor time nPeerId n (receiveInv now peer s vchData).store ∧
      ∀ data, (.smsgWant, data) ∉ (receiveInv now peer s vchData).pushed := by
  constructor
  · unfold LockedFor
    rw [receiveInv_bucket]
    exact h
  · intro data hdata
    revert hdata
    unfold receiveInv
    simp only
    repeat' split
    all_goals simp

variable (xxh32 lib now) in
/-- While a bucket is locked, nobody is asked for it, and the other messages keep the lock. -/
theorem receiveData_lock (peer : SecMsgNode) {strCommand : SmsgCommand} (vchData : List UInt8)
    (beyond : Nat → UInt8) (hcommand : strCommand ≠ .smsgMsg) (hn : 0 < n)
    (h : LockedFor time nPeerId n s) :
    let r := secureMsgReceiveData now peer s xxh32 lib strCommand vchData beyond
    LockedFor time nPeerId n r.store ∧
      ∀ data, (.smsgWant, data) ∈ r.pushed → int64Of (slice data 0 8) ≠ time := by
  cases strCommand with
  | smsgMsg => exact absurd rfl hcommand
  | smsgInv =>
    obtain ⟨hkept, hnone⟩ := receiveInv_lock peer vchData h
    exact ⟨hkept, fun data hdata => absurd hdata (hnone data)⟩
  | smsgHave => exact receiveHave_lock peer vchData hn h
  | smsgShow =>
    unfold secureMsgReceiveData receiveShow
    simp only
    repeat' split
    all_goals refine ⟨h, fun data hdata => ?_⟩
    all_goals simp at hdata
  | smsgWant =>
    unfold secureMsgReceiveData receiveWant
    simp only
    repeat' split
    all_goals refine ⟨h, fun data hdata => ?_⟩
    all_goals simp at hdata
  | smsgMatch =>
    unfold secureMsgReceiveData receiveMatch
    simp only
    split <;> exact ⟨h, nofun⟩
  | smsgIgnore =>
    unfold secureMsgReceiveData receiveIgnore
    simp only
    split <;> exact ⟨h, nofun⟩
  | smsgPing =>
    refine ⟨h, fun data hdata => ?_⟩
    cases (Prod.mk.inj (List.mem_singleton.mp hdata)).1
  | smsgPong => exact ⟨h, nofun⟩
  | smsgDisabled => exact ⟨h, nofun⟩

variable (xxh32 lib now s) in
/-- The handlers leave the id of the peer alone. -/
theorem receiveData_id (peer : SecMsgNode) (strCommand : SmsgCommand) (vchData : List UInt8)
    (beyond : Nat → UInt8) :
    (secureMsgReceiveData now peer s xxh32 lib strCommand vchData beyond).peer.nPeerId =
      peer.nPeerId := by
  cases strCommand
  all_goals
    simp only [secureMsgReceiveData, receiveInv, receiveShow, receiveHave, receiveWant, receiveMsg,
      receiveMatch, receiveIgnore]
    repeat' split
  all_goals rfl

/-- A round of the thread counts the lock down by one. -/
theorem tick_lock (h : LockedFor time nPeerId (n + 1) s) (hlive : now - SMSG_RETENTION ≤ time) :
    ((expiryPass now s).1.bucket time).nLockCount = n ∧
      (0 < n → LockedFor time nPeerId n (expiryPass now s).1) := by
  unfold LockedFor
  rw [expiryPass_bucketD, if_pos hlive]
  unfold SecMsgBucket.tick
  rw [if_neg (by rw [h.1]; exact Nat.succ_ne_zero n)]
  split
  · rename_i hone
    have hzero : n = 0 := by
      have hcount := h.1
      omega
    exact ⟨hzero.symm, fun hpos => absurd hzero hpos.ne'⟩
  · exact ⟨by rw [h.1, Nat.add_sub_cancel], fun _ => ⟨by rw [h.1, Nat.add_sub_cancel], h.2⟩⟩

theorem tick_wants (st : LockState) : ¬Wants time (LockEvent.step xxh32 lib now st .tick).2 := by
  rintro ⟨i, data, hmem, -⟩
  unfold LockEvent.step threadSecureMsg at hmem
  simp at hmem

variable (xxh32 lib) in
/-- One event keeps the lock exactly when it is not a bunch that names the bucket. -/
theorem LockEvent.step_lock {st : LockState} (e : Int × LockEvent)
    (hquiet : Quiet p time e) (hn : e.2.ticks < n) (h : LockedFor time nPeerId n st.store) :
    ¬Wants time (e.2.step xxh32 lib e.1 st).2 ∧
      (LockedFor time nPeerId (n - e.2.ticks) (e.2.step xxh32 lib e.1 st).1.store ↔
        ¬Names time e) := by
  obtain ⟨now, event⟩ := e
  cases event with
  | tick =>
    refine ⟨tick_wants st, fun _ hnames => hnames.elim, fun _ => ?_⟩
    obtain ⟨m, rfl⟩ : ∃ m, n = m + 1 := ⟨n - 1, by omega⟩
    exact (tick_lock h hquiet).2 (Nat.lt_of_succ_lt_succ hn)
  | data i strCommand vchData beyond =>
    have hwants : (∀ data, (.smsgWant, data) ∈ (secureMsgReceiveData now (st.vNodes.getD i {})
        st.store xxh32 lib strCommand vchData beyond).pushed → int64Of (slice data 0 8) ≠ time) →
        ¬Wants time (LockEvent.step xxh32 lib now st (.data i strCommand vchData beyond)).2 := by
      rintro hdata ⟨j, data, hmem, htime⟩
      obtain ⟨q, hq, heq⟩ := List.mem_map.mp hmem
      obtain ⟨-, rfl⟩ := Prod.mk.inj heq
      exact hdata data hq htime
    by_cases hcommand : strCommand = .smsgMsg
    · subst hcommand
      exact ⟨hwants nofun, receive_lock vchData beyond hn h⟩
    · obtain ⟨hkept, hpushed⟩ := receiveData_lock xxh32 lib now
        (st.vNodes.getD i {}) vchData beyond hcommand hn h
      refine ⟨hwants hpushed, fun _ hnames => ?_, fun _ => hkept⟩
      cases strCommand
      case smsgMsg => exact hcommand rfl
      all_goals exact hnames

variable (xxh32 lib) in
/-- The lock lasts through a quiet run of fewer than three rounds exactly when no bunch of anybody else
names the bucket. -/
theorem held_iff {p : Nat} (events : List (Int × LockEvent)) {st : LockState}
    (hquiet : ∀ e ∈ events, Quiet p time e) (hn : tickCount events < n)
    (h : LockedFor time nPeerId n st.store) :
    Held xxh32 lib time nPeerId n st events ↔ ∀ e ∈ events, ¬Names time e := by
  induction events generalizing n st with
  | nil => exact ⟨fun _ => nofun, fun _ => h⟩
  | cons e events ih =>
    have hcount : e.2.ticks + tickCount events < n := hn
    obtain ⟨hwants, hstep⟩ := LockEvent.step_lock xxh32 lib e
      (hquiet e List.mem_cons_self) (by omega) h
    have hrest := fun hkept : LockedFor time nPeerId (n - e.2.ticks)
        (e.2.step xxh32 lib e.1 st).1.store => ih
      (fun e' he' => hquiet e' (List.mem_cons_of_mem _ he')) (by omega) hkept
    have hhead : ∀ {st'}, Held xxh32 lib time nPeerId (n - e.2.ticks) st' events →
        LockedFor time nPeerId (n - e.2.ticks) st'.store := by
      intro st' hheld
      cases events with
      | nil => exact hheld
      | cons e' events => exact hheld.1
    constructor
    · rintro ⟨-, -, hheld⟩
      have hkept := hhead hheld
      intro e' he'
      rcases List.mem_cons.mp he' with rfl | he'
      · exact hstep.mp hkept
      · exact (hrest hkept).mp hheld e' he'
    · intro hnames
      have hkept := hstep.mpr (hnames e List.mem_cons_self)
      exact ⟨h, hwants, (hrest hkept).mpr fun e' he' => hnames e' (List.mem_cons_of_mem _ he')⟩

theorem Held.last (events : List (Int × LockEvent)) {st : LockState}
    (h : Held xxh32 lib time nPeerId n st events) :
    LockedFor time nPeerId (n - tickCount events) (LockEvent.run xxh32 lib st events).store := by
  induction events generalizing n st with
  | nil => exact h
  | cons e events ih =>
    have hlast := ih h.2.2
    rw [Nat.sub_sub] at hlast
    exact hlast

/-- The lock is set for the peer that is asked for the messages. -/
theorem have_locks {st : LockState} {p : Nat} {vHave : List UInt8} {beyond : Nat → UInt8}
    (h : Wants time (LockEvent.step xxh32 lib now st (.data p .smsgHave vHave beyond)).2) :
    LockedFor time (st.vNodes.getD p {}).nPeerId 3
      (LockEvent.step xxh32 lib now st (.data p .smsgHave vHave beyond)).1.store := by
  obtain ⟨i, data, hmem, rfl⟩ := h
  obtain ⟨q, hq, heq⟩ := List.mem_map.mp hmem
  obtain ⟨-, rfl⟩ := Prod.mk.inj heq
  obtain ⟨-, hslice, -⟩ := receiveHave_pushed hq
  have hpushed : (receiveHave now (st.vNodes.getD p {}) st.store vHave).pushed ≠ [] :=
    List.ne_nil_of_mem hq
  have hbucket := receiveHave_bucket now (st.vNodes.getD p {}) st.store
    vHave (int64Of (slice data 0 8))
  rw [if_pos ⟨congrArg int64Of hslice.symm, hpushed⟩] at hbucket
  unfold LockedFor LockEvent.step
  simp only [secureMsgReceiveData, hbucket, and_self]

end Steps

section Ignore

variable {ignoreUntil : Int} {nPeerId : Nat}

def FirstWith (ids : List Nat) (nPeerId i : Nat) : Prop :=
  ids[i]? = some nPeerId ∧ ∀ j, j < i → ids[j]? ≠ some nPeerId

theorem ignorePeer_ids (ignoreUntil : Int) (nPeerId : Nat) (vNodes : List SecMsgNode) :
    (ignorePeer ignoreUntil nPeerId vNodes).map SecMsgNode.nPeerId =
      vNodes.map SecMsgNode.nPeerId := by
  induction vNodes with
  | nil => rfl
  | cons pnode vNodes ih =>
    unfold ignorePeer
    split
    · rw [List.map_cons, List.map_cons, ih]
    · rfl

theorem ignorePeer_keeps (vNodes : List SecMsgNode) (i : Nat)
    (h : (vNodes[i]?).map SecMsgNode.ignoreUntil = some ignoreUntil) :
    ((ignorePeer ignoreUntil nPeerId vNodes)[i]?).map SecMsgNode.ignoreUntil =
      some ignoreUntil := by
  induction vNodes generalizing i with
  | nil => exact h
  | cons pnode vNodes ih =>
    unfold ignorePeer
    split
    · cases i with
      | zero => exact h
      | succ i => exact ih i h
    · cases i with
      | zero => rfl
      | succ i => exact h

theorem ignorePeer_sets (vNodes : List SecMsgNode) (i : Nat)
    (h : FirstWith (vNodes.map SecMsgNode.nPeerId) nPeerId i) :
    ((ignorePeer ignoreUntil nPeerId vNodes)[i]?).map SecMsgNode.ignoreUntil =
      some ignoreUntil := by
  induction vNodes generalizing i with
  | nil => simp [FirstWith] at h
  | cons pnode vNodes ih =>
    unfold ignorePeer
    obtain ⟨hi, hbefore⟩ := h
    cases i with
    | zero =>
      have hid : pnode.nPeerId = nPeerId := by simpa using hi
      rw [if_neg (not_not.mpr hid)]
      rfl
    | succ i =>
      have hfirst : pnode.nPeerId ≠ nPeerId := by simpa using hbefore 0 (Nat.succ_pos i)
      rw [if_pos hfirst]
      exact ih i ⟨hi, fun j hj => hbefore (j + 1) (Nat.succ_lt_succ hj)⟩

theorem ignorePeers_keep (ids : List Nat) (vNodes : List SecMsgNode) (i : Nat)
    (h : (vNodes[i]?).map SecMsgNode.ignoreUntil = some ignoreUntil) :
    ((ids.foldl (fun vNodes nPeerId => ignorePeer ignoreUntil nPeerId vNodes) vNodes)[i]?).map
      SecMsgNode.ignoreUntil = some ignoreUntil := by
  induction ids generalizing vNodes with
  | nil => exact h
  | cons id ids ih => exact ih _ (ignorePeer_keeps vNodes i h)

theorem ignorePeers_set (ids : List Nat) (vNodes : List SecMsgNode) (i : Nat) (hid : nPeerId ∈ ids)
    (h : FirstWith (vNodes.map SecMsgNode.nPeerId) nPeerId i) :
    ((ids.foldl (fun vNodes nPeerId => ignorePeer ignoreUntil nPeerId vNodes) vNodes)[i]?).map
      SecMsgNode.ignoreUntil = some ignoreUntil := by
  induction ids generalizing vNodes with
  | nil => cases hid
  | cons id ids ih =>
    rcases List.mem_cons.mp hid with rfl | hid
    · exact ignorePeers_keep ids _ i (ignorePeer_sets vNodes i h)
    · exact ih _ hid (by rw [ignorePeer_ids]; exact h)

theorem ignorePeers_ids (ids : List Nat) (vNodes : List SecMsgNode) :
    (ids.foldl (fun vNodes nPeerId => ignorePeer ignoreUntil nPeerId vNodes) vNodes).map
      SecMsgNode.nPeerId = vNodes.map SecMsgNode.nPeerId := by
  induction ids generalizing vNodes with
  | nil => rfl
  | cons id ids ih => rw [List.foldl_cons, ih, ignorePeer_ids]

end Ignore

section Lock

variable {xxh32 : List UInt8 → UInt32} {lib : SmsgLib} {now : Int} {time : Int} {nPeerId : Nat}

theorem LockEvent.step_ids (st : LockState) (e : LockEvent) :
    (e.step xxh32 lib now st).1.vNodes.map SecMsgNode.nPeerId =
      st.vNodes.map SecMsgNode.nPeerId := by
  cases e with
  | tick => exact ignorePeers_ids _ _
  | data i strCommand vchData beyond =>
    have hid := receiveData_id xxh32 lib now st.store
      (st.vNodes.getD i {}) strCommand vchData beyond
    unfold LockEvent.step
    simp only
    rw [List.map_set, hid]
    by_cases hi : i < st.vNodes.length
    · have hi' : i < (st.vNodes.map SecMsgNode.nPeerId).length := by rwa [List.length_map]
      have hget : (st.vNodes.getD i {}).nPeerId = (st.vNodes.map SecMsgNode.nPeerId)[i] := by
        simp [List.getD_eq_getElem?_getD, hi]
      rw [hget, List.set_getElem_self]
    · exact List.set_eq_of_length_le (by rw [List.length_map]; omega)

theorem LockEvent.run_ids (events : List (Int × LockEvent)) (st : LockState) :
    (run xxh32 lib st events).vNodes.map SecMsgNode.nPeerId = st.vNodes.map SecMsgNode.nPeerId := by
  induction events generalizing st with
  | nil => rfl
  | cons e events ih => exact (ih _).trans (step_ids st e.2)

/-- The last round takes the lock away, and the peer is ignored. -/
theorem last_tick {st : LockState} {p : Nat} (h : LockedFor time nPeerId 1 st.store)
    (hlive : now - SMSG_RETENTION ≤ time)
    (hfirst : FirstWith (st.vNodes.map SecMsgNode.nPeerId) nPeerId p) :
    ((LockEvent.step xxh32 lib now st .tick).1.store.bucket time).nLockCount = 0 ∧
      ((LockEvent.step xxh32 lib now st .tick).1.vNodes[p]?).map SecMsgNode.ignoreUntil =
        some (now + SMSG_TIME_IGNORE) := by
  refine ⟨(tick_lock h hlive).1, ignorePeers_set _ _ _ ?_ hfirst⟩
  have hthere : ∃ b, st.store.smsgBuckets[time]? = some b := by
    cases hb : st.store.smsgBuckets[time]? with
    | none =>
      have hcount := h.1
      rw [bucket_of_none hb] at hcount
      cases hcount
    | some b => exact ⟨b, rfl⟩
  obtain ⟨b, hb⟩ := hthere
  unfold LockedFor at h
  rw [bucket_of_some hb] at h
  apply List.mem_filterMap.mpr
  refine ⟨(time, b), ExtTreeMap.mem_toList_iff_getElem?_eq_some.mpr hb, ?_⟩
  simp only [hlive, h.1, and_self, if_true, h.2]

end Lock

namespace Sample

/-- A node without messages, and two peers. -/
def lockState : LockState := ⟨{}, [{ nPeerId := 1 }, { nPeerId := 2 }]⟩

def haveData : List UInt8 := tokenList 1699999800 (fullStore.tokens 1699999800)

def emptyBunch : List UInt8 := wordBytes 4 0 ++ signedBytes 8 1699999800

theorem lockState_wants : Wants 1699999800
    (LockEvent.step xxh32 zeroWork 1700000200 lockState (.data 0 .smsgHave haveData fun _ => 0)).2 :=
  ⟨0, haveData, by decide, by decide⟩

end Sample

end Triangles
