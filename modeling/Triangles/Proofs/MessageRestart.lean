import Triangles.Proofs.KeyDirectory
import Triangles.Proofs.MessageStore
import Triangles.Proofs.RoundTrip

/-! Runs of the calls on the message store: what a token in memory leads to. -/

namespace Triangles

open Std (ExtTreeMap)

/-- The calls on the store. A restart is disabling and enabling, or stopping and starting: the
buckets in memory are cleared and built again from the files. -/
inductive StoreCall where
  | store (fUpdateBucket : Bool) (m : Smsg)
  | receive (vchData : List UInt8) (beyond : Nat → UInt8)
  | scanBuckets (fSecMsgEnabled fLocked : Bool)
  | buildBucketSet
  | restart
  | expiry

structure Logged where
  log : List Smsg := []
  store : SmsgStore := {}

section Run

variable (xxh32 : List UInt8 → UInt32) (lib : SmsgLib) (now : Int)

def StoreCall.step (st : Logged) : StoreCall → Logged
  | .store fUpdateBucket m =>
    match secureMsgStore xxh32 now fUpdateBucket m st.store with
    | (0, s) => ⟨m :: st.log, s⟩
    | (_ + 1, s) => ⟨st.log, s⟩
  | .receive vchData beyond =>
    let r := secureMsgReceive xxh32 now lib vchData beyond st.store
    ⟨r.scanned.reverse ++ st.log, r.store⟩
  | .scanBuckets fSecMsgEnabled fLocked =>
    ⟨st.log, (secureMsgScanBuckets now fSecMsgEnabled fLocked st.store).2⟩
  | .buildBucketSet => ⟨st.log, secureMsgBuildBucketSet xxh32 now st.store⟩
  | .restart => ⟨st.log, secureMsgBuildBucketSet xxh32 now { st.store with smsgBuckets := ∅ }⟩
  | .expiry => ⟨st.log, (expiryPass now st.store).1⟩

def StoreCall.run (st : Logged) (calls : List (Int × StoreCall)) : Logged :=
  calls.foldl (fun st c => c.2.step xxh32 lib c.1 st) st

/-- The messages in the files of live buckets have the eight bytes that the scan skips. -/
def LongPayloads (s : SmsgStore) : Prop :=
  ∀ p ∈ s.files.toList, now - SMSG_RETENTION ≤ p.1 →
    ∀ m ∈ scanFile p.2 p.2.length 0, 8 ≤ m.payload.length

/-- The condition on a call, and on the store that it finds. -/
def StoreCall.Safe (s : SmsgStore) : StoreCall → Prop
  | .store _ _ | .receive _ _ => SMSG_RETENTION ≤ now
  | .scanBuckets fSecMsgEnabled fLocked =>
    fSecMsgEnabled = true → fLocked = false →
      ∀ p ∈ s.smsgBuckets.toList, p.2.setTokens.isEmpty = true
  | .buildBucketSet =>
    LongPayloads now s ∧
      ∀ p ∈ s.smsgBuckets.toList, p.1 < now - SMSG_RETENTION → p.2.setTokens.isEmpty = true
  | .restart => LongPayloads now s
  | .expiry => True

instance (s : SmsgStore) (c : StoreCall) : Decidable (c.Safe now s) := by
  cases c <;> unfold StoreCall.Safe LongPayloads <;> infer_instance

def StoreCall.SafeRun : Logged → List (Int × StoreCall) → Prop
  | _, [] => True
  | st, c :: calls => c.2.Safe c.1 st.store ∧ SafeRun (c.2.step xxh32 lib c.1 st) calls

end Run

section Sound

variable {xxh32 : List UInt8 → UInt32} {lib : SmsgLib} {now : Int} {P : Smsg → Prop}
  {log : List Smsg} {s : SmsgStore}

theorem tokens_of_empty {P : Int → Prop}
    (h : ∀ p ∈ s.smsgBuckets.toList, P p.1 → p.2.setTokens.isEmpty = true) (time : Int)
    (hP : P time) : s.tokens time = ∅ := by
  unfold SmsgStore.tokens SmsgStore.bucket
  cases hb : s.smsgBuckets[time]? with
  | none => rfl
  | some b =>
    exact ExtTreeMap.isEmpty_iff.mp (h (time, b) (ExtTreeMap.mem_toList_iff_getElem?_eq_some.mpr hb) hP)

/-- The scan of a live file finds the tokens again, whether they are in memory or not. -/
theorem Shelf.scanned {time : Int} {ms : List Smsg} {file : List UInt8} {t tokens : TokenSet}
    (h : Shelf P log time ms file t) (hlong : ∀ m ∈ ms, 8 ≤ m.payload.length)
    (hmemory : tokens = t ∨ tokens = ∅) :
    Shelf P log time ms file (scanTokens file file.length 0 tokens) := by
  have hscan := scanTokens_all ms hlong (length_le_flatMap ms) tokens
  rw [← h.file_eq] at hscan
  have hkeys : ((recorded 0 ms).map Prod.fst).Nodup := by
    rw [recorded_keys]
    exact h.nodup
  refine ⟨h.file_eq, fun k offset => ?_, h.nodup, h.home, h.newest⟩
  rw [hscan, Slots.getElem?_foldl_insertIfNew _ hkeys]
  rcases hmemory with rfl | rfl
  · rw [h.tokens_iff]
    exact ⟨fun hk => hk.elim id And.right, .inl⟩
  · simp

/-- The buckets are built from the files, over what memory holds of them. -/
theorem StoreSound.build {s' : SmsgStore} (h : StoreSound P log s) (hfiles : s'.files = s.files)
    (htokens : ∀ time, s'.tokens time = s.tokens time ∨ s'.tokens time = ∅)
    (hlong : LongPayloads now s)
    (hexpired : ∀ time, time < now - SMSG_RETENTION → s'.tokens time = ∅) :
    StoreSound P log (secureMsgBuildBucketSet xxh32 now s') := by
  intro time
  obtain ⟨ms, hf⟩ := h time
  have hslot := buildBucketSet_slot xxh32 now s' time
  rw [hfiles] at hslot
  cases hfile : s.files[time]? with
  | none =>
    simp only [hfile] at hslot
    obtain ⟨htok, hfil⟩ := Prod.mk.inj hslot
    have hempty : s.file time = [] := by simp [SmsgStore.file, hfile]
    have hempty' : s'.file time = [] := by simp [SmsgStore.file, hfiles, hfile]
    rw [hempty] at hf
    have hms := hf.nil_of_file
    subst hms
    have htime := hf.tokens_of_nil
    have htime' : s'.tokens time = ∅ := by rcases htokens time with h | h <;> simp [h, htime]
    rw [htok, hfil, htime', hempty']
    exact ⟨[], shelf_nil P log time⟩
  | some file =>
    have hsame : s.file time = file := by simp [SmsgStore.file, hfile]
    rw [hsame] at hf
    simp only [hfile] at hslot
    split at hslot
    · rename_i hold
      obtain ⟨htok, hfil⟩ := Prod.mk.inj hslot
      rw [htok, hfil, hexpired time hold]
      exact ⟨[], shelf_nil P log time⟩
    · rename_i hlive
      obtain ⟨htok, hfil⟩ := Prod.mk.inj hslot
      have hscan : scanFile file file.length 0 = ms := by
        have hall := scanFile_all [] ms (length_le_flatMap ms)
        rw [List.nil_append, List.length_nil, ← hf.file_eq] at hall
        exact hall
      have hms := hlong (time, file) (ExtTreeMap.mem_toList_iff_getElem?_eq_some.mpr hfile)
        (Int.not_lt.mp hlive)
      rw [hscan] at hms
      rw [htok, hfil]
      exact ⟨ms, hf.scanned hms (htokens time)⟩

def StoreCall.Brings (lib : SmsgLib) (now : Int) (c : StoreCall) (m : Smsg) : Prop :=
  InWindow now m ∧
    match c with
    | .store _ m' => m = m'
    | .receive _ _ => secureMsgValidate lib m = 0
    | _ => False

theorem StoreCall.step_stored {st : Logged} {fUpdateBucket : Bool} {m : Smsg}
    (h : (secureMsgStore xxh32 now fUpdateBucket m st.store).1 = 0) :
    (StoreCall.store fUpdateBucket m).step xxh32 lib now st =
      ⟨m :: st.log, (secureMsgStore xxh32 now fUpdateBucket m st.store).2⟩ := by
  have hpair : secureMsgStore xxh32 now fUpdateBucket m st.store =
      (0, (secureMsgStore xxh32 now fUpdateBucket m st.store).2) := Prod.ext h rfl
  rw [StoreCall.step, hpair]

theorem StoreCall.step_refused {st : Logged} {fUpdateBucket : Bool} {m : Smsg}
    (h : (secureMsgStore xxh32 now fUpdateBucket m st.store).1 = 1) :
    (StoreCall.store fUpdateBucket m).step xxh32 lib now st =
      ⟨st.log, (secureMsgStore xxh32 now fUpdateBucket m st.store).2⟩ := by
  have hpair : secureMsgStore xxh32 now fUpdateBucket m st.store =
      (1, (secureMsgStore xxh32 now fUpdateBucket m st.store).2) := Prod.ext h rfl
  rw [StoreCall.step, hpair]

/-- A call that is safe keeps the store sound. -/
theorem StoreCall.step_sound {st : Logged} (h : StoreSound P st.log st.store) {c : StoreCall}
    (hsafe : c.Safe now st.store) (hP : ∀ m, c.Brings lib now m → P m) :
    StoreSound P (c.step xxh32 lib now st).log (c.step xxh32 lib now st).store := by
  cases c with
  | store fUpdateBucket m =>
    rcases secureMsgStore_cases xxh32 now fUpdateBucket m st.store with
      ⟨hcode, hsame⟩ | ⟨hcode, hwindow, hadds⟩
    · rw [StoreCall.step_refused hcode]
      exact h.same hsame
    · rw [StoreCall.step_stored hcode]
      exact h.add hadds (hP m ⟨hwindow, rfl⟩)
  | receive vchData beyond =>
    exact secureMsgReceive_sound (fun m hvalid hwindow => hP m ⟨hwindow, hvalid⟩) vchData beyond h
  | scanBuckets fSecMsgEnabled fLocked =>
    cases hscan : !fSecMsgEnabled || fLocked with
    | true =>
      unfold StoreCall.step secureMsgScanBuckets
      simp only [hscan, if_true]
      exact h
    | false =>
      simp only [Bool.or_eq_false_iff, Bool.not_eq_false'] at hscan
      intro time
      have hempty := tokens_of_empty (P := fun _ => True)
        (fun p hp _ => hsafe hscan.1 hscan.2 p hp) time trivial
      obtain ⟨htok, hfil⟩ := Prod.mk.inj
        (scanBuckets_slot fSecMsgEnabled fLocked
          (by simp [hscan]) now st.store time)
      refine ⟨[], ?_⟩
      unfold StoreCall.step
      simp only
      rw [htok, hfil, hempty]
      exact shelf_nil _ _ time
  | buildBucketSet =>
    exact h.build rfl (fun _ => .inl rfl) hsafe.1 fun time hold =>
      tokens_of_empty (P := fun t => t < now - SMSG_RETENTION) hsafe.2 _ hold
  | restart =>
    have hcleared : ∀ time, ({ st.store with smsgBuckets := ∅ } : SmsgStore).tokens time = ∅ := by
      intro time
      simp [SmsgStore.tokens, SmsgStore.bucket]
    exact h.build rfl (fun time => .inr (hcleared time)) hsafe fun time _ => hcleared time
  | expiry => exact h.expiryPass

theorem storeSound_start (P : Smsg → Prop) : StoreSound P [] {} := by
  intro time
  refine ⟨[], ?_⟩
  have htokens : ({} : SmsgStore).tokens time = ∅ := by simp [SmsgStore.tokens, SmsgStore.bucket]
  have hfile : ({} : SmsgStore).file time = [] := by simp [SmsgStore.file]
  rw [htokens, hfile]
  exact shelf_nil _ [] time

theorem StoreCall.run_sound (calls : List (Int × StoreCall)) {st : Logged}
    (h : StoreSound P st.log st.store) (hsafe : SafeRun xxh32 lib st calls)
    (hP : ∀ c ∈ calls, ∀ s, c.2.Safe c.1 s → ∀ m, c.2.Brings lib c.1 m → P m) :
    StoreSound P (run xxh32 lib st calls).log (run xxh32 lib st calls).store := by
  induction calls generalizing st with
  | nil => exact h
  | cons c calls ih =>
    exact ih (step_sound h hsafe.1 (hP c List.mem_cons_self _ hsafe.1)) hsafe.2
      fun c' hc' => hP c' (List.mem_cons_of_mem _ hc')

/-- The messages whose times are not negative: those lie in their buckets. -/
def Dated (m : Smsg) : Prop := 0 ≤ m.header.timestamp

theorem StoreCall.Safe.dated {c : StoreCall} (hsafe : c.Safe now s) {m : Smsg}
    (hm : c.Brings lib now m) : Dated m := by
  obtain ⟨hwindow, hm⟩ := hm
  cases c with
  | store fUpdateBucket m' => exact hwindow.nonneg hsafe
  | receive vchData beyond => exact hwindow.nonneg hsafe
  | scanBuckets fSecMsgEnabled fLocked => exact hm.elim
  | buildBucketSet => exact hm.elim
  | restart => exact hm.elim
  | expiry => exact hm.elim

/-- After a run of safe calls every token lies in its bucket, and leads to what was stored when it
was inserted. -/
theorem stored_retrieved (xxh32 : List UInt8 → UInt32) (lib : SmsgLib)
    (calls : List (Int × StoreCall)) (hsafe : StoreCall.SafeRun xxh32 lib {} calls) (time : Int)
    (k : TokenKey) (offset : Nat)
    (hk : ((StoreCall.run xxh32 lib {} calls).store.tokens time)[k]? = some offset) :
    time ≤ k.timestamp ∧ k.timestamp < time + SMSG_BUCKET_LEN ∧
      ∃ m, latest (StoreCall.run xxh32 lib {} calls).log k = some m ∧
        secureMsgRetrieve (StoreCall.run xxh32 lib {} calls).store k.timestamp offset =
          some m.bytes := by
  have hsound := StoreCall.run_sound calls (storeSound_start Dated) hsafe
    fun _ _ _ hc _ hm => hc.dated hm
  obtain ⟨m, hdated, rfl, rfl, hlatest, hread⟩ := hsound.retrieve hk
  have hbounds := bucketOf_bounds hdated
  exact ⟨hbounds.1, hbounds.2, m, hlatest, hread⟩

end Sound

namespace Sample

def smsgHeader (timestamp : Int) (nPayload : Nat) : SmsgHeader :=
  ⟨[0, 0, 0, 0, 1, 0, 0] ++ signedBytes 8 timestamp ++ List.replicate 85 0 ++
    wordBytes 4 nPayload, by simp [signedBytes, SMSG_HDR_LEN]⟩

def smsg (timestamp : Int) (payload : List UInt8)
    (h : payload.length = (smsgHeader timestamp payload.length).nPayload) : Smsg :=
  ⟨smsgHeader timestamp payload.length, payload, h⟩

def note : Smsg := smsg 1700000100 [1, 2, 3, 4, 5, 6, 7, 8] (by decide)

def reply : Smsg := smsg 1700000101 [8, 7, 6, 5, 4, 3, 2, 1, 0] (by decide)

def xxh32 (bytes : List UInt8) : UInt32 := bytes.foldl (fun n b => 31 * n + b.toUInt32) 1

def noteCalls : List (Int × StoreCall) :=
  [(1700000100, .store true note), (1700000101, .store true reply), (1700000102, .restart),
    (1700000103, .expiry)]

def scanCalls : List (Int × StoreCall) :=
  [(1700000100, .store true note), (1700000101, .scanBuckets true false)]

end Sample

theorem stored_retrieved_reply :
    1700000101 < 1699999800 + SMSG_BUCKET_LEN ∧
      ∃ m, latest (StoreCall.run Sample.xxh32 Sample.smsgLib {} Sample.noteCalls).log
          Sample.reply.token = some m ∧
        secureMsgRetrieve (StoreCall.run Sample.xxh32 Sample.smsgLib {} Sample.noteCalls).store
          1700000101 112 = some m.bytes := by
  have hsafe : StoreCall.SafeRun Sample.xxh32 Sample.smsgLib {} Sample.noteCalls := by
    refine ⟨?_, ?_, ?_, ?_, trivial⟩ <;> decide +kernel
  have htime : Sample.reply.token.timestamp = 1700000101 := by decide
  obtain ⟨-, hlate, hm⟩ := stored_retrieved Sample.xxh32 Sample.smsgLib Sample.noteCalls hsafe
    1699999800 Sample.reply.token 112 (by decide +kernel)
  rw [htime] at hlate hm
  exact ⟨hlate, hm⟩

/-- A scan takes the file of a message away, and its token stays. -/
theorem scanned_file_lost :
    ((StoreCall.run Sample.xxh32 Sample.smsgLib {} Sample.scanCalls).store.tokens
        1699999800)[Sample.note.token]? = some 0 ∧
      secureMsgRetrieve (StoreCall.run Sample.xxh32 Sample.smsgLib {} Sample.scanCalls).store
        Sample.note.token.timestamp 0 = none := by decide

end Triangles

/-! A restart: the buckets that are built from the files, beside those that were in memory. -/

namespace Triangles

open Std (ExtTreeMap)

section Rebuild

variable (xxh32 : List UInt8 → UInt32) (lib : SmsgLib) (now : Int)

abbrev StoreArgs := Int × Bool × Smsg

def storeAll (s : SmsgStore) (calls : List StoreArgs) : SmsgStore :=
  calls.foldl (fun s c => (secureMsgStore xxh32 c.1 c.2.1 c.2.2 s).2) s

/-- Every call is about a valid message, and succeeds. -/
def AllStored : SmsgStore → List StoreArgs → Prop
  | _, [] => True
  | s, c :: calls =>
    secureMsgValidate lib c.2.2 = 0 ∧ (secureMsgStore xxh32 c.1 c.2.1 c.2.2 s).1 = 0 ∧
      AllStored (secureMsgStore xxh32 c.1 c.2.1 c.2.2 s).2 calls

def restarted (s : SmsgStore) : SmsgStore := secureMsgBuildBucketSet xxh32 now { files := s.files }

/-- A restart gives the same buckets, with the tokens and the hashes that they had. -/
def SameBuckets (s : SmsgStore) : Prop :=
  ∀ time : Int,
    ((restarted xxh32 now s).smsgBuckets[time]?).map
        (fun b : SecMsgBucket => (b.setTokens, b.hash)) =
      (s.smsgBuckets[time]?).map
        fun b : SecMsgBucket => (b.setTokens, (b.hashBucket xxh32 now).hash)

end Rebuild

section Stored

variable {xxh32 : List UInt8 → UInt32} {lib : SmsgLib} {now : Int} {log : List Smsg} {s : SmsgStore}

/-- Every message of the log is on its shelf, in the order of the calls, and a bucket has a file. -/
structure KeptAll (log : List Smsg) (s : SmsgStore) : Prop where
  shelf : ∀ time, Shelf (fun _ => True) log time
    (log.reverse.filter fun m => decide (bucketOf m.header.timestamp = time)) (s.file time)
    (s.tokens time)
  both : ∀ time, time ∈ s.smsgBuckets ↔ time ∈ s.files
  filled : ∀ time, time ∈ s.files → s.file time ≠ []

theorem keptAll_nil : KeptAll [] {} where
  shelf time := by
    obtain ⟨ms, h⟩ := storeSound_start (fun _ => True) time
    have hfile : ({} : SmsgStore).file time = [] := by simp [SmsgStore.file]
    rw [hfile] at h ⊢
    rw [h.nil_of_file] at h
    exact h
  both time := by simp
  filled time h := by simp at h

theorem store_buckets {fUpdateBucket : Bool} {m : Smsg}
    (h : (secureMsgStore xxh32 now fUpdateBucket m s).1 = 0) (time : Int) :
    (time ∈ (secureMsgStore xxh32 now fUpdateBucket m s).2.smsgBuckets ↔
        bucketOf m.header.timestamp = time ∨ time ∈ s.smsgBuckets) ∧
      (time ∈ (secureMsgStore xxh32 now fUpdateBucket m s).2.files ↔
        bucketOf m.header.timestamp = time ∨ time ∈ s.files) := by
  unfold secureMsgStore at h ⊢
  simp only at h ⊢
  split at h
  · cases h
  · rename_i hnew
    split at h
    · cases h
    · rename_i hold
      split at h
      · cases h
      · rename_i habsent
        rw [if_neg hnew, if_neg hold, if_neg habsent]
        simp [SmsgStore.setBucket, ExtTreeMap.mem_insert]

theorem KeptAll.store (h : KeptAll log s) {fUpdateBucket : Bool} {m : Smsg}
    (hm : (secureMsgStore xxh32 now fUpdateBucket m s).1 = 0) :
    KeptAll (m :: log) (secureMsgStore xxh32 now fUpdateBucket m s).2 := by
  have hbuckets := store_buckets hm
  have hadds := store_adds hm
  refine ⟨fun time => ?_, fun time => ?_, fun time hmem => ?_⟩
  · rw [List.reverse_cons, List.filter_append]
    by_cases ht : time = bucketOf m.header.timestamp
    · subst ht
      have hself : [m].filter (fun m' => decide (bucketOf m'.header.timestamp =
          bucketOf m.header.timestamp)) = [m] := by simp
      rw [hself]
      exact (h.shelf _).add hadds trivial
    · have hnone : [m].filter (fun m' => decide (bucketOf m'.header.timestamp = time)) = [] := by
        simp [Ne.symm ht]
      rw [hnone, List.append_nil]
      exact (h.shelf time).add_other hadds ht
  · rw [(hbuckets time).1, (hbuckets time).2, h.both]
  · by_cases ht : time = bucketOf m.header.timestamp
    · subst ht
      rw [hadds.file]
      have hpos := m.bytes_pos
      exact List.append_ne_nil_of_right_ne_nil _ (List.ne_nil_of_length_pos hpos)
    · rw [(hadds.others time ht).2]
      rcases (hbuckets time).2.mp hmem with heq | hmem
      · exact absurd heq.symm ht
      · exact h.filled time hmem

theorem KeptAll.shelf_ne_nil (h : KeptAll log s) {time : Int} (hmem : time ∈ s.files) :
    (log.reverse.filter fun m => decide (bucketOf m.header.timestamp = time)) ≠ [] := by
  intro hnil
  have hfile := (h.shelf time).file_eq
  rw [hnil] at hfile
  exact h.filled time hmem hfile

theorem keptAll_storeAll (calls : List StoreArgs) (h : KeptAll log s)
    (hall : AllStored xxh32 lib s calls) :
    KeptAll ((calls.map fun c => c.2.2).reverse ++ log) (storeAll xxh32 s calls) := by
  induction calls generalizing log s with
  | nil => exact h
  | cons c calls ih =>
    obtain ⟨-, hm, hrest⟩ := hall
    rw [List.map_cons, List.reverse_cons, List.append_assoc, List.singleton_append]
    exact ih (h.store hm) hrest

end Stored

section Scan

variable {P : Smsg → Prop} {log : List Smsg} {time : Int} {ms : List Smsg} {file : List UInt8}
  {tokens : TokenSet}

theorem Shelf.tokens_ext {tokens' : TokenSet} (h : Shelf P log time ms file tokens)
    (h' : Shelf P log time ms file tokens') : tokens = tokens' := by
  apply ExtTreeMap.ext_getElem?
  intro k
  apply Option.ext
  intro offset
  rw [h.tokens_iff, h'.tokens_iff]

/-- Of a short payload the scan makes the header of what follows, so its token is not found. -/
theorem Shelf.scan_short (h : Shelf P log time ms file tokens) {pre post : List Smsg} {m : Smsg}
    (hms : ms = pre ++ m :: post) (hpre : ∀ m' ∈ pre, 8 ≤ m'.payload.length)
    (hm : m.payload.length < 8) : scanTokens file file.length 0 ∅ ≠ tokens := by
  intro heq
  have hfile : file = pre.flatMap Smsg.bytes ++ (m.bytes ++ post.flatMap Smsg.bytes) := by
    rw [h.file_eq, hms, List.flatMap_append, List.flatMap_cons]
  have hrounds : ∃ rounds, file.length = pre.length + (rounds + 1) := by
    have hlen := congrArg List.length hfile
    have hle := length_le_flatMap pre
    have hpos := m.bytes_pos
    rw [List.length_append, List.length_append] at hlen
    exact ⟨file.length - pre.length - 1, by omega⟩
  obtain ⟨rounds, hrounds⟩ := hrounds
  have hscan := scanTokens_long [] pre (m.bytes ++ post.flatMap Smsg.bytes) hpre (rounds + 1) ∅
  have hmessage := scanTokens_message (pre.flatMap Smsg.bytes) (post.flatMap Smsg.bytes) m rounds
    ((recorded 0 pre).foldl (fun t p => t.insertIfNew p.1 p.2) ∅)
  rw [List.nil_append, List.length_nil, Nat.zero_add, ← hfile, ← hrounds] at hscan
  rw [← hfile, if_pos hm] at hmessage
  have hin : tokens[m.token]? = some (pre.flatMap Smsg.bytes).length := by
    rw [h.tokens_iff, hms, recorded_append, Nat.zero_add]
    exact List.mem_append_right _ List.mem_cons_self
  have hnodup := h.nodup
  rw [hms, List.map_append, List.map_cons] at hnodup
  have hnew : m.token ∉ pre.map Smsg.token := fun hmem =>
    (List.nodup_append.mp hnodup).2.2 _ hmem _ List.mem_cons_self rfl
  rw [← heq, hscan, hmessage] at hin
  rcases scanTokens_from _ _ _ hin with hfound | hle
  · have hkeys : ((recorded 0 pre).map Prod.fst).Nodup := by
      rw [recorded_keys]
      exact (List.nodup_append.mp hnodup).1
    rw [Slots.getElem?_foldl_insertIfNew _ hkeys] at hfound
    have hrec : (m.token, (pre.flatMap Smsg.bytes).length) ∈ recorded 0 pre := by
      simpa using hfound
    have hkey := List.mem_map_of_mem (f := Prod.fst) hrec
    rw [recorded_keys] at hkey
    exact hnew hkey
  · have hhdr : 0 < SMSG_HDR_LEN := by decide
    omega

/-- The scan finds the tokens of a shelf exactly when its payloads all have eight bytes. -/
theorem Shelf.scan_iff (h : Shelf P log time ms file tokens) :
    scanTokens file file.length 0 ∅ = tokens ↔ ∀ m ∈ ms, 8 ≤ m.payload.length := by
  constructor
  · intro heq
    by_contra hshort
    simp only [not_forall, Nat.not_le] at hshort
    obtain ⟨m, hm, hlen⟩ := hshort
    cases hfind : ms.find? fun m => decide (m.payload.length < 8) with
    | none => simpa [hlen] using List.find?_eq_none.mp hfind m hm
    | some m' =>
      obtain ⟨hm', pre, post, hms, hpre⟩ := List.find?_eq_some_iff_append.mp hfind
      exact h.scan_short hms (fun m hm => by simpa using hpre m hm) (by simpa using hm') heq
  · intro hlong
    exact (h.scanned hlong (.inr rfl)).tokens_ext h

end Scan

section Restarted

variable {xxh32 : List UInt8 → UInt32} {now : Int} {log : List Smsg} {s : SmsgStore}

theorem restarted_bucket (time : Int) :
    ((restarted xxh32 now s).smsgBuckets[time]?).map
        (fun b : SecMsgBucket => (b.setTokens, b.hash)) =
      match s.files[time]? with
      | none => none
      | some file =>
        if time < now - SMSG_RETENTION then none
        else some (scanTokens file file.length 0 ∅,
          xxh32 (scanTokens file file.length 0 ∅).samples) := by
  have hfold := foldl_files (fun s time =>
      (s.smsgBuckets[time]?).map fun b : SecMsgBucket => (b.setTokens, b.hash))
    (buildBucket xxh32 now)
    (g := fun p b => if p.1 < now - SMSG_RETENTION then b
      else
        let tokens := scanTokens p.2 p.2.length 0 ((b.map Prod.fst).getD ∅)
        some (tokens, xxh32 tokens.samples)) ?_ ?_ { files := s.files } time
  · unfold restarted secureMsgBuildBucketSet
    rw [hfold]
    cases s.files[time]? with
    | none => simp
    | some file => simp
  · intro s p t hne
    unfold buildBucket
    split
    · rfl
    · simp only [SmsgStore.setBucket, Slots.getElem?_insert_eq, if_neg hne.symm]
  · intro s p
    unfold buildBucket
    split
    · rfl
    · simp only [SmsgStore.setBucket, Slots.getElem?_insert_eq, if_true, SecMsgBucket.hashBucket,
        SmsgStore.bucket]
      cases s.smsgBuckets[p.1]? <;> rfl

theorem KeptAll.sameBuckets_iff (h : KeptAll log s) :
    SameBuckets xxh32 now s ↔
      ∀ m ∈ log, 8 ≤ m.payload.length ∧ now - SMSG_RETENTION ≤ bucketOf m.header.timestamp := by
  have hslot : ∀ time, time ∈ s.files → ∃ b, s.smsgBuckets[time]? = some b ∧
      b.setTokens = s.tokens time ∧ s.files[time]? = some (s.file time) := by
    intro time hmem
    obtain ⟨b, hb⟩ := Option.isSome_iff_exists.mp
      (ExtTreeMap.mem_iff_isSome_getElem?.mp ((h.both time).mpr hmem))
    obtain ⟨file, hfile⟩ := Option.isSome_iff_exists.mp (ExtTreeMap.mem_iff_isSome_getElem?.mp hmem)
    exact ⟨b, hb, (tokens_of_some hb).symm, by simp [SmsgStore.file, hfile]⟩
  constructor
  · intro hsame m hm
    have hms : m ∈ log.reverse.filter fun m' =>
        decide (bucketOf m'.header.timestamp = bucketOf m.header.timestamp) := by simp [hm]
    have hmem : bucketOf m.header.timestamp ∈ s.files := by
      by_contra hnone
      have hempty : s.file (bucketOf m.header.timestamp) = [] := by
        simp [SmsgStore.file, ExtTreeMap.getElem?_eq_none hnone]
      have hshelf := h.shelf (bucketOf m.header.timestamp)
      rw [hempty] at hshelf
      rw [hshelf.nil_of_file] at hms
      cases hms
    obtain ⟨b, hb, htokens, hfile⟩ := hslot _ hmem
    have heq := hsame (bucketOf m.header.timestamp)
    rw [restarted_bucket, hfile, hb] at heq
    simp only at heq
    split at heq
    · cases heq
    · rename_i hlive
      refine ⟨?_, Int.not_lt.mp hlive⟩
      have hscan := (Prod.mk.inj (Option.some.inj heq)).1
      rw [htokens, (h.shelf _).scan_iff] at hscan
      exact hscan m hms
  · intro hall time
    rw [restarted_bucket]
    by_cases hmem : time ∈ s.files
    · obtain ⟨b, hb, htokens, hfile⟩ := hslot time hmem
      have hlong : ∀ m ∈ log.reverse.filter fun m => decide (bucketOf m.header.timestamp = time),
          8 ≤ m.payload.length := fun m hm => (hall m (List.mem_reverse.mp (List.mem_filter.mp hm).1)).1
      have hscan := (h.shelf time).scan_iff.mpr hlong
      have hlive : ¬time < now - SMSG_RETENTION := by
        obtain ⟨m, hm⟩ := List.exists_mem_of_ne_nil _ (h.shelf_ne_nil hmem)
        obtain ⟨hlog, htime⟩ := List.mem_filter.mp hm
        have hm := (hall m (List.mem_reverse.mp hlog)).2
        rw [of_decide_eq_true htime] at hm
        exact Int.not_lt.mpr hm
      rw [hfile, hb]
      simp only [if_neg hlive, hscan, Option.map_some, htokens, SecMsgBucket.hashBucket]
    · have hbucket := mt (h.both time).mp hmem
      rw [ExtTreeMap.getElem?_eq_none hmem, ExtTreeMap.getElem?_eq_none hbucket]
      rfl

/-- A restart gives back the buckets exactly when every stored message has eight bytes of payload
and lies in a bucket that has not expired. -/
theorem restart_same_buckets (xxh32 : List UInt8 → UInt32) (lib : SmsgLib) (calls : List StoreArgs)
    (hall : AllStored xxh32 lib {} calls) (now : Int) :
    SameBuckets xxh32 now (storeAll xxh32 {} calls) ↔
      ∀ c ∈ calls, 8 ≤ c.2.2.payload.length ∧
        now - SMSG_RETENTION ≤ bucketOf c.2.2.header.timestamp := by
  have hkept := keptAll_storeAll calls keptAll_nil hall
  rw [List.append_nil] at hkept
  rw [hkept.sameBuckets_iff]
  simp only [List.mem_reverse, List.forall_mem_map]

end Restarted

namespace Sample

def zeroWork : SmsgLib := { smsgLib with hmac := fun _ _ => some (List.replicate 32 0) }

def shortNote : Smsg := smsg 1700000099 [1, 2, 3] (by decide)

end Sample

theorem restart_same_buckets_notes :
    SameBuckets Sample.xxh32 1700000200 (storeAll Sample.xxh32 {}
      [(1700000100, true, Sample.note), (1700000101, true, Sample.reply)]) :=
  (restart_same_buckets Sample.xxh32 Sample.zeroWork
    [(1700000100, true, Sample.note), (1700000101, true, Sample.reply)]
    ⟨by decide, by decide, by decide, by decide, trivial⟩
    1700000200).mpr (by decide)

/-- A short message and another are stored in one bucket. After a restart at once it has no token. -/
theorem short_message_lost :
    AllStored Sample.xxh32 Sample.zeroWork {}
        [(1700000100, true, Sample.shortNote), (1700000101, true, Sample.reply)] ∧
      ¬SameBuckets Sample.xxh32 1700000102 (storeAll Sample.xxh32 {}
        [(1700000100, true, Sample.shortNote), (1700000101, true, Sample.reply)]) := by
  refine ⟨⟨by decide, by decide, by decide, by decide, trivial⟩,
    fun h => ?_⟩
  have hsize := congrArg (Option.map fun b => b.1.size) (h 1699999800)
  revert hsize
  decide +kernel

end Triangles
