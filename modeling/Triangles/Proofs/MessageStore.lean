import Triangles.Lib.Slots
import Triangles.Proofs.MessageFile

/-! The tokens in memory point at the messages in the bucket files. -/

namespace Triangles

open Std (ExtTreeMap)
open Slots

section Buckets

variable {s : SmsgStore}

@[simp] theorem bucket_setBucket (s : SmsgStore) (time t : Int) (b : SecMsgBucket) :
    (s.setBucket time b).bucket t = if time = t then b else s.bucket t := by
  unfold SmsgStore.bucket SmsgStore.setBucket
  simp only [getElem?_insert_eq]
  split <;> rfl

@[simp] theorem files_setBucket (s : SmsgStore) (time : Int) (b : SecMsgBucket) :
    (s.setBucket time b).files = s.files := rfl

/-- The bytes of a bucket file, none when there is no file. -/
def SmsgStore.file (s : SmsgStore) (time : Int) : List UInt8 := (s.files[time]?).getD []

def SmsgStore.tokens (s : SmsgStore) (time : Int) : TokenSet := (s.bucket time).setTokens

def SameSlots (s s' : SmsgStore) : Prop :=
  ∀ time, s'.tokens time = s.tokens time ∧ s'.file time = s.file time

theorem SameSlots.refl (s : SmsgStore) : SameSlots s s := fun _ => ⟨rfl, rfl⟩

theorem SameSlots.trans {a b c : SmsgStore} (hab : SameSlots a b) (hbc : SameSlots b c) :
    SameSlots a c := fun time =>
  ⟨(hbc time).1.trans (hab time).1, (hbc time).2.trans (hab time).2⟩

theorem setBucket_sameSlots {time : Int} {b : SecMsgBucket}
    (h : b.setTokens = s.tokens time) : SameSlots s (s.setBucket time b) := by
  intro t
  refine ⟨?_, rfl⟩
  unfold SmsgStore.tokens
  rw [bucket_setBucket]
  split
  · rename_i ht
    rw [h, ht]
    rfl
  · rfl

theorem bucket_updateBucket (s : SmsgStore) (time t : Int) (f : SecMsgBucket → SecMsgBucket) :
    (s.updateBucket time f).bucket t =
      if time = t ∧ t ∈ s.smsgBuckets then f (s.bucket t) else s.bucket t := by
  unfold SmsgStore.updateBucket
  cases hb : s.smsgBuckets[time]? with
  | none =>
    have hnot : ¬(time = t ∧ t ∈ s.smsgBuckets) := by
      rintro ⟨rfl, hmem⟩
      rw [ExtTreeMap.mem_iff_isSome_getElem?, hb] at hmem
      cases hmem
    rw [if_neg hnot]
  | some b =>
    have hmem : time ∈ s.smsgBuckets := ExtTreeMap.mem_iff_isSome_getElem?.mpr (by rw [hb]; rfl)
    simp only [bucket_setBucket]
    by_cases ht : time = t
    · subst ht
      rw [if_pos rfl, if_pos ⟨rfl, hmem⟩, SmsgStore.bucket, hb, Option.getD_some]
    · rw [if_neg ht, if_neg fun h => ht h.1]

theorem updateBucket_sameSlots (time : Int) {f : SecMsgBucket → SecMsgBucket}
    (h : ∀ b, (f b).setTokens = b.setTokens) : SameSlots s (s.updateBucket time f) := by
  intro t
  constructor
  · unfold SmsgStore.tokens
    rw [bucket_updateBucket]
    split
    · exact h _
    · rfl
  · unfold SmsgStore.updateBucket
    split <;> rfl

/-- A message is added to the slot of its time. -/
structure Adds (m : Smsg) (s s' : SmsgStore) : Prop where
  absent : m.token ∉ s.tokens (bucketOf m.header.timestamp)
  tokens : s'.tokens (bucketOf m.header.timestamp) =
    (s.tokens (bucketOf m.header.timestamp)).insert m.token
      (s.file (bucketOf m.header.timestamp)).length
  file : s'.file (bucketOf m.header.timestamp) = s.file (bucketOf m.header.timestamp) ++ m.bytes
  others : ∀ time, time ≠ bucketOf m.header.timestamp →
    s'.tokens time = s.tokens time ∧ s'.file time = s.file time

/-- The time of a message is within the retention period. -/
def InWindow (now : Int) (m : Smsg) : Prop :=
  now - SMSG_RETENTION ≤ m.header.timestamp ∧ m.header.timestamp ≤ now + SMSG_TIME_LEEWAY

/-- A call that succeeds adds the message, and one that fails adds nothing. -/
theorem secureMsgStore_cases (xxh32 : List UInt8 → UInt32) (now : Int) (fUpdateBucket : Bool)
    (m : Smsg) (s : SmsgStore) :
    ((secureMsgStore xxh32 now fUpdateBucket m s).1 = 1 ∧
        SameSlots s (secureMsgStore xxh32 now fUpdateBucket m s).2) ∨
      ((secureMsgStore xxh32 now fUpdateBucket m s).1 = 0 ∧ InWindow now m ∧
        Adds m s (secureMsgStore xxh32 now fUpdateBucket m s).2) := by
  unfold secureMsgStore
  simp only
  split
  · exact .inl ⟨rfl, SameSlots.refl s⟩
  · rename_i hnew
    split
    · exact .inl ⟨rfl, SameSlots.refl s⟩
    · rename_i hold
      split
      · exact .inl ⟨rfl, setBucket_sameSlots rfl⟩
      · rename_i habsent
        refine .inr ⟨rfl, ⟨Int.not_lt.mp hold, Int.not_lt.mp hnew⟩, habsent, ?_, ?_, ?_⟩
        · cases fUpdateBucket <;> simp [SmsgStore.tokens, SmsgStore.bucket, SmsgStore.setBucket,
            SmsgStore.file, SecMsgBucket.hashBucket]
        · simp [SmsgStore.file]
        · intro time hne
          constructor
          · simp [SmsgStore.tokens, SmsgStore.bucket, SmsgStore.setBucket, getElem?_insert_eq,
              hne.symm]
          · simp [SmsgStore.file, getElem?_insert_eq, hne.symm]

theorem store_adds {xxh32 : List UInt8 → UInt32} {now : Int} {fUpdateBucket : Bool} {m : Smsg}
    (h : (secureMsgStore xxh32 now fUpdateBucket m s).1 = 0) :
    Adds m s (secureMsgStore xxh32 now fUpdateBucket m s).2 := by
  rcases secureMsgStore_cases xxh32 now fUpdateBucket m s with ⟨hcode, -⟩ | ⟨-, -, hadds⟩
  · rw [h] at hcode
    cases hcode
  · exact hadds

theorem store_same {xxh32 : List UInt8 → UInt32} {now : Int} {fUpdateBucket : Bool} {m : Smsg}
    (h : (secureMsgStore xxh32 now fUpdateBucket m s).1 ≠ 0) :
    SameSlots s (secureMsgStore xxh32 now fUpdateBucket m s).2 := by
  rcases secureMsgStore_cases xxh32 now fUpdateBucket m s with ⟨-, hsame⟩ | ⟨hcode, -⟩
  · exact hsame
  · exact absurd hcode h

/-- The tokens after a message has been added. -/
theorem Adds.mem_token {s' : SmsgStore} {m : Smsg} (h : Adds m s s') (k : TokenKey) :
    k ∈ s'.tokens (bucketOf k.timestamp) ↔
      k = m.token ∨ k ∈ s.tokens (bucketOf k.timestamp) := by
  by_cases hbucket : bucketOf k.timestamp = bucketOf m.header.timestamp
  · rw [hbucket, h.tokens, ExtTreeMap.mem_insert, Std.LawfulEqCmp.compare_eq_iff_eq, eq_comm]
  · rw [(h.others _ hbucket).1]
    have hne : k ≠ m.token := fun heq => hbucket (congrArg (bucketOf ∘ TokenKey.timestamp) heq)
    exact ⟨.inr, fun hmem => hmem.resolve_left hne⟩

end Buckets

def latest (log : List Smsg) (k : TokenKey) : Option Smsg :=
  log.find? fun m => decide (m.token = k)

/-- The slot of a time holds some messages of the log, each under its token. -/
structure Shelf (P : Smsg → Prop) (log : List Smsg) (time : Int) (ms : List Smsg) (file : List UInt8)
    (tokens : TokenSet) : Prop where
  file_eq : file = ms.flatMap Smsg.bytes
  tokens_iff : ∀ k offset, tokens[k]? = some offset ↔ (k, offset) ∈ recorded 0 ms
  nodup : (ms.map Smsg.token).Nodup
  home : ∀ m ∈ ms, P m ∧ bucketOf m.header.timestamp = time
  newest : ∀ m ∈ ms, latest log m.token = some m

/-- Every slot holds messages of the log, all of them with the property. -/
def StoreSound (P : Smsg → Prop) (log : List Smsg) (s : SmsgStore) : Prop :=
  ∀ time, ∃ ms, Shelf P log time ms (s.file time) (s.tokens time)

section Sound

variable {P : Smsg → Prop} {log : List Smsg} {s s' : SmsgStore}

theorem shelf_nil (P : Smsg → Prop) (log : List Smsg) (time : Int) : Shelf P log time [] [] ∅ where
  file_eq := rfl
  tokens_iff k offset := by simp [recorded]
  nodup := List.nodup_nil
  home := nofun
  newest := nofun

theorem Shelf.nil_of_tokens {time : Int} {ms : List Smsg} {file : List UInt8}
    (h : Shelf P log time ms file ∅) : ms = [] := by
  cases ms with
  | nil => rfl
  | cons m ms =>
    have hm := (h.tokens_iff m.token 0).mpr List.mem_cons_self
    simp at hm

theorem Shelf.nil_of_file {time : Int} {ms : List Smsg} {tokens : TokenSet}
    (h : Shelf P log time ms [] tokens) : ms = [] := by
  cases ms with
  | nil => rfl
  | cons m ms =>
    have hlen := congrArg List.length h.file_eq
    have hpos := m.bytes_pos
    rw [List.flatMap_cons, List.length_append, List.length_nil] at hlen
    omega

theorem Shelf.tokens_of_nil {time : Int} {file : List UInt8} {tokens : TokenSet}
    (h : Shelf P log time [] file tokens) : tokens = ∅ := by
  apply ExtTreeMap.ext_getElem?
  intro k
  cases ht : tokens[k]? with
  | none => simp
  | some offset => cases (h.tokens_iff k offset).mp ht

theorem StoreSound.same (h : StoreSound P log s) (hs : SameSlots s s') : StoreSound P log s' := by
  intro time
  obtain ⟨ms, hf⟩ := h time
  refine ⟨ms, ?_⟩
  rw [(hs time).1, (hs time).2]
  exact hf

theorem Shelf.absent {time : Int} {ms : List Smsg} {file : List UInt8} {tokens : TokenSet}
    (h : Shelf P log time ms file tokens) {k : TokenKey} (hk : k ∉ tokens) :
    k ∉ ms.map Smsg.token := by
  rw [← recorded_keys 0 ms]
  intro hmem
  obtain ⟨⟨k, offset⟩, hrec, rfl⟩ := List.mem_map.mp hmem
  have hsome := (h.tokens_iff _ offset).mpr hrec
  exact hk (ExtTreeMap.mem_iff_isSome_getElem?.mpr (by rw [hsome]; rfl))

theorem Shelf.newer {time : Int} {ms : List Smsg} {file : List UInt8} {tokens : TokenSet}
    (h : Shelf P log time ms file tokens) {m : Smsg} (hm : m.token ∉ ms.map Smsg.token) :
    Shelf P (m :: log) time ms file tokens where
  file_eq := h.file_eq
  tokens_iff := h.tokens_iff
  nodup := h.nodup
  home := h.home
  newest m' hm' := by
    have hne : m.token ≠ m'.token := fun heq => hm (heq ▸ List.mem_map_of_mem hm')
    rw [latest, List.find?_cons_of_neg (by simpa using hne)]
    exact h.newest m' hm'

/-- The new message goes to the end of its shelf. -/
theorem Shelf.add {m : Smsg} {ms : List Smsg} (ha : Adds m s s') (hm : P m)
    (h : Shelf P log (bucketOf m.header.timestamp) ms (s.file (bucketOf m.header.timestamp))
      (s.tokens (bucketOf m.header.timestamp))) :
    Shelf P (m :: log) (bucketOf m.header.timestamp) (ms ++ [m])
      (s'.file (bucketOf m.header.timestamp)) (s'.tokens (bucketOf m.header.timestamp)) := by
  have habsent := h.absent ha.absent
  have hnewer := h.newer habsent
  refine ⟨?_, ?_, ?_, ?_, ?_⟩
  · rw [ha.file, h.file_eq, List.flatMap_append, List.flatMap_singleton]
  · intro k offset
    rw [ha.tokens, getElem?_insert_eq, recorded_append, List.mem_append, ← h.tokens_iff,
      h.file_eq]
    split
    · rename_i hk
      subst hk
      have hnone : (s.tokens (bucketOf m.header.timestamp))[m.token]? = none :=
        ExtTreeMap.getElem?_eq_none ha.absent
      simp [recorded, hnone, eq_comm]
    · rename_i hk
      simp [recorded, Ne.symm hk]
  · rw [List.map_append, List.map_singleton]
    exact List.nodup_append.mpr ⟨h.nodup, List.nodup_singleton _, fun a hx b hy heq =>
      habsent (List.mem_singleton.mp hy ▸ heq ▸ hx)⟩
  · intro m' hm'
    rcases List.mem_append.mp hm' with hm' | hm'
    · exact h.home m' hm'
    · rw [List.mem_singleton.mp hm']
      exact ⟨hm, rfl⟩
  · intro m' hm'
    rcases List.mem_append.mp hm' with hm' | hm'
    · exact hnewer.newest m' hm'
    · rw [List.mem_singleton.mp hm', latest, List.find?_cons_of_pos (by simp)]

theorem Shelf.add_other {m : Smsg} {time : Int} {ms : List Smsg} (ha : Adds m s s')
    (ht : time ≠ bucketOf m.header.timestamp) (h : Shelf P log time ms (s.file time) (s.tokens time)) :
    Shelf P (m :: log) time ms (s'.file time) (s'.tokens time) := by
  obtain ⟨htokens, hfile⟩ := ha.others time ht
  rw [htokens, hfile]
  refine h.newer fun hmem => ?_
  obtain ⟨m', hm', heq⟩ := List.mem_map.mp hmem
  have htime : m'.header.timestamp = m.header.timestamp := congrArg TokenKey.timestamp heq
  rw [← htime, (h.home m' hm').2] at ht
  exact ht rfl

theorem StoreSound.add {m : Smsg} (h : StoreSound P log s) (ha : Adds m s s')
    (hm : P m) : StoreSound P (m :: log) s' := by
  intro time
  obtain ⟨ms, hf⟩ := h time
  by_cases ht : time = bucketOf m.header.timestamp
  · subst ht
    exact ⟨ms ++ [m], hf.add ha hm⟩
  · exact ⟨ms, hf.add_other ha ht⟩

theorem bucketOf_bounds {timestamp : Int} (h : 0 ≤ timestamp) :
    bucketOf timestamp ≤ timestamp ∧ timestamp < bucketOf timestamp + SMSG_BUCKET_LEN := by
  have hlen : SMSG_BUCKET_LEN = 600 := rfl
  unfold bucketOf
  rw [Int.tmod_eq_emod_of_nonneg h, hlen]
  omega

/-- Where the bucket of a message lies. -/
theorem bucketOf_near {timestamp : Int} (h : InInt64 timestamp) :
    SMSG_BUCKET_LEN ∣ bucketOf timestamp ∧ InInt64 (bucketOf timestamp) ∧
      timestamp - (SMSG_BUCKET_LEN - 1) ≤ bucketOf timestamp ∧
      (bucketOf timestamp ≤ timestamp ∨ bucketOf timestamp ≤ 0) := by
  have hlen : SMSG_BUCKET_LEN = 600 := rfl
  obtain ⟨hlow, hhigh⟩ := h
  unfold bucketOf InInt64
  rw [hlen]
  rcases Int.le_total 0 timestamp with hpos | hneg
  · rw [Int.tmod_eq_emod_of_nonneg hpos]
    exact ⟨by omega, by omega, by omega, by omega⟩
  · have hneg' := Int.neg_tmod timestamp 600
    rw [Int.tmod_eq_emod_of_nonneg (by omega)] at hneg'
    exact ⟨by omega, by omega, by omega, by omega⟩

/-- A token in memory leads to the newest message that was stored under it. -/
theorem StoreSound.retrieve (h : StoreSound P log s) {time : Int} {k : TokenKey} {offset : Nat}
    (hk : (s.tokens time)[k]? = some offset) :
    ∃ m, P m ∧ m.token = k ∧ bucketOf k.timestamp = time ∧ latest log k = some m ∧
      secureMsgRetrieve s k.timestamp offset = some m.bytes := by
  obtain ⟨ms, hf⟩ := h time
  obtain ⟨pre, m, post, rfl, rfl, rfl⟩ := mem_recorded ((hf.tokens_iff k offset).mp hk)
  have hm : m ∈ pre ++ m :: post := List.mem_append_right _ List.mem_cons_self
  refine ⟨m, (hf.home m hm).1, rfl, (hf.home m hm).2, hf.newest m hm, ?_⟩
  have hfile := hf.file_eq
  rw [List.flatMap_append, List.flatMap_cons] at hfile
  have hkey : bucketOf m.token.timestamp = time := (hf.home m hm).2
  have hread := readFile_append (pre.flatMap Smsg.bytes) (post.flatMap Smsg.bytes) m
  rw [← hfile] at hread
  unfold secureMsgRetrieve
  rw [hkey, Nat.zero_add]
  cases hsome : s.files[time]? with
  | none =>
    have hlen := congrArg List.length hfile
    have hpos := m.bytes_pos
    simp only [SmsgStore.file, hsome, Option.getD_none, List.length_nil, List.length_append] at hlen
    omega
  | some file =>
    have heq : s.file time = file := by simp [SmsgStore.file, hsome]
    simp only
    rw [← heq, hread]
    rfl

end Sound

section Calls

variable {xxh32 : List UInt8 → UInt32} {lib : SmsgLib} {now : Int} {P : Smsg → Prop}
  {log : List Smsg} {s : SmsgStore}

theorem InWindow.nonneg {m : Smsg} (h : InWindow now m) (hnow : SMSG_RETENTION ≤ now) :
    0 ≤ m.header.timestamp := by
  have hold := h.1
  omega

theorem tokens_of_some {time : Int} {b : SecMsgBucket} (hb : s.smsgBuckets[time]? = some b) :
    s.tokens time = b.setTokens := by
  simp [SmsgStore.tokens, SmsgStore.bucket, hb]

def bunchMessages (lib : SmsgLib) (vchData : List UInt8) (beyond : Nat → UInt8) :
    Nat → Nat → List Smsg
  | 0, _ => []
  | rounds + 1, n =>
    if n ≤ vchData.length ∧ vchData.length - n < SMSG_HDR_LEN then []
    else
      let m := smsgAt vchData beyond n
      if secureMsgValidate lib m ≠ 0 then []
      else m :: bunchMessages lib vchData beyond rounds (n + SMSG_HDR_LEN + m.payload.length)

def storeUntil (xxh32 : List UInt8 → UInt32) (now : Int) :
    SmsgStore → List Smsg → List Smsg × SmsgStore
  | s, [] => ([], s)
  | s, m :: ms =>
    match secureMsgStore xxh32 now false m s with
    | (0, s) => (m :: (storeUntil xxh32 now s ms).1, (storeUntil xxh32 now s ms).2)
    | (_ + 1, s) => ([], s)

theorem storeUntil_stored {m : Smsg} (h : (secureMsgStore xxh32 now false m s).1 = 0)
    (ms : List Smsg) :
    storeUntil xxh32 now s (m :: ms) =
      (m :: (storeUntil xxh32 now (secureMsgStore xxh32 now false m s).2 ms).1,
        (storeUntil xxh32 now (secureMsgStore xxh32 now false m s).2 ms).2) := by
  have hpair : secureMsgStore xxh32 now false m s =
      (0, (secureMsgStore xxh32 now false m s).2) := Prod.ext h rfl
  rw [storeUntil, hpair]

theorem storeUntil_refused {m : Smsg} (h : (secureMsgStore xxh32 now false m s).1 = 1)
    (ms : List Smsg) :
    storeUntil xxh32 now s (m :: ms) = ([], (secureMsgStore xxh32 now false m s).2) := by
  have hpair : secureMsgStore xxh32 now false m s =
      (1, (secureMsgStore xxh32 now false m s).2) := Prod.ext h rfl
  rw [storeUntil, hpair]

/-- What storing one message preserves, storing a list of messages does. -/
theorem storeUntil_preserves {P : SmsgStore → Prop} (ms : List Smsg)
    (hstep : ∀ m ∈ ms, ∀ s, P s → P (secureMsgStore xxh32 now false m s).2) (h : P s) :
    P (storeUntil xxh32 now s ms).2 := by
  induction ms generalizing s with
  | nil => exact h
  | cons m ms ih =>
    have hstore := hstep m List.mem_cons_self s h
    rcases secureMsgStore_cases xxh32 now false m s with ⟨hcode, -⟩ | ⟨hcode, -, -⟩
    · rw [storeUntil_refused hcode]
      exact hstore
    · rw [storeUntil_stored hcode]
      exact ih (fun m' hm' => hstep m' (List.mem_cons_of_mem _ hm')) hstore

variable (xxh32 now s) in
/-- A message that is not valid keeps the loop where it is. -/
theorem receiveLoop_invalid {vchData : List UInt8} {beyond : Nat → UInt8} {n : Nat}
    (hinvalid : secureMsgValidate lib (smsgAt vchData beyond n) ≠ 0) (rounds : Nat) :
    (receiveLoop xxh32 now lib vchData beyond rounds n s).scanned = [] ∧
      (receiveLoop xxh32 now lib vchData beyond rounds n s).store = s := by
  induction rounds with
  | zero => exact ⟨rfl, rfl⟩
  | succ rounds ih =>
    unfold receiveLoop
    simp only [if_pos hinvalid]
    split
    · exact ⟨rfl, rfl⟩
    · exact ih

variable (xxh32 lib now) in
/-- What the loop stores is stored message by message. -/
theorem receiveLoop_eq (vchData : List UInt8) (beyond : Nat → UInt8) (rounds n : Nat)
    (s : SmsgStore) :
    ((receiveLoop xxh32 now lib vchData beyond rounds n s).scanned,
        (receiveLoop xxh32 now lib vchData beyond rounds n s).store) =
      storeUntil xxh32 now s (bunchMessages lib vchData beyond rounds n) := by
  induction rounds generalizing n s with
  | zero => rfl
  | succ rounds ih =>
    by_cases hshort : n ≤ vchData.length ∧ vchData.length - n < SMSG_HDR_LEN
    · unfold receiveLoop bunchMessages
      simp only [if_pos hshort]
      rfl
    · by_cases hvalid : secureMsgValidate lib (smsgAt vchData beyond n) ≠ 0
      · obtain ⟨hscanned, hstore⟩ := receiveLoop_invalid xxh32 now s
          hvalid (rounds + 1)
        rw [hscanned, hstore]
        unfold bunchMessages
        simp only [if_neg hshort, if_pos hvalid]
        rfl
      · unfold receiveLoop bunchMessages
        simp only [if_neg hshort, if_neg hvalid, storeUntil]
        rcases secureMsgStore xxh32 now false (smsgAt vchData beyond n) s with ⟨code, s'⟩
        cases code with
        | zero => simp only [← ih]
        | succ code => rfl

theorem bunchMessages_valid (vchData : List UInt8) (beyond : Nat → UInt8) (rounds n : Nat) :
    ∀ m ∈ bunchMessages lib vchData beyond rounds n, secureMsgValidate lib m = 0 := by
  induction rounds generalizing n with
  | zero => nofun
  | succ rounds ih =>
    unfold bunchMessages
    simp only
    split
    · nofun
    · split
      · nofun
      · rename_i hvalid
        intro m hm
        rcases List.mem_cons.mp hm with rfl | hm
        · exact not_not.mp hvalid
        · exact ih _ m hm

variable (xxh32) in
/-- The messages that are stored are added to the log, in their order. -/
theorem storeUntil_sound (ms : List Smsg) (hP : ∀ m ∈ ms, InWindow now m → P m)
    (h : StoreSound P log s) :
    StoreSound P ((storeUntil xxh32 now s ms).1.reverse ++ log) (storeUntil xxh32 now s ms).2 := by
  induction ms generalizing log s with
  | nil => exact h
  | cons m ms ih =>
    rcases secureMsgStore_cases xxh32 now false m s with
      ⟨hcode, hsame⟩ | ⟨hcode, hwindow, hadds⟩
    · rw [storeUntil_refused hcode]
      exact h.same hsame
    · have hrest := ih (fun m' hm' => hP m' (List.mem_cons_of_mem _ hm'))
        (h.add hadds (hP m List.mem_cons_self hwindow))
      rw [storeUntil_stored hcode]
      simp only [List.reverse_cons, List.append_assoc, List.singleton_append]
      exact hrest

theorem secureMsgReceive_sound (hP : ∀ m, secureMsgValidate lib m = 0 → InWindow now m → P m)
    (vchData : List UInt8)
    (beyond : Nat → UInt8) (h : StoreSound P log s) :
    StoreSound P ((secureMsgReceive xxh32 now lib vchData beyond s).scanned.reverse ++ log)
      (secureMsgReceive xxh32 now lib vchData beyond s).store := by
  unfold secureMsgReceive
  simp only
  split
  · exact h
  · split
    · exact h
    · split
      · exact h
      · split
        · exact h.same (updateBucket_sameSlots _ fun _ => rfl)
        · have hloop := storeUntil_sound xxh32
            (bunchMessages lib vchData beyond (leValue (slice vchData 0 4)) 12)
            (fun m hm => hP m (bunchMessages_valid vchData beyond _ _ m hm)) h
          rw [← receiveLoop_eq] at hloop
          exact hloop.same (updateBucket_sameSlots _ fun _ => rfl)

theorem tick_setTokens (b : SecMsgBucket) : b.tick.setTokens = b.setTokens := by
  unfold SecMsgBucket.tick
  repeat' split
  all_goals rfl

theorem expiryPass_bucket (now : Int) (s : SmsgStore) (time : Int) :
    (expiryPass now s).1.smsgBuckets[time]? =
      if now - SMSG_RETENTION ≤ time then (s.smsgBuckets[time]?).map SecMsgBucket.tick
      else none := by
  simp only [expiryPass, ExtTreeMap.getElem?_map, ExtTreeMap.getElem?_filter']
  cases s.smsgBuckets[time]? with
  | none => simp
  | some b => split <;> rename_i h <;> simp [Option.filter, h]

theorem expiryPass_tokens (time : Int) :
    (expiryPass now s).1.tokens time =
      if now - SMSG_RETENTION ≤ time then s.tokens time else ∅ := by
  unfold SmsgStore.tokens SmsgStore.bucket
  rw [expiryPass_bucket]
  split
  · cases s.smsgBuckets[time]? with
    | none => rfl
    | some b => exact tick_setTokens b
  · rfl

theorem expiryPass_file (time : Int) :
    (expiryPass now s).1.file time =
      if time < now - SMSG_RETENTION ∧ time ∈ s.smsgBuckets then [] else s.file time := by
  unfold SmsgStore.file
  simp only [expiryPass, ExtTreeMap.getElem?_filter']
  cases s.files[time]? with
  | none => simp
  | some file =>
    by_cases h : time < now - SMSG_RETENTION ∧ time ∈ s.smsgBuckets <;> simp [Option.filter, h]

theorem StoreSound.expiryPass (h : StoreSound P log s) :
    StoreSound P log (expiryPass now s).1 := by
  intro time
  obtain ⟨ms, hf⟩ := h time
  rw [expiryPass_tokens, expiryPass_file]
  by_cases hlive : now - SMSG_RETENTION ≤ time
  · rw [if_pos hlive, if_neg (by omega)]
    exact ⟨ms, hf⟩
  · rw [if_neg hlive]
    refine ⟨[], ?_⟩
    split
    · exact shelf_nil P log time
    · rename_i hkept
      have hnot : time ∉ s.smsgBuckets := fun hmem => hkept ⟨by omega, hmem⟩
      have htokens : s.tokens time = ∅ := by
        simp [SmsgStore.tokens, SmsgStore.bucket, ExtTreeMap.getElem?_eq_none hnot]
      rw [htokens] at hf
      rw [hf.file_eq, hf.nil_of_tokens]
      exact shelf_nil P log time

def SmsgStore.slot (s : SmsgStore) (time : Int) : TokenSet × List UInt8 := (s.tokens time, s.file time)

/-- A pass over the directory does to each slot that has a file what its round does there. -/
theorem foldl_files {γ : Type} (get : SmsgStore → Int → γ)
    (step : SmsgStore → Int × List UInt8 → SmsgStore) {g : Int × List UInt8 → γ → γ}
    (hframe : ∀ s p time, time ≠ p.1 → get (step s p) time = get s time)
    (hslot : ∀ s p, get (step s p) p.1 = g p (get s p.1)) (s : SmsgStore) (time : Int) :
    get (s.files.toList.foldl step s) time =
      match s.files[time]? with
      | none => get s time
      | some file => g (time, file) (get s time) := by
  obtain ⟨hround, hnone⟩ := foldl_slot get step g hframe hslot s.files.toList (toList_keys_nodup s.files) s
    time
  cases hfile : s.files[time]? with
  | none =>
    refine hnone fun hmem => ?_
    obtain ⟨⟨k, file⟩, hp, rfl⟩ := List.mem_map.mp hmem
    rw [ExtTreeMap.mem_toList_iff_getElem?_eq_some.mp hp] at hfile
    cases hfile
  | some file => exact hround _ (ExtTreeMap.mem_toList_iff_getElem?_eq_some.mpr hfile) rfl

theorem slot_setBucket (s : SmsgStore) (time t : Int) (b : SecMsgBucket) :
    (s.setBucket time b).slot t = if time = t then (b.setTokens, s.file t) else s.slot t := by
  unfold SmsgStore.slot SmsgStore.tokens
  rw [bucket_setBucket]
  split <;> rfl

theorem slot_erase (s : SmsgStore) (time t : Int) :
    ({ s with files := s.files.erase time } : SmsgStore).slot t =
      if time = t then (s.tokens t, []) else s.slot t := by
  unfold SmsgStore.slot SmsgStore.tokens SmsgStore.file SmsgStore.bucket
  simp only [ExtTreeMap.getElem?_erase, Std.LawfulEqCmp.compare_eq_iff_eq]
  split <;> rfl

theorem buildBucketSet_slot (xxh32 : List UInt8 → UInt32) (now : Int) (s : SmsgStore) (time : Int) :
    (secureMsgBuildBucketSet xxh32 now s).slot time =
      match s.files[time]? with
      | none => s.slot time
      | some file =>
        if time < now - SMSG_RETENTION then (s.tokens time, [])
        else (scanTokens file file.length 0 (s.tokens time), file) := by
  have hfold := foldl_files SmsgStore.slot (buildBucket xxh32 now)
    (g := fun p slot => if p.1 < now - SMSG_RETENTION then (slot.1, [])
      else (scanTokens p.2 p.2.length 0 slot.1, slot.2)) ?_ ?_ s time
  · rw [secureMsgBuildBucketSet, hfold]
    cases hfile : s.files[time]? with
    | none => rfl
    | some file =>
      have heq : s.file time = file := by simp [SmsgStore.file, hfile]
      simp only [SmsgStore.slot, heq]
  · intro s p t hne
    unfold buildBucket
    split
    · rw [slot_erase, if_neg hne.symm]
    · rw [slot_setBucket, if_neg hne.symm]
  · intro s p
    unfold buildBucket
    split
    · rw [slot_erase, if_pos rfl]
      rfl
    · rw [slot_setBucket, if_pos rfl]
      rfl

/-- A scan takes every file and no token. -/
theorem scanBuckets_slot (fSecMsgEnabled fLocked : Bool)
    (hscan : (!fSecMsgEnabled || fLocked) = false) (now : Int) (s : SmsgStore) (time : Int) :
    (secureMsgScanBuckets now fSecMsgEnabled fLocked s).2.slot time = (s.tokens time, []) := by
  have hfold := foldl_files SmsgStore.slot (fun s p => { s with files := s.files.erase p.1 })
    (g := fun p slot => (slot.1, [])) ?_ ?_ s time
  · rw [secureMsgScanBuckets, if_neg (by simp [hscan]), hfold]
    cases hfile : s.files[time]? with
    | none => simp [SmsgStore.slot, SmsgStore.file, hfile]
    | some file => rfl
  · intro s p t hne
    rw [slot_erase, if_neg hne.symm]
  · intro s p
    rw [slot_erase, if_pos rfl]
    rfl

end Calls

end Triangles
