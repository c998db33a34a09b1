import Triangles.Lib.Assoc
import Triangles.Lib.Slots
import Triangles.Model.SendQueue
import Triangles.Proofs.SealedMessage

/-! The send queue: when the database holds one record for each message that was sent, and when the
proof-of-work thread takes them in the order of their times. The key of a record has the time with
its lowest byte first and the address of a buffer. -/

namespace Triangles

open Std (ExtTreeMap)
open KeyOrder Slots

/-! The order of keys. -/

section Keys

theorem compare_append : ∀ {a b : List UInt8}, a.length = b.length → a ≠ b → ∀ x y,
    compare (a ++ x) (b ++ y) = compare a b
  | [], [], _, hne, _, _ => absurd rfl hne
  | c :: a, d :: b, hlen, hne, x, y => by
    rw [List.cons_append, List.cons_append, compare_cons, compare_cons]
    cases hcd : compare c d with
    | lt => rfl
    | gt => rfl
    | eq =>
      obtain rfl := Std.LawfulEqOrd.eq_of_compare hcd
      have hrest : a ≠ b := fun h => hne (by rw [h])
      exact compare_append (by simpa using hlen) hrest x y

theorem signedBytes_inj {a b : Int} (ha : InInt64 a) (hb : InInt64 b)
    (h : signedBytes 8 a = signedBytes 8 b) : a = b := by
  rw [← int64Of_signedBytes ha, ← int64Of_signedBytes hb, h]

end Keys

/-! Calls. -/

namespace SendCall

variable {lib : SenderLib}

def text (call : SendCall lib) : List UInt8 :=
  match call.encrypted with
  | .ok r => r.1.bytes ++ r.2
  | .error _ => []

def timeBytes (call : SendCall lib) : List UInt8 := signedBytes 8 call.chance.now

def key (call : SendCall lib) : List UInt8 :=
  queuePrefix ++ (call.timeBytes ++ wordBytes 8 call.chance.pPayload.toNat)

def stored (call : SendCall lib) : SecMsgStored where
  timeReceived := call.chance.timeReceived
  status := call.chance.status
  folderId := call.chance.folderId
  sAddrTo := call.addressTo
  sAddrOutbox := []
  vchMessage := call.text

def entries (calls : List (SendCall lib)) : List (List UInt8 × SecMsgStored) :=
  (calls.filter fun call => call.chance.fWritten).map fun call => (call.key, call.stored)

theorem key_length (call : SendCall lib) : call.key.length = 18 := by
  simp [key, timeBytes, queuePrefix, signedBytes_length]

theorem key_prefix (call : SendCall lib) : call.key.take 2 = queuePrefix := rfl

theorem key_inj {a b : SendCall lib} (h : a.key = b.key) :
    (a.chance.now, a.chance.pPayload) = (b.chance.now, b.chance.pPayload) := by
  have hrest := List.append_cancel_left h
  obtain ⟨htime, haddress⟩ := List.append_inj hrest (by
    rw [timeBytes, timeBytes, signedBytes_length, signedBytes_length])
  have hnow := signedBytes_inj a.chance.now_range b.chance.now_range htime
  have hvalue := congrArg leValue haddress
  rw [leValue_wordBytes, leValue_wordBytes,
    Nat.mod_eq_of_lt (b := 256 ^ 8) a.chance.pPayload.toNat_lt,
    Nat.mod_eq_of_lt (b := 256 ^ 8) b.chance.pPayload.toNat_lt] at hvalue
  rw [hnow, UInt64.toNat_inj.mp hvalue]

theorem key_congr {a b : SendCall lib}
    (h : (a.chance.now, a.chance.pPayload) = (b.chance.now, b.chance.pPayload)) :
    a.key = b.key := by
  obtain ⟨hnow, haddress⟩ := Prod.mk.inj h
  unfold key timeBytes
  rw [hnow, haddress]

/-- The header that encrypting makes has the time of the call. -/
theorem encrypted_time {call : SendCall lib} {r : SmsgHeader × List UInt8}
    (h : call.encrypted = .ok r) : slice r.1.bytes 7 8 = call.timeBytes := by
  unfold encrypted secureMsgEncrypt at h
  simp only [Outcome.bind_ok, Outcome.check_ok] at h
  obtain ⟨-, -, sender, -, ckidDest, -, cpkDestK, -, keys, -, data, -, vchPayload, -, h⟩ := h
  split at h
  · cases h
  · obtain ⟨-, mac, hmac, -, hbytes⟩ := sealMessage_ok h
    rw [hbytes]
    exact (packHeader_fields call.chance.toEncryptChance (lib.i2o_length true _) hmac _).2.1

theorem stored_timestamp {call : SendCall lib} {r : SmsgHeader × List UInt8}
    (h : call.encrypted = .ok r) : call.stored.timestamp = call.chance.now := by
  have hslice : slice call.stored.vchMessage 7 8 = slice r.1.bytes 7 8 := by
    have hlen := r.1.length
    unfold SMSG_HDR_LEN at hlen
    unfold stored text
    rw [h]
    unfold slice
    rw [List.drop_append_of_le_length (by omega), List.take_append_of_le_length]
    rw [List.length_drop]
    omega
  unfold SecMsgStored.timestamp
  rw [hslice, encrypted_time h]
  exact int64Of_signedBytes call.chance.now_range

/-- The copy for the outbox has a key of its own. -/
theorem sendCopy_queue {call : SendCall lib} {db db' : SendDb}
    (h : call.sendCopy db = (.ok (), db')) {k : List UInt8} (hk : k.take 2 = queuePrefix) :
    db'[k]? = db[k]? := by
  unfold sendCopy at h
  split at h
  · rw [(Prod.mk.inj h).2]
  · split at h
    · rw [(Prod.mk.inj h).2]
    · cases (Prod.mk.inj h).1
    · split at h
      · cases (Prod.mk.inj h).1
      · obtain rfl := (Prod.mk.inj h).2
        unfold writeSmesg
        split
        · rw [getElem?_insert_eq, if_neg]
          intro heq
          rw [← heq] at hk
          have hne : sentPrefix ≠ queuePrefix := by decide
          exact hne hk
        · rfl

/-- What a call that returns 0 does to the queue. -/
theorem send_queue {call : SendCall lib} {db db' : SendDb}
    (h : call.secureMsgSend db = (.ok (), db')) :
    (∃ r, call.encrypted = .ok r) ∧ ∀ k : List UInt8, k.take 2 = queuePrefix →
      db'[k]? = ((entries [call]).foldl (fun m p => m.insert p.1 p.2) db)[k]? := by
  unfold secureMsgSend at h
  split at h
  · cases (Prod.mk.inj h).1
  · split at h
    · cases (Prod.mk.inj h).1
    · split at h
      · cases (Prod.mk.inj h).1
      · rename_i r hr
        split at h
        · cases (Prod.mk.inj h).1
        · refine ⟨⟨r, hr⟩, fun k hk => ?_⟩
          have hkey : recordKey queuePrefix r.1 call.chance.pPayload = call.key := by
            rw [recordKey, encrypted_time hr]
            rfl
          have hstored : storedMessage call.chance call.addressTo [] r = call.stored := by
            unfold storedMessage stored text
            rw [hr]
          rw [sendCopy_queue h hk, hkey, hstored]
          unfold writeSmesg entries
          cases hw : call.chance.fWritten with
          | true => simp [hw]
          | false => simp [hw]

theorem entries_cons (call : SendCall lib) (calls : List (SendCall lib)) :
    entries (call :: calls) = entries [call] ++ entries calls := by
  unfold entries
  rw [← List.map_append, ← List.filter_append]
  rfl

/-- What a run of calls that return 0 does to the queue. -/
theorem sendAll_queue {calls : List (SendCall lib)} {db db' : SendDb} (h : sendAll calls db = .ok db') :
    (∀ call ∈ calls, ∃ r, call.encrypted = .ok r) ∧ ∀ k : List UInt8, k.take 2 = queuePrefix →
      db'[k]? = ((entries calls).foldl (fun m p => m.insert p.1 p.2) db)[k]? := by
  induction calls generalizing db with
  | nil =>
    unfold sendAll at h
    obtain rfl := Except.ok.inj h
    exact ⟨fun _ hcall => (List.not_mem_nil hcall).elim, fun _ _ => rfl⟩
  | cons call calls ih =>
    unfold sendAll at h
    split at h
    · cases h
    · rename_i db₁ hsend
      obtain ⟨hcall, hone⟩ := send_queue hsend
      obtain ⟨hcalls, hrest⟩ := ih h
      refine ⟨List.forall_mem_cons.mpr ⟨hcall, hcalls⟩, fun k hk => ?_⟩
      rw [hrest k hk, entries_cons, List.foldl_append]
      exact getElem?_foldl_insert_congr _ (hone k hk)

end SendCall

/-! The queue in the database. -/

def queued (db : SendDb) : List (List UInt8 × SecMsgStored) :=
  db.toList.filter (hasPrefix queuePrefix)

def EmptyQueue (db : SendDb) : Prop := ∀ k : List UInt8, k.take 2 = queuePrefix → db[k]? = none

/-- Nothing is lost and nothing reordered: there is one record for each call, with its message, and
a pass of the proof-of-work thread visits the records in the order of their times. -/
structure QueueKept {lib : SenderLib} (pow : SecMsgStored → Nat) (calls : List (SendCall lib))
    (db : SendDb) : Prop where
  one_each : ((queued db).map fun e => e.2.vchMessage).Perm (calls.map SendCall.text)
  visits : (powPass pow db).1 = queued db
  in_order : ((powPass pow db).1.map fun e => e.2.timestamp).Pairwise (· ≤ ·)

section Queue

variable {lib : SenderLib} {calls : List (SendCall lib)} {db db' : SendDb}

theorem queued_sorted (db : SendDb) :
    (queued db).Pairwise fun a b => compare a.1 b.1 = .lt := by
  exact (ExtTreeMap.ordered_keys_toList (t := db)).filter _

theorem queued_keys_nodup (db : SendDb) : ((queued db).map Prod.fst).Nodup :=
  (toList_keys_nodup db).sublist (List.filter_sublist.map _)

theorem hasPrefix_iff {e : List UInt8 × SecMsgStored} :
    hasPrefix queuePrefix e = true ↔ e.1.length = 18 ∧ e.1.take 2 = queuePrefix := by
  unfold hasPrefix
  rw [Bool.and_eq_true, beq_iff_eq, beq_iff_eq]
  rfl

theorem mem_queued {e : List UInt8 × SecMsgStored} :
    e ∈ queued db ↔ db[e.1]? = some e.2 ∧ hasPrefix queuePrefix e = true := by
  unfold queued
  rw [List.mem_filter, ← ExtTreeMap.mem_toList_iff_getElem?_eq_some]

/-- A record of the queue after a run is what a call put there. -/
theorem queued_entry (hempty : EmptyQueue db) (h : SendCall.sendAll calls db = .ok db')
    {e : List UInt8 × SecMsgStored} (he : e ∈ queued db') : e ∈ SendCall.entries calls := by
  obtain ⟨hget, hprefix⟩ := mem_queued.mp he
  have hk := (hasPrefix_iff.mp hprefix).2
  rw [(SendCall.sendAll_queue h).2 e.1 hk] at hget
  rcases getElem?_foldl_insert_some _ db hget with hold | hnew
  · rw [hempty e.1 hk] at hold
    cases hold
  · exact hnew

/-- With distinct keys every record that a call put into the queue is there. -/
theorem entry_queued (h : SendCall.sendAll calls db = .ok db')
    (hkeys : ((SendCall.entries calls).map Prod.fst).Nodup) {e : List UInt8 × SecMsgStored}
    (he : e ∈ SendCall.entries calls) : e ∈ queued db' := by
  obtain ⟨call, -, rfl⟩ := List.mem_map.mp he
  rw [mem_queued]
  refine ⟨?_, ?_⟩
  · rw [(SendCall.sendAll_queue h).2 call.key call.key_prefix]
    exact getElem?_foldl_insert_mem _ hkeys db he
  · exact hasPrefix_iff.mpr ⟨call.key_length, call.key_prefix⟩

/-! A pass over the queue. -/

/-- Past the first record the loop goes on as long as the keys have the prefix. -/
theorem powLoop_rest {pow : SecMsgStored → Nat} (hpow : ∀ smsg, pow smsg ≠ 2)
    (entries rest : List (List UInt8 × SecMsgStored)) : ∀ {rounds : Nat} (e) (db : SendDb),
    rest.length < rounds →
    (powLoop pow rounds ⟨entries, e :: rest⟩ db).1 = rest.takeWhile (hasPrefix queuePrefix) := by
  induction rest with
  | nil =>
    intro rounds e db hr
    obtain ⟨n, rfl⟩ : ∃ n, rounds = n + 1 := ⟨rounds - 1, by omega⟩
    rfl
  | cons e' rest ih =>
    intro rounds e db hr
    obtain ⟨n, rfl⟩ : ∃ n, rounds = n + 1 := ⟨rounds - 1, by omega⟩
    rw [List.length_cons] at hr
    unfold powLoop nextSmesg
    simp only [List.isEmpty_cons, Bool.false_eq_true, if_false, List.tail_cons]
    cases hp : hasPrefix queuePrefix e' with
    | false => rw [List.takeWhile_cons_of_neg (by rw [hp]; decide)]; rfl
    | true =>
      simp only [if_true, if_neg (hpow e'.2)]
      rw [ih e' (db.erase e'.1) (by omega), List.takeWhile_cons_of_pos hp]

/-- The keys of a database that start as those of the queue do have 18 bytes. -/
def KeysWhole (db : SendDb) : Prop :=
  ∀ (k : List UInt8) (v : SecMsgStored), db[k]? = some v → k.take 2 = queuePrefix → k.length = 18

/-- A pass that is not stopped visits the queue. -/
theorem powPass_visits {pow : SecMsgStored → Nat} (hpow : ∀ smsg, pow smsg ≠ 2)
    (hwhole : KeysWhole db) : (powPass pow db).1 = queued db := by
  have hsought : (db.toList.dropWhile fun e => compare e.1 queuePrefix == .lt).takeWhile
      (hasPrefix queuePrefix) = queued db := by
    apply takeWhile_dropWhile_filter
    · intro a _ hbefore
      rw [beq_iff_eq] at hbefore
      rw [← Bool.not_eq_true]
      intro hp
      rw [← List.take_append_drop 2 a.1, (hasPrefix_iff.mp hp).2] at hbefore
      have hnil := compare_append_left queuePrefix (a.1.drop 2) []
      rw [List.append_nil, hbefore] at hnil
      cases hdrop : a.1.drop 2 <;> rw [hdrop] at hnil <;> cases hnil
    · refine (ExtTreeMap.ordered_keys_toList (t := db)).imp_of_mem fun {a b} ha _ hab hqa => ?_
      rw [beq_eq_false_iff_ne] at hqa ⊢
      refine ⟨fun hqb => hqa (Std.TransCmp.lt_trans hab hqb), fun hpb => ?_⟩
      rw [← List.take_append_drop 2 b.1, (hasPrefix_iff.mp hpb).2] at hab
      obtain ⟨x, hx⟩ := prefix_of_between (a := []) (by rwa [List.append_nil]) hab
      have hpa : a.1.take 2 = queuePrefix := by rw [hx]; rfl
      exact hasPrefix_iff.mpr
        ⟨hwhole a.1 a.2 (ExtTreeMap.mem_toList_iff_getElem?_eq_some.mp ha) hpa, hpa⟩
  rw [← hsought]
  unfold powPass newIterator powLoop nextSmesg
  simp only [List.isEmpty_nil, if_true]
  cases hdrop : db.toList.dropWhile fun e => compare e.1 queuePrefix == .lt with
  | nil => rfl
  | cons e rest =>
    have hlen : rest.length < db.toList.length := by
      have hle := List.length_dropWhile_le (fun e => compare e.1 queuePrefix == .lt) db.toList
      rw [hdrop, List.length_cons] at hle
      omega
    simp only
    cases hp : hasPrefix queuePrefix e with
    | false => rw [List.takeWhile_cons_of_neg (by rw [hp]; decide)]; rfl
    | true =>
      simp only [if_true, if_neg (hpow e.2)]
      rw [powLoop_rest hpow _ rest e _ hlen, List.takeWhile_cons_of_pos hp]

/-! What a run needs. -/

/-- Every record is written, no two calls of one second get their payload at one address, and times
are in order as numbers with the lowest byte first. -/
structure Sortable (calls : List (SendCall lib)) : Prop where
  written : ∀ call ∈ calls, call.chance.fWritten = true
  distinct : (calls.map fun call => (call.chance.now, call.chance.pPayload)).Nodup
  ordered : ∀ a ∈ calls, ∀ b ∈ calls, a.chance.now < b.chance.now →
    compare a.timeBytes b.timeBytes = .lt

theorem Sortable.entries_eq (hs : Sortable calls) :
    SendCall.entries calls = calls.map fun call => (call.key, call.stored) := by
  unfold SendCall.entries
  rw [List.filter_eq_self.mpr hs.written]

theorem Sortable.keys_nodup (hs : Sortable calls) :
    ((SendCall.entries calls).map Prod.fst).Nodup := by
  rw [hs.entries_eq, List.map_map]
  have hpairs := List.pairwise_map.mp hs.distinct
  exact List.pairwise_map.mpr (hpairs.imp fun hne hkey => hne (SendCall.key_inj hkey))

/-- Different times decide the order of the keys. -/
theorem key_lt {a b : SendCall lib} (hne : a.chance.now ≠ b.chance.now) :
    compare a.key b.key = compare a.timeBytes b.timeBytes := by
  have hlen : a.timeBytes.length = b.timeBytes.length := by
    rw [SendCall.timeBytes, SendCall.timeBytes, signedBytes_length, signedBytes_length]
  unfold SendCall.key
  rw [compare_append_left]
  exact compare_append hlen
    (fun h => hne (signedBytes_inj a.chance.now_range b.chance.now_range h)) _ _

/-- In a sorted list that is in the order of something, smaller keys come first. -/
theorem ordered_of_sorted {l : List (List UInt8 × SecMsgStored)}
    (hsorted : l.Pairwise fun a b => compare a.1 b.1 = .lt)
    (hordered : l.Pairwise fun a b => a.2.timestamp ≤ b.2.timestamp)
    {x y : List UInt8 × SecMsgStored} (hx : x ∈ l) (hy : y ∈ l) (h : compare x.1 y.1 = .lt) :
    x.2.timestamp ≤ y.2.timestamp := by
  induction l with
  | nil => cases hx
  | cons e l ih =>
    rw [List.pairwise_cons] at hsorted hordered
    rcases List.mem_cons.mp hx with rfl | hxl
    · rcases List.mem_cons.mp hy with rfl | hyl
      · exact Int.le_refl _
      · exact hordered.1 y hyl
    · rcases List.mem_cons.mp hy with rfl | hyl
      · have hback := hsorted.1 x hxl
        rw [Std.OrientedOrd.eq_swap, hback] at h
        cases h
      · exact ih hsorted.2 hordered.2 hxl hyl

/-- As many records as calls: all were written, under different keys. -/
theorem kept_distinct (hempty : EmptyQueue db) (h : SendCall.sendAll calls db = .ok db')
    (hlen : (queued db').length = calls.length) :
    (∀ call ∈ calls, call.chance.fWritten = true) ∧
      ((SendCall.entries calls).map Prod.fst).Nodup := by
  have hsub : (queued db').map Prod.fst ⊆ (SendCall.entries calls).map Prod.fst := by
    intro k hk
    obtain ⟨e, he, rfl⟩ := List.mem_map.mp hk
    exact List.mem_map_of_mem (queued_entry hempty h he)
  have hperm := List.subperm_of_subset (queued_keys_nodup db') hsub
  have hcount : (SendCall.entries calls).length =
      (calls.filter fun call => call.chance.fWritten).length := List.length_map _
  have hfilter := List.length_filter_le (fun call : SendCall lib => call.chance.fWritten) calls
  have hkeys := hperm.perm_of_length_le (by
    rw [List.length_map, List.length_map]
    omega)
  have hall := hperm.length_le
  rw [List.length_map, List.length_map] at hall
  exact ⟨List.length_filter_eq_length_iff.mp (by omega), hkeys.nodup (queued_keys_nodup db')⟩

/-- Sending puts keys of 18 bytes into an empty queue. -/
theorem sendAll_keysWhole (hempty : EmptyQueue db) (h : SendCall.sendAll calls db = .ok db') :
    KeysWhole db' := by
  intro k v hv hk
  rw [(SendCall.sendAll_queue h).2 k hk] at hv
  rcases getElem?_foldl_insert_some _ db hv with hold | hnew
  · rw [hempty k hk] at hold
    cases hold
  · obtain ⟨call, -, heq⟩ := List.mem_map.mp hnew
    rw [← (Prod.mk.inj heq).1]
    exact call.key_length

theorem sendAll_timestamp (h : SendCall.sendAll calls db = .ok db') :
    ∀ call ∈ calls, call.stored.timestamp = call.chance.now := fun call hcall => by
  obtain ⟨r, hr⟩ := (SendCall.sendAll_queue h).1 call hcall
  exact SendCall.stored_timestamp hr

/-- A queue that keeps the messages and their order comes from a sortable run. -/
theorem QueueKept.sortable {pow : SecMsgStored → Nat} (hpow : ∀ smsg, pow smsg ≠ 2)
    (hempty : EmptyQueue db) (h : SendCall.sendAll calls db = .ok db')
    (hkept : QueueKept pow calls db') : Sortable calls := by
  have hvisits := powPass_visits hpow (sendAll_keysWhole hempty h)
  have htime := sendAll_timestamp h
  obtain ⟨hone, -, horder⟩ := hkept
  have hlen := hone.length_eq
  rw [List.length_map, List.length_map] at hlen
  obtain ⟨hwritten, hkeys⟩ := kept_distinct hempty h hlen
  have hentries : SendCall.entries calls = calls.map fun call => (call.key, call.stored) := by
    unfold SendCall.entries
    rw [List.filter_eq_self.mpr hwritten]
  have hmem : ∀ call ∈ calls, (call.key, call.stored) ∈ queued db' := fun call hcall =>
    entry_queued h hkeys (hentries ▸ List.mem_map_of_mem hcall)
  refine ⟨hwritten, ?_, fun a ha b hb hlt => ?_⟩
  · rw [hentries, List.map_map] at hkeys
    refine List.pairwise_map.mpr ((List.pairwise_map.mp hkeys).imp fun hne hpair => hne ?_)
    exact SendCall.key_congr hpair
  · -- an order of bytes against that of the times would turn the queue round
    rw [hvisits, List.pairwise_map] at horder
    have hkey := key_lt (a := a) (b := b) (Int.ne_of_lt hlt)
    cases hcmp : compare a.timeBytes b.timeBytes with
    | lt => rfl
    | eq =>
      have heq := Std.LawfulEqOrd.eq_of_compare hcmp
      have := signedBytes_inj a.chance.now_range b.chance.now_range heq
      omega
    | gt =>
      have hback : compare b.key a.key = .lt := by
        rw [Std.OrientedOrd.eq_swap, hkey, hcmp]
        rfl
      have hle := ordered_of_sorted (queued_sorted db') horder (hmem b hb) (hmem a ha) hback
      rw [htime a ha, htime b hb] at hle
      omega

/-- The queue keeps the messages and the order of a sortable run. -/
theorem Sortable.queueKept {pow : SecMsgStored → Nat} (hpow : ∀ smsg, pow smsg ≠ 2)
    (hempty : EmptyQueue db) (h : SendCall.sendAll calls db = .ok db') (hs : Sortable calls) :
    QueueKept pow calls db' := by
  have hvisits := powPass_visits hpow (sendAll_keysWhole hempty h)
  have htime := sendAll_timestamp h
  have hperm : (queued db').Perm (SendCall.entries calls) := by
    rw [List.perm_ext_iff_of_nodup (queued_keys_nodup db').of_map hs.keys_nodup.of_map]
    exact fun e => ⟨queued_entry hempty h, entry_queued h hs.keys_nodup⟩
  refine ⟨?_, hvisits, ?_⟩
  · have htexts := hperm.map fun e => e.2.vchMessage
    rwa [hs.entries_eq, List.map_map] at htexts
  · rw [hvisits, List.pairwise_map]
    refine (queued_sorted db').imp_of_mem fun {x y} hx hy hxy => ?_
    have hx' := hperm.subset hx
    have hy' := hperm.subset hy
    rw [hs.entries_eq] at hx' hy'
    obtain ⟨a, ha, rfl⟩ := List.mem_map.mp hx'
    obtain ⟨b, hb, rfl⟩ := List.mem_map.mp hy'
    rw [htime a ha, htime b hb]
    by_contra hgt
    have hba := hs.ordered b hb a ha (by omega)
    rw [← key_lt (by omega), Std.OrientedOrd.eq_swap, hxy] at hba
    cases hba

end Queue

/-- The queue keeps the messages of a run and their order exactly when the run is sortable. -/
theorem queue_kept_iff {lib : SenderLib} {pow : SecMsgStored → Nat} (hpow : ∀ smsg, pow smsg ≠ 2)
    (calls : List (SendCall lib)) {db db' : SendDb} (hempty : EmptyQueue db)
    (h : SendCall.sendAll calls db = .ok db') : QueueKept pow calls db' ↔ Sortable calls :=
  ⟨fun hkept => hkept.sortable hpow hempty h, fun hs => hs.queueKept hpow hempty h⟩

namespace Sample

def recordChance (chance : EncryptChance) (pPayload : UInt64) : RecordChance where
  toEncryptChance := chance
  pPayload := pPayload
  timeReceived := chance.now
  status := 0
  folderId := 0
  fWritten := true

def laterChance : EncryptChance :=
  { senderChance with now := 1700000101, now_range := by unfold InInt64; decide }

/-- A text from nobody to the address of key 5, without a copy. -/
def sendCall (chance : EncryptChance) (pPayload : UInt64) (message : List UInt8) :
    SendCall senderLib where
  node := senderNode
  fLocked := false
  addressFrom := anonAddress
  addressTo := addressOfFive
  message := message
  chance := recordChance chance pPayload
  outbox := none

/-- Two texts in one second; the second payload gets the memory that the first one gave back. -/
def sameSecond : List (SendCall senderLib) :=
  [sendCall senderChance 20480 [0x68, 0x69, 0x21], sendCall senderChance 20480 [0x62, 0x79, 0x65]]

def nextSecond : List (SendCall senderLib) :=
  [sendCall senderChance 20480 [0x68, 0x69, 0x21], sendCall laterChance 20480 [0x62, 0x79, 0x65]]

/-- What a run leaves in an empty database. -/
def sentTo (calls : List (SendCall senderLib)) : SendDb :=
  match SendCall.sendAll calls ∅ with
  | .ok db => db
  | .error _ => ∅

theorem sentTo_eq {calls : List (SendCall senderLib)}
    (h : (SendCall.sendAll calls ∅).toOption.isSome = true) :
    SendCall.sendAll calls ∅ = .ok (sentTo calls) := by
  unfold sentTo
  cases hrun : SendCall.sendAll calls ∅ with
  | error e => rw [hrun] at h; cases h
  | ok db => rfl

end Sample

/-- The second text takes the place of the first. -/
theorem same_second_lost :
    SendCall.sendAll Sample.sameSecond ∅ = .ok (Sample.sentTo Sample.sameSecond) ∧
      ¬QueueKept (fun _ => 0) Sample.sameSecond (Sample.sentTo Sample.sameSecond) := by
  refine ⟨Sample.sentTo_eq (by decide), fun h => ?_⟩
  have hlen := h.one_each.length_eq
  rw [List.length_map, List.length_map] at hlen
  have hone : (queued (Sample.sentTo Sample.sameSecond)).length = 1 := by decide
  rw [hone] at hlen
  exact absurd hlen (by decide)

theorem queue_kept_next_second :
    QueueKept (fun _ => 0) Sample.nextSecond (Sample.sentTo Sample.nextSecond) :=
  (queue_kept_iff (fun _ => by decide) Sample.nextSecond (fun _ _ => ExtTreeMap.getElem?_empty)
    (Sample.sentTo_eq (by decide))).mpr
    ⟨by decide, by decide, by decide⟩

end Triangles
