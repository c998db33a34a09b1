import Triangles.Proofs.LevelLog
import Triangles.Proofs.MemTable

/-! Writers in a queue, groups of them committed together, and what a start finds in a log that was
cut anywhere: whole groups, in order. -/

namespace Triangles.LevelDb

def arrivals (events : List WriteEvent) : List (List BatchOp) :=
  events.filterMap fun
    | .arrive changes _ => some changes
    | .write _ => none

def lastChange (changes : List BatchOp) (key : List UInt8) : Option (Option (List UInt8)) :=
  ((changes.filter fun op => op.key = key).getLast?).map BatchOp.value?

/-! What a run asks for: sizes that fit, and heights that the skip list can draw. -/

structure Fits (events : List WriteEvent) : Prop where
  small : ∀ changes ∈ arrivals events, ∀ op ∈ changes, op.Small
  count : ∀ changes ∈ arrivals events, changes.length < 2 ^ 31
  total : (arrivals events).flatten.length < 2 ^ 56 - 1
  heights : ∀ heights, .write heights ∈ events → ∀ n ∈ heights, 0 < n

theorem arrivals_append (events more : List WriteEvent) :
    arrivals (events ++ more) = arrivals events ++ arrivals more := List.filterMap_append

theorem Fits.of_prefix {before events : List WriteEvent} (h : Fits events)
    (hpre : before <+: events) : Fits before := by
  obtain ⟨after, rfl⟩ := hpre
  obtain ⟨hsmall, hcount, htotal, hheights⟩ := h
  rw [arrivals_append] at hsmall hcount htotal
  refine ⟨fun c hc => hsmall c (by simp [hc]), fun c hc => hcount c (by simp [hc]), ?_,
    fun n hn => hheights n (by simp [hn])⟩
  rw [List.flatten_append, List.length_append] at htotal
  omega

/-! Groups. -/

theorem length_le_flatMap (ops : List BatchOp) : ops.length ≤ (ops.flatMap encodeOp).length := by
  induction ops with
  | nil => exact Nat.le_refl 0
  | cons op ops ih =>
    have hone : 1 ≤ (encodeOp op).length := by cases op <;> simp [encodeOp]
    rw [List.flatMap_cons, List.length_append, List.length_cons]
    omega

theorem Holds.ops_length_le {b : WriteBatch} {seq : Nat} {ops : List BatchOp}
    (h : Holds b seq ops) : ops.length ≤ b.rep_.length := by
  have hops := length_le_flatMap ops
  rw [h, List.length_append, List.length_append]
  omega

def Waits (w : Writer) (changes : List BatchOp) : Prop := Holds w.batch 0 changes

/-- The group takes writers from the front of the queue, as far as its size allows. -/
theorem groupLoop_spec {writers : List Writer} {waiting : List (List BatchOp)} (first : Writer)
    (max_size size : Nat) (h : List.Forall₂ Waits writers waiting) :
    ∃ taken rest, waiting = taken ++ rest ∧
      List.Forall₂ (Holds · 0 ·) (groupLoop first max_size size writers).1 taken ∧
      List.Forall₂ Waits (groupLoop first max_size size writers).2 rest ∧
      (taken = [] ∨ size + taken.flatten.length ≤ max_size) := by
  induction h generalizing size with
  | nil => exact ⟨[], [], rfl, .nil, .nil, .inl rfl⟩
  | @cons w changes writers waiting hw hrest ih =>
    have hstop : ∃ taken rest, changes :: waiting = taken ++ rest ∧
        List.Forall₂ (Holds · 0 ·) ([] : List WriteBatch) taken ∧
        List.Forall₂ Waits (w :: writers) rest ∧
        (taken = [] ∨ size + taken.flatten.length ≤ max_size) :=
      ⟨[], changes :: waiting, rfl, .nil, .cons hw hrest, .inl rfl⟩
    unfold groupLoop
    split
    · exact hstop
    · dsimp only
      split
      · exact hstop
      · obtain ⟨taken, rest, rfl, htaken, hbehind, hsize⟩ := ih (size + w.batch.rep_.length)
        refine ⟨changes :: taken, rest, rfl, .cons hw htaken, hbehind, .inr ?_⟩
        have hlen := Holds.ops_length_le hw
        rw [List.flatten_cons, List.length_append]
        obtain rfl | hsize := hsize
        · simp
          omega
        · omega

theorem Holds.append_all {batches : List WriteBatch} {taken : List (List BatchOp)}
    (htaken : List.Forall₂ (Holds · 0 ·) batches taken) {b : WriteBatch} {ops : List BatchOp}
    (h : Holds b 0 ops) (hfit : ops.length + taken.flatten.length < 2 ^ 31) :
    Holds (batches.foldl WriteBatch.append b) 0 (ops ++ taken.flatten) := by
  induction htaken generalizing b ops with
  | nil => simpa using h
  | @cons batch changes batches taken hbatch _ ih =>
    rw [List.flatten_cons, List.length_append] at hfit
    have happend := h.append hbatch (by omega)
    have hall := ih happend (by rw [List.length_append]; omega)
    rwa [List.append_assoc] at hall

theorem buildBatchGroup_spec {first : Writer} {changes : List BatchOp} {writers : List Writer}
    {waiting : List (List BatchOp)} (hfirst : Waits first changes)
    (h : List.Forall₂ Waits writers waiting) (hcount : changes.length < 2 ^ 31) :
    ∃ taken rest, waiting = taken ++ rest ∧
      Holds (buildBatchGroup first writers).1 0 (changes ++ taken.flatten) ∧
      List.Forall₂ Waits (buildBatchGroup first writers).2 rest ∧
      (changes ++ taken.flatten).length < 2 ^ 31 := by
  obtain ⟨taken, rest, rfl, htaken, hbehind, hsize⟩ := groupLoop_spec first
    (if first.batch.rep_.length ≤ 128 <<< 10 then first.batch.rep_.length + 128 <<< 10
      else 1 <<< 20) first.batch.rep_.length h
  refine ⟨taken, rest, rfl, ?_⟩
  have hlen := Holds.ops_length_le hfirst
  have hfit : (changes ++ taken.flatten).length < 2 ^ 31 := by
    obtain rfl | hsize := hsize
    · simpa using hcount
    · have hmax : (if first.batch.rep_.length ≤ 128 <<< 10 then
          first.batch.rep_.length + 128 <<< 10 else 1 <<< 20) ≤ 1 <<< 20 := by
        simp only [Nat.reduceShiftLeft]
        split <;> omega
      simp only [Nat.reduceShiftLeft] at hmax hsize
      rw [List.length_append]
      omega
  unfold buildBatchGroup
  dsimp only
  generalize groupLoop first _ _ writers = found at htaken hbehind
  obtain ⟨batches, behind⟩ := found
  cases htaken with
  | nil => exact ⟨by rw [List.flatten_nil, List.append_nil]; exact hfirst, hbehind, hfit⟩
  | @cons batch more batches taken hbatch hmore =>
    refine ⟨?_, hbehind, hfit⟩
    rw [List.length_append] at hfit
    have hclear := holds_clear.append hfirst (by rw [List.length_nil, Nat.zero_add]; exact hcount)
    rw [List.nil_append] at hclear
    simp only [List.isEmpty_cons, Bool.false_eq_true, if_false]
    exact Holds.append_all (.cons hbatch hmore) hclear hfit

/-! The records of the log. -/

def recordOf (seq : Nat) (ops : List BatchOp) : List UInt8 :=
  wordBytes 8 (seq + 1) ++ (wordBytes 4 ops.length ++ ops.flatMap encodeOp)

def recordsOf : Nat → List (List (List BatchOp)) → List (List UInt8)
  | _, [] => []
  | seq, g :: groups => recordOf seq g.flatten :: recordsOf (seq + g.flatten.length) groups

theorem recordsOf_append (seq : Nat) (groups more : List (List (List BatchOp))) :
    recordsOf seq (groups ++ more) =
      recordsOf seq groups ++ recordsOf (seq + groups.flatten.flatten.length) more := by
  induction groups generalizing seq with
  | nil => rfl
  | cons g groups ih =>
    simp only [List.cons_append, recordsOf, ih, List.flatten_cons, List.flatten_append,
      List.length_append, Nat.add_assoc]

theorem recordsOf_length (seq : Nat) (groups : List (List (List BatchOp))) :
    (recordsOf seq groups).length = groups.length := by
  induction groups generalizing seq with
  | nil => rfl
  | cons g groups ih => simp [recordsOf, ih]

theorem recordsOf_take (seq j : Nat) (groups : List (List (List BatchOp))) :
    (recordsOf seq groups).take j = recordsOf seq (groups.take j) := by
  induction groups generalizing seq j with
  | nil => simp [recordsOf]
  | cons g groups ih =>
    cases j with
    | zero => rfl
    | succ j => simp [recordsOf, ih]

section Queue

variable {crc : List UInt8 → UInt32}

/-- A run has written these groups, and the writers in the queue have what came after them. -/
structure Wrote (crc : List UInt8 → UInt32) (arrived : List (List BatchOp))
    (groups : List (List (List BatchOp))) (q : WriteQueue) : Prop where
  queue : ∃ waiting, arrived = groups.flatten ++ waiting ∧
    List.Forall₂ Waits q.writers_ waiting
  last_sequence : q.db.last_sequence = groups.flatten.flatten.length
  log : q.db.log_ = logOf crc 0 (recordsOf 0 groups)
  mem : Filled q.db.mem_ (numbered 1 groups.flatten.flatten)
  count : ∀ g ∈ groups, g.flatten.length < 2 ^ 31

theorem holds_changes {changes : List BatchOp} (h : changes.length < 2 ^ 31) :
    Holds (changes.foldl WriteBatch.change WriteBatch.clear) 0 changes := by
  induction changes using List.reverseRecOn with
  | nil => exact holds_clear
  | append_singleton changes op ih =>
    rw [List.length_append, List.length_singleton] at h
    rw [List.foldl_append]
    exact (ih (by omega)).change op h

theorem Wrote.write {arrived : List (List BatchOp)} {groups : List (List (List BatchOp))}
    {db : DBImpl} {first : Writer} {writers : List Writer}
    (h : Wrote crc arrived groups ⟨db, first :: writers⟩)
    (hsmall : ∀ changes ∈ arrived, ∀ op ∈ changes, op.Small)
    (hcount : ∀ changes ∈ arrived, changes.length < 2 ^ 31)
    (htotal : arrived.flatten.length < 2 ^ 56 - 1) {heights : List Nat}
    (hheights : ∀ n ∈ heights, 0 < n) :
    ∃ g, Wrote crc arrived (groups ++ [g])
      ⟨(db.writeGroup crc first writers heights).1,
        (db.writeGroup crc first writers heights).2⟩ := by
  obtain ⟨⟨_, harrived, hwaits⟩, hseq, hlog, hmem, hgroups⟩ := h
  obtain ⟨changes, waiting, hfirst, hwriters, rfl⟩ := List.forall₂_cons_left_iff.mp hwaits
  have hmem' : changes ∈ arrived := by rw [harrived]; simp
  obtain ⟨taken, rest, rfl, hgroup, hbehind, hfit⟩ :=
    buildBatchGroup_spec hfirst hwriters (hcount _ hmem')
  dsimp only at hseq hlog hmem
  have hlen : arrived.flatten.length = groups.flatten.flatten.length +
      ((changes ++ taken.flatten).length + rest.flatten.length) := by
    rw [harrived]
    simp
    omega
  have hops : ∀ op ∈ changes ++ taken.flatten, op.Small := by
    intro op hop
    obtain ⟨c, hc, hop⟩ : ∃ c ∈ changes :: taken, op ∈ c := by
      rw [← List.flatten_cons] at hop
      simpa [List.mem_flatten] using hop
    refine hsmall c ?_ op hop
    rw [harrived]
    obtain rfl | hc := List.mem_cons.mp hc <;> simp [*]
  unfold DBImpl.writeGroup
  generalize buildBatchGroup first writers = built at hgroup hbehind
  obtain ⟨group, behind⟩ := built
  have hset := hgroup.setSequence (db.last_sequence + 1)
  have hnewcount := hset.count hfit
  have hinsert := (hmem.insertInto hset hops hfit (by omega) hheights).2.1
  refine ⟨changes :: taken, ⟨rest, by rw [harrived]; simp, hbehind⟩, ?_, ?_, ?_, ?_⟩
  · dsimp only
    rw [hnewcount, Int.toNat_natCast, hseq]
    simp
  · dsimp only
    have hrecord : (group.setSequence (db.last_sequence + 1)).rep_ =
        recordOf db.last_sequence (changes :: taken).flatten := hset
    rw [hrecord, hseq, recordsOf_append, hlog, logOf, logOf, List.foldl_append, Nat.zero_add]
    rfl
  · dsimp only
    have hnumber : db.last_sequence + 1 = 1 + groups.flatten.flatten.length := by
      rw [hseq, Nat.add_comm]
    rw [show numbered (db.last_sequence + 1) (changes ++ taken.flatten) =
      numbered (1 + groups.flatten.flatten.length) (changes ++ taken.flatten) by rw [hnumber],
      ← numbered_append] at hinsert
    rw [List.flatten_append, List.flatten_singleton, List.flatten_append, List.flatten_cons]
    exact hinsert
  · intro g hg
    obtain hg | hg := List.mem_append.mp hg
    · exact hgroups g hg
    · obtain rfl := List.mem_singleton.mp hg
      exact hfit

theorem Wrote.arrive {arrived : List (List BatchOp)} {groups : List (List (List BatchOp))}
    {q : WriteQueue} (h : Wrote crc arrived groups q) {changes : List BatchOp}
    (hcount : changes.length < 2 ^ 31) (sync : Bool) :
    Wrote crc (arrived ++ [changes]) groups { q with
      writers_ := q.writers_ ++ [⟨changes.foldl WriteBatch.change WriteBatch.clear, sync⟩] } := by
  obtain ⟨⟨waiting, harrived, hwaits⟩, hseq, hlog, hmem, hgroups⟩ := h
  refine ⟨⟨waiting ++ [changes], by rw [harrived, List.append_assoc], ?_⟩, hseq, hlog, hmem,
    hgroups⟩
  exact List.rel_append hwaits (.cons (holds_changes hcount) .nil)

variable {usage : MemTable → Nat}

theorem DBImpl.write_eq {db : DBImpl} {first : Writer} {writers : List Writer}
    {heights : List Nat} {r : DBImpl × List Writer}
    (h : db.write crc usage first writers heights = some r) :
    r = db.writeGroup crc first writers heights := by
  obtain ⟨db', hroom, rfl⟩ := Option.map_eq_some_iff.mp h
  unfold DBImpl.makeRoomForWrite at hroom
  split at hroom
  · cases hroom
    rfl
  · cases hroom

/-- One event: a writer more in the queue, a group more written, or nothing. -/
theorem Wrote.step {events : List WriteEvent} {e : WriteEvent} (h : Fits (events ++ [e]))
    {groups : List (List (List BatchOp))} {q q' : WriteQueue}
    (hwrote : Wrote crc (arrivals events) groups q) (hstep : q.step crc usage e = some q') :
    ∃ more, Wrote crc (arrivals (events ++ [e])) (groups ++ more) q' := by
  have harrivals := arrivals_append events [e]
  cases e with
  | arrive changes sync =>
    obtain rfl := Option.some.inj hstep
    refine ⟨[], ?_⟩
    rw [List.append_nil, harrivals]
    exact hwrote.arrive (h.count changes (by rw [harrivals]; simp [arrivals])) sync
  | write heights =>
    rw [show arrivals (events ++ [.write heights]) = arrivals events by simp [arrivals]]
    obtain ⟨hsmall, hcount, htotal, -⟩ := h.of_prefix (List.prefix_append _ _)
    obtain ⟨db, writers⟩ := q
    cases writers with
    | nil =>
      obtain rfl := Option.some.inj hstep
      exact ⟨[], by rwa [List.append_nil]⟩
    | cons first writers =>
      obtain ⟨r, hwrite, rfl⟩ := Option.map_eq_some_iff.mp hstep
      obtain rfl := DBImpl.write_eq hwrite
      obtain ⟨g, hg⟩ := hwrote.write hsmall hcount htotal (h.heights heights (by simp))
      exact ⟨[g], hg⟩

/-- What a run has written, and before it each of its beginnings. -/
theorem run_wrote {events : List WriteEvent} (h : Fits events) {q : WriteQueue}
    (hrun : WriteQueue.run crc usage events = some q) :
    ∃ groups, Wrote crc (arrivals events) groups q ∧
      ∀ before q', before <+: events → WriteQueue.run crc usage before = some q' →
        ∃ m ≤ groups.length, Wrote crc (arrivals before) (groups.take m) q' := by
  induction events using List.reverseRecOn generalizing q with
  | nil =>
    obtain rfl := Option.some.inj hrun
    have hnew : Wrote crc (arrivals []) [] ⟨DBImpl.new, []⟩ :=
      ⟨⟨[], rfl, .nil⟩, rfl, rfl, filled_empty, by simp⟩
    refine ⟨[], hnew, fun before q' hpre hbefore => ⟨0, le_rfl, ?_⟩⟩
    obtain rfl := List.prefix_nil.mp hpre
    obtain rfl := Option.some.inj hbefore
    exact hnew
  | append_singleton events e ih =>
    obtain ⟨q₁, hrun₁, hlast⟩ : ∃ q₁, WriteQueue.run crc usage events = some q₁ ∧
        q₁.step crc usage e = some q := by
      rw [WriteQueue.run, List.foldlM_append] at hrun
      obtain ⟨q₁, hrun₁, hlast⟩ := Option.bind_eq_some_iff.mp hrun
      exact ⟨q₁, hrun₁, by simpa using hlast⟩
    obtain ⟨groups, hwrote, hbefore⟩ := ih (h.of_prefix (List.prefix_append _ _)) hrun₁
    obtain ⟨more, hmore⟩ := hwrote.step h hlast
    refine ⟨groups ++ more, hmore, fun before q' hpre hq' => ?_⟩
    obtain rfl | hpre := List.prefix_concat_iff.mp hpre
    · obtain rfl := Option.some.inj (hrun.symm.trans hq')
      exact ⟨(groups ++ more).length, le_rfl, by rwa [List.take_length]⟩
    · obtain ⟨m, hm, hwrote⟩ := hbefore before q' hpre hq'
      refine ⟨m, by rw [List.length_append]; omega, ?_⟩
      rwa [List.take_append_of_le_length hm]

def served (events : List WriteEvent) (q : WriteQueue) : Nat :=
  (arrivals events).length - q.writers_.length

theorem Wrote.served_eq {events : List WriteEvent} {groups : List (List (List BatchOp))}
    {q : WriteQueue} (h : Wrote crc (arrivals events) groups q) :
    served events q = groups.flatten.length ∧
      (arrivals events).take (served events q) = groups.flatten ∧
      List.Forall₂ Waits q.writers_ ((arrivals events).drop (served events q)) := by
  obtain ⟨waiting, harrived, hwaits⟩ := h.queue
  have hlen : served events q = groups.flatten.length := by
    rw [served, harrived, hwaits.length_eq, List.length_append, Nat.add_sub_cancel]
  exact ⟨hlen, by rw [hlen, harrived, List.take_left], by rw [hlen, harrived, List.drop_left]; exact hwaits⟩

/-! What a table that holds numbered changes answers. -/

theorem numbered_map_op (seq : Nat) (ops : List BatchOp) :
    (numbered seq ops).map Write.op = ops := by
  induction ops generalizing seq with
  | nil => rfl
  | cons op ops ih => simp [numbered, ih]

theorem seen_numbered (ops : List BatchOp) (key : List UInt8) :
    (seen (numbered 1 ops) key ops.length).map Write.op = ops.filter fun op => op.key = key := by
  have hall : seen (numbered 1 ops) key ops.length =
      (numbered 1 ops).filter ((fun op : BatchOp => decide (op.key = key)) ∘ Write.op) := by
    apply List.filter_congr
    intro w hw
    have := numbered_bounds hw
    simp
    omega
  rw [hall, ← List.filter_map, numbered_map_op]

theorem Filled.get_lastChange {mem : MemTable} {ops : List BatchOp}
    (h : Filled mem (numbered 1 ops)) (hsmall : ∀ op ∈ ops, op.Small)
    (hlen : ops.length < 2 ^ 56 - 1) {key : List UInt8} (hkey : key.length + 8 < 2 ^ 32) :
    mem.get key ops.length = lastChange ops key := by
  have hfits : ∀ w ∈ numbered 1 ops, w.Fits := by
    intro w hw
    obtain ⟨-, hlt, hop⟩ := numbered_bounds hw
    exact ⟨by omega, hsmall _ hop⟩
  rw [h.get hfits (numbered_sorted 1 ops) hkey (by omega), lastChange, ← seen_numbered,
    List.getLast?_map, Option.map_map]
  rfl

theorem flatten_small {events : List WriteEvent} (h : Fits events) {j : Nat} :
    (∀ op ∈ ((arrivals events).take j).flatten, op.Small) ∧
      ((arrivals events).take j).flatten.length < 2 ^ 56 - 1 := by
  constructor
  · intro op hop
    obtain ⟨changes, hchanges, hop⟩ := List.mem_flatten.mp hop
    exact h.small changes (List.mem_of_mem_take hchanges) op hop
  · have htotal := h.total
    rw [← List.take_append_drop j (arrivals events), List.flatten_append, List.length_append]
      at htotal
    omega

/-- However writers come and are grouped, and as long as the table has room, each is served once, in
the order they came: the entries of the table are the changes of those that were served, numbered
without a gap, and for every key it answers with the last of them. The others wait in their order. -/
theorem queue_serves_in_order (events : List WriteEvent) (h : Fits events) {q : WriteQueue}
    (hrun : WriteQueue.run crc usage events = some q) :
    let changes := ((arrivals events).take (served events q)).flatten
    q.db.mem_.keys = (numbered 1 changes).map Write.entry ∧
      q.db.last_sequence = changes.length ∧
      List.Forall₂ Waits q.writers_ ((arrivals events).drop (served events q)) ∧
      ∀ key : List UInt8, key.length + 8 < 2 ^ 32 → q.db.get key = lastChange changes key := by
  obtain ⟨groups, hwrote, -⟩ := run_wrote h hrun
  obtain ⟨-, htake, hwaits⟩ := hwrote.served_eq
  obtain ⟨hsmall, hlen⟩ := flatten_small h (j := served events q)
  refine ⟨?_, ?_, hwaits, fun key hkey => ?_⟩
  · obtain ⟨items, hmem, hkeys, -⟩ := hwrote.mem
    rw [htake, hmem, SkipList.build_keys, hkeys]
  · rw [htake, hwrote.last_sequence]
  · rw [htake] at hsmall hlen ⊢
    rw [DBImpl.get, hwrote.last_sequence]
    exact hwrote.mem.get_lastChange hsmall hlen hkey

namespace Sample

/-- Two writers, of which the second erases what the first has put, written as one group. -/
def pair : List WriteEvent :=
  [.arrive [.put [1] [2], .put [3] [4]] false, .arrive [.delete [1]] false, .write [1, 2, 1]]

theorem pair_fits : Fits pair :=
  ⟨by simp [pair, arrivals, BatchOp.Small], by simp [pair, arrivals], by simp [pair, arrivals],
    by simp [pair]⟩

end Sample

theorem queue_serves_in_order_pair : ∃ q,
    WriteQueue.run (fun _ => 0) (fun mem => mem.keys.length) Sample.pair = some q ∧
      q.db.mem_.keys = (numbered 1 [.put [1] [2], .put [3] [4], .delete [1]]).map Write.entry ∧
      q.db.get [1] = some none := by
  obtain ⟨q, hrun, hwaiting⟩ : ∃ q,
      WriteQueue.run (fun _ => 0) (fun mem => mem.keys.length) Sample.pair = some q ∧
        q.writers_.length = 0 := ⟨_, rfl, rfl⟩
  obtain ⟨hkeys, -, -, hget⟩ := queue_serves_in_order Sample.pair Sample.pair_fits hrun
  have hserved : served Sample.pair q = 2 := by rw [served, hwaiting]; rfl
  rw [hserved] at hkeys hget
  exact ⟨q, hrun, hkeys, (hget [1] (by decide)).trans (by decide)⟩

/-! The start after a crash. -/

/-- A table that was refilled from the log. -/
structure Refilled (s : Recovered) (ops : List BatchOp) : Prop where
  mem : Filled s.mem (numbered 1 ops)
  max_sequence : s.max_sequence = ops.length
  heights : ∀ n ∈ s.heights, 0 < n

theorem Refilled.replay {s : Recovered} {pre ops : List BatchOp} (h : Refilled s pre)
    (hsmall : ∀ op ∈ ops, op.Small) (hn : ops.length < 2 ^ 31)
    (htotal : pre.length + ops.length < 2 ^ 56 - 1) :
    Refilled (s.replay (recordOf pre.length ops)) (pre ++ ops) := by
  have hb : Holds (WriteBatch.setContents (recordOf pre.length ops)) (pre.length + 1) ops := rfl
  have hlen : ¬ (recordOf pre.length ops).length < kHeader := by
    simp [recordOf, kHeader]
    omega
  obtain ⟨-, hmem, hheights⟩ := h.mem.insertInto hb hsmall hn (by omega) h.heights
  unfold Recovered.replay
  rw [if_neg hlen]
  dsimp only
  refine ⟨?_, ?_, hheights⟩
  · rw [Nat.add_comm, ← numbered_append] at hmem
    exact hmem
  · dsimp only
    rw [hb.sequence (by omega), hb.count hn, h.max_sequence, List.length_append]
    omega

theorem Refilled.replay_all {groups : List (List (List BatchOp))} {s : Recovered}
    {pre : List BatchOp} (h : Refilled s pre) (hsmall : ∀ op ∈ groups.flatten.flatten, op.Small)
    (hn : ∀ g ∈ groups, g.flatten.length < 2 ^ 31)
    (htotal : pre.length + groups.flatten.flatten.length < 2 ^ 56 - 1) :
    Refilled ((recordsOf pre.length groups).foldl Recovered.replay s)
      (pre ++ groups.flatten.flatten) := by
  induction groups generalizing s pre with
  | nil => simpa [recordsOf] using h
  | cons g groups ih =>
    rw [List.flatten_cons, List.flatten_append] at hsmall htotal ⊢
    rw [List.length_append] at htotal
    have hstep := h.replay (fun op hop => hsmall op (List.mem_append_left _ hop))
      (hn g (by simp)) (by omega)
    have hrest := ih hstep (fun op hop => hsmall op (List.mem_append_right _ hop))
      (fun g hg => hn g (by simp [hg])) (by rw [List.length_append]; omega)
    rw [List.length_append, List.append_assoc] at hrest
    exact hrest

variable (crc) in
theorem logOf_length_le (o : Nat) {records more : List (List UInt8)} (h : records <+: more) :
    (logOf crc o records).dest_.length ≤ (logOf crc o more).dest_.length := by
  obtain ⟨rest, rfl⟩ := h
  have happend : logOf crc o (records ++ rest) =
      ⟨(logOf crc o records).dest_ ++ (logOf crc (logOf crc o records).block_offset_ rest).dest_,
        (logOf crc (logOf crc o records).block_offset_ rest).block_offset_⟩ := by
    conv_lhs => rw [logOf, List.foldl_append]
    exact logOf_dest _ _ rest
  rw [happend, List.length_append]
  omega

/-- The table that the next start makes of a log, wherever the file was cut, is that of the first
writers in the order they came: all changes of a writer are there or none, and every writer that had
been served when the log was no longer than what is left of it is among them. -/
theorem crash_keeps_prefix (events : List WriteEvent) (h : Fits events) {q : WriteQueue}
    (hrun : WriteQueue.run crc usage events = some q) (k : Nat)
    (heights : List Nat) (hheights : ∀ n ∈ heights, 0 < n) :
    ∃ j ≤ served events q,
      (∀ before q', before <+: events → WriteQueue.run crc usage before = some q' →
        q'.db.log_.dest_.length ≤ k → served before q' ≤ j) ∧
      ∀ key, key.length + 8 < 2 ^ 32 →
        let recovered := recoverLogFile crc (q.db.log_.dest_.take k) heights
        recovered.mem.get key recovered.max_sequence =
          lastChange ((arrivals events).take j).flatten key := by
  obtain ⟨groups, hwrote, hbefore⟩ := run_wrote h hrun
  obtain ⟨hserved, htake, -⟩ := hwrote.served_eq
  -- the reader starts as at the end of a block
  have hstart := standing_start ((logOf crc kBlockSize (recordsOf 0 groups)).dest_.take k)
  obtain ⟨m, hm, -, hnext, hrecovered⟩ :=
    hstart.recover (recordsOf 0 groups) ⟨SkipList.empty, 0, heights⟩ (Nat.lt_succ_self _)
  rw [recordsOf_length] at hm hnext
  rw [logOf_start, ← hwrote.log, recordsOf_take] at hrecovered
  have hsplit : groups.flatten = (groups.take m).flatten ++ (groups.drop m).flatten := by
    rw [← List.flatten_append, List.take_append_drop]
  have htake' : (arrivals events).take (groups.take m).flatten.length =
      (groups.take m).flatten := by
    obtain ⟨waiting, harrived, -⟩ := hwrote.queue
    rw [harrived, hsplit, List.append_assoc, List.take_left]
  refine ⟨(groups.take m).flatten.length, ?_, fun before q' hpre hq' hlog => ?_, fun key hkey => ?_⟩
  · rw [hserved, hsplit, List.length_append]
    omega
  · -- a group beyond those that are whole would not have fitted into the file
    obtain ⟨n, hn, hwrote'⟩ := hbefore before q' hpre hq'
    rw [hwrote'.served_eq.1]
    have hnm : n ≤ m := by
      by_contra hlt
      have hcut := hnext (by omega)
      have hpre : (recordsOf 0 groups).take (m + 1) <+: (recordsOf 0 groups).take n :=
        List.take_prefix_take_left (by omega)
      have hle := logOf_length_le crc 0 hpre
      rw [hwrote'.log, ← recordsOf_take] at hlog
      rw [logOf_start] at hcut
      omega
    have hgroups : groups.take n <+: groups.take m := List.take_prefix_take_left hnm
    obtain ⟨rest, hrest⟩ := hgroups
    rw [← hrest, List.flatten_append, List.length_append]
    omega
  · obtain ⟨hsmall, hlen⟩ := flatten_small h (j := (groups.take m).flatten.length)
    rw [htake'] at hsmall hlen ⊢
    have hempty : Refilled ⟨SkipList.empty, 0, heights⟩ [] := ⟨filled_empty, rfl, hheights⟩
    have hrefilled := @Refilled.replay_all (groups.take m) _ _ hempty hsmall
      (fun g hg => hwrote.count g (List.mem_of_mem_take hg)) (by simpa using hlen)
    rw [List.nil_append, List.length_nil, ← hrecovered] at hrefilled
    dsimp only [recoverLogFile]
    rw [hrefilled.max_sequence]
    exact hrefilled.mem.get_lastChange hsmall hlen hkey

theorem crash_keeps_prefix_pair : ∃ q,
    WriteQueue.run (fun _ => 0) (fun mem => mem.keys.length) Sample.pair = some q ∧
      ∃ j ≤ 2, ∀ key : List UInt8, key.length + 8 < 2 ^ 32 →
        let recovered := recoverLogFile (fun _ => 0) (q.db.log_.dest_.take 20) [1]
        recovered.mem.get key recovered.max_sequence =
          lastChange ((arrivals Sample.pair).take j).flatten key := by
  obtain ⟨q, hrun, hwaiting⟩ : ∃ q,
      WriteQueue.run (fun _ => 0) (fun mem => mem.keys.length) Sample.pair = some q ∧
        q.writers_.length = 0 := ⟨_, rfl, rfl⟩
  obtain ⟨j, hj, -, hread⟩ := crash_keeps_prefix Sample.pair Sample.pair_fits hrun 20 [1] (by simp)
  have hserved : served Sample.pair q = 2 := by rw [served, hwaiting]; rfl
  rw [hserved] at hj
  exact ⟨q, hrun, j, hj, hread⟩

end Queue

end Triangles.LevelDb
