import Triangles.Model.SmsgNet
import Triangles.Proofs.MessageIntegrity
import Triangles.Proofs.PullExchange

/-! Where the loop over a bunch reads. -/

namespace Triangles

open Std (ExtTreeMap)
open Spans

section Records

/-- A record is told from what follows it by its header. -/
theorem Smsg.append_inj {m m' : Smsg} {x y : List UInt8} (h : m.bytes ++ x = m'.bytes ++ y) :
    m = m' ∧ x = y := by
  have hm := readFile_append [] x m
  have hm' := readFile_append [] y m'
  rw [List.nil_append] at hm hm'
  rw [h, hm', Option.some.injEq] at hm
  subst hm
  exact ⟨rfl, List.append_cancel_left h⟩

theorem SmsgHeader.prefix_unique {header header' : SmsgHeader} {rest : List UInt8}
    (h : header.bytes <+: rest) (h' : header'.bytes <+: rest) : header = header' := by
  have hlen : header.bytes.length = header'.bytes.length := by rw [header.length, header'.length]
  obtain ⟨bytes, hbytes⟩ := header
  obtain ⟨bytes', hbytes'⟩ := header'
  have heq : bytes = bytes' :=
    List.IsPrefix.eq_of_length (List.prefix_of_prefix_length_le h h' hlen.le) hlen
  subst heq
  rfl

/-- Too few bytes for a header, a header without all of its payload, or a record. -/
theorem record_cases (rest : List UInt8) :
    rest.length < SMSG_HDR_LEN ∨
      (∃ header : SmsgHeader, header.bytes <+: rest ∧
        rest.length < SMSG_HDR_LEN + header.nPayload) ∨
      ∃ (m : Smsg) (rest' : List UInt8), rest = m.bytes ++ rest' := by
  by_cases hshort : rest.length < SMSG_HDR_LEN
  · exact .inl hshort
  · have hheader : (rest.take SMSG_HDR_LEN).length = SMSG_HDR_LEN := by
      rw [List.length_take]
      omega
    let header : SmsgHeader := ⟨rest.take SMSG_HDR_LEN, hheader⟩
    by_cases hcut : rest.length < SMSG_HDR_LEN + header.nPayload
    · exact .inr (.inl ⟨header, List.take_prefix _ _, hcut⟩)
    · have hpayload : ((rest.drop SMSG_HDR_LEN).take header.nPayload).length = header.nPayload := by
        rw [List.length_take, List.length_drop]
        omega
      refine .inr (.inr ⟨⟨header, (rest.drop SMSG_HDR_LEN).take header.nPayload, hpayload⟩,
        (rest.drop SMSG_HDR_LEN).drop header.nPayload, ?_⟩)
      rw [Smsg.bytes, List.append_assoc, List.take_append_drop, List.take_append_drop]

/-- The header at a position where there is one. -/
theorem smsgAt_header {header : SmsgHeader} {rest : List UInt8} (h : header.bytes <+: rest)
    (pre : List UInt8) (beyond : Nat → UInt8) :
    (smsgAt (pre ++ rest) beyond pre.length).header = header := by
  obtain ⟨post, rfl⟩ := h
  have hslice := slice_append pre header.bytes post
  rw [header.length] at hslice
  have hread : readMemory (pre ++ (header.bytes ++ post)) beyond pre.length SMSG_HDR_LEN =
      header.bytes := by
    rw [readMemory_eq_slice (by simp [header.length]), hslice]
  obtain ⟨bytes, hbytes⟩ := header
  simp only [smsgAt] at hread ⊢
  congr

theorem validate_early_iff (lib : SmsgLib) (m : Smsg) :
    (secureMsgValidate lib m = 4 ∨ secureMsgValidate lib m = 5) ↔
      (m.header.version.headD 0 ≠ 1 ∨ SMSG_MAX_MSG_WORST < m.payload.length) := by
  unfold secureMsgValidate
  split
  · rename_i hversion
    exact ⟨fun _ => .inl hversion, fun _ => .inl rfl⟩
  · rename_i hversion
    split
    · rename_i hlong
      exact ⟨fun _ => .inr hlong, fun _ => .inr rfl⟩
    · rename_i hlong
      simp only [hversion, hlong, or_self, iff_false]
      repeat' split
      all_goals decide

end Records

section Turns

variable {xxh32 : List UInt8 → UInt32} {lib : SmsgLib} {now : Int} {s : SmsgStore}

theorem store_succeeds_iff {m : Smsg} :
    (secureMsgStore xxh32 now false m s).1 = 0 ↔
      InWindow now m ∧ m.token ∉ s.tokens (bucketOf m.header.timestamp) := by
  rcases secureMsgStore_bucket xxh32 now false m s with ⟨hcode, hthere, -⟩ | ⟨hcode, hwindow, hnew, -⟩
  · rw [hcode]
    exact ⟨nofun, fun h => absurd (hthere h.1) h.2⟩
  · exact ⟨fun _ => ⟨hwindow, hnew⟩, fun _ => hcode⟩

/-- Messages that the loop takes one after the other: each is valid, in time and not there yet, and
its scan returns. -/
structure TakenInTurn (lib : SmsgLib) (now : Int)
    (scan : Smsg → Except SmsgFailure (Option (List UInt8))) (s : SmsgStore) (ms : List Smsg) :
    Prop where
  valid : ∀ m ∈ ms, secureMsgValidate lib m = 0
  window : ∀ m ∈ ms, InWindow now m
  new : ∀ m ∈ ms, m.token ∉ s.tokens (bucketOf m.header.timestamp)
  distinct : (ms.map Smsg.token).Nodup
  scanned : ∀ m ∈ ms, ∃ addressTo, scan m = .ok addressTo

variable {scan : Smsg → Except SmsgFailure (Option (List UInt8))}

theorem takenInTurn_nil : TakenInTurn lib now scan s [] where
  valid := nofun
  window := nofun
  new := nofun
  distinct := List.nodup_nil
  scanned := nofun

variable (xxh32) in
/-- The first message is stored, and the others are taken in turn after it. -/
theorem takenInTurn_cons {m : Smsg} {ms : List Smsg} :
    TakenInTurn lib now scan s (m :: ms) ↔
      secureMsgValidate lib m = 0 ∧ (secureMsgStore xxh32 now false m s).1 = 0 ∧
        (∃ addressTo, scan m = .ok addressTo) ∧
        TakenInTurn lib now scan (secureMsgStore xxh32 now false m s).2 ms := by
  constructor
  · rintro ⟨hvalid, hwindow, hnew, hdistinct, hscanned⟩
    rw [List.map_cons, List.nodup_cons] at hdistinct
    have hstored : (secureMsgStore xxh32 now false m s).1 = 0 :=
      store_succeeds_iff.mpr ⟨hwindow m List.mem_cons_self, hnew m List.mem_cons_self⟩
    refine ⟨hvalid m List.mem_cons_self, hstored, hscanned m List.mem_cons_self,
      fun m' h => hvalid m' (List.mem_cons_of_mem _ h),
      fun m' h => hwindow m' (List.mem_cons_of_mem _ h), fun m' h => ?_, hdistinct.2,
      fun m' h => hscanned m' (List.mem_cons_of_mem _ h)⟩
    refine fun hmem => (((store_adds hstored).mem_token m'.token).mp hmem).elim (fun heq => ?_)
      (hnew m' (List.mem_cons_of_mem _ h))
    exact hdistinct.1 (heq ▸ List.mem_map_of_mem h)
  · rintro ⟨hvalid, hstored, hscan, hrest⟩
    obtain ⟨hwindow, hnew⟩ := store_succeeds_iff.mp hstored
    have hafter : ∀ m' ∈ ms, m'.token ≠ m.token ∧
        m'.token ∉ s.tokens (bucketOf m'.header.timestamp) := by
      intro m' h
      exact not_or.mp (mt ((store_adds hstored).mem_token m'.token).mpr (hrest.new m' h))
    refine ⟨List.forall_mem_cons.mpr ⟨hvalid, hrest.valid⟩,
      List.forall_mem_cons.mpr ⟨hwindow, hrest.window⟩,
      List.forall_mem_cons.mpr ⟨hnew, fun m' h => (hafter m' h).2⟩, ?_,
      List.forall_mem_cons.mpr ⟨hscan, hrest.scanned⟩⟩
    rw [List.map_cons, List.nodup_cons]
    refine ⟨fun hmem => ?_, hrest.distinct⟩
    obtain ⟨m', h, heq⟩ := List.mem_map.mp hmem
    exact (hafter m' h).1 heq

end Turns

section Overrun

variable (lib : SmsgLib) (now : Int) (scan : Smsg → Except SmsgFailure (Option (List UInt8)))

/-- The record at the beginning is cut short: its header is there, version and length pass, and its
payload is not all there. -/
def CutShort (rest : List UInt8) : Prop :=
  ∃ header : SmsgHeader, header.bytes <+: rest ∧ header.version.headD 0 = 1 ∧
    header.nPayload ≤ SMSG_MAX_MSG_WORST ∧ rest.length < SMSG_HDR_LEN + header.nPayload

/-- A message that is kept has fewer than the eight bytes for its key, and what follows does not
make up for them. -/
def SampleCut (m : Smsg) (rest : List UInt8) : Prop :=
  ∃ addressTo, scan m = .ok (some addressTo) ∧ m.payload.length + rest.length < 8

/-- Some records are taken in turn, and then one is cut short, or the last of them was kept without
its eight bytes. -/
def Overruns (s : SmsgStore) (nBunch : Nat) (records : List UInt8) : Prop :=
  ∃ ms rest, records = ms.flatMap Smsg.bytes ++ rest ∧ TakenInTurn lib now scan s ms ∧
    ((ms.length < nBunch ∧ CutShort rest) ∨
      (ms.length ≤ nBunch ∧ ∃ m, ms.getLast? = some m ∧ SampleCut scan m rest))

variable {lib now scan} {s : SmsgStore} {rest : List UInt8}

theorem sampleCut_iff {m : Smsg} {addressTo : Option (List UInt8)} (h : scan m = .ok addressTo) :
    SampleCut scan m rest ↔ addressTo.isSome = true ∧ m.payload.length + rest.length < 8 := by
  unfold SampleCut
  rw [h]
  cases addressTo <;> simp

/-- Where a payload is not all there, no record begins. -/
theorem no_record_of_cut {header : SmsgHeader} (hhead : header.bytes <+: rest)
    (hcut : rest.length < SMSG_HDR_LEN + header.nPayload) (m : Smsg) (rest' : List UInt8) :
    rest ≠ m.bytes ++ rest' := by
  rintro rfl
  have hm : m.header.bytes <+: m.bytes ++ rest' := by
    rw [Smsg.bytes, List.append_assoc]
    exact List.prefix_append _ _
  obtain rfl := SmsgHeader.prefix_unique hhead hm
  rw [List.length_append, m.bytes_length, m.nPayload_eq] at hcut
  omega

theorem not_cutShort_record (m : Smsg) (rest : List UInt8) : ¬CutShort (m.bytes ++ rest) :=
  fun ⟨_, hhead, _, _, hcut⟩ => no_record_of_cut hhead hcut m rest rfl

theorem not_overruns_zero : ¬Overruns lib now scan s 0 rest := by
  rintro ⟨ms, rest', -, -, ⟨hlen, -⟩ | ⟨hlen, m, hlast, -⟩⟩
  · cases hlen
  · obtain rfl := List.eq_nil_of_length_eq_zero (Nat.le_zero.mp hlen)
    cases hlast

/-- Where no record begins, only a record that is cut short makes the loop overrun. -/
theorem overruns_no_record (hno : ∀ (m : Smsg) rest', rest ≠ m.bytes ++ rest') (nBunch : Nat) :
    Overruns lib now scan s nBunch rest ↔ 0 < nBunch ∧ CutShort rest := by
  constructor
  · rintro ⟨ms, rest', hsplit, -, hends⟩
    cases ms with
    | nil =>
      rw [List.flatMap_nil, List.nil_append] at hsplit
      subst hsplit
      rcases hends with h | ⟨-, m, hlast, -⟩
      · exact h
      · cases hlast
    | cons m ms =>
      rw [List.flatMap_cons, List.append_assoc] at hsplit
      exact absurd hsplit (hno m _)
  · rintro ⟨hpos, hcut⟩
    exact ⟨[], rest, rfl, takenInTurn_nil, .inl ⟨hpos, hcut⟩⟩

/-- With too few bytes for a header the loop does not overrun. -/
theorem not_overruns_short (hshort : rest.length < SMSG_HDR_LEN) (nBunch : Nat) :
    ¬Overruns lib now scan s nBunch rest := by
  have hno : ∀ (m : Smsg) rest', rest ≠ m.bytes ++ rest' := by
    rintro m rest' rfl
    rw [List.length_append, m.bytes_length] at hshort
    omega
  rw [overruns_no_record hno]
  rintro ⟨-, header, hhead, -⟩
  have hlen := hhead.length_le
  rw [header.length] at hlen
  omega

variable (xxh32 : List UInt8 → UInt32) in
/-- Where a record begins, it is taken, and it is kept without its eight bytes or the loop overruns
after it. -/
theorem overruns_record (m : Smsg) (rest : List UInt8) (nBunch : Nat) :
    Overruns lib now scan s (nBunch + 1) (m.bytes ++ rest) ↔
      (secureMsgValidate lib m = 0 ∧ (secureMsgStore xxh32 now false m s).1 = 0 ∧
        ∃ addressTo, scan m = .ok addressTo) ∧
      (SampleCut scan m rest ∨
        Overruns lib now scan (secureMsgStore xxh32 now false m s).2 nBunch rest) := by
  constructor
  · rintro ⟨ms, rest', hsplit, htaken, hends⟩
    cases ms with
    | nil =>
      rw [List.flatMap_nil, List.nil_append] at hsplit
      rcases hends with ⟨-, hcut⟩ | ⟨-, m', hlast, -⟩
      · rw [← hsplit] at hcut
        exact absurd hcut (not_cutShort_record m rest)
      · cases hlast
    | cons m' ms =>
      rw [List.flatMap_cons, List.append_assoc] at hsplit
      obtain ⟨rfl, hrest⟩ := Smsg.append_inj hsplit
      obtain ⟨hvalid, hstored, hscan, htaken⟩ := (takenInTurn_cons xxh32).mp htaken
      refine ⟨⟨hvalid, hstored, hscan⟩, ?_⟩
      rw [List.length_cons, Nat.add_lt_add_iff_right, Nat.add_le_add_iff_right] at hends
      cases ms with
      | nil =>
        rw [List.flatMap_nil, List.nil_append] at hrest
        subst hrest
        rcases hends with hcut | ⟨-, m', hlast, hcut⟩
        · exact .inr ⟨[], rest, rfl, htaken, .inl hcut⟩
        · rw [List.getLast?_singleton, Option.some.injEq] at hlast
          exact .inl (hlast ▸ hcut)
      | cons m' ms =>
        rw [List.getLast?_cons_cons] at hends
        exact .inr ⟨m' :: ms, rest', hrest, htaken, hends⟩
  · rintro ⟨⟨hvalid, hstored, hscan⟩, hcut | ⟨ms, rest', hsplit, htaken, hends⟩⟩
    · refine ⟨[m], rest, by simp, (takenInTurn_cons xxh32).mpr
        ⟨hvalid, hstored, hscan, takenInTurn_nil⟩, .inr ⟨by simp, m, rfl, hcut⟩⟩
    · refine ⟨m :: ms, rest', by rw [hsplit, List.flatMap_cons, List.append_assoc],
        (takenInTurn_cons xxh32).mpr ⟨hvalid, hstored, hscan, htaken⟩, ?_⟩
      rw [List.length_cons, Nat.add_lt_add_iff_right, Nat.add_le_add_iff_right]
      refine hends.imp_right fun ⟨hlen, m', hlast, hcut⟩ => ⟨hlen, m', ?_, hcut⟩
      cases ms with
      | nil => cases hlast
      | cons m'' ms => rw [List.getLast?_cons_cons, hlast]

end Overrun

section Rounds

/-- Every round finds its offset in the vector, and reads nothing behind the vector. -/
def RoundsInside (size : Nat) (rounds : List BunchRound) : Prop :=
  ∀ r ∈ rounds, r.n ≤ size ∧ Inside size r.reads

instance (size : Nat) (rounds : List BunchRound) : Decidable (RoundsInside size rounds) :=
  inferInstanceAs (Decidable (∀ r ∈ rounds, r.n ≤ size ∧ Inside size r.reads))

@[simp] theorem roundsInside_cons {size : Nat} {r : BunchRound} {rounds : List BunchRound} :
    RoundsInside size (r :: rounds) ↔
      (r.n ≤ size ∧ Inside size r.reads) ∧ RoundsInside size rounds :=
  List.forall_mem_cons

@[simp] theorem roundsInside_nil (size : Nat) : RoundsInside size [] := nofun

variable {xxh32 : List UInt8 → UInt32} {now : Int} {lib : SmsgLib}
  {scan : Smsg → Except SmsgFailure (Option (List UInt8))} {beyond : Nat → UInt8}

/-- The bytes that are read of a message behind which the vector ends, or does not. -/
theorem inside_record {m : Smsg} {n size : Nat} :
    Inside size (headerReads n ++ [(n, SMSG_HDR_LEN + m.payload.length)]) ↔
      n + (SMSG_HDR_LEN + m.payload.length) ≤ size := by
  have hlen : SMSG_HDR_LEN = 104 := rfl
  simp only [headerReads, inside_append, inside_cons, inside_nil, and_true]
  omega

theorem inside_headerReads {n size : Nat} (h : n + SMSG_HDR_LEN ≤ size) :
    Inside size (headerReads n) := by
  have hlen : SMSG_HDR_LEN = 104 := rfl
  simp only [headerReads, inside_cons, inside_nil, and_true]
  omega

variable (xxh32 now scan) in
/-- A message whose version and length pass is read as a whole. -/
theorem receiveRounds_whole {vchData : List UInt8} {n : Nat}
    (hlong : ¬(n ≤ vchData.length ∧ vchData.length - n < SMSG_HDR_LEN))
    (hrv : ¬(secureMsgValidate lib (smsgAt vchData beyond n) = 4 ∨
      secureMsgValidate lib (smsgAt vchData beyond n) = 5)) (rounds : Nat) (s : SmsgStore) :
    ∃ r ∈ receiveRounds xxh32 now lib scan vchData beyond (rounds + 1) n s,
      (n, SMSG_HDR_LEN + (smsgAt vchData beyond n).payload.length) ∈ r.reads := by
  unfold receiveRounds
  rw [if_neg hlong]
  simp only [if_neg hrv]
  split
  · exact ⟨_, List.mem_cons_self, by simp⟩
  · split
    · split
      · exact ⟨_, List.mem_cons_self, by simp⟩
      · refine ⟨_, List.mem_cons_self, ?_⟩
        split <;> simp
    · exact ⟨_, List.mem_cons_self, by simp⟩

variable (xxh32 now lib scan) in
/-- A record that does not pass is looked at again in the next round. -/
theorem receiveRounds_invalid {vchData : List UInt8} {n : Nat}
    (hlong : ¬(n ≤ vchData.length ∧ vchData.length - n < SMSG_HDR_LEN))
    (hrv : secureMsgValidate lib (smsgAt vchData beyond n) ≠ 0) (rounds : Nat) (s : SmsgStore) :
    receiveRounds xxh32 now lib scan vchData beyond (rounds + 1) n s =
      { n
        reads := if secureMsgValidate lib (smsgAt vchData beyond n) = 4 ∨
            secureMsgValidate lib (smsgAt vchData beyond n) = 5 then headerReads n
          else headerReads n ++ [(n, SMSG_HDR_LEN + (smsgAt vchData beyond n).payload.length)]
        score := some (if secureMsgValidate lib (smsgAt vchData beyond n) = 2 then 10 else 1) } ::
      receiveRounds xxh32 now lib scan vchData beyond rounds n s := by
  rw [receiveRounds, if_neg hlong]
  simp only [if_pos hrv]

/-- A valid record ends the loop when it is not stored, or when its scan does not return. -/
theorem receiveRounds_last {vchData : List UInt8} {n : Nat}
    (hlong : ¬(n ≤ vchData.length ∧ vchData.length - n < SMSG_HDR_LEN))
    (hrv : secureMsgValidate lib (smsgAt vchData beyond n) = 0) {s : SmsgStore}
    (hnot : ¬((secureMsgStore xxh32 now false (smsgAt vchData beyond n) s).1 = 0 ∧
      ∃ addressTo, scan (smsgAt vchData beyond n) = .ok addressTo)) (rounds : Nat) :
    receiveRounds xxh32 now lib scan vchData beyond (rounds + 1) n s =
      [{ n, reads := headerReads n ++
          [(n, SMSG_HDR_LEN + (smsgAt vchData beyond n).payload.length)] }] := by
  rw [receiveRounds, if_neg hlong]
  simp only [hrv, ne_eq, not_true_eq_false, if_false]
  rcases hstore : secureMsgStore xxh32 now false (smsgAt vchData beyond n) s with ⟨code, s'⟩
  cases code with
  | succ code => rfl
  | zero =>
    cases hscan : scan (smsgAt vchData beyond n) with
    | error e => rfl
    | ok addressTo => exact absurd ⟨by rw [hstore], addressTo, hscan⟩ hnot

/-- A record that is taken is followed by the next. -/
theorem receiveRounds_taken {vchData : List UInt8} {n : Nat}
    (hlong : ¬(n ≤ vchData.length ∧ vchData.length - n < SMSG_HDR_LEN))
    (hrv : secureMsgValidate lib (smsgAt vchData beyond n) = 0) {s : SmsgStore}
    (hstored : (secureMsgStore xxh32 now false (smsgAt vchData beyond n) s).1 = 0)
    {addressTo : Option (List UInt8)}
    (hscan : scan (smsgAt vchData beyond n) = .ok addressTo) (rounds : Nat) :
    receiveRounds xxh32 now lib scan vchData beyond (rounds + 1) n s =
      { n
        reads := (headerReads n ++ [(n, SMSG_HDR_LEN + (smsgAt vchData beyond n).payload.length)]) ++
          if addressTo.isSome then [(n + SMSG_HDR_LEN, 8)] else [] } ::
      receiveRounds xxh32 now lib scan vchData beyond rounds
        (n + SMSG_HDR_LEN + (smsgAt vchData beyond n).payload.length)
        (secureMsgStore xxh32 now false (smsgAt vchData beyond n) s).2 := by
  rw [receiveRounds, if_neg hlong]
  simp only [hrv, ne_eq, not_true_eq_false, if_false]
  rcases hstore : secureMsgStore xxh32 now false (smsgAt vchData beyond n) s with ⟨code, s'⟩
  rw [hstore] at hstored
  subst hstored
  simp only [hscan]
  cases addressTo <;> simp

/-- Where a record begins, there is room for its header. -/
theorem record_not_short (pre rest : List UInt8) (m : Smsg) :
    ¬(pre.length ≤ (pre ++ (m.bytes ++ rest)).length ∧
      (pre ++ (m.bytes ++ rest)).length - pre.length < SMSG_HDR_LEN) := by
  rw [List.length_append, List.length_append, m.bytes_length]
  omega

/-- A record that is all there is read inside the vector. -/
theorem record_inside (pre rest : List UInt8) (m : Smsg) :
    pre.length ≤ (pre ++ (m.bytes ++ rest)).length ∧
      Inside (pre ++ (m.bytes ++ rest)).length
        (headerReads pre.length ++ [(pre.length, SMSG_HDR_LEN + m.payload.length)]) := by
  rw [inside_record, List.length_append, List.length_append, m.bytes_length]
  omega

variable (xxh32 now lib scan beyond) in
/-- A header without all of its payload is looked at in every round: inside the vector, or the first
round reads what is not there. -/
theorem receiveRounds_cut_iff {header : SmsgHeader} {rest : List UInt8}
    (hhead : header.bytes <+: rest) (hcut : rest.length < SMSG_HDR_LEN + header.nPayload)
    (pre : List UInt8) (rounds : Nat) (s : SmsgStore) :
    RoundsInside (pre ++ rest).length
        (receiveRounds xxh32 now lib scan (pre ++ rest) beyond rounds pre.length s) ↔
      ¬(0 < rounds ∧ CutShort rest) := by
  have hsize : (pre ++ rest).length = pre.length + rest.length := List.length_append
  have hheader := smsgAt_header hhead pre beyond
  have hpayload := (smsgAt (pre ++ rest) beyond pre.length).nPayload_eq
  have hlen := hhead.length_le
  rw [header.length] at hlen
  have hlong : ¬(pre.length ≤ (pre ++ rest).length ∧
      (pre ++ rest).length - pre.length < SMSG_HDR_LEN) := by omega
  have hearly := validate_early_iff lib (smsgAt (pre ++ rest) beyond pre.length)
  rw [hpayload, hheader] at hearly
  by_cases hrv : secureMsgValidate lib (smsgAt (pre ++ rest) beyond pre.length) = 4 ∨
      secureMsgValidate lib (smsgAt (pre ++ rest) beyond pre.length) = 5
  · have hnot : ¬CutShort rest := by
      rintro ⟨header', hhead', hversion, hworst, -⟩
      obtain rfl := SmsgHeader.prefix_unique hhead hhead'
      rcases hearly.mp hrv with h | h
      · exact h hversion
      · omega
    have hhere : pre.length ≤ (pre ++ rest).length := by omega
    have hinside : Inside (pre ++ rest).length (headerReads pre.length) :=
      inside_headerReads (by omega)
    refine iff_of_true ?_ fun h => hnot h.2
    induction rounds with
    | zero => exact roundsInside_nil _
    | succ rounds ih =>
      rw [receiveRounds_invalid xxh32 now lib scan hlong (by omega), if_pos hrv, roundsInside_cons]
      exact ⟨⟨hhere, hinside⟩, ih⟩
  · have hpass := mt hearly.mpr hrv
    rw [not_or, not_not, Nat.not_lt] at hpass
    cases rounds with
    | zero => exact ⟨fun _ h => absurd h.1 (Nat.lt_irrefl 0), fun _ => roundsInside_nil _⟩
    | succ rounds =>
      obtain ⟨r, hr, hmem⟩ := receiveRounds_whole xxh32 now scan hlong hrv rounds s
      refine ⟨fun h => ?_, fun h => absurd ⟨Nat.succ_pos _, header, hhead, hpass.1, hpass.2,
        hcut⟩ h⟩
      have hin := (h r hr).2 _ hmem
      simp only [hpayload, hheader] at hin
      omega

variable (xxh32 now lib scan beyond) in
/-- A record that does not pass is looked at in every round that is left. -/
theorem receiveRounds_invalid_inside {m : Smsg} (hrv : secureMsgValidate lib m ≠ 0)
    (pre rest : List UInt8) (rounds : Nat) (s : SmsgStore) :
    RoundsInside (pre ++ (m.bytes ++ rest)).length
      (receiveRounds xxh32 now lib scan (pre ++ (m.bytes ++ rest)) beyond rounds pre.length s) := by
  have hm := smsgAt_append pre rest m beyond
  obtain ⟨hhere, hwhole⟩ := record_inside pre rest m
  induction rounds with
  | zero => exact roundsInside_nil _
  | succ rounds ih =>
    have hround := receiveRounds_invalid xxh32 now lib scan (record_not_short pre rest m)
      (by rwa [hm]) rounds s
    rw [hm] at hround
    rw [hround, roundsInside_cons]
    refine ⟨⟨hhere, ?_⟩, ih⟩
    split
    · exact (inside_append.mp hwhole).1
    · exact hwhole

variable (xxh32 now lib beyond) in
/-- A record that is taken is read inside the vector, but for the eight bytes of a message that is
kept. -/
theorem receiveRounds_taken_iff {m : Smsg} (hrv : secureMsgValidate lib m = 0) {s : SmsgStore}
    (hstored : (secureMsgStore xxh32 now false m s).1 = 0) {addressTo : Option (List UInt8)}
    (hscan : scan m = .ok addressTo) (pre rest : List UInt8) (rounds : Nat) :
    RoundsInside (pre ++ (m.bytes ++ rest)).length
        (receiveRounds xxh32 now lib scan (pre ++ (m.bytes ++ rest)) beyond (rounds + 1)
          pre.length s) ↔
      ¬SampleCut scan m rest ∧
        RoundsInside (pre ++ (m.bytes ++ rest)).length
          (receiveRounds xxh32 now lib scan (pre ++ (m.bytes ++ rest)) beyond rounds
            (pre.length + SMSG_HDR_LEN + m.payload.length)
            (secureMsgStore xxh32 now false m s).2) := by
  have hm := smsgAt_append pre rest m beyond
  obtain ⟨hhere, hwhole⟩ := record_inside pre rest m
  have hsample : Inside (pre ++ (m.bytes ++ rest)).length
      (if addressTo.isSome then [(pre.length + SMSG_HDR_LEN, 8)] else []) ↔
        ¬SampleCut scan m rest := by
    rw [sampleCut_iff hscan]
    split
    · rename_i hkept
      simp only [inside_cons, inside_nil, hkept, true_and, and_true, List.length_append,
        m.bytes_length]
      omega
    · rename_i hkept
      simp [hkept]
  have hround := receiveRounds_taken (record_not_short pre rest m) (by rwa [hm]) (by rwa [hm])
    (by rwa [hm]) rounds
  rw [hm] at hround
  rw [hround, roundsInside_cons, inside_append, hsample]
  simp only [hhere, hwhole, true_and]

variable (xxh32 now lib scan beyond) in
/-- The loop stays in the vector exactly when it does not overrun the records. -/
theorem receiveRounds_inside_iff (pre rest : List UInt8) (rounds : Nat) (s : SmsgStore) :
    RoundsInside (pre ++ rest).length
        (receiveRounds xxh32 now lib scan (pre ++ rest) beyond rounds pre.length s) ↔
      ¬Overruns lib now scan s rounds rest := by
  induction rounds generalizing pre rest s with
  | zero => exact ⟨fun _ => not_overruns_zero, fun _ => roundsInside_nil _⟩
  | succ rounds ih =>
    rcases record_cases rest with hshort | ⟨header, hhead, hcut⟩ | ⟨m, rest, rfl⟩
    · -- too few bytes for a header
      have hsize : (pre ++ rest).length = pre.length + rest.length := List.length_append
      have hhere : pre.length ≤ (pre ++ rest).length := by omega
      refine iff_of_true ?_ (not_overruns_short hshort _)
      unfold receiveRounds
      rw [if_pos (by omega), roundsInside_cons]
      exact ⟨⟨hhere, inside_nil⟩, roundsInside_nil _⟩
    · -- a header without all of its payload
      rw [overruns_no_record (no_record_of_cut hhead hcut)]
      exact receiveRounds_cut_iff xxh32 now lib scan beyond hhead hcut pre (rounds + 1) s
    · -- a record
      rw [overruns_record xxh32]
      by_cases hrv : secureMsgValidate lib m = 0
      · by_cases htaken : (secureMsgStore xxh32 now false m s).1 = 0 ∧
            ∃ addressTo, scan m = .ok addressTo
        · obtain ⟨hstored, addressTo, hscan⟩ := htaken
          have hnext := ih (pre ++ m.bytes) rest (secureMsgStore xxh32 now false m s).2
          have hpos : (pre ++ m.bytes).length = pre.length + SMSG_HDR_LEN + m.payload.length := by
            rw [List.length_append, m.bytes_length, Nat.add_assoc]
          rw [List.append_assoc, hpos] at hnext
          rw [receiveRounds_taken_iff xxh32 now lib beyond hrv hstored hscan, hnext]
          simp only [hrv, hstored, hscan, true_and, Except.ok.injEq, exists_eq', not_or]
        · have hm := smsgAt_append pre rest m beyond
          have hround := receiveRounds_last (record_not_short pre rest m) (by rwa [hm])
            (by rwa [hm]) rounds
          rw [hm] at hround
          rw [hround, roundsInside_cons]
          simp only [htaken, and_false, false_and, not_false_eq_true, iff_true]
          exact ⟨record_inside pre rest m, roundsInside_nil _⟩
      · simp only [hrv, false_and, not_false_eq_true, iff_true]
        exact receiveRounds_invalid_inside xxh32 now lib scan beyond hrv pre rest (rounds + 1) s

/-- What `SecureMsgReceive` reads lies in the vector, and no offset of its loop is behind the end, so
that the rest of the vector does not wrap around. -/
def ParsedInside (vchData : List UInt8) (r : List (Nat × Nat) × List BunchRound) : Prop :=
  Inside vchData.length r.1 ∧ RoundsInside vchData.length r.2

/-- A bunch is parsed within its bounds exactly when it does not overrun: not when it is taken and,
after records that are taken in turn, one is cut short, or one without eight bytes is kept. -/
theorem bunch_inside_iff (xxh32 : List UInt8 → UInt32) (now : Int) (lib : SmsgLib)
    (host : SmsgHost) (fLocked : Bool) (smsgAddresses : List SecMsgAddress) (vchData : List UInt8)
    (beyond : Nat → UInt8) (s : SmsgStore) :
    let scan := scanResult lib host fLocked smsgAddresses
    ParsedInside vchData (secureMsgReceiveReads xxh32 now lib scan vchData beyond s) ↔
      ¬(TakesBunch now vchData ∧ 1 ≤ bunchSize vchData ∧ bunchSize vchData ≤ 500 ∧
        Overruns lib now scan s (bunchSize vchData) (vchData.drop 12)) := by
  intro scan
  unfold ParsedInside secureMsgReceiveReads TakesBunch
  simp only
  split
  · refine ⟨fun _ h => ?_, fun _ => ⟨inside_nil, roundsInside_nil _⟩⟩
    have hlong := h.1.1
    omega
  · rename_i hlong
    have hhead : Inside vchData.length [(0, 4), (4, 8)] := by
      simp only [inside_cons, inside_nil, and_true]
      omega
    split
    · rename_i hnew
      exact ⟨fun _ h => absurd h.1.2.2 (Int.not_le.mpr hnew), fun _ => ⟨hhead, roundsInside_nil _⟩⟩
    · rename_i hnew
      split
      · rename_i hold
        exact ⟨fun _ h => absurd h.1.2.1 (Int.not_le.mpr hold),
          fun _ => ⟨hhead, roundsInside_nil _⟩⟩
      · rename_i hold
        split
        · rename_i hsize
          refine ⟨fun _ h => ?_, fun _ => ⟨hhead, roundsInside_nil _⟩⟩
          have hlow := h.2.1
          have hhigh := h.2.2.1
          unfold bunchSize at hlow hhigh
          omega
        · rename_i hsize
          have hloop := receiveRounds_inside_iff xxh32 now lib scan beyond (vchData.take 12)
            (vchData.drop 12) (leValue (slice vchData 0 4)) s
          have htwelve : (vchData.take 12).length = 12 := by
            rw [List.length_take]
            omega
          rw [List.take_append_drop, htwelve] at hloop
          rw [hloop]
          have htakes : (12 ≤ vchData.length ∧ now - SMSG_RETENTION ≤ bunchTime vchData ∧
              bunchTime vchData ≤ now + SMSG_TIME_LEEWAY) :=
            ⟨Nat.not_lt.mp hlong, Int.not_lt.mp hold, Int.not_lt.mp hnew⟩
          have hcount : 1 ≤ bunchSize vchData ∧ bunchSize vchData ≤ 500 := by
            unfold bunchSize
            omega
          exact ⟨fun h hover => h.2 hover.2.2.2,
            fun h => ⟨hhead, fun hover => h ⟨htakes, hcount.1, hcount.2, hover⟩⟩⟩

end Rounds

namespace Sample

/-- One message is announced, and its header asks for a hundred bytes that are not there. -/
def cutBunch : List UInt8 :=
  wordBytes 4 1 ++ signedBytes 8 1700000100 ++
    (List.replicate 4 0 ++ [1] ++ List.replicate 95 0 ++ wordBytes 4 100)

theorem cutBunch_overruns : ¬RoundsInside cutBunch.length
    (secureMsgReceiveReads xxh32 1700000200 zeroWork (fun _ => .ok none) cutBunch
      (fun _ => 0) {}).2 := by
  decide

end Sample

/-- A header at the end of a bunch makes the code read the payload behind the vector. -/
theorem cut_bunch_read_behind :
    ¬ParsedInside Sample.cutBunch (secureMsgReceiveReads Sample.xxh32 1700000200 Sample.zeroWork
      (scanResult Sample.zeroWork Sample.smsgHost true []) Sample.cutBunch (fun _ => 0) {}) :=
  fun h => Sample.cutBunch_overruns h.2

end Triangles
