import Triangles.Model.LevelLog
import Triangles.Proofs.RoundTrip

/-! The log read back: every record that is whole, and nothing of one that is torn. -/

namespace Triangles.LevelDb

/-! The header. -/

theorem rotate_back (x : UInt32) :
    (((x >>> 15) ||| (x <<< 17)) >>> 17) ||| (((x >>> 15) ||| (x <<< 17)) <<< 15) = x := by
  apply UInt32.toBitVec_inj.mp
  apply BitVec.eq_of_getLsbD_eq
  intro i hi
  have hhigh : x.toBitVec.getLsbD (15 + (17 + i)) = false := BitVec.getLsbD_of_ge _ _ (by omega)
  by_cases h : i < 15
  · have h1 : 17 + i < 32 := by omega
    have h2 : ¬ 17 + i < 17 := by omega
    simp [h, hhigh, h1, h2, BitVec.getLsbD_eq_getElem hi]
  · have h1 : ¬ 17 + i < 32 := by omega
    have h2 : i - 15 < 17 := by omega
    have h3 : 15 + (i - 15) = i := by omega
    simp [h, hhigh, hi, h1, h2, h3]

theorem unmask_mask (crc : UInt32) : unmask (mask crc) = crc := by
  unfold unmask mask
  simp only [UInt32.add_sub_cancel]
  exact rotate_back crc

theorem length_bytes {n : Nat} (h : n < 65536) :
    (byte (n &&& 0xff)).toNat ||| (byte (n >>> 8)).toNat <<< 8 = n := by
  have hlow : n &&& 0xff = n % 256 := Nat.and_two_pow_sub_one_eq_mod n 8
  have hhigh : n >>> 8 = n / 256 := Nat.shiftRight_eq_div_pow n 8
  simp only [byte, hlow, hhigh, UInt8.toNat_ofNat']
  rw [Nat.or_comm, ← Nat.shiftLeft_add_eq_or_of_lt (by omega), Nat.shiftLeft_eq]
  omega

section Log

variable {crc : List UInt8 → UInt32}

variable (crc) in
theorem physicalRecord_length (t : Nat) (ptr : List UInt8) :
    (physicalRecord crc t ptr).length = kHeaderSize + ptr.length := by
  simp [physicalRecord, kHeaderSize]
  omega

variable (crc) in
theorem physicalRecord_getD (t : Nat) (ptr rest : List UInt8) :
    (physicalRecord crc t ptr ++ rest).getD 4 0 = byte (ptr.length &&& 0xff) ∧
      (physicalRecord crc t ptr ++ rest).getD 5 0 = byte (ptr.length >>> 8) ∧
      (physicalRecord crc t ptr ++ rest).getD 6 0 = byte t := by
  simp [physicalRecord, wordBytes, List.getD]

theorem physicalRecord_take4 (t : Nat) (ptr rest : List UInt8) :
    (physicalRecord crc t ptr ++ rest).take 4 =
      wordBytes 4 (mask (crc (byte t :: ptr))).toNat := by
  simp [physicalRecord, wordBytes]

theorem physicalRecord_drop6 (t : Nat) (ptr rest : List UInt8) :
    (physicalRecord crc t ptr ++ rest).drop 6 = byte t :: (ptr ++ rest) := by
  simp [physicalRecord, wordBytes]

theorem physicalRecord_drop7 (t : Nat) (ptr rest : List UInt8) :
    (physicalRecord crc t ptr ++ rest).drop kHeaderSize = ptr ++ rest := by
  simp [physicalRecord, wordBytes, kHeaderSize]

/-! The reader at a place of a block. -/

/-- The reader stands at offset `o` of a block, and `rest` is what is left of the file. -/
structure Standing (r : LogReader) (o : Nat) (rest : List UInt8) : Prop where
  buffer : r.buffer_ = rest.take (kBlockSize - o)
  file : r.file_ = rest.drop (kBlockSize - o)
  eof : r.eof_ = decide (rest.length < kBlockSize - o)

theorem standing_start (file : List UInt8) : Standing { file_ := file } kBlockSize file := by
  refine ⟨?_, ?_, ?_⟩ <;> simp

/-- Where the writer goes on in front of the next header: the offset in its block, and the filling
of the block before. -/
def headerOffset (o : Nat) : Nat := if kBlockSize - o < kHeaderSize then 0 else o

def filling (o : Nat) : Nat := if kBlockSize - o < kHeaderSize then kBlockSize - o else 0

theorem headerOffset_room (o : Nat) : headerOffset o + kHeaderSize ≤ kBlockSize := by
  have h7 : kHeaderSize = 7 := rfl
  unfold headerOffset
  split
  · decide
  · omega

/-- The reader takes in a block before a header, when the file goes on there. -/
def LogReader.prepare (r : LogReader) : LogReader :=
  if r.buffer_.length < kHeaderSize ∧ r.eof_ = false then r.readBlock else r

theorem Standing.prepare {r : LogReader} {o : Nat} {rest : List UInt8} (h : Standing r o rest)
    (hrest : filling o ≤ rest.length) :
    Standing r.prepare (headerOffset o) (rest.drop (filling o)) ∧ r.prepare.reports = r.reports := by
  unfold LogReader.prepare
  by_cases hfill : kBlockSize - o < kHeaderSize
  · simp only [filling, headerOffset, hfill, if_true] at hrest ⊢
    have hload : r.buffer_.length < kHeaderSize ∧ r.eof_ = false := by
      rw [h.buffer, h.eof, List.length_take]
      refine ⟨by omega, ?_⟩
      simpa using hrest
    rw [if_pos hload]
    refine ⟨⟨?_, ?_, ?_⟩, rfl⟩
    · simp [LogReader.readBlock, h.file]
    · simp [LogReader.readBlock, h.file]
    · simp only [LogReader.readBlock, hload.2, Bool.false_or, h.file, List.length_take]
      rw [decide_eq_decide]
      omega
  · have hstay : ¬ (r.buffer_.length < kHeaderSize ∧ r.eof_ = false) := by
      rw [h.buffer, h.eof, List.length_take]
      simp only [decide_eq_false_iff_not]
      omega
    simp only [filling, headerOffset, hfill, if_false, hstay, List.drop_zero]
    exact ⟨h, trivial⟩

theorem readPhysicalRecord_prepare (r : LogReader) :
    r.readPhysicalRecord crc =
      if r.prepare.buffer_.length < kHeaderSize then
        if r.prepare.buffer_.length = 0 then ((kEof, []), r.prepare)
        else ((kEof, []), r.prepare.dropBuffer "truncated record at end of file")
      else r.prepare.readPhysicalRecord crc := by
  have hidem : r.prepare.buffer_.length < kHeaderSize ∨ r.prepare.prepare = r.prepare := by
    by_cases hshort : r.prepare.buffer_.length < kHeaderSize
    · exact .inl hshort
    · exact .inr (if_neg fun hc => hshort hc.1)
  by_cases hshort : r.prepare.buffer_.length < kHeaderSize
  · rw [if_pos hshort]
    exact if_pos hshort
  · rw [if_neg hshort]
    have hsame := hidem.resolve_left hshort
    unfold LogReader.readPhysicalRecord
    simp only [← LogReader.prepare.eq_1]
    rw [hsame]

theorem Standing.physical {r : LogReader} {o t : Nat} {ptr rest : List UInt8}
    (h : Standing r o (List.replicate (filling o) 0 ++ (physicalRecord crc t ptr ++ rest)))
    (hfit : headerOffset o + (kHeaderSize + ptr.length) ≤ kBlockSize) (ht : 0 < t ∧ t ≤ 4) :
    (r.readPhysicalRecord crc).1 = (t, ptr) ∧
      Standing (r.readPhysicalRecord crc).2 (headerOffset o + (kHeaderSize + ptr.length)) rest := by
  obtain ⟨hp, -⟩ := h.prepare (by simp)
  rw [show (List.replicate (filling o) (0 : UInt8) ++ (physicalRecord crc t ptr ++ rest)).drop
      (filling o) = physicalRecord crc t ptr ++ rest by simp] at hp
  have hlen := physicalRecord_length crc t ptr
  generalize headerOffset o = o' at hfit hp ⊢
  -- the fragment lies in the block that is in the buffer
  have hbuf : r.prepare.buffer_ =
      physicalRecord crc t ptr ++ rest.take (kBlockSize - (o' + (kHeaderSize + ptr.length))) := by
    rw [hp.buffer, List.take_append, List.take_of_length_le (by omega), hlen]
    congr 2
    omega
  have hsmall : ptr.length < 65536 := by
    have : kBlockSize = 32768 := rfl
    omega
  obtain ⟨h4, h5, h6⟩ := physicalRecord_getD crc t ptr
    (rest.take (kBlockSize - (o' + (kHeaderSize + ptr.length))))
  have htype : LogReader.typeOf (byte t) = t := by
    have ht1 : t = 1 ∨ t = 2 ∨ t = 3 ∨ t = 4 := by omega
    obtain rfl | rfl | rfl | rfl := ht1 <;> decide
  have hcrc : crc (((r.prepare.buffer_).drop 6).take (1 + ptr.length)) =
      unmask (UInt32.ofNat (leValue (r.prepare.buffer_.take 4))) := by
    have hword : (mask (crc (byte t :: ptr))).toNat < 256 ^ 4 := UInt32.toNat_lt _
    rw [hbuf, physicalRecord_take4, leValue_wordBytes, physicalRecord_drop6, Nat.add_comm 1,
      List.take_succ_cons, List.take_left, Nat.mod_eq_of_lt hword, UInt32.ofNat_toNat, unmask_mask]
  have hlong : ¬ r.prepare.buffer_.length < kHeaderSize := by
    rw [hbuf, List.length_append, hlen]
    omega
  have hread : r.readPhysicalRecord crc = ((t, ptr),
      { r.prepare with buffer_ := r.prepare.buffer_.drop (kHeaderSize + ptr.length) }) := by
    unfold LogReader.readPhysicalRecord
    simp only [← LogReader.prepare.eq_1]
    rw [if_neg hlong]
    have hroom : ¬ r.prepare.buffer_.length < kHeaderSize + ptr.length := by
      rw [hbuf, List.length_append, hlen]
      omega
    have hn : (byte (ptr.length &&& 0xff)).toNat ||| (byte (ptr.length >>> 8)).toNat <<< 8 =
        ptr.length := length_bytes hsmall
    simp only [hbuf] at hcrc hroom ⊢
    simp only [h4, h5, h6, hn, htype, hcrc, hroom, if_false, ne_eq, not_true_eq_false]
    have hzero : ¬ (t = kZeroType ∧ ptr.length = 0) := by
      rintro ⟨h0, -⟩
      rw [h0] at ht
      exact absurd ht.1 (by decide)
    rw [if_neg hzero, physicalRecord_drop7, List.take_left]
  rw [hread]
  refine ⟨rfl, ?_, ?_, ?_⟩
  · simp only [hbuf]
    rw [← hlen, List.drop_left]
  · have hk : kBlockSize - o' = (physicalRecord crc t ptr).length +
        (kBlockSize - (o' + (kHeaderSize + ptr.length))) := by omega
    simp only [hp.file, hk, List.drop_append]
    simp
  · simp only [hp.eof, List.length_append, hlen]
    rw [decide_eq_decide]
    omega

structure Ended (r : LogReader) : Prop where
  buffer : r.buffer_ = []
  file : r.file_ = []
  eof : r.eof_ = true

theorem Ended.physical {r : LogReader} (h : Ended r) :
    r.readPhysicalRecord crc = ((kEof, []), r) := by
  have hprep : r.prepare = r := if_neg (by simp [h.eof])
  rw [readPhysicalRecord_prepare, hprep, h.buffer]
  simp [kHeaderSize]

def Torn (res : (Nat × List UInt8) × LogReader) : Prop :=
  res.1 = (kEof, []) ∨ res.1 = (kBadRecord, []) ∧ Ended res.2

/-- The end of the file in front of a fragment or inside of it. -/
theorem Standing.torn {r : LogReader} {o t : Nat} {ptr torn : List UInt8} (h : Standing r o torn)
    (hpre : torn <+: List.replicate (filling o) 0 ++ physicalRecord crc t ptr)
    (hshort : torn.length < filling o + (kHeaderSize + ptr.length))
    (hfit : headerOffset o + (kHeaderSize + ptr.length) ≤ kBlockSize) :
    Torn (r.readPhysicalRecord crc) := by
  by_cases hfill : filling o ≤ torn.length
  · obtain ⟨hp, -⟩ := h.prepare hfill
    obtain ⟨cut, hcut⟩ : torn.drop (filling o) <+: physicalRecord crc t ptr := by
      have := hpre.drop (filling o)
      simpa using this
    have hcutlen : (torn.drop (filling o)).length < kHeaderSize + ptr.length := by
      rw [List.length_drop]
      omega
    generalize torn.drop (filling o) = left at hp hcut hcutlen
    generalize headerOffset o = o' at hp hfit
    have hbuf : r.prepare.buffer_ = left := by
      rw [hp.buffer, List.take_of_length_le (by omega)]
    rw [readPhysicalRecord_prepare]
    by_cases h7 : r.prepare.buffer_.length < kHeaderSize
    · rw [if_pos h7]
      split <;> exact .inl rfl
    · rw [if_neg h7]
      -- the header is there, and says how much is missing
      have hprep : r.prepare.prepare = r.prepare := if_neg fun hc => h7 hc.1
      rw [hbuf] at h7
      obtain ⟨h4, h5, -⟩ := physicalRecord_getD crc t ptr []
      rw [List.append_nil, ← hcut] at h4 h5
      have hseven : 7 ≤ left.length := by
        have : kHeaderSize = 7 := rfl
        omega
      have hget : ∀ i < 7, (left ++ cut).getD i 0 = left.getD i 0 := by
        intro i hi
        simp only [List.getD_eq_getElem?_getD]
        rw [List.getElem?_append_left (by omega)]
      rw [hget 4 (by decide)] at h4
      rw [hget 5 (by decide)] at h5
      have hsmall : ptr.length < 65536 := by
        have : kBlockSize = 32768 := rfl
        omega
      have hread : r.prepare.readPhysicalRecord crc =
          ((kBadRecord, []), r.prepare.dropBuffer "bad record length") := by
        unfold LogReader.readPhysicalRecord
        simp only [← LogReader.prepare.eq_1]
        rw [hprep, hbuf, if_neg h7, h4, h5, length_bytes hsmall, if_pos hcutlen]
      rw [hread]
      refine .inr ⟨rfl, rfl, ?_, ?_⟩
      · change r.prepare.file_ = []
        rw [hp.file]
        exact List.drop_of_length_le (by omega)
      · change r.prepare.eof_ = true
        rw [hp.eof]
        exact decide_eq_true (by omega)
  · -- the file ends inside the filling of the block before
    have heof : r.eof_ = true := by
      rw [h.eof]
      apply decide_eq_true
      unfold filling at hfill
      split at hfill <;> omega
    have hprep : r.prepare = r := if_neg (by simp [heof])
    have h7 : r.buffer_.length < kHeaderSize := by
      rw [h.buffer, List.length_take]
      unfold filling at hfill
      split at hfill <;> omega
    rw [readPhysicalRecord_prepare, hprep, if_pos h7]
    split <;> exact .inl rfl

theorem Standing.length {r : LogReader} {o : Nat} {rest : List UInt8} (h : Standing r o rest) :
    r.file_.length + r.buffer_.length = rest.length := by
  rw [h.buffer, h.file, List.length_drop, List.length_take]
  omega

/-! A record as the writer lays it out. -/

def fragmentLength (o : Nat) (ptr : List UInt8) : Nat :=
  if ptr.length < kBlockSize - headerOffset o - kHeaderSize then ptr.length
  else kBlockSize - headerOffset o - kHeaderSize

def firstFragment (crc : List UInt8 → UInt32) (b : Bool) (ptr : List UInt8) (o : Nat) :
    List UInt8 :=
  List.replicate (filling o) 0 ++
    physicalRecord crc (LogWriter.recordType b (ptr.length == fragmentLength o ptr))
      (ptr.take (fragmentLength o ptr))

theorem fragmentLength_le (o : Nat) (ptr : List UInt8) : fragmentLength o ptr ≤ ptr.length := by
  unfold fragmentLength
  split <;> omega

theorem fragment_fits (o : Nat) (ptr : List UInt8) :
    headerOffset o + (kHeaderSize + (ptr.take (fragmentLength o ptr)).length) ≤ kBlockSize := by
  have hroom := headerOffset_room o
  rw [List.length_take, Nat.min_eq_left (fragmentLength_le o ptr)]
  unfold fragmentLength
  split <;> omega

theorem fragment_full {o : Nat} {ptr : List UInt8} (h : fragmentLength o ptr ≠ ptr.length) :
    headerOffset o + (kHeaderSize + fragmentLength o ptr) = kBlockSize := by
  have hroom := headerOffset_room o
  unfold fragmentLength at h ⊢
  split at h <;> rename_i hlt <;> simp only [hlt, if_true, if_false] at h ⊢ <;> omega

variable (crc) in
theorem firstFragment_length (b : Bool) (ptr : List UInt8) (o : Nat) :
    (firstFragment crc b ptr o).length = filling o + (kHeaderSize + fragmentLength o ptr) := by
  simp [firstFragment, physicalRecord_length, fragmentLength_le]

theorem addRounds_succ (rounds : Nat) (b : Bool) (ptr : List UInt8) (w : LogWriter) :
    w.addRounds crc (rounds + 1) b ptr =
      (let w' : LogWriter := ⟨w.dest_ ++ firstFragment crc b ptr w.block_offset_,
          headerOffset w.block_offset_ + (kHeaderSize + fragmentLength w.block_offset_ ptr)⟩
       if fragmentLength w.block_offset_ ptr = ptr.length then w'
       else w'.addRounds crc rounds false (ptr.drop (fragmentLength w.block_offset_ ptr))) := by
  have hswitch : w.switchBlock =
      ⟨w.dest_ ++ List.replicate (filling w.block_offset_) 0, headerOffset w.block_offset_⟩ := by
    unfold LogWriter.switchBlock filling headerOffset
    by_cases hfill : kBlockSize - w.block_offset_ < kHeaderSize <;> simp [hfill]
  have hle := fragmentLength_le w.block_offset_ ptr
  have hdone : (ptr.drop (fragmentLength w.block_offset_ ptr)).isEmpty = true ↔
      fragmentLength w.block_offset_ ptr = ptr.length := by
    simp only [List.isEmpty_iff, List.drop_eq_nil_iff]
    omega
  have hlen : (ptr.take (fragmentLength w.block_offset_ ptr)).length =
      fragmentLength w.block_offset_ ptr := by simp [hle]
  simp only [LogWriter.addRounds, hswitch, LogWriter.emitPhysicalRecord, ← fragmentLength.eq_1, hdone,
    hlen, firstFragment, List.append_assoc]

/-- What is in the file already has no part in what is appended. -/
theorem addRounds_dest (rounds : Nat) (b : Bool) (ptr : List UInt8) (d : List UInt8) (o : Nat) :
    LogWriter.addRounds crc rounds b ptr ⟨d, o⟩ =
      ⟨d ++ (LogWriter.addRounds crc rounds b ptr ⟨[], o⟩).dest_,
        (LogWriter.addRounds crc rounds b ptr ⟨[], o⟩).block_offset_⟩ := by
  induction rounds generalizing b ptr d o with
  | zero => simp [LogWriter.addRounds]
  | succ rounds ih =>
    simp only [addRounds_succ, List.nil_append]
    split
    · rfl
    · rw [ih, ih _ _ (firstFragment crc b ptr o)]
      simp

def roundsFor (o : Nat) (ptr : List UInt8) : Nat :=
  if kBlockSize - headerOffset o - kHeaderSize = 0 then ptr.length + 2 else ptr.length + 1

theorem roundsFor_next {o : Nat} {ptr : List UInt8} (h : fragmentLength o ptr ≠ ptr.length) :
    roundsFor (headerOffset o + (kHeaderSize + fragmentLength o ptr))
      (ptr.drop (fragmentLength o ptr)) < roundsFor o ptr := by
  have hnext : kBlockSize - headerOffset kBlockSize - kHeaderSize ≠ 0 := by decide
  have hle := fragmentLength_le o ptr
  have hfull := fragment_full h
  rw [hfull]
  unfold roundsFor
  rw [if_neg hnext, List.length_drop]
  split <;> omega

theorem recordType_le (b e : Bool) :
    0 < LogWriter.recordType b e ∧ LogWriter.recordType b e ≤ 4 := by
  cases b <;> cases e <;> decide

/-! The record read back. -/

theorem Standing.first {r : LogReader} {o : Nat} {b : Bool} {ptr rest : List UInt8}
    (h : Standing r o (firstFragment crc b ptr o ++ rest)) :
    (r.readPhysicalRecord crc).1 =
        (LogWriter.recordType b (ptr.length == fragmentLength o ptr),
          ptr.take (fragmentLength o ptr)) ∧
      Standing (r.readPhysicalRecord crc).2
        (headerOffset o + (kHeaderSize + fragmentLength o ptr)) rest := by
  rw [firstFragment, List.append_assoc] at h
  have hread := h.physical (fragment_fits o ptr) (recordType_le _ _)
  rwa [List.length_take, Nat.min_eq_left (fragmentLength_le o ptr)] at hread

/-- A round over a whole fragment: the record, or the fragment put to what was there. -/
theorem readRounds_fragment {r r' : LogReader} {fragment : List UInt8} (fuel : Nat)
    (scratch : Option (List UInt8)) (e : Bool)
    (h : r.readPhysicalRecord crc = ((LogWriter.recordType scratch.isNone e, fragment), r')) :
    LogReader.readRounds crc (fuel + 1) scratch r =
      if e then (some (scratch.getD [] ++ fragment), r')
      else LogReader.readRounds crc fuel (some (scratch.getD [] ++ fragment)) r' := by
  cases scratch <;> cases e <;>
    simp [LogReader.readRounds, h, LogWriter.recordType, kFullType, kFirstType, kMiddleType,
      kLastType]

theorem Standing.whole (rounds : Nat) (ptr : List UInt8) {r : LogReader} {o fuel : Nat}
    (scratch : Option (List UInt8)) {rest : List UInt8} (hrounds : roundsFor o ptr ≤ rounds)
    (h : Standing r o ((LogWriter.addRounds crc rounds scratch.isNone ptr ⟨[], o⟩).dest_ ++ rest))
    (hfuel : (LogWriter.addRounds crc rounds scratch.isNone ptr ⟨[], o⟩).dest_.length < fuel) :
    (LogReader.readRounds crc fuel scratch r).1 = some (scratch.getD [] ++ ptr) ∧
      Standing (LogReader.readRounds crc fuel scratch r).2
        (LogWriter.addRounds crc rounds scratch.isNone ptr ⟨[], o⟩).block_offset_ rest := by
  induction rounds generalizing ptr r o fuel scratch with
  | zero =>
    unfold roundsFor at hrounds
    split at hrounds <;> omega
  | succ rounds ih =>
    obtain ⟨fuel, rfl⟩ : ∃ m, fuel = m + 1 := ⟨fuel - 1, by omega⟩
    simp only [addRounds_succ, List.nil_append] at h hfuel ⊢
    by_cases hlast : fragmentLength o ptr = ptr.length
    · simp only [hlast, if_true] at h ⊢
      obtain ⟨hread, hstand⟩ := h.first
      simp only [hlast] at hread hstand
      rw [readRounds_fragment _ scratch true (Prod.ext (by simpa using hread) rfl)]
      simpa using hstand
    · simp only [hlast, if_false] at h hfuel ⊢
      have hne : (ptr.length == fragmentLength o ptr) = false := by
        simpa using fun hc => hlast hc.symm
      rw [addRounds_dest, List.append_assoc] at h
      rw [addRounds_dest, List.length_append, firstFragment_length] at hfuel
      have hheader : kHeaderSize = 7 := rfl
      obtain ⟨hread, hstand⟩ := h.first
      rw [hne] at hread
      have hnext := @ih (ptr.drop (fragmentLength o ptr)) _ _ fuel
        (some (scratch.getD [] ++ ptr.take (fragmentLength o ptr)))
        (by have := roundsFor_next hlast; omega) hstand (by simp only [Option.isNone_some]; omega)
      rw [readRounds_fragment _ scratch false (Prod.ext hread rfl), addRounds_dest]
      simpa using hnext

theorem Ended.rounds {r : LogReader} (h : Ended r) (fuel : Nat) :
    (LogReader.readRounds crc fuel none r).1 = none := by
  cases fuel with
  | zero => rfl
  | succ fuel =>
    simp [LogReader.readRounds, h.physical, kFullType, kFirstType, kMiddleType, kLastType, kEof,
      kMaxRecordType]

theorem Ended.report {r : LogReader} (h : Ended r) (n : Nat) (reason : String) :
    Ended (r.reportCorruption n reason) :=
  ⟨h.buffer, h.file, h.eof⟩

theorem Torn.rounds {r : LogReader} (h : Torn (r.readPhysicalRecord crc)) (fuel : Nat)
    (scratch : Option (List UInt8)) : (LogReader.readRounds crc fuel scratch r).1 = none := by
  cases fuel with
  | zero => rfl
  | succ fuel =>
    unfold LogReader.readRounds
    generalize r.readPhysicalRecord crc = res at h ⊢
    obtain ⟨⟨t, fragment⟩, r'⟩ := res
    obtain heof | ⟨hbad, hended⟩ := h
    · obtain ⟨rfl, rfl⟩ := Prod.mk.inj heof
      cases scratch <;>
        simp [kFullType, kFirstType, kMiddleType, kLastType, kEof, kMaxRecordType]
    · obtain ⟨rfl, rfl⟩ := Prod.mk.inj hbad
      have hafter : ∀ n s, (LogReader.readRounds crc fuel none (r'.reportCorruption n s)).1 = none :=
        fun n s => (hended.report n s).rounds fuel
      cases scratch <;>
        simp [kFullType, kFirstType, kMiddleType, kLastType, kEof, kBadRecord, kMaxRecordType,
          hafter, hended.rounds]

theorem Standing.broken (rounds : Nat) (ptr : List UInt8) {r : LogReader} {o fuel : Nat}
    (scratch : Option (List UInt8)) {torn : List UInt8} (h : Standing r o torn)
    (hpre : torn <+: (LogWriter.addRounds crc rounds scratch.isNone ptr ⟨[], o⟩).dest_)
    (hshort : torn.length <
      (LogWriter.addRounds crc rounds scratch.isNone ptr ⟨[], o⟩).dest_.length) :
    (LogReader.readRounds crc fuel scratch r).1 = none := by
  induction rounds generalizing ptr r o fuel scratch torn with
  | zero => simp [LogWriter.addRounds] at hshort
  | succ rounds ih =>
    have hfit := fragment_fits o ptr
    by_cases hfirst : torn.length < (firstFragment crc scratch.isNone ptr o).length
    · -- the file ends inside the first fragment
      have hpre' : torn <+: firstFragment crc scratch.isNone ptr o := by
        refine List.prefix_of_prefix_length_le hpre ?_ hfirst.le
        rw [addRounds_succ]
        dsimp only
        split
        · simp
        · rw [addRounds_dest]
          simp
      have hlen : torn.length < filling o +
          (kHeaderSize + (ptr.take (fragmentLength o ptr)).length) := by
        rw [firstFragment_length] at hfirst
        rwa [List.length_take, Nat.min_eq_left (fragmentLength_le o ptr)]
      exact (h.torn hpre' hlen hfit).rounds fuel scratch
    · simp only [addRounds_succ, List.nil_append] at hpre hshort
      by_cases hlast : fragmentLength o ptr = ptr.length
      · simp only [hlast, if_true] at hshort
        exact absurd hshort hfirst
      · simp only [hlast, if_false] at hpre hshort
        rw [addRounds_dest] at hpre hshort
        obtain ⟨torn', rfl⟩ : firstFragment crc scratch.isNone ptr o <+: torn :=
          List.prefix_of_prefix_length_le (List.prefix_append _ _) hpre (by omega)
        cases fuel with
        | zero => rfl
        | succ fuel =>
          have hne : (ptr.length == fragmentLength o ptr) = false := by
            simpa using fun hc => hlast hc.symm
          obtain ⟨hread, hstand⟩ := h.first
          rw [hne] at hread
          rw [readRounds_fragment _ scratch false (Prod.ext hread rfl)]
          refine ih (ptr.drop (fragmentLength o ptr)) (some _) hstand ?_ ?_
          · exact (List.prefix_append_right_inj _).mp hpre
          · simpa using hshort

/-! The records of a log. -/

def logOf (crc : List UInt8 → UInt32) (o : Nat) (records : List (List UInt8)) : LogWriter :=
  records.foldl (LogWriter.addRecord crc) ⟨[], o⟩

theorem addRecord_dest (d : List UInt8) (o : Nat) (record : List UInt8) :
    LogWriter.addRecord crc ⟨d, o⟩ record =
      ⟨d ++ (LogWriter.addRecord crc ⟨[], o⟩ record).dest_,
        (LogWriter.addRecord crc ⟨[], o⟩ record).block_offset_⟩ :=
  addRounds_dest _ _ _ _ _

theorem logOf_dest (d : List UInt8) (o : Nat) (records : List (List UInt8)) :
    records.foldl (LogWriter.addRecord crc) ⟨d, o⟩ =
      ⟨d ++ (logOf crc o records).dest_, (logOf crc o records).block_offset_⟩ := by
  induction records generalizing d o with
  | nil => simp [logOf]
  | cons record records ih =>
    simp only [logOf, List.foldl_cons]
    rw [addRecord_dest, ih, addRecord_dest [] o, ih ([] ++ _)]
    simp

theorem logOf_cons (o : Nat) (record : List UInt8) (records : List (List UInt8)) :
    (logOf crc o (record :: records)).dest_ =
      (LogWriter.addRecord crc ⟨[], o⟩ record).dest_ ++
        (logOf crc (LogWriter.addRecord crc ⟨[], o⟩ record).block_offset_ records).dest_ := by
  rw [logOf, List.foldl_cons, addRecord_dest, logOf_dest]

theorem addRecord_start (record : List UInt8) :
    LogWriter.addRecord crc ⟨[], kBlockSize⟩ record = LogWriter.addRecord crc ⟨[], 0⟩ record := by
  have hoffset : headerOffset kBlockSize = headerOffset 0 := by decide
  have hfilling : filling kBlockSize = filling 0 := by decide
  rw [LogWriter.addRecord, LogWriter.addRecord, addRounds_succ, addRounds_succ]
  simp only [firstFragment, fragmentLength, hoffset, hfilling]

theorem logOf_start (records : List (List UInt8)) :
    (logOf crc kBlockSize records).dest_ = (logOf crc 0 records).dest_ := by
  cases records with
  | nil => rfl
  | cons record records => rw [logOf_cons, logOf_cons, addRecord_start]

theorem roundsFor_le (o : Nat) (ptr : List UInt8) : roundsFor o ptr ≤ ptr.length + 2 := by
  unfold roundsFor
  split <;> omega

theorem Standing.readRecord {r : LogReader} {o : Nat} {record rest : List UInt8}
    (h : Standing r o ((LogWriter.addRecord crc ⟨[], o⟩ record).dest_ ++ rest)) :
    (r.readRecord crc).1 = some record ∧
      Standing (r.readRecord crc).2 (LogWriter.addRecord crc ⟨[], o⟩ record).block_offset_ rest := by
  have hlen := h.length
  rw [List.length_append] at hlen
  exact h.whole (record.length + 2) record none (roundsFor_le o record)
    (by change (LogWriter.addRecord crc ⟨[], o⟩ record).dest_.length < _; omega)

theorem Standing.readBroken {r : LogReader} {o : Nat} {record torn : List UInt8}
    (h : Standing r o torn) (hpre : torn <+: (LogWriter.addRecord crc ⟨[], o⟩ record).dest_)
    (hshort : torn.length < (LogWriter.addRecord crc ⟨[], o⟩ record).dest_.length) :
    (r.readRecord crc).1 = none :=
  h.broken (record.length + 2) record none hpre hshort

variable (crc) in
theorem addRecord_pos (o : Nat) (record : List UInt8) :
    0 < (LogWriter.addRecord crc ⟨[], o⟩ record).dest_.length := by
  have hheader : kHeaderSize = 7 := rfl
  have hlen := firstFragment_length crc true record o
  rw [LogWriter.addRecord, addRounds_succ]
  dsimp only
  split
  · rw [List.length_append]
    omega
  · rw [addRounds_dest, List.length_append, List.length_append]
    omega

theorem recoverRounds_stop {r : LogReader} (h : (r.readRecord crc).1 = none) (rounds : Nat)
    (s : Recovered) : recoverRounds crc rounds r s = s := by
  cases rounds with
  | zero => rfl
  | succ rounds =>
    unfold recoverRounds
    generalize r.readRecord crc = res at h ⊢
    obtain ⟨record, r'⟩ := res
    obtain rfl : record = none := h
    rfl

/-- From a log that was cut anywhere, the records that are whole come back, in order, and nothing
after them. -/
theorem Standing.recover (records : List (List UInt8)) {r : LogReader} {o k rounds : Nat}
    (s : Recovered) (h : Standing r o ((logOf crc o records).dest_.take k))
    (hrounds : ((logOf crc o records).dest_.take k).length < rounds) :
    ∃ j ≤ records.length,
      (logOf crc o (records.take j)).dest_.length ≤ k ∧
      (j < records.length → k < (logOf crc o (records.take (j + 1))).dest_.length) ∧
      recoverRounds crc rounds r s = (records.take j).foldl Recovered.replay s := by
  induction records generalizing r o k rounds s with
  | nil =>
    have hnil : ([] : List UInt8).take k = [] := List.take_nil
    simp only [logOf, List.foldl_nil, hnil] at h
    exact ⟨0, le_rfl, by simp [logOf], by simp,
      recoverRounds_stop (h.readBroken (List.nil_prefix) (addRecord_pos crc o [])) _ _⟩
  | cons record records ih =>
    obtain ⟨rounds, rfl⟩ : ∃ m, rounds = m + 1 := ⟨rounds - 1, by omega⟩
    rw [logOf_cons] at h hrounds
    by_cases hcut : k < (LogWriter.addRecord crc ⟨[], o⟩ record).dest_.length
    · -- the file ends inside of the next record
      rw [List.take_append_of_le_length hcut.le] at h
      refine ⟨0, Nat.zero_le _, by simp [logOf], fun _ => ?_, ?_⟩
      · simpa [logOf] using hcut
      · exact recoverRounds_stop (h.readBroken (List.take_prefix _ _) (by simpa using hcut)) _ _
    · rw [List.take_append, List.take_of_length_le (by omega)] at h hrounds
      obtain ⟨hread, hstand⟩ := h.readRecord
      have hpos := addRecord_pos crc o record
      rw [List.length_append] at hrounds
      obtain ⟨j, hj, hwhole, hnext, hrec⟩ := @ih _ _ _ rounds (s.replay record) hstand (by omega)
      refine ⟨j + 1, by simpa using hj, ?_, fun hlt => ?_, ?_⟩
      · rw [List.take_succ_cons, logOf_cons, List.length_append]
        omega
      · have := hnext (by simpa using hlt)
        rw [List.take_succ_cons, logOf_cons, List.length_append]
        omega
      · rw [List.take_succ_cons, List.foldl_cons, ← hrec]
        conv_lhs => unfold recoverRounds
        rw [show r.readRecord crc = (some record, (r.readRecord crc).2) from Prod.ext hread rfl]

/-- Wherever the file of a log is cut, the records that are whole in it are replayed, in order, and
nothing of the one it breaks off in, over however many blocks the records were spread. -/
theorem log_replays_whole_records (records : List (List UInt8)) (k : Nat) (heights : List Nat) :
    ∃ j ≤ records.length,
      ((records.take j).foldl (LogWriter.addRecord crc) LogWriter.empty).dest_.length ≤ k ∧
      (j < records.length →
        k < ((records.take (j + 1)).foldl (LogWriter.addRecord crc) LogWriter.empty).dest_.length) ∧
      recoverLogFile crc
          ((records.foldl (LogWriter.addRecord crc) LogWriter.empty).dest_.take k) heights =
        (records.take j).foldl Recovered.replay ⟨SkipList.empty, 0, heights⟩ := by
  -- the reader starts as at the end of a block
  have hstart := standing_start ((logOf crc kBlockSize records).dest_.take k)
  obtain ⟨j, hj, hwhole, hnext, hrecovered⟩ :=
    hstart.recover records ⟨SkipList.empty, 0, heights⟩ (Nat.lt_succ_self _)
  simp only [logOf_start] at hwhole hnext hrecovered
  exact ⟨j, hj, hwhole, hnext, hrecovered⟩

end Log

end Triangles.LevelDb
