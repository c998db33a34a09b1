import Triangles.Model.LevelBlock
import Triangles.Proofs.LevelBatch

/-! The bytes of a block of a table file: where the builder has put the entries, and how one is
read. -/

namespace Triangles.LevelDb

/-! The layout. -/

section Layout

theorem sharedLength_le (as bs : List UInt8) :
    sharedLength as bs ≤ as.length ∧ sharedLength as bs ≤ bs.length ∧
      as.take (sharedLength as bs) = bs.take (sharedLength as bs) := by
  induction as generalizing bs with
  | nil => simp [sharedLength]
  | cons a as ih =>
    cases bs with
    | nil => simp [sharedLength]
    | cons b bs =>
      rw [sharedLength]
      by_cases hab : a = b
      · obtain ⟨hle, hle', htake⟩ := ih bs
        rw [if_pos hab, List.length_cons, List.length_cons, List.take_succ_cons, List.take_succ_cons,
          htake, hab]
        exact ⟨Nat.succ_le_succ hle, Nat.succ_le_succ hle', rfl⟩
      · rw [if_neg hab]
        exact ⟨Nat.zero_le _, Nat.zero_le _, rfl⟩

abbrev Entry := List UInt8 × List UInt8

variable {interval : Nat} {es : List Entry}

theorem getD_of_getElem? {i : Nat} {e : Entry} (h : es[i]? = some e) : es.getD i ([], []) = e := by
  rw [List.getD_eq_getElem?_getD, h, Option.getD_some]

theorem getD_eq_getElem {i : Nat} (h : i < es.length) : es.getD i ([], []) = es[i] :=
  getD_of_getElem? (List.getElem?_eq_getElem h)

def sharedAt (interval : Nat) (es : List Entry) (i : Nat) : Nat :=
  if i % interval = 0 then 0
  else sharedLength ((es.getD (i - 1) ([], [])).1) ((es.getD i ([], [])).1)

def entryBytes (shared : Nat) (e : Entry) : List UInt8 :=
  encodeVarint32 shared ++ (encodeVarint32 (e.1.length - shared) ++ (encodeVarint32 e.2.length ++
    (e.1.drop shared ++ e.2)))

def bytesAt (interval : Nat) (es : List Entry) (i : Nat) : List UInt8 :=
  entryBytes (sharedAt interval es i) (es.getD i ([], []))

def bytesUpTo (interval : Nat) (es : List Entry) (i : Nat) : List UInt8 :=
  (List.range i).flatMap (bytesAt interval es)

/-- Where an entry begins. -/
def offset (interval : Nat) (es : List Entry) (i : Nat) : Nat := (bytesUpTo interval es i).length

theorem bytesUpTo_succ (i : Nat) :
    bytesUpTo interval es (i + 1) = bytesUpTo interval es i ++ bytesAt interval es i := by
  rw [bytesUpTo, List.range_succ, List.flatMap_append, List.flatMap_singleton]
  rfl

theorem length_encodeVarint32_pos (v : Nat) : 1 ≤ (encodeVarint32 v).length := by
  unfold encodeVarint32
  dsimp only
  split_ifs <;> simp

variable (interval es) in
theorem length_bytesAt (i : Nat) : 3 ≤ (bytesAt interval es i).length := by
  have h₁ := length_encodeVarint32_pos (sharedAt interval es i)
  have h₂ := length_encodeVarint32_pos ((es.getD i ([], [])).1.length - sharedAt interval es i)
  have h₃ := length_encodeVarint32_pos (es.getD i ([], [])).2.length
  simp only [bytesAt, entryBytes, List.length_append]
  omega

variable (interval es) in
theorem offset_succ (i : Nat) :
    offset interval es (i + 1) = offset interval es i + (bytesAt interval es i).length := by
  rw [offset, bytesUpTo_succ, List.length_append]
  rfl

theorem offset_strictMono {i j : Nat} (h : i < j) : offset interval es i < offset interval es j := by
  induction j with
  | zero => omega
  | succ j ih =>
    have hlen := length_bytesAt interval es j
    rw [offset_succ]
    obtain hlt | heq := Nat.lt_or_eq_of_le (Nat.le_of_lt_succ h)
    · have := ih hlt
      omega
    · rw [heq]
      omega

theorem offset_lt_iff {i j : Nat} : offset interval es i < offset interval es j ↔ i < j := by
  refine ⟨fun h => ?_, offset_strictMono⟩
  by_contra hle
  obtain hlt | rfl := Nat.lt_or_eq_of_le (Nat.not_lt.mp hle)
  · have : offset interval es j < offset interval es i := offset_strictMono hlt
    omega
  · exact absurd h (Nat.lt_irrefl _)

variable (interval es) in
theorem le_offset (i : Nat) : i ≤ offset interval es i := by
  induction i with
  | zero => exact Nat.zero_le _
  | succ i ih =>
    have hlen := length_bytesAt interval es i
    rw [offset_succ]
    omega

theorem bytesUpTo_drop {i n : Nat} (h : i < n) :
    ∃ rest, (bytesUpTo interval es n).drop (offset interval es i) = bytesAt interval es i ++ rest ∧
      rest.length = offset interval es n - offset interval es (i + 1) := by
  induction n with
  | zero => omega
  | succ n ih =>
    rw [bytesUpTo_succ]
    obtain hlt | rfl := Nat.lt_or_eq_of_le (Nat.le_of_lt_succ h)
    · obtain ⟨rest, hdrop, hlen⟩ := ih hlt
      have hle : offset interval es i < offset interval es n := offset_strictMono hlt
      have hle' : offset interval es (i + 1) ≤ offset interval es n := by
        by_cases heq : i + 1 = n
        · rw [heq]
        · exact (offset_strictMono (by omega)).le
      refine ⟨rest ++ bytesAt interval es n, ?_, ?_⟩
      · rw [List.drop_append_of_le_length hle.le, hdrop, List.append_assoc]
      · have hn := offset_succ interval es n
        rw [List.length_append, hlen]
        omega
    · refine ⟨[], ?_, by simp⟩
      have hleft : (bytesUpTo interval es i ++ bytesAt interval es i).drop (offset interval es i) =
          bytesAt interval es i := List.drop_left
      rw [hleft, List.append_nil]

theorem bytesAt_append {i : Nat} (e : Entry) (h : i < es.length) :
    bytesAt interval (es ++ [e]) i = bytesAt interval es i := by
  have hget : ∀ j < es.length, (es ++ [e]).getD j ([], []) = es.getD j ([], []) := by
    intro j hj
    rw [List.getD_eq_getElem?_getD, List.getD_eq_getElem?_getD, List.getElem?_append_left hj]
  rw [bytesAt, bytesAt, sharedAt, sharedAt, hget i h, hget (i - 1) (by omega)]

theorem bytesUpTo_append {i : Nat} (e : Entry) (h : i ≤ es.length) :
    bytesUpTo interval (es ++ [e]) i = bytesUpTo interval es i := by
  induction i with
  | zero => rfl
  | succ i ih => rw [bytesUpTo_succ, bytesUpTo_succ, ih (by omega), bytesAt_append e (by omega)]

theorem offset_append {i : Nat} (e : Entry) (h : i ≤ es.length) :
    offset interval (es ++ [e]) i = offset interval es i := by
  rw [offset, bytesUpTo_append e h, offset]

/-- A builder holds some entries: since `q` restarts and so many entries more. -/
structure BuiltOf (interval : Nat) (es : List Entry) (b : BlockBuilder) (q : Nat) : Prop where
  count : q * interval + b.counter_ = es.length
  counter : b.counter_ ≤ interval ∧ (b.counter_ = 0 → es = [])
  buffer : b.buffer_ = bytesUpTo interval es es.length
  restarts : b.restarts_ = (List.range (q + 1)).map fun r => LevelDb.offset interval es (r * interval)
  last : b.last_key_ = (es.getD (es.length - 1) ([], [])).1
  fits : ∀ e ∈ es, e.1.length ≤ b.buffer_.length ∧ e.2.length ≤ b.buffer_.length

theorem uint32_t_eq {n : Nat} (h : n < 2 ^ 32) : uint32_t n = n := Nat.mod_eq_of_lt h

variable (interval) in
theorem length_add (b : BlockBuilder) (key value : List UInt8) :
    b.buffer_.length + value.length ≤ (b.add interval key value).buffer_.length ∧
      (b.last_key_.length ≤ b.buffer_.length →
        key.length ≤ (b.add interval key value).buffer_.length) := by
  obtain ⟨hle, hle', -⟩ := sharedLength_le b.last_key_ key
  by_cases h : b.counter_ < interval
  · simp only [BlockBuilder.add, h, not_true_eq_false, if_false, List.length_append, List.length_take,
      List.length_drop]
    omega
  · simp only [BlockBuilder.add, h, not_false_eq_true, if_true, List.length_append, List.length_take,
      List.length_drop]
    omega

theorem BuiltOf.length_last {b : BlockBuilder} {q : Nat} (h : BuiltOf interval es b q) :
    b.last_key_.length ≤ b.buffer_.length := by
  rw [h.last, List.getD_eq_getElem?_getD]
  cases hlast : es[es.length - 1]? with
  | none => exact Nat.zero_le _
  | some e => exact (h.fits e (List.mem_of_getElem? hlast)).1

theorem BuiltOf.add {b : BlockBuilder} {q : Nat} (h : BuiltOf interval es b q) (hpos : 0 < interval)
    {e : Entry} (hsize : (b.add interval e.1 e.2).buffer_.length < 2 ^ 32) :
    ∃ q', BuiltOf interval (es ++ [e]) (b.add interval e.1 e.2) q' := by
  obtain ⟨hgrown, hkey⟩ := length_add interval b e.1 e.2
  replace hkey := hkey h.length_last
  have hcount := h.count
  obtain ⟨hcounter, hzero⟩ := h.counter
  have hget : (es ++ [e]).getD es.length ([], []) = e := by
    rw [List.getD_eq_getElem?_getD, List.getElem?_concat_length, Option.getD_some]
  have hlen : (es ++ [e]).length = es.length + 1 := by rw [List.length_append, List.length_singleton]
  have hoffsets : ∀ q, q * interval ≤ es.length →
      ((List.range (q + 1)).map fun r => LevelDb.offset interval (es ++ [e]) (r * interval)) =
        (List.range (q + 1)).map fun r => LevelDb.offset interval es (r * interval) := by
    intro q hq
    refine List.map_congr_left fun r hr => offset_append e ?_
    have hle : r ≤ q := Nat.le_of_lt_succ (List.mem_range.mp hr)
    exact (Nat.mul_le_mul_right interval hle).trans hq
  have hbytes : ∀ shared ≤ e.1.length, sharedAt interval (es ++ [e]) es.length = shared →
      b.buffer_ ++ (encodeVarint32 (uint32_t shared) ++ (encodeVarint32 (uint32_t (e.1.length - shared)) ++
        (encodeVarint32 (uint32_t e.2.length) ++
          ((e.1.drop shared).take (e.1.length - shared) ++ e.2)))) =
        bytesUpTo interval (es ++ [e]) (es ++ [e]).length := by
    intro shared hle hshared
    rw [hlen, bytesUpTo_succ, bytesUpTo_append e (Nat.le_refl _), ← h.buffer, bytesAt, hget, hshared,
      uint32_t_eq (by omega), uint32_t_eq (by omega), uint32_t_eq (by omega),
      List.take_of_length_le (by rw [List.length_drop])]
    rfl
  have hlast : ((es ++ [e]).getD ((es ++ [e]).length - 1) ([], [])).1 = e.1 := by
    rw [hlen, Nat.add_sub_cancel, hget]
  have hfits : ∀ e' ∈ es ++ [e], e'.1.length ≤ (b.add interval e.1 e.2).buffer_.length ∧
      e'.2.length ≤ (b.add interval e.1 e.2).buffer_.length := by
    intro e' he'
    obtain he' | he' := List.mem_append.mp he'
    · obtain ⟨hk, hv⟩ := h.fits e' he'
      exact ⟨by omega, by omega⟩
    · obtain rfl := List.mem_singleton.mp he'
      exact ⟨hkey, by omega⟩
  by_cases hrestart : b.counter_ < interval
  · -- the key is put down as the end that differs
    obtain ⟨hle, hle', htake⟩ := sharedLength_le b.last_key_ e.1
    have hshared : sharedAt interval (es ++ [e]) es.length = sharedLength b.last_key_ e.1 := by
      rw [sharedAt, hget]
      by_cases hempty : es = []
      · subst hempty
        rw [h.last]
        rfl
      · have hne : b.counter_ ≠ 0 := fun hc => hempty (hzero hc)
        have hmod : ¬ es.length % interval = 0 := by
          rw [← hcount, Nat.mul_comm, Nat.mul_add_mod, Nat.mod_eq_of_lt hrestart]
          exact hne
        have hprev : (es ++ [e]).getD (es.length - 1) ([], []) = es.getD (es.length - 1) ([], []) := by
          have hpos := List.length_pos_iff.mpr hempty
          rw [List.getD_eq_getElem?_getD, List.getD_eq_getElem?_getD,
            List.getElem?_append_left (by omega)]
        rw [if_neg hmod, hprev, h.last]
    refine ⟨q, ?_, ?_, ?_, ?_, ?_, hfits⟩
    · simp only [BlockBuilder.add, hrestart, not_true_eq_false, if_false, hlen]
      omega
    · simp only [BlockBuilder.add, hrestart, not_true_eq_false, if_false]
      exact ⟨hrestart, fun hc => by omega⟩
    · simp only [BlockBuilder.add, hrestart, not_true_eq_false, if_false]
      exact hbytes _ hle' hshared
    · simp only [BlockBuilder.add, hrestart, not_true_eq_false, if_false]
      rw [h.restarts, hoffsets q (by omega)]
    · simp only [BlockBuilder.add, hrestart, not_true_eq_false, if_false, hlast]
      have hrest : (e.1.drop (sharedLength b.last_key_ e.1)).length ≤
          e.1.length - sharedLength b.last_key_ e.1 := List.length_drop.le
      rw [htake, List.take_of_length_le hrest, List.take_append_drop]
  · -- a restart
    have hfull : b.counter_ = interval := by omega
    have hnext : (q + 1) * interval = es.length := by
      rw [Nat.succ_mul, ← hcount, hfull]
    have hshared : sharedAt interval (es ++ [e]) es.length = 0 := by
      rw [sharedAt, if_pos (by rw [← hnext, Nat.mul_mod_left])]
    refine ⟨q + 1, ?_, ?_, ?_, ?_, ?_, hfits⟩
    · simp only [BlockBuilder.add, hrestart, not_false_eq_true, if_true, hlen]
      omega
    · simp only [BlockBuilder.add, hrestart, not_false_eq_true, if_true]
      exact ⟨by omega, fun hc => by omega⟩
    · simp only [BlockBuilder.add, hrestart, not_false_eq_true, if_true]
      exact hbytes 0 (Nat.zero_le _) hshared
    · simp only [BlockBuilder.add, hrestart, not_false_eq_true, if_true]
      rw [List.range_succ, List.map_append, hoffsets q (by omega), h.restarts,
        uint32_t_eq (by omega), h.buffer, List.map_singleton, hnext,
        offset_append e (Nat.le_refl _)]
      rfl
    · rw [hlast]
      simp [BlockBuilder.add, hrestart]

theorem buildBlock_built (hpos : 0 < interval)
    (hsize : (buildBlock interval es).buffer_.length < 2 ^ 32) :
    ∃ q, BuiltOf interval es (buildBlock interval es) q := by
  induction es using List.reverseRecOn with
  | nil =>
    refine ⟨0, ?_, ⟨Nat.zero_le _, fun _ => rfl⟩, rfl, ?_, rfl, by simp⟩
    · simp [buildBlock, BlockBuilder.reset]
    · simp [buildBlock, BlockBuilder.reset, offset, bytesUpTo]
  | append_singleton es e ih =>
    have hadd : buildBlock interval (es ++ [e]) = (buildBlock interval es).add interval e.1 e.2 := by
      rw [buildBlock, List.foldl_append]
      rfl
    rw [hadd] at hsize ⊢
    have hgrown := (length_add interval (buildBlock interval es) e.1 e.2).1
    obtain ⟨q, hbuilt⟩ := ih (by omega)
    exact hbuilt.add hpos hsize

end Layout

/-! Reading an entry. -/

section Decode

theorem getVarint32_short {a : UInt8} (h : a.toNat < 128) (rest : List UInt8) :
    getVarint32 (a :: rest) = some (a.toNat, rest) := by
  have hmark := (plain_digit h).2
  simp only [getVarint32, varint32Rounds, hmark, ne_eq, not_true_eq_false, if_false, Nat.shiftLeft_zero,
    Nat.zero_or]
  rw [Nat.mod_eq_of_lt (by omega)]

/-- The fast path reads what the slow one would. -/
theorem decodeEntry_eq {p : List UInt8} (h : 3 ≤ p.length) :
    decodeEntry p = (decodeLengths p).bind fun (shared, non_shared, value_length, p) =>
      if uint32_t p.length < uint32_t (non_shared + value_length) then none
      else some (shared, non_shared, value_length, p) := by
  match p, h with
  | a :: b :: c :: rest, _ =>
    by_cases hshort : a.toNat ||| b.toNat ||| c.toNat < 128
    · have hab : a.toNat ||| b.toNat < 128 := lt_of_le_of_lt Nat.left_le_or hshort
      have ha : a.toNat < 128 := lt_of_le_of_lt Nat.left_le_or hab
      have hb : b.toNat < 128 := lt_of_le_of_lt Nat.right_le_or hab
      have hc : c.toNat < 128 := lt_of_le_of_lt Nat.right_le_or hshort
      simp [decodeEntry, decodeLengths, hshort, getVarint32_short ha, getVarint32_short hb,
        getVarint32_short hc]
    · simp only [decodeEntry, hshort, if_false]
      rfl

theorem decodeEntry_bytes {shared : Nat} {e : Entry} (rest : List UInt8) (hshared : shared ≤ e.1.length)
    (hkey : e.1.length < 2 ^ 32) (hsize : e.1.length - shared + e.2.length + rest.length < 2 ^ 32) :
    decodeEntry (entryBytes shared e ++ rest) =
      some (shared, e.1.length - shared, e.2.length, e.1.drop shared ++ (e.2 ++ rest)) := by
  have hlengths : decodeLengths (entryBytes shared e ++ rest) =
      some (shared, e.1.length - shared, e.2.length, e.1.drop shared ++ (e.2 ++ rest)) := by
    simp only [decodeLengths, entryBytes, List.append_assoc, Option.bind_eq_bind,
      getVarint32_encode (show shared < 2 ^ 32 by omega), Option.bind_some,
      getVarint32_encode (show e.1.length - shared < 2 ^ 32 by omega),
      getVarint32_encode (show e.2.length < 2 ^ 32 by omega)]
  have hthree : 3 ≤ (entryBytes shared e ++ rest).length := by
    have h₁ := length_encodeVarint32_pos shared
    have h₂ := length_encodeVarint32_pos (e.1.length - shared)
    have h₃ := length_encodeVarint32_pos e.2.length
    simp only [entryBytes, List.length_append]
    omega
  have hroom : ¬ uint32_t (e.1.drop shared ++ (e.2 ++ rest)).length <
      uint32_t (e.1.length - shared + e.2.length) := by
    rw [List.length_append, List.length_append, List.length_drop, uint32_t_eq (by omega),
      uint32_t_eq (by omega)]
    omega
  rw [decodeEntry_eq hthree, hlengths, Option.bind_some]
  exact if_neg hroom

end Decode

end Triangles.LevelDb
