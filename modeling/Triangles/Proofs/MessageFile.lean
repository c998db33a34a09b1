import Triangles.Model.SmsgNet
import Triangles.Model.SmsgStore
import Triangles.Proofs.RoundTrip

/-! What is read back from the bytes of a message between nodes. -/

namespace Triangles

theorem signedBytes_length (width : Nat) (n : Int) : (signedBytes width n).length = width := by
  simp [signedBytes]

theorem slice_left {l rest : List UInt8} {n : Nat} (h : l.length = n) : slice (l ++ rest) 0 n = l := by
  rw [slice, List.drop_zero, List.take_left' h]

theorem slice_right (pre : List UInt8) {l : List UInt8} {n k : Nat} (offset : Nat) (h : pre.length = n) :
    slice (pre ++ l) (n + offset) k = slice l offset k := by
  subst h
  rw [slice, slice, List.drop_append, List.drop_eq_nil_of_le (Nat.le_add_right _ _),
    List.nil_append, Nat.add_sub_cancel_left]

/-- An `int64_t` is read back. -/
theorem int64Of_signedBytes {n : Int} (h : InInt64 n) : int64Of (signedBytes 8 n) = n := by
  have hvalue : leValue (signedBytes 8 n) = (n % 256 ^ 8).toNat := by
    unfold signedBytes
    rw [leValue_wordBytes]
    apply Nat.mod_eq_of_lt
    omega
  have htake : (signedBytes 8 n).take 8 = signedBytes 8 n :=
    List.take_of_length_le (signedBytes_length 8 n).le
  unfold InInt64 at h
  unfold int64Of
  rw [htake, hvalue]
  simp only
  split <;> omega

/-- Within the vector nothing is read from behind it. -/
theorem readMemory_eq_slice {v : List UInt8} {offset n : Nat} (h : offset + n ≤ v.length)
    (beyond : Nat → UInt8) : readMemory v beyond offset n = slice v offset n := by
  apply List.ext_getElem
  · rw [readMemory_length, slice, List.length_take, List.length_drop]
    omega
  · intro i hi hi'
    rw [readMemory_length] at hi
    have hin : offset + i < v.length := by omega
    simp [readMemory, slice, hin]

theorem slice_slice (v : List UInt8) (offset : Nat) {w a n : Nat} (h : a + n ≤ w) :
    slice (slice v offset w) a n = slice v (offset + a) n := by
  unfold slice
  rw [List.drop_take, List.take_take, List.drop_drop, Nat.min_eq_left (by omega)]

section Entries

variable {α : Type} {f : α → List UInt8} {w : Nat}

theorem entries_length (hf : ∀ a, (f a).length = w) (l : List α) :
    (l.flatMap f).length = w * l.length := by
  induction l with
  | nil => simp
  | cons a l ih =>
    rw [List.flatMap_cons, List.length_append, hf, ih, List.length_cons, Nat.mul_succ, Nat.add_comm]

/-- An entry of a list whose entries all have one width. -/
theorem slice_entry (hf : ∀ a, (f a).length = w) (pre : List UInt8) (l : List α) (i : Nat)
    (hi : i < l.length) : slice (pre ++ l.flatMap f) (pre.length + w * i) w = f l[i] := by
  induction l generalizing pre i with
  | nil => cases hi
  | cons a l ih =>
    rw [List.flatMap_cons]
    cases i with
    | zero =>
      rw [Nat.mul_zero, slice_right _ 0 rfl]
      exact slice_left (hf a)
    | succ i =>
      have hrest := ih (pre ++ f a) i (Nat.lt_of_succ_lt_succ hi)
      rw [List.append_assoc, List.length_append, hf, Nat.add_assoc, Nat.add_comm w,
        ← Nat.mul_succ] at hrest
      exact hrest

/-- A loop over places that looks at the entries there. -/
theorem range_filter_map {β : Type} (l : List α) {p : Nat → Bool} {g : Nat → β} {q : α → Bool}
    {h : α → β} (hp : ∀ i (hi : i < l.length), p i = q l[i])
    (hg : ∀ i (hi : i < l.length), g i = h l[i]) :
    ((List.range l.length).filter p).map g = (l.filter q).map h := by
  induction l generalizing p g with
  | nil => rfl
  | cons a l ih =>
    have hhead := hp 0 (Nat.succ_pos _)
    have htail := ih (p := fun i => p (i + 1)) (g := fun i => g (i + 1))
      (fun i hi => hp (i + 1) (Nat.succ_lt_succ hi)) (fun i hi => hg (i + 1) (Nat.succ_lt_succ hi))
    rw [List.length_cons, List.range_succ_eq_map, List.filter_cons, List.filter_cons, List.filter_map,
      hhead]
    have hrest : (((List.range l.length).filter (p ∘ Nat.succ)).map Nat.succ).map g =
        (l.filter q).map h := by
      rw [List.map_map]
      exact htail
    rw [List.getElem_cons_zero]
    split
    · rw [List.map_cons, List.map_cons, hrest, hg 0 (Nat.succ_pos _), List.getElem_cons_zero]
    · exact hrest

theorem range_map {β : Type} (l : List α) {g : Nat → β} {h : α → β}
    (hg : ∀ i (hi : i < l.length), g i = h l[i]) : (List.range l.length).map g = l.map h := by
  have hall := range_filter_map l (p := fun _ => true) (q := fun _ => true) (fun _ _ => rfl) hg
  rwa [List.filter_true, List.filter_true] at hall

end Entries

theorem TokenKey.bytes_length (k : TokenKey) : k.bytes.length = 16 := by
  rw [TokenKey.bytes, List.length_append, signedBytes_length, k.sample_length]

theorem tokenAt_eq {v : List UInt8} {offset : Nat} {k : TokenKey}
    (h : slice v offset 16 = k.bytes) : tokenAt v offset = k := by
  have htime : slice v offset 8 = signedBytes 8 k.timestamp := by
    have hleft := slice_slice v offset (w := 16) (a := 0) (n := 8) (by decide)
    rw [h, Nat.add_zero] at hleft
    rw [← hleft]
    exact slice_left (signedBytes_length 8 _)
  have hsample : slice v (offset + 8) 8 = k.sample := by
    have hright := slice_slice v offset (w := 16) (a := 8) (n := 8) (by decide)
    rw [h] at hright
    have hr := slice_right (signedBytes 8 k.timestamp) (l := k.sample) (k := 8) 0
      (signedBytes_length 8 _)
    rw [← hright, TokenKey.bytes, hr, slice, List.drop_zero,
      List.take_of_length_le k.sample_length.le]
  have height : eightBytes k.sample = k.sample := by
    rw [eightBytes, List.take_append_of_le_length k.sample_length.ge,
      List.take_of_length_le k.sample_length.le]
  obtain ⟨timestamp, sample, hrange, hlength⟩ := k
  unfold tokenAt
  simp only at htime hsample height
  simp only [htime, hsample, height, int64Of_signedBytes hrange]

end Triangles

/-! Bucket files: what is read back from a file of messages. -/

namespace Triangles

section Records

theorem slice_append (pre l post : List UInt8) : slice (pre ++ (l ++ post)) pre.length l.length = l := by
  rw [slice, List.drop_left, List.take_left]

theorem Smsg.bytes_length (m : Smsg) : m.bytes.length = SMSG_HDR_LEN + m.payload.length := by
  rw [Smsg.bytes, List.length_append, m.header.length]

theorem Smsg.bytes_pos (m : Smsg) : 0 < m.bytes.length := by
  rw [m.bytes_length]
  exact Nat.add_pos_left (by decide) _

/-- A header where it stands in a file. -/
theorem slice_header (pre post : List UInt8) (m : Smsg) :
    slice (pre ++ (m.bytes ++ post)) pre.length SMSG_HDR_LEN = m.header.bytes := by
  have h := slice_append pre m.header.bytes (m.payload ++ post)
  rw [m.header.length] at h
  rw [Smsg.bytes, List.append_assoc]
  exact h

theorem slice_payload (pre post : List UInt8) (m : Smsg) {n : Nat} (hn : n ≤ m.payload.length) :
    slice (pre ++ (m.bytes ++ post)) (pre.length + SMSG_HDR_LEN) n = m.payload.take n := by
  have hlen : (pre ++ m.header.bytes).length = pre.length + SMSG_HDR_LEN := by
    rw [List.length_append, m.header.length]
  have hsplit : pre ++ (m.bytes ++ post) = (pre ++ m.header.bytes) ++ (m.payload ++ post) := by
    simp [Smsg.bytes]
  rw [slice, hsplit, ← hlen, List.drop_left, List.take_append_of_le_length hn]

/-- A message is read back from where it was written. -/
theorem readFile_append (pre post : List UInt8) (m : Smsg) :
    readFile (pre ++ (m.bytes ++ post)) pre.length = some m := by
  have hheader := slice_header pre post m
  have hpayload : slice (pre ++ (m.bytes ++ post)) (pre.length + SMSG_HDR_LEN) m.header.nPayload =
      m.payload := by
    rw [slice_payload pre post m m.nPayload_eq.ge, ← m.nPayload_eq, List.take_length]
  obtain ⟨⟨bytes, hlen⟩, payload, hp⟩ := m
  unfold readFile
  simp only [hheader, hlen, dite_true]
  simp only at hp hpayload
  simp only [hpayload, hp, dite_true]

end Records

def recorded : Nat → List Smsg → List (TokenKey × Nat)
  | _, [] => []
  | ofs, m :: ms => (m.token, ofs) :: recorded (ofs + m.bytes.length) ms

section Recorded

theorem recorded_keys (ofs : Nat) (ms : List Smsg) :
    (recorded ofs ms).map Prod.fst = ms.map Smsg.token := by
  induction ms generalizing ofs with
  | nil => rfl
  | cons m ms ih => rw [recorded, List.map_cons, List.map_cons, ih]

theorem recorded_append (ofs : Nat) (ms ms' : List Smsg) :
    recorded ofs (ms ++ ms') =
      recorded ofs ms ++ recorded (ofs + (ms.flatMap Smsg.bytes).length) ms' := by
  induction ms generalizing ofs with
  | nil => simp [recorded]
  | cons m ms ih =>
    simp only [List.cons_append, recorded, ih, List.flatMap_cons, List.length_append,
      Nat.add_assoc]

theorem mem_recorded {ofs : Nat} {ms : List Smsg} {k : TokenKey} {offset : Nat}
    (h : (k, offset) ∈ recorded ofs ms) : ∃ pre m post, ms = pre ++ m :: post ∧ k = m.token ∧
      offset = ofs + (pre.flatMap Smsg.bytes).length := by
  induction ms generalizing ofs with
  | nil => cases h
  | cons m ms ih =>
    rcases List.mem_cons.mp h with heq | h
    · obtain ⟨rfl, rfl⟩ := Prod.mk.inj heq
      exact ⟨[], m, ms, rfl, rfl, by simp⟩
    · obtain ⟨pre, m', post, rfl, hk, ho⟩ := ih h
      refine ⟨m :: pre, m', post, rfl, hk, ?_⟩
      rw [ho, List.flatMap_cons, List.length_append, Nat.add_assoc]

theorem Smsg.token_sample (m : Smsg) (h : 8 ≤ m.payload.length) :
    m.token.sample = m.payload.take 8 := by
  simp only [Smsg.token, if_neg (Nat.not_lt.mpr h), eightBytes, List.take_append_of_le_length h]

/-- What the scan does with one message: a short payload is not skipped. -/
theorem scanTokens_message (pre post : List UInt8) (m : Smsg) (rounds : Nat) (t : TokenSet) :
    scanTokens (pre ++ (m.bytes ++ post)) (rounds + 1) pre.length t =
      if m.payload.length < 8 then
        scanTokens (pre ++ (m.bytes ++ post)) rounds (pre.length + SMSG_HDR_LEN) t
      else
        scanTokens (pre ++ (m.bytes ++ post)) rounds (pre.length + m.bytes.length)
          (t.insertIfNew m.token pre.length) := by
  have hheader := slice_header pre post m
  rw [scanTokens]
  simp only [hheader, m.header.length, dite_true]
  rw [← m.nPayload_eq]
  split
  · rfl
  · rename_i hm
    have hsample := slice_payload pre post m (Nat.not_lt.mp hm)
    have htoken : ∀ hr hl, (⟨m.header.timestamp, m.payload.take 8, hr, hl⟩ : TokenKey) =
        m.token := by
      intro hr hl
      simp only [← m.token_sample (Nat.not_lt.mp hm)]
      rfl
    simp only [hsample, List.length_take, Nat.min_eq_left (Nat.not_lt.mp hm), dite_true]
    rw [m.bytes_length, Nat.add_assoc]
    congr 2
    exact htoken _ _

theorem scanTokens_end (file : List UInt8) (rounds : Nat) (t : TokenSet) :
    scanTokens file rounds file.length t = t := by
  cases rounds with
  | zero => rfl
  | succ rounds =>
    rw [scanTokens, dif_neg]
    rw [slice, List.drop_length]
    exact fun h => absurd h (by decide)

/-- The scan finds the token of every message until a payload is short. -/
theorem scanTokens_long (pre : List UInt8) (ms : List Smsg) (post : List UInt8)
    (hlong : ∀ m ∈ ms, 8 ≤ m.payload.length) (rounds : Nat) (t : TokenSet) :
    scanTokens (pre ++ (ms.flatMap Smsg.bytes ++ post)) (ms.length + rounds) pre.length t =
      scanTokens (pre ++ (ms.flatMap Smsg.bytes ++ post)) rounds
        (pre.length + (ms.flatMap Smsg.bytes).length)
        ((recorded pre.length ms).foldl (fun t p => t.insertIfNew p.1 p.2) t) := by
  induction ms generalizing pre t with
  | nil => simp [recorded]
  | cons m ms ih =>
    have hm := hlong m List.mem_cons_self
    have hrest := ih (pre ++ m.bytes) (fun m' h => hlong m' (List.mem_cons_of_mem _ h))
      (t.insertIfNew m.token pre.length)
    have hfile : pre ++ m.bytes ++ (ms.flatMap Smsg.bytes ++ post) =
        pre ++ (m.bytes ++ (ms.flatMap Smsg.bytes ++ post)) := by simp
    rw [hfile, List.length_append] at hrest
    rw [List.flatMap_cons, List.append_assoc, List.length_cons, Nat.add_right_comm,
      scanTokens_message, if_neg (Nat.not_lt.mpr hm), hrest, recorded, List.foldl_cons,
      List.length_append, Nat.add_assoc]

/-- The scan of a file whose payloads all have eight bytes finds every token. -/
theorem scanTokens_all (ms : List Smsg) (hlong : ∀ m ∈ ms, 8 ≤ m.payload.length)
    {rounds : Nat} (hrounds : ms.length ≤ rounds) (t : TokenSet) :
    scanTokens (ms.flatMap Smsg.bytes) rounds 0 t =
      (recorded 0 ms).foldl (fun t p => t.insertIfNew p.1 p.2) t := by
  obtain ⟨rest, rfl⟩ := Nat.exists_eq_add_of_le hrounds
  have hscan := scanTokens_long [] ms [] hlong rest t
  rw [List.append_nil, List.nil_append, List.length_nil, Nat.zero_add, scanTokens_end] at hscan
  exact hscan

/-- The scan adds no token before the place where it is. -/
theorem scanTokens_from (file : List UInt8) (rounds ofs : Nat) {t : TokenSet} {k : TokenKey}
    {offset : Nat} (h : (scanTokens file rounds ofs t)[k]? = some offset) :
    t[k]? = some offset ∨ ofs ≤ offset := by
  induction rounds generalizing ofs t with
  | zero => exact .inl h
  | succ rounds ih =>
    rw [scanTokens] at h
    split at h
    · simp only at h
      split at h
      · exact (ih _ h).imp_right fun hle => Nat.le_of_add_right_le hle
      · split at h
        · rcases ih _ h with hin | hle
          · rw [Std.ExtTreeMap.getElem?_insertIfNew] at hin
            split at hin
            · exact .inr (Option.some.inj hin).le
            · exact .inl hin
          · exact .inr (by omega)
        · exact .inl h
    · exact .inl h

theorem scanFile_append (pre post : List UInt8) (m : Smsg) (rounds : Nat) :
    scanFile (pre ++ (m.bytes ++ post)) (rounds + 1) pre.length =
      m :: scanFile (pre ++ (m.bytes ++ post)) rounds (pre.length + m.bytes.length) := by
  rw [scanFile, readFile_append]

theorem scanFile_all (pre : List UInt8) (ms : List Smsg) {rounds : Nat}
    (hrounds : ms.length ≤ rounds) :
    scanFile (pre ++ ms.flatMap Smsg.bytes) rounds pre.length = ms := by
  induction ms generalizing pre rounds with
  | nil =>
    cases rounds with
    | zero => rfl
    | succ rounds =>
      have hshort : readFile pre pre.length = none := by
        unfold readFile
        rw [dif_neg]
        rw [slice, List.drop_length]
        exact fun h => absurd h (by decide)
      rw [List.flatMap_nil, List.append_nil, scanFile, hshort]
  | cons m ms ih =>
    cases rounds with
    | zero => simp at hrounds
    | succ rounds =>
      have hrest := ih (pre ++ m.bytes) (Nat.le_of_succ_le_succ hrounds)
      rw [List.append_assoc, List.length_append] at hrest
      rw [List.flatMap_cons, scanFile_append, hrest]

theorem length_le_flatMap (ms : List Smsg) : ms.length ≤ (ms.flatMap Smsg.bytes).length := by
  induction ms with
  | nil => exact Nat.le_refl 0
  | cons m ms ih =>
    have hpos := m.bytes_pos
    rw [List.flatMap_cons, List.length_cons, List.length_append]
    omega

end Recorded

end Triangles
