import Triangles.Lib.Lz77
import Triangles.Model.Lz4
import Triangles.Proofs.RoundTrip

/-! XXH32 of a stream agrees with XXH32 of the whole input, however the stream is cut. -/

namespace Triangles.XXH

/-- The state after the bytes of `input`, in whatever pieces they came. -/
structure Streamed (seed : UInt32) (input : List UInt8) (s : State) : Prop where
  seed_eq : s.seed = seed
  total : s.total_len = UInt64.ofNat input.length
  lanes : s.v = (Absorb.eat 16 Lanes.stripe (Lanes.start seed) input).1
  memory : s.memory = (Absorb.eat 16 Lanes.stripe (Lanes.start seed) input).2

theorem streamed_init (seed : UInt32) : Streamed seed [] (State.init seed) :=
  ⟨rfl, rfl, rfl, rfl⟩

/-- `memory` holds less than a stripe, so that nothing is ever copied past its 16 bytes. -/
theorem Streamed.memsize_lt {seed : UInt32} {input : List UInt8} {s : State}
    (h : Streamed seed input s) : s.memsize < 16 := by
  unfold State.memsize
  rw [h.memory]
  exact Absorb.eat_rest (by decide) _ _

theorem update_eat (s : State) (input : List UInt8) (hs : s.memsize < 16) :
    ((s.update input).v, (s.update input).memory) =
      Absorb.eat 16 Lanes.stripe s.v (s.memory ++ input) := by
  unfold State.memsize at hs
  by_cases hshort : s.memory.length + input.length < 16
  · have hlen : (s.memory ++ input).length < 16 := by simpa using hshort
    simp [State.update, State.memsize, hshort, Absorb.eat_short hlen]
  · by_cases hempty : s.memory.length = 0
    · have hnil : s.memory = [] := List.eq_nil_of_length_eq_zero hempty
      have hlong : ¬ input.length < 16 := by simpa [hempty] using hshort
      simp [State.update, State.memsize, hnil, hlong]
    · simp only [State.update, State.memsize, hshort, hempty, ↓reduceIte]
      -- the buffer and the bytes that fill it are one stripe
      have hfill : (s.memory ++ input.take (16 - s.memory.length)).length = 16 := by
        simp only [List.length_append, List.length_take]
        omega
      have hcut : s.memory ++ input = (s.memory ++ input.take (16 - s.memory.length)) ++
          input.drop (16 - s.memory.length) := by simp
      rw [hcut, Absorb.eat_block (by decide) hfill]

theorem update_total (s : State) (input : List UInt8) :
    (s.update input).total_len = s.total_len + UInt64.ofNat input.length := by
  unfold State.update
  split <;> rfl

theorem update_seed (s : State) (input : List UInt8) : (s.update input).seed = s.seed := by
  unfold State.update
  split <;> rfl

theorem Streamed.update {seed : UInt32} {before input : List UInt8} {s : State}
    (h : Streamed seed before s) : Streamed seed (before ++ input) (s.update input) := by
  have heat := update_eat s input h.memsize_lt
  rw [h.lanes, h.memory, ← Absorb.eat_append (by decide)] at heat
  refine ⟨?_, ?_, congrArg Prod.fst heat, congrArg Prod.snd heat⟩
  · rw [update_seed, h.seed_eq]
  · rw [update_total, h.total, List.length_append, UInt64.ofNat_add]

theorem Streamed.foldl {seed : UInt32} {before : List UInt8} {s : State} (pieces : List (List UInt8))
    (h : Streamed seed before s) :
    Streamed seed (before ++ pieces.flatten) (pieces.foldl State.update s) := by
  induction pieces generalizing before s with
  | nil => simpa using h
  | cons piece pieces ih =>
    have hnext := ih (@Streamed.update _ _ piece _ h)
    simpa using hnext

theorem Streamed.short {seed : UInt32} {input : List UInt8} {s : State} (h : Streamed seed input s)
    (hshort : input.length < 16) : s.memory = input := by
  rw [h.memory, Absorb.eat_short hshort]

theorem Streamed.digest {seed : UInt32} {input : List UInt8} {s : State} (h : Streamed seed input s)
    (hlen : input.length < 2 ^ 31) : s.digest = xxh32 input seed := by
  have hnat : s.total_len.toNat = input.length := by
    rw [h.total]
    apply UInt64.toNat_ofNat_of_lt
    exact Nat.lt_of_lt_of_le hlen (by decide)
  have hword : s.total_len.toUInt32 = UInt32.ofNat input.length := by
    apply UInt32.toNat_inj.mp
    simp [hnat]
  have hfull : 16 ≤ s.total_len ↔ 16 ≤ input.length := by
    rw [UInt64.le_iff_toNat_le, hnat]
    rfl
  unfold State.digest xxh32
  by_cases h16 : 16 ≤ input.length
  · simp [hfull, h16, hword, h.lanes, h.memory]
  · simp [hfull, h16, hword, h.short (by omega), h.seed_eq]

theorem bucketDigest_eq (setTokens : TokenSet) :
    bucketDigest setTokens =
      ((setTokens.keys.map TokenKey.sample).foldl State.update (State.init 1)).digest := by
  rw [List.foldl_map]
  rfl

/-- However the input is cut into pieces, hashing the pieces gives the hash of the whole, and the
buffer between two pieces holds less than a stripe; so the digest that the loop of `hashBucket`
computes token by token is XXH32 of all the samples of the bucket. -/
theorem xxh32_stream_agrees (seed : UInt32) (pieces : List (List UInt8)) (b : SecMsgBucket)
    (now : Int) (hpieces : pieces.flatten.length < 2 ^ 31)
    (hbucket : b.setTokens.samples.length < 2 ^ 31) :
    (∀ sent, sent <+: pieces → (sent.foldl State.update (State.init seed)).memsize < 16) ∧
      (pieces.foldl State.update (State.init seed)).digest = xxh32 pieces.flatten seed ∧
      bucketDigest b.setTokens = (b.hashBucket (fun samples => xxh32 samples 1) now).hash := by
  refine ⟨fun sent _ => ?_, ?_, ?_⟩
  · exact ((streamed_init seed).foldl sent).memsize_lt
  · exact ((streamed_init seed).foldl pieces).digest hpieces
  · rw [bucketDigest_eq]
    apply ((streamed_init 1).foldl _).digest
    simpa [TokenSet.samples, List.flatMap] using hbucket

namespace Sample

def tokenOf (timestamp : Int) (c : UInt8) (h : InInt64 timestamp) : TokenKey :=
  ⟨timestamp, List.replicate 8 c, h, List.length_replicate⟩

def twoTokens : TokenSet :=
  ((∅ : TokenSet).insert (tokenOf 1 1 ⟨by decide, by decide⟩) 0).insert (tokenOf 2 2 ⟨by decide, by decide⟩) 120

theorem twoTokens_samples : twoTokens.samples.length < 2 ^ 31 := by decide

end Sample

/-- Two pieces that meet inside of a stripe and go past it, and a bucket with two messages. -/
theorem xxh32_stream_agrees_pieces :
    ([List.replicate 10 1, List.replicate 12 2].foldl State.update (State.init 7)).digest =
        xxh32 (List.replicate 10 1 ++ List.replicate 12 2) 7 ∧
      bucketDigest Sample.twoTokens =
        (SecMsgBucket.hashBucket (fun samples => xxh32 samples 1) 0
          { setTokens := Sample.twoTokens }).hash :=
  (xxh32_stream_agrees 7 [List.replicate 10 1, List.replicate 12 2] { setTokens := Sample.twoTokens } 0
    (by decide) Sample.twoTokens_samples).2

/-- The published digest of the empty input. -/
example : xxh32 [] 0 = 0x02CC5D05 := by decide

end Triangles.XXH

/-! Decompression stays inside its buffers, and tells the steps of a well-formed block. -/

namespace Triangles.LZ4

open Lz77

/-! Copying. -/

section Copying

variable {size : Nat} {mem : Nat → UInt8}

theorem load_eq {p width : Nat} (h : p + width ≤ size) :
    load size mem p width = some ((List.range width).map fun i => mem (p + i)) :=
  if_pos h

theorem load_one {p : Nat} (h : p < size) : load size mem p 1 = some [mem p] := by
  rw [load_eq (by omega)]
  rfl

/-- What `memcpy` leaves. -/
def copied (mem : Nat → UInt8) (op : Nat) (src : Nat → UInt8) (ip width : Nat) : Nat → UInt8 :=
  fun i => if op ≤ i ∧ i < op + width then src (ip + (i - op)) else mem i

theorem memcpy_eq {op srcSize ip width : Nat} {src : Nat → UInt8} (hsrc : ip + width ≤ srcSize)
    (hdest : op + width ≤ size) :
    memcpy size mem op srcSize src ip width = some (copied mem op src ip width) := by
  rw [memcpy, load_eq hsrc, Option.bind_some, store, if_pos (by simpa using hdest)]
  congr 1
  funext i
  simp only [List.length_map, List.length_range, copied]
  split
  · rename_i hi
    rw [List.getD_eq_getElem?_getD, List.getElem?_map, List.getElem?_range (by omega)]
    rfl
  · rfl

theorem copied_before {op ip width i : Nat} {src : Nat → UInt8} (h : i < op) :
    copied mem op src ip width i = mem i := if_neg (by omega)

theorem copied_in {op ip width i : Nat} {src : Nat → UInt8} (hlow : op ≤ i) (hi : i < op + width) :
    copied mem op src ip width i = src (ip + (i - op)) := if_pos ⟨hlow, hi⟩

/-- A piece was copied from an offset back: what was there before it is kept. -/
structure Copied (mem mem' : Nat → UInt8) (offset d d' : Nat) : Prop where
  kept : ∀ i, i < d → mem' i = mem i
  repeats : Repeats mem' offset d d'

theorem Copied.trans {mem₁ mem₂ mem₃ : Nat → UInt8} {offset a b c : Nat}
    (h₁ : Copied mem₁ mem₂ offset a b) (h₂ : Copied mem₂ mem₃ offset b c) (hab : a ≤ b) :
    Copied mem₁ mem₃ offset a c := by
  refine ⟨fun i hi => ?_, fun i hi hlt => ?_⟩
  · rw [h₂.kept i (by omega), h₁.kept i hi]
  · by_cases hib : i < b
    · rw [h₂.kept i hib, h₂.kept (i - offset) (by omega), h₁.repeats i hi hib]
    · exact h₂.repeats i (by omega) hlt

theorem copied_word {op ref width : Nat} (h : ref + width ≤ op) :
    Copied mem (copied mem op mem ref width) (op - ref) op (op + width) := by
  refine ⟨fun i hi => copied_before hi, fun i hi hlt => ?_⟩
  rw [copied_in hi hlt, copied_before (by omega)]
  congr 1
  omega

/-- `LZ4_WILDCOPY` within the output stays in it when its end is eight bytes in front of the end of
the output, and copies what lies eight bytes back or more. -/
theorem wildCopy_spec {e rounds d s : Nat} (hd : d + 8 ≤ size) (he : e + 7 ≤ size) (hs : s ≤ d)
    (hrounds : e ≤ d + 8 * rounds) (hpos : 0 < rounds) :
    ∃ mem' d', wildCopy size e rounds mem d s = some (mem', d', d' - (d - s)) ∧ e ≤ d' ∧
      d + 8 ≤ d' ∧ (d' ≤ d + 8 ∨ d' < e + 8) ∧ (∀ i, i < d → mem' i = mem i) ∧
      (8 ≤ d - s → Copied mem mem' (d - s) d d') := by
  induction rounds generalizing mem d s with
  | zero => omega
  | succ rounds ih =>
    have hcopy : memcpy size mem d size mem s 8 = some (copied mem d mem s 8) :=
      memcpy_eq (by omega) hd
    simp only [wildCopy, COPYLENGTH, hcopy, Option.bind_eq_bind, Option.bind_some]
    have hword : 8 ≤ d - s → Copied mem (copied mem d mem s 8) (d - s) d (d + 8) :=
      fun h8 => copied_word (by omega)
    by_cases hlt : d + 8 < e
    · simp only [hlt, if_true]
      obtain ⟨mem', d', heq, hed, hdd, hover, hkept, hcopied⟩ :=
        @ih (copied mem d mem s 8) (d + 8) (s + 8) (by omega) (by omega) (by omega) (by omega)
      have hdist : d + 8 - (s + 8) = d - s := by omega
      rw [hdist] at heq hcopied
      refine ⟨mem', d', heq, hed, by omega, by omega, fun i hi => ?_, fun h8 => ?_⟩
      · rw [hkept i (by omega), copied_before hi]
      · exact (hword h8).trans (hcopied h8) (by omega)
    · simp only [hlt, if_false]
      refine ⟨_, _, by rw [show d + 8 - (d - s) = s + 8 by omega], by omega, Nat.le_refl _,
        .inl (Nat.le_refl _), fun i hi => copied_before hi, hword⟩

theorem wildCopySource_spec {srcSize e rounds d s : Nat} {src : Nat → UInt8} (hd : d + 8 ≤ size)
    (he : e + 7 ≤ size) (hs : s + 8 ≤ srcSize) (hse : s + (e - d) + 7 ≤ srcSize)
    (hrounds : e ≤ d + 8 * rounds) (hpos : 0 < rounds) :
    ∃ mem' d', wildCopySource size srcSize src e rounds mem d s = some (mem', d') ∧
      (∀ i, i < d → mem' i = mem i) ∧ ∀ i, d ≤ i → i < e → mem' i = src (s + (i - d)) := by
  induction rounds generalizing mem d s with
  | zero => omega
  | succ rounds ih =>
    have hcopy : memcpy size mem d srcSize src s 8 = some (copied mem d src s 8) :=
      memcpy_eq hs hd
    simp only [wildCopySource, COPYLENGTH, hcopy, Option.bind_eq_bind, Option.bind_some]
    by_cases hlt : d + 8 < e
    · simp only [hlt, if_true]
      obtain ⟨mem', d', heq, hkept, hcopied⟩ :=
        @ih (copied mem d src s 8) (d + 8) (s + 8) (by omega) (by omega) (by omega) (by omega) (by omega)
      refine ⟨mem', d', heq, fun i hi => ?_, fun i hi hie => ?_⟩
      · rw [hkept i (by omega), copied_before hi]
      · by_cases hi8 : i < d + 8
        · rw [hkept i hi8, copied_in hi hi8]
        · rw [hcopied i (by omega) hie]
          congr 1
          omega
    · simp only [hlt, if_false]
      exact ⟨_, _, rfl, fun i hi => copied_before hi,
        fun i hi hie => copied_in hi (by omega)⟩

theorem byteCopy_spec {cpy rounds op ref : Nat} (hcpy : cpy ≤ size) (href : ref ≤ op)
    (hrounds : cpy ≤ op + rounds) :
    ∃ mem', byteCopy size cpy rounds mem op ref = some mem' ∧ (∀ i, i < op → mem' i = mem i) ∧
      (ref < op → Copied mem mem' (op - ref) op cpy) := by
  induction rounds generalizing mem op ref with
  | zero =>
    refine ⟨mem, rfl, fun _ _ => rfl, fun _ => ⟨fun _ _ => rfl, fun i hi hlt => ?_⟩⟩
    omega
  | succ rounds ih =>
    unfold byteCopy
    by_cases hlt : op < cpy
    · have hcopy : memcpy size mem op size mem ref 1 = some (copied mem op mem ref 1) :=
        memcpy_eq (by omega) (by omega)
      simp only [hlt, if_true, hcopy, Option.bind_eq_bind, Option.bind_some]
      obtain ⟨mem', heq, hkept, hcopied⟩ :=
        @ih (copied mem op mem ref 1) (op + 1) (ref + 1) (by omega) (by omega)
      refine ⟨mem', heq, fun i hi => ?_, fun hback => ?_⟩
      · rw [hkept i (by omega), copied_before hi]
      · have hrest := hcopied (by omega)
        rw [show op + 1 - (ref + 1) = op - ref by omega] at hrest
        exact (copied_word (by omega)).trans hrest (by omega)
    · simp only [hlt, if_false]
      exact ⟨mem, rfl, fun _ _ => rfl, fun _ => ⟨fun _ _ => rfl, fun i hi hlt => by omega⟩⟩

/-- How far the source of the second half of the first eight bytes is ahead, and that of what
follows them. -/
def ahead (offset : Nat) : Nat := ((dec32table.getD offset 0 : Int) - dec64table.getD offset 0).toNat

theorem ahead_eq : ∀ offset < 8, dec32table.getD offset 0 ≤ 4 ∧ ahead offset ≤ 4 ∧
    (dec32table.getD offset 0 : Int) - dec64table.getD offset 0 = ahead offset := by decide

theorem ahead_le : ∀ offset < 8, 0 < offset →
    dec32table.getD offset 0 ≤ offset ∧ ahead offset ≤ offset := by decide

/-- The tables set the source back by multiples of the offset. -/
theorem half_multiple : ∀ offset < 8, 0 < offset → ∃ k < 4,
    offset + 4 - dec32table.getD offset 0 = (k + 1) * offset ∧ k * offset ≤ 4 := by decide

theorem rest_multiple : ∀ offset < 8, 0 < offset → ∃ k < 8,
    offset + 8 - ahead offset = (k + 1) * offset ∧ k * offset ≤ 8 := by decide

theorem overlapCopy_spec {op ref : Nat} (hsmall : op - ref < 8) (hlt : ref < op) :
    ∀ m₁ m₂ m₃ m₄, copied mem op mem ref 1 = m₁ → copied m₁ (op + 1) m₁ (ref + 1) 1 = m₂ →
      copied m₂ (op + 2) m₂ (ref + 2) 1 = m₃ → copied m₃ (op + 3) m₃ (ref + 3) 1 = m₄ →
      Copied mem (copied m₄ (op + 4) m₄ (ref + dec32table.getD (op - ref) 0) 4) (op - ref) op
        (op + 8) := by
  intro m₁ m₂ m₃ m₄ hm₁ hm₂ hm₃ hm₄
  have h₁ : Copied mem m₁ (op - ref) op (op + 1) := hm₁ ▸ copied_word (by omega)
  have h₂ : Copied m₁ m₂ (op - ref) (op + 1) (op + 2) := by
    have := @copied_word m₁ (op + 1) (ref + 1) 1 (by omega)
    rwa [hm₂, show op + 1 - (ref + 1) = op - ref by omega] at this
  have h₃ : Copied m₂ m₃ (op - ref) (op + 2) (op + 3) := by
    have := @copied_word m₂ (op + 2) (ref + 2) 1 (by omega)
    rwa [hm₃, show op + 2 - (ref + 2) = op - ref by omega] at this
  have h₄ : Copied m₃ m₄ (op - ref) (op + 3) (op + 4) := by
    have := @copied_word m₃ (op + 3) (ref + 3) 1 (by omega)
    rwa [hm₄, show op + 3 - (ref + 3) = op - ref by omega] at this
  have hfour := ((h₁.trans h₂ (by omega)).trans h₃ (by omega)).trans h₄ (by omega)
  -- the other four, from a multiple of the offset back
  obtain ⟨hdec32, -⟩ := ahead_le (op - ref) hsmall (by omega)
  have hlast := @copied_word m₄ (op + 4) (ref + dec32table.getD (op - ref) 0) 4 (by omega)
  have hhalf : Repeats (copied m₄ (op + 4) m₄ (ref + dec32table.getD (op - ref) 0) 4)
      (op - ref) op (op + 4) := by
    intro i hi hi4
    rw [copied_before hi4, copied_before (by omega), hfour.repeats i hi hi4]
  refine ⟨fun i hi => ?_, ?_⟩
  · rw [copied_before (by omega), hfour.kept i hi]
  · obtain ⟨k, -, hk, hk4⟩ := half_multiple (op - ref) hsmall (by omega)
    rw [show op + 4 - (ref + dec32table.getD (op - ref) 0) =
      op - ref + 4 - dec32table.getD (op - ref) 0 by omega, hk] at hlast
    exact hhalf.of_multiple k hlast.repeats (Nat.add_le_add_left hk4 op)

/-- The first eight bytes of a match, and the offset from which the rest is copied. -/
theorem firstCopy_spec {op ref : Nat} (hfit : op + 8 ≤ size) (href : ref ≤ op) :
    ∃ mem' ref', firstCopy size mem op ref = some (mem', op + 8, ref') ∧ ref' ≤ op + 8 ∧
      (ref < op → Copied mem mem' (op - ref) op (op + 8) ∧ 8 ≤ op + 8 - ref' ∧
        ∃ k, op + 8 - ref' = (k + 1) * (op - ref) ∧ k * (op - ref) ≤ 8) := by
  unfold firstCopy
  by_cases hsmall : op - ref < 8
  · obtain ⟨hdec32, hfour, hahead⟩ := ahead_eq (op - ref) hsmall
    have href' : ((((ref + dec32table.getD (op - ref) 0 : Nat) : Int) -
        dec64table.getD (op - ref) 0).toNat) = ref + ahead (op - ref) := by
      push_cast
      omega
    simp only [STEPSIZE, hsmall, if_true,
      memcpy_eq (show ref + 1 ≤ size by omega) (show op + 1 ≤ size by omega),
      memcpy_eq (show ref + 1 + 1 ≤ size by omega) (show op + 1 + 1 ≤ size by omega),
      memcpy_eq (show ref + 2 + 1 ≤ size by omega) (show op + 2 + 1 ≤ size by omega),
      memcpy_eq (show ref + 3 + 1 ≤ size by omega) (show op + 3 + 1 ≤ size by omega),
      memcpy_eq (show ref + dec32table.getD (op - ref) 0 + 4 ≤ size by omega)
        (show op + 4 + 4 ≤ size by omega), Option.bind_eq_bind, Option.bind_some, href']
    refine ⟨_, _, rfl, by omega, fun hlt => ?_⟩
    obtain ⟨-, hback⟩ := ahead_le (op - ref) hsmall (by omega)
    refine ⟨overlapCopy_spec hsmall hlt _ _ _ _ rfl rfl rfl rfl, by omega, ?_⟩
    obtain ⟨k, -, hk, hk8⟩ := rest_multiple (op - ref) hsmall (by omega)
    refine ⟨k, ?_, hk8⟩
    rw [← hk]
    omega
  · have hcopy : memcpy size mem op size mem ref 8 = some (copied mem op mem ref 8) :=
      memcpy_eq (by omega) hfit
    simp only [STEPSIZE, hsmall, if_false, hcopy, Option.bind_eq_bind, Option.bind_some]
    exact ⟨_, _, rfl, by omega, fun hlt =>
      ⟨copied_word (by omega), by omega, 0, by omega, by omega⟩⟩

theorem Copied.join {m₁ m₂ : Nat → UInt8} {op ref ref' d : Nat}
    (hfirst : Copied mem m₁ (op - ref) op (op + 8))
    (hmultiple : ∃ k, op + 8 - ref' = (k + 1) * (op - ref) ∧ k * (op - ref) ≤ 8)
    (hrest : Copied m₁ m₂ (op + 8 - ref') (op + 8) d) : Copied mem m₂ (op - ref) op d := by
  obtain ⟨k, hk, hk8⟩ := hmultiple
  rw [hk] at hrest
  refine ⟨fun i hi => ?_, ?_⟩
  · rw [hrest.kept i (by omega), hfirst.kept i hi]
  · have hstart : Repeats m₂ (op - ref) op (op + 8) := by
      intro i hi hi8
      rw [hrest.kept i hi8, hrest.kept (i - (op - ref)) (by omega), hfirst.repeats i hi hi8]
    exact hstart.of_multiple k hrest.repeats (Nat.add_le_add_left hk8 op)

theorem Copied.shorten {m : Nat → UInt8} {offset d e e' : Nat} (h : Copied mem m offset d e)
    (he : e' ≤ e) : Copied mem m offset d e' :=
  ⟨h.kept, h.repeats.mono he⟩

theorem copied_refl (offset d : Nat) : Copied mem mem offset d d :=
  ⟨fun _ _ => rfl, fun i hi hlt => absurd hi (by omega)⟩

/-- A match is copied within the output, or found to reach into the last five bytes. -/
theorem copyMatch_spec {op ref : Nat} (length : Nat) (hfit : op + 12 ≤ size) (href : ref ≤ op) :
    (size < op + 4 + length + 5 ∧ ∃ mem', copyMatch size mem op ref length = some (mem', none)) ∨
      (op + 4 + length + 5 ≤ size ∧
        ∃ mem', copyMatch size mem op ref length = some (mem', some (op + 4 + length)) ∧
          (ref < op → Copied mem mem' (op - ref) op (op + 4 + length))) := by
  obtain ⟨m₁, ref', hfirst, href', hback⟩ :=
    @firstCopy_spec _ mem _ _ (show op + 8 ≤ size by omega) href
  have hcpy : op + 8 + length - (8 - 4) = op + 4 + length := by omega
  unfold copyMatch
  simp only [hfirst, Option.bind_eq_bind, Option.bind_some, STEPSIZE, COPYLENGTH, LASTLITERALS,
    hcpy]
  by_cases hnear : op + 4 + length + 8 + (8 - 4) > size
  · simp only [hnear, if_true]
    by_cases hlong : op + 4 + length + 5 > size
    · exact .inl ⟨hlong, m₁, if_pos hlong⟩
    · refine .inr ⟨by omega, ?_⟩
      simp only [hlong, if_false]
      -- in steps of eight as far as they fit, and then byte by byte
      obtain ⟨m₂, d, hsecure, hd, hcopied₂⟩ : ∃ m₂ d,
          secureCopy size (size - 8) m₁ (op + 8) ref' = some (m₂, d, d - (op + 8 - ref')) ∧
          op + 8 ≤ d ∧ (8 ≤ op + 8 - ref' → Copied m₁ m₂ (op + 8 - ref') (op + 8) d) := by
        unfold secureCopy
        by_cases hstep : op + 8 < size - 8
        · obtain ⟨m₂, d, hwild, -, hd, -, -, hcopied⟩ :=
            @wildCopy_spec size m₁ (size - 8) size (op + 8) ref' (by omega) (by omega) href' (by omega)
              (by omega)
          exact ⟨m₂, d, by rw [if_pos hstep, hwild], by omega, hcopied⟩
        · refine ⟨m₁, op + 8, ?_, Nat.le_refl _, fun _ => copied_refl _ _⟩
          rw [if_neg hstep, Nat.sub_sub_self href']
      obtain ⟨m₃, hbyte, hkept₃, hcopied₃⟩ :=
        @byteCopy_spec size m₂ (op + 4 + length) size d (d - (op + 8 - ref')) (by omega) (by omega)
          (by omega)
      simp only [hsecure, Option.bind_some, hbyte]
      refine ⟨m₃, rfl, fun hlt => ?_⟩
      obtain ⟨hcopied₁, h8, hmultiple⟩ := hback hlt
      have hrest := hcopied₃ (by omega)
      rw [Nat.sub_sub_self (by omega)] at hrest
      by_cases hshort : op + 4 + length ≤ d
      · have hsame : Copied m₂ m₃ (op + 8 - ref') d d :=
          ⟨hkept₃, fun i hi hlt => absurd hi (by omega)⟩
        exact (hcopied₁.join hmultiple ((hcopied₂ h8).trans hsame hd)).shorten hshort
      · exact hcopied₁.join hmultiple ((hcopied₂ h8).trans hrest hd)
  · simp only [hnear, if_false]
    refine .inr ⟨by omega, ?_⟩
    obtain ⟨m₂, d, hwild, hed, hd, -, -, hcopied⟩ :=
      @wildCopy_spec size m₁ (op + 4 + length) size (op + 8) ref' (by omega) (by omega) href' (by omega)
        (by omega)
    simp only [hwild, Option.bind_some]
    refine ⟨m₂, rfl, fun hlt => ?_⟩
    obtain ⟨hcopied₁, h8, hmultiple⟩ := hback hlt
    exact (hcopied₁.join hmultiple (hcopied h8)).shorten hed

end Copying

/-! Lengths. -/

section Decode

variable {srcSize : Nat} {src : Nat → UInt8}

theorem runLength_bounds {rounds ip length : Nat} (hip : ip ≤ srcSize) :
    ∃ ip' length', runLength srcSize src rounds ip length = some (ip', length') ∧ ip ≤ ip' ∧
      ip' ≤ srcSize := by
  induction rounds generalizing ip length with
  | zero => exact ⟨ip, length, rfl, Nat.le_refl ip, hip⟩
  | succ rounds ih =>
    unfold runLength
    by_cases hlt : ip < srcSize
    · simp only [hlt, if_true, load_one hlt, Option.bind_eq_bind, Option.bind_some]
      by_cases hmore : ([src ip].getD 0 0).toNat = 255
      · simp only [hmore, if_true]
        obtain ⟨ip', length', heq, hle, hsize⟩ :=
          @ih (ip + 1) (length + 255) (by omega)
        exact ⟨ip', length', heq, by omega, hsize⟩
      · simp only [hmore, if_false]
        exact ⟨_, _, rfl, by omega, by omega⟩
    · simp only [hlt, if_false]
      exact ⟨_, _, rfl, Nat.le_refl ip, hip⟩

theorem matchLength_bounds {rounds ip length : Nat} (hip : ip + 6 ≤ srcSize) :
    ∃ ip' length', matchLength srcSize src rounds ip length = some (ip', length') ∧ ip ≤ ip' ∧
      ip' + 6 ≤ srcSize := by
  induction rounds generalizing ip length with
  | zero => exact ⟨ip, length, rfl, Nat.le_refl ip, hip⟩
  | succ rounds ih =>
    unfold matchLength
    by_cases hlt : ip + 6 < srcSize
    · simp only [LASTLITERALS, hlt, if_true, load_one (show ip < srcSize by omega),
        Option.bind_eq_bind, Option.bind_some]
      by_cases hmore : ([src ip].getD 0 0).toNat = 255
      · simp only [hmore, if_true]
        obtain ⟨ip', length', heq, hle, hsize⟩ :=
          @ih (ip + 1) (length + 255) (by omega)
        exact ⟨ip', length', heq, by omega, hsize⟩
      · simp only [hmore, if_false]
        exact ⟨_, _, rfl, by omega, by omega⟩
    · simp only [LASTLITERALS, hlt, if_false]
      exact ⟨_, _, rfl, Nat.le_refl ip, hip⟩

theorem getRunLength_bounds {token ip : Nat} (hip : ip ≤ srcSize) :
    ∃ ip' length, getRunLength srcSize src token ip = some (ip', length) ∧ ip ≤ ip' ∧
      ip' ≤ srcSize := by
  unfold getRunLength
  split
  · exact runLength_bounds hip
  · exact ⟨_, _, rfl, Nat.le_refl ip, hip⟩

theorem getMatchLength_bounds {token ip : Nat} (hip : ip + 6 ≤ srcSize) :
    ∃ ip' length, getMatchLength srcSize src token ip = some (ip', length) ∧ ip ≤ ip' ∧
      ip' + 6 ≤ srcSize := by
  unfold getMatchLength
  split
  · exact matchLength_bounds hip
  · exact ⟨_, _, rfl, Nat.le_refl ip, hip⟩

/-! One sequence. -/

variable {size : Nat} {mem : Nat → UInt8}

def offsetAt (src : Nat → UInt8) (ip : Nat) : Nat := leValue [src ip, src (ip + 1)]

theorem decodeLoop_last {rounds ip ip' op length : Nat} (hip : ip < srcSize)
    (hrun : getRunLength srcSize src (src ip).toNat (ip + 1) = some (ip', length))
    (hend : ip' + length = srcSize) (hfit : op + length ≤ size) :
    decodeLoop srcSize src size (rounds + 1) mem ip op =
      some (((op + length : Nat) : Int), copied mem op src ip' length) := by
  have hlast : op + length + MFLIMIT > size ∨ ip' + length + (2 + 1 + LASTLITERALS) > srcSize :=
    .inr (by rw [hend]; exact Nat.lt_add_of_pos_right (by decide))
  have hgood : ¬ (ip' + length ≠ srcSize ∨ op + length > size) := by omega
  simp only [decodeLoop, load_one hip, Option.bind_eq_bind, Option.bind_some, List.getD_cons_zero,
    hrun, hlast, hgood, if_true, if_false, memcpy_eq hend.le hfit]

theorem decodeLoop_error {rounds ip ip' op length : Nat} (hip : ip < srcSize)
    (hrun : getRunLength srcSize src (src ip).toNat (ip + 1) = some (ip', length))
    (hlast : op + length + 12 > size ∨ ip' + length + 8 > srcSize)
    (hbad : ip' + length ≠ srcSize ∨ op + length > size) :
    decodeLoop srcSize src size (rounds + 1) mem ip op = some (-(ip' : Int) - 1, mem) := by
  have hlast' : op + length + MFLIMIT > size ∨ ip' + length + (2 + 1 + LASTLITERALS) > srcSize :=
    hlast
  simp only [decodeLoop, load_one hip, Option.bind_eq_bind, Option.bind_some, List.getD_cons_zero,
    hrun, hlast', hbad, if_true]

/-- A sequence in the middle: its literals are copied, and its match is copied or found to be wrong. -/
theorem decodeLoop_step {rounds ip ip' op length : Nat} (hip : ip < srcSize)
    (hrun : getRunLength srcSize src (src ip).toNat (ip + 1) = some (ip', length))
    (hout : op + length + 12 ≤ size) (hin : ip' + length + 8 ≤ srcSize) :
    ∃ m₁ ip'' more, (∀ i, i < op → m₁ i = mem i) ∧
      (∀ i, op ≤ i → i < op + length → m₁ i = src (ip' + (i - op))) ∧
      getMatchLength srcSize src (src ip).toNat (ip' + length + 2) = some (ip'', more) ∧
      ip' + length + 2 ≤ ip'' ∧ ip'' + 6 ≤ srcSize ∧
      ((∃ q ≤ srcSize, ∃ m₂, decodeLoop srcSize src size (rounds + 1) mem ip op =
          some (-(q : Int) - 1, m₂)) ∧
          (op + length < offsetAt src (ip' + length) ∨ size < op + length + 4 + more + 5) ∨
        offsetAt src (ip' + length) ≤ op + length ∧ op + length + 4 + more + 5 ≤ size ∧
          ∃ m₂, decodeLoop srcSize src size (rounds + 1) mem ip op =
              decodeLoop srcSize src size rounds m₂ ip'' (op + length + 4 + more) ∧
            (1 ≤ offsetAt src (ip' + length) →
              Copied m₁ m₂ (offsetAt src (ip' + length)) (op + length)
                (op + length + 4 + more))) := by
  have hlast : ¬ (op + length + MFLIMIT > size ∨
      ip' + length + (2 + 1 + LASTLITERALS) > srcSize) := by
    simp only [MFLIMIT, COPYLENGTH, MINMATCH, LASTLITERALS]
    omega
  obtain ⟨m₁, d, hwild, hkept, hliterals⟩ :=
    @wildCopySource_spec size mem srcSize (op + length) size op ip' src (by omega) (by omega) (by omega)
      (by omega) (by omega) (by omega)
  obtain ⟨ip'', more, hmatch, hle, hsize⟩ :=
    @getMatchLength_bounds srcSize src ((src ip).toNat) (ip' + length + 2) (by omega)
  have hoffset : load srcSize src (ip' + length) 2 =
      some [src (ip' + length), src (ip' + length + 1)] := by
    rw [load_eq (by omega)]
    rfl
  refine ⟨m₁, ip'', more, hkept, hliterals, hmatch, hle, hsize, ?_⟩
  simp only [decodeLoop, load_one hip, Option.bind_eq_bind, Option.bind_some, List.getD_cons_zero,
    hrun, hlast, if_false, hwild, hoffset, hmatch, ← offsetAt.eq_1]
  by_cases hbefore : op + length < offsetAt src (ip' + length)
  · simp only [hbefore, if_true]
    exact .inl ⟨⟨ip' + length + 2, by omega, m₁, rfl⟩, .inl trivial⟩
  · simp only [hbefore, if_false]
    obtain ⟨hlong, m₂, hcopy⟩ | ⟨hfit, m₂, hcopy, hcopied⟩ :=
      @copyMatch_spec size m₁ (op + length) (op + length - offsetAt src (ip' + length)) more hout
        (by omega)
    · rw [hcopy]
      exact .inl ⟨⟨ip'', by omega, m₂, rfl⟩, .inr hlong⟩
    · rw [hcopy]
      refine .inr ⟨by omega, hfit, m₂, rfl, fun hpos => ?_⟩
      have := hcopied (by omega)
      rwa [Nat.sub_sub_self (by omega)] at this

/-! Any input. -/

/-- Decompression never leaves its buffers: from where a sequence begins. -/
theorem decodeLoop_bounds {rounds ip op : Nat} (hip : ip < srcSize) (hop : op ≤ size)
    (hrounds : srcSize ≤ ip + rounds) :
    ∃ r mem', decodeLoop srcSize src size rounds mem ip op = some (r, mem') ∧ r ≤ size ∧
      -(srcSize : Int) - 1 ≤ r := by
  induction rounds generalizing mem ip op with
  | zero => omega
  | succ rounds ih =>
    obtain ⟨ip', length, hrun, hle, hsize⟩ :=
      @getRunLength_bounds srcSize src ((src ip).toNat) (ip + 1) (by omega)
    by_cases hlast : op + length + 12 > size ∨ ip' + length + 8 > srcSize
    · by_cases hbad : ip' + length ≠ srcSize ∨ op + length > size
      · exact ⟨_, _, decodeLoop_error hip hrun hlast hbad, by omega, by omega⟩
      · exact ⟨_, _, decodeLoop_last hip hrun (by omega) (by omega), by omega, by omega⟩
    · obtain ⟨m₁, ip'', more, -, -, -, hle', hsize', ⟨⟨q, hq, m₂, herror⟩, -⟩ | ⟨-, hfit, m₂, hnext, -⟩⟩ :=
        @decodeLoop_step _ _ _ mem rounds _ _ _ _ hip hrun (show op + length + 12 ≤ size by omega)
          (by omega)
      · exact ⟨_, _, herror, by omega, by omega⟩
      · obtain ⟨r, mem', heq, hr, hlow⟩ := @ih m₂ ip'' (op + length + 4 + more) (by omega) (by omega)
          (by omega)
        exact ⟨r, mem', by rw [hnext, heq], hr, hlow⟩

end Decode

/-- Any input but an empty one is decompressed, or refused, without an access outside of it or of the
output. -/
theorem decompress_in_bounds (src : List UInt8) (size : Nat) (mem : Nat → UInt8) (hsrc : src ≠ []) :
    ∃ r mem', decompressSafe src size mem = some (r, mem') ∧ r ≤ size ∧
      -(src.length : Int) - 1 ≤ r := by
  have hlen := List.length_pos_iff.mpr hsrc
  unfold decompressSafe
  by_cases hzero : size = 0
  · simp only [hzero, if_true]
    refine ⟨_, mem, rfl, ?_⟩
    split <;> omega
  · simp only [hzero, if_false]
    exact decodeLoop_bounds hlen (Nat.zero_le size) (by omega)

/-- A match that would begin before the output. -/
theorem decompress_in_bounds_astray :
    ∃ r mem', decompressSafe [0x10, 97, 2, 0, 0, 0, 0, 0, 0, 0] 32 (fun _ => 0) = some (r, mem') ∧
      r ≤ (32 : Nat) ∧ -((10 : Nat) : Int) - 1 ≤ r :=
  decompress_in_bounds [0x10, 97, 2, 0, 0, 0, 0, 0, 0, 0] 32 (fun _ => 0) (by decide)

end Triangles.LZ4
