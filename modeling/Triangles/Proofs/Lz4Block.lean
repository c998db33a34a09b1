import Triangles.Proofs.Lz4Decode

/-! The blocks of the format, and that decompression tells what they say. -/

namespace Triangles.LZ4

open Lz77

/-! Blocks. -/

def extBytes (n : Nat) : List UInt8 :=
  if n < 15 then []
  else List.replicate ((n - 15) / 255) 255 ++ [UInt8.ofNat ((n - 15) % 255)]

def tokenOf (ll ml : Nat) : UInt8 := UInt8.ofNat (min ll 15 * 16 + min ml 15)

def code (s : Step UInt8) : List UInt8 :=
  tokenOf s.literals.length (s.length - 4) :: (extBytes s.literals.length ++ (s.literals ++
    (wordBytes 2 s.offset ++ extBytes (s.length - 4))))

def lastCode (last : List UInt8) : List UInt8 :=
  tokenOf last.length 0 :: (extBytes last.length ++ last)

def block (steps : List (Step UInt8)) (last : List UInt8) : List UInt8 :=
  steps.flatMap code ++ lastCode last

/-- The steps tell a text of `n` bytes from a place on: matches repeat what was told, begin twelve
bytes before the end at the latest, and leave five bytes at least for the last literals. -/
def Tells (n : Nat) (last : List UInt8) : Nat → List (Step UInt8) → Prop
  | pos, [] => pos + last.length = n
  | pos, s :: steps =>
    pos + s.literals.length + 12 ≤ n ∧ 5 ≤ last.length ∧ 1 ≤ s.offset ∧
      s.offset ≤ pos + s.literals.length ∧ s.offset < 2 ^ 16 ∧ 4 ≤ s.length ∧
      Tells n last (pos + s.literals.length + s.length) steps

theorem Tells.le {n pos : Nat} {last : List UInt8} {steps : List (Step UInt8)}
    (h : Tells n last pos steps) : pos + last.length ≤ n := by
  induction steps generalizing pos with
  | nil => exact Nat.le_of_eq h
  | cons s steps ih =>
    obtain ⟨-, -, -, -, -, -, hrest⟩ := h
    have := ih hrest
    omega

theorem block_cons (s : Step UInt8) (steps : List (Step UInt8)) (last : List UInt8) :
    block (s :: steps) last = code s ++ block steps last := by
  rw [block, block, List.flatMap_cons, List.append_assoc]

theorem length_block_ge (steps : List (Step UInt8)) (last : List UInt8) :
    last.length + 1 ≤ (block steps last).length := by
  simp [block, lastCode]
  omega

/-! The input from a place on. -/

section Input

variable {src : List UInt8}

theorem drop_cons {ip : Nat} {a : UInt8} {l : List UInt8} (h : src.drop ip = a :: l) :
    ip < src.length ∧ src.getD ip 0 = a ∧ src.drop (ip + 1) = l := by
  have hlen : ip < src.length := by
    by_contra hge
    rw [List.drop_of_length_le (by omega)] at h
    cases h
  refine ⟨hlen, ?_, ?_⟩
  · rw [List.getD_eq_getElem?_getD, ← List.head?_drop, h]
    rfl
  · rw [← List.tail_drop, h]
    rfl

theorem drop_append {ip : Nat} {l l' : List UInt8} (hip : ip ≤ src.length)
    (h : src.drop ip = l ++ l') :
    src.drop (ip + l.length) = l' ∧ (∀ j, j < l.length → src.getD (ip + j) 0 = l.getD j 0) ∧
      src.length = ip + l.length + l'.length := by
  have hlen := congrArg List.length h
  rw [List.length_drop, List.length_append] at hlen
  refine ⟨?_, fun j hj => ?_, by omega⟩
  · rw [← List.drop_drop, h, List.drop_left]
  · have hget : (src.drop ip)[j]? = l[j]? := by
      rw [h, List.getElem?_append_left hj]
    rw [List.getElem?_drop] at hget
    rw [List.getD_eq_getElem?_getD, hget, List.getD_eq_getElem?_getD]

theorem runLength_ext {k rounds ip length : Nat} {b : UInt8} {rest : List UInt8}
    (h : src.drop ip = List.replicate k 255 ++ b :: rest) (hb : b ≠ 255) (hrounds : k < rounds) :
    runLength src.length (fun i => src.getD i 0) rounds ip length =
      some (ip + k + 1, length + 255 * k + b.toNat) := by
  induction k generalizing rounds ip length with
  | zero =>
    obtain ⟨rounds, rfl⟩ : ∃ m, rounds = m + 1 := ⟨rounds - 1, by omega⟩
    obtain ⟨hip, hget, -⟩ := drop_cons h
    have hend : b.toNat ≠ 255 := fun hc => hb (UInt8.toNat_inj.mp hc)
    simp only [runLength, hip, if_true, load_one hip, hget, Option.bind_eq_bind, Option.bind_some,
      List.getD_cons_zero, hend, if_false, Nat.add_zero, Nat.mul_zero]
  | succ k ih =>
    obtain ⟨rounds, rfl⟩ : ∃ m, rounds = m + 1 := ⟨rounds - 1, by omega⟩
    rw [List.replicate_succ, List.cons_append] at h
    obtain ⟨hip, hget, hdrop⟩ := drop_cons h
    have hrec := @ih rounds _ (length + 255) hdrop (by omega)
    have hmore : (255 : UInt8).toNat = 255 := rfl
    simp only [runLength, hip, if_true, load_one hip, hget, Option.bind_eq_bind, Option.bind_some,
      List.getD_cons_zero, hmore, hrec]
    refine congrArg some (Prod.ext ?_ ?_) <;> dsimp only <;> omega

theorem matchLength_ext {k rounds ip length : Nat} {b : UInt8} {rest : List UInt8}
    (h : src.drop ip = List.replicate k 255 ++ b :: rest) (hb : b ≠ 255) (hrest : 6 ≤ rest.length)
    (hrounds : k < rounds) :
    matchLength src.length (fun i => src.getD i 0) rounds ip length =
      some (ip + k + 1, length + 255 * k + b.toNat) := by
  induction k generalizing rounds ip length with
  | zero =>
    obtain ⟨rounds, rfl⟩ : ∃ m, rounds = m + 1 := ⟨rounds - 1, by omega⟩
    obtain ⟨hip, hget, hdrop⟩ := drop_cons h
    have hlen := congrArg List.length hdrop
    rw [List.length_drop] at hlen
    have hroom : ip + (LASTLITERALS + 1) < src.length := by
      rw [LASTLITERALS]
      omega
    have hend : b.toNat ≠ 255 := fun hc => hb (UInt8.toNat_inj.mp hc)
    simp only [matchLength, hroom, if_true, load_one hip, hget, Option.bind_eq_bind,
      Option.bind_some, List.getD_cons_zero, hend, if_false, Nat.add_zero, Nat.mul_zero]
  | succ k ih =>
    obtain ⟨rounds, rfl⟩ : ∃ m, rounds = m + 1 := ⟨rounds - 1, by omega⟩
    rw [List.replicate_succ, List.cons_append] at h
    obtain ⟨hip, hget, hdrop⟩ := drop_cons h
    have hlen := congrArg List.length hdrop
    rw [List.length_drop, List.length_append, List.length_cons] at hlen
    have hroom : ip + (LASTLITERALS + 1) < src.length := by
      rw [LASTLITERALS]
      omega
    have hrec := @ih rounds _ (length + 255) hdrop (by omega)
    have hmore : (255 : UInt8).toNat = 255 := rfl
    simp only [matchLength, hroom, if_true, load_one hip, hget, Option.bind_eq_bind,
      Option.bind_some, List.getD_cons_zero, hmore, hrec]
    refine congrArg some (Prod.ext ?_ ?_) <;> dsimp only <;> omega

theorem tokenOf_toNat (ll ml : Nat) : (tokenOf ll ml).toNat = min ll 15 * 16 + min ml 15 := by
  simp only [tokenOf, UInt8.toNat_ofNat']
  omega

theorem token_run (ll ml : Nat) : (tokenOf ll ml).toNat >>> ML_BITS = min ll 15 := by
  rw [tokenOf_toNat, Nat.shiftRight_eq_div_pow, ML_BITS]
  omega

theorem token_match (ll ml : Nat) : (tokenOf ll ml).toNat &&& ML_MASK = min ml 15 := by
  have hmask : (tokenOf ll ml).toNat &&& 15 = (tokenOf ll ml).toNat % 16 :=
    Nat.and_two_pow_sub_one_eq_mod _ 4
  rw [ML_MASK, hmask, tokenOf_toNat]
  omega

theorem ext_end (n : Nat) : (UInt8.ofNat ((n - 15) % 255)).toNat = (n - 15) % 255 ∧
    UInt8.ofNat ((n - 15) % 255) ≠ 255 := by
  have hmod : (n - 15) % 255 < 255 := Nat.mod_lt _ (by decide)
  have hnat : (UInt8.ofNat ((n - 15) % 255)).toNat = (n - 15) % 255 := by
    rw [UInt8.toNat_ofNat']
    omega
  refine ⟨hnat, fun hc => ?_⟩
  have h255 : (n - 15) % 255 = 255 := by
    rw [← hnat, hc]
    rfl
  omega

theorem getRunLength_code {ll ml ip : Nat} {rest : List UInt8}
    (h : src.drop ip = extBytes ll ++ rest) :
    getRunLength src.length (fun i => src.getD i 0) (tokenOf ll ml).toNat ip =
      some (ip + (extBytes ll).length, ll) := by
  unfold getRunLength
  rw [token_run]
  by_cases hsmall : ll < 15
  · have hmask : ¬ min ll 15 = RUN_MASK := by
      rw [RUN_MASK]
      omega
    rw [if_neg hmask]
    simp [extBytes, hsmall]
    omega
  · have hmask : min ll 15 = RUN_MASK := by
      rw [RUN_MASK]
      omega
    obtain ⟨hnat, hne⟩ := ext_end ll
    rw [extBytes, if_neg hsmall, List.append_assoc, List.singleton_append] at h
    have hlen := congrArg List.length h
    rw [List.length_drop, List.length_append, List.length_replicate, List.length_cons] at hlen
    rw [if_pos hmask, runLength_ext h hne (by omega), hnat, extBytes, if_neg hsmall, RUN_MASK]
    simp only [List.length_append, List.length_replicate, List.length_singleton]
    congr 2
    omega

theorem getMatchLength_code {ll ml ip : Nat} {rest : List UInt8}
    (h : src.drop ip = extBytes ml ++ rest) (hrest : 6 ≤ rest.length) :
    getMatchLength src.length (fun i => src.getD i 0) (tokenOf ll ml).toNat ip =
      some (ip + (extBytes ml).length, ml) := by
  unfold getMatchLength
  rw [token_match]
  by_cases hsmall : ml < 15
  · have hmask : ¬ min ml 15 = ML_MASK := by
      rw [ML_MASK]
      omega
    rw [if_neg hmask]
    simp [extBytes, hsmall]
    omega
  · have hmask : min ml 15 = ML_MASK := by
      rw [ML_MASK]
      omega
    obtain ⟨hnat, hne⟩ := ext_end ml
    rw [extBytes, if_neg hsmall, List.append_assoc, List.singleton_append] at h
    have hlen := congrArg List.length h
    rw [List.length_drop, List.length_append, List.length_replicate, List.length_cons] at hlen
    rw [if_pos hmask, matchLength_ext h hne hrest (by omega), hnat, extBytes, if_neg hsmall, ML_MASK]
    simp only [List.length_append, List.length_replicate, List.length_singleton]
    congr 2
    omega

end Input

/-! The output. -/

def told (mem : Nat → UInt8) (op : Nat) : List UInt8 := (List.range op).map mem

theorem told_literals {mem m₁ : Nat → UInt8} {src literals : List UInt8} {op ip : Nat}
    (hkept : ∀ i, i < op → m₁ i = mem i)
    (hcopied : ∀ i, op ≤ i → i < op + literals.length → m₁ i = src.getD (ip + (i - op)) 0)
    (hsrc : ∀ j, j < literals.length → src.getD (ip + j) 0 = literals.getD j 0) :
    told m₁ (op + literals.length) = told mem op ++ literals := by
  rw [told, List.range_add, List.map_append, told, List.map_map]
  congr 1
  · exact List.map_congr_left fun i hi => hkept i (List.mem_range.mp hi)
  · apply List.ext_getElem
    · simp
    · intro j hj hj'
      have hlt : j < literals.length := hj'
      simp only [List.getElem_map, List.getElem_range, Function.comp_apply]
      rw [hcopied (op + j) (by omega) (by omega), Nat.add_sub_cancel_left, hsrc j hlt,
        List.getD_eq_getElem?_getD, List.getElem?_eq_getElem hlt, Option.getD_some]

/-- Decompressing a block tells its steps and its last literals. -/
theorem decodeLoop_block {src last : List UInt8} {n size : Nat} (hn : n ≤ size)
    (steps : List (Step UInt8)) {ip pos rounds : Nat} {mem : Nat → UInt8}
    (hsrc : src.drop ip = block steps last) (htells : Tells n last pos steps)
    (hrounds : steps.length < rounds) :
    ∃ mem', decodeLoop src.length (fun i => src.getD i 0) size rounds mem ip pos =
        some ((n : Int), mem') ∧
      told mem' n = steps.foldl Step.play (told mem pos) ++ last := by
  induction steps generalizing ip pos rounds mem with
  | nil =>
    obtain ⟨rounds, rfl⟩ : ∃ m, rounds = m + 1 := ⟨rounds - 1, by omega⟩
    obtain ⟨hip, htoken, hdrop⟩ := drop_cons (show src.drop ip = tokenOf last.length 0 ::
      (extBytes last.length ++ last) from hsrc)
    obtain ⟨hlits, -, hlen⟩ := drop_append hip hdrop
    have hrun := @getRunLength_code _ _ 0 _ _ hdrop
    rw [← htoken] at hrun
    obtain ⟨-, hget, -⟩ := @drop_append src (ip + 1 + (extBytes last.length).length) last [] (by omega)
      (by rw [List.append_nil]; exact hlits)
    obtain rfl : pos + last.length = n := htells
    refine ⟨_, decodeLoop_last hip hrun (by omega) hn, ?_⟩
    exact told_literals (fun i hi => copied_before hi) (fun i hi hlt => copied_in hi hlt) hget
  | cons s steps ih =>
    obtain ⟨rounds, rfl⟩ : ∃ m, rounds = m + 1 := ⟨rounds - 1, by omega⟩
    obtain ⟨hout, hfive, hoffset, hback, hword, hfour, hrest⟩ := htells
    rw [block_cons] at hsrc
    obtain ⟨hip, htoken, hdrop⟩ := drop_cons (show src.drop ip =
      tokenOf s.literals.length (s.length - 4) :: (extBytes s.literals.length ++ (s.literals ++
        (wordBytes 2 s.offset ++ (extBytes (s.length - 4) ++ block steps last)))) by
        rw [hsrc]
        simp [code])
    obtain ⟨hdrop₁, -, hlen₁⟩ := drop_append hip hdrop
    obtain ⟨hdrop₂, hget, hlen₂⟩ := @drop_append src (ip + 1 + (extBytes s.literals.length).length) _ _
      (by omega) hdrop₁
    obtain ⟨hdrop₃, hgetOffset, hlen₃⟩ := @drop_append src
      (ip + 1 + (extBytes s.literals.length).length + s.literals.length) _ _ (by omega) hdrop₂
    rw [wordBytes_length] at hdrop₃ hgetOffset hlen₃
    obtain ⟨hdrop₄, -, hlen₄⟩ := @drop_append src
      (ip + 1 + (extBytes s.literals.length).length + s.literals.length + 2) _ _ (by omega) hdrop₃
    have hblock := length_block_ge steps last
    have hrun := @getRunLength_code _ _ (s.length - 4) _ _ hdrop
    have hmatch := @getMatchLength_code _ s.literals.length _ _ _ hdrop₃ (by omega)
    rw [← htoken] at hrun hmatch
    have hoffsetAt : offsetAt (fun i => src.getD i 0)
        (ip + 1 + (extBytes s.literals.length).length + s.literals.length) = s.offset := by
      have h0 := hgetOffset 0 (by decide)
      have h1 := hgetOffset 1 (by decide)
      have hvalue := leValue_wordBytes 2 s.offset
      rw [Nat.mod_eq_of_lt (show s.offset < 256 ^ 2 from hword)] at hvalue
      simp only [offsetAt, Nat.add_zero] at h0 ⊢
      rw [h0, h1]
      exact hvalue
    obtain ⟨m₁, ip'', more, hkept, hliterals, hmore, -, -, hstep⟩ :=
      @decodeLoop_step _ _ size mem rounds _ _ pos _ hip hrun (by omega) (by omega)
    rw [hmatch] at hmore
    obtain ⟨rfl, rfl⟩ := Prod.mk.inj (Option.some.inj hmore)
    rw [hoffsetAt] at hstep
    have hlength : pos + s.literals.length + 4 + (s.length - 4) =
        pos + s.literals.length + s.length := by omega
    have hle := hrest.le
    rw [hlength] at hstep
    obtain ⟨-, hwrong⟩ | ⟨-, -, m₂, hnext, hcopied⟩ := hstep
    · omega
    · obtain ⟨mem', heq, htold⟩ := @ih _ _ rounds m₂ hdrop₄ hrest
        (by rw [List.length_cons] at hrounds; omega)
      refine ⟨mem', by rw [hnext, heq], ?_⟩
      obtain ⟨hkept₂, hrepeats⟩ := hcopied hoffset
      have hplay : s.play (told mem pos) = told m₂ (pos + s.literals.length + s.length) := by
        rw [Step.play, ← told_literals hkept hliterals hget]
        exact copyBack_mem hoffset hback hkept₂ hrepeats
      rw [htold, List.foldl_cons, hplay]

/-- Decompression of a block into a buffer that holds what it tells. -/
theorem decompressSafe_block {steps : List (Step UInt8)} {last : List UInt8} {n size : Nat}
    (htells : Tells n last 0 steps) (hn : n ≤ size) (mem : Nat → UInt8) :
    ∃ mem', decompressSafe (block steps last) size mem = some ((n : Int), mem') ∧
      told mem' n = steps.foldl Step.play [] ++ last := by
  unfold decompressSafe
  by_cases hzero : size = 0
  · -- nothing is told
    obtain rfl : n = 0 := by omega
    cases steps with
    | nil =>
      obtain rfl : last = [] := List.eq_nil_of_length_eq_zero (by
        have : 0 + last.length = 0 := htells
        omega)
      simp only [hzero, if_true]
      exact ⟨mem, rfl, rfl⟩
    | cons s steps =>
      have := htells.1
      omega
  · simp only [hzero, if_false]
    have hrounds : steps.length < (block steps last).length := by
      have hcode : steps.length ≤ (steps.flatMap code).length := by
        clear htells
        induction steps with
        | nil => exact Nat.le_refl 0
        | cons s steps ih =>
          have hone : 1 ≤ (code s).length := by simp [code]
          rw [List.flatMap_cons, List.length_append, List.length_cons]
          omega
      have hlast : 1 ≤ (lastCode last).length := by simp [lastCode]
      rw [block, List.length_append]
      omega
    exact decodeLoop_block hn steps List.drop_zero htells hrounds

end Triangles.LZ4
