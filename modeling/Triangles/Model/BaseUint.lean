import Triangles.Model.UtilText

/-! Wide integers (uint256.h): words of 32 bits, the lowest first, on a machine that keeps the lowest
byte of a word first. -/

namespace Triangles

def WIDTH (BITS : Nat) : Nat := BITS / 32

structure BaseUint (BITS : Nat) where
  pn : List (BitVec 32)
  size : pn.length = WIDTH BITS

namespace BaseUint

variable {BITS : Nat}

def zero (BITS : Nat) : BaseUint BITS := ⟨List.replicate (WIDTH BITS) 0, by simp⟩

def isZero (a : BaseUint BITS) : Bool := a.pn.all (· == 0)

def complement (a : BaseUint BITS) : BaseUint BITS := ⟨a.pn.map (~~~ ·), by simp [a.size]⟩

/-! `operator++` and `operator--`: the words from `pn[i]` on. The loop stops at the last one. -/

def incrementLoop : List (BitVec 32) → List (BitVec 32)
  | [] => []
  | x :: xs => if x + 1 = 0 ∧ xs ≠ [] then (x + 1) :: incrementLoop xs else (x + 1) :: xs

@[simp] theorem incrementLoop_length (pn : List (BitVec 32)) :
    (incrementLoop pn).length = pn.length := by
  induction pn with
  | nil => rfl
  | cons x xs ih =>
    simp only [incrementLoop]
    split <;> simp [ih]

def increment (a : BaseUint BITS) : BaseUint BITS := ⟨incrementLoop a.pn, by simp [a.size]⟩

def decrementLoop : List (BitVec 32) → List (BitVec 32)
  | [] => []
  | x :: xs => if x - 1 = -1 ∧ xs ≠ [] then (x - 1) :: decrementLoop xs else (x - 1) :: xs

@[simp] theorem decrementLoop_length (pn : List (BitVec 32)) :
    (decrementLoop pn).length = pn.length := by
  induction pn with
  | nil => rfl
  | cons x xs ih =>
    simp only [decrementLoop]
    split <;> simp [ih]

def decrement (a : BaseUint BITS) : BaseUint BITS := ⟨decrementLoop a.pn, by simp [a.size]⟩

def postIncrement (a : BaseUint BITS) : BaseUint BITS × BaseUint BITS := (a, a.increment)

def postDecrement (a : BaseUint BITS) : BaseUint BITS × BaseUint BITS := (a, a.decrement)

def neg (a : BaseUint BITS) : BaseUint BITS := a.complement.increment

/-! The low and the high word of a `uint64_t`. -/

def low (b : BitVec 64) : BitVec 32 := b.setWidth 32

def high (b : BitVec 64) : BitVec 32 := (b >>> 32).setWidth 32

def assign64 (BITS : Nat) (b : BitVec 64) : BaseUint BITS :=
  ⟨((zero BITS).pn.set 0 (low b)).set 1 (high b), by simp [(zero BITS).size]⟩

/-! The bitwise operators. -/

def zipAssign (op : BitVec 32 → BitVec 32 → BitVec 32) (a b : BaseUint BITS) : BaseUint BITS :=
  ⟨List.zipWith op a.pn b.pn, by simp [a.size, b.size]⟩

def xorAssign (a b : BaseUint BITS) : BaseUint BITS := zipAssign (· ^^^ ·) a b

def andAssign (a b : BaseUint BITS) : BaseUint BITS := zipAssign (· &&& ·) a b

def orAssign (a b : BaseUint BITS) : BaseUint BITS := zipAssign (· ||| ·) a b

/-- The same with a `uint64_t`, which only the two lowest words see. -/
def zipAssign64 (op : BitVec 32 → BitVec 32 → BitVec 32) (a : BaseUint BITS) (b : BitVec 64) :
    BaseUint BITS :=
  ⟨(a.pn.modify 0 (op · (low b))).modify 1 (op · (high b)), by simp [a.size]⟩

def xorAssign64 (a : BaseUint BITS) (b : BitVec 64) : BaseUint BITS := zipAssign64 (· ^^^ ·) a b

def orAssign64 (a : BaseUint BITS) (b : BitVec 64) : BaseUint BITS := zipAssign64 (· ||| ·) a b

/-! Shifts. -/

def orAt (pn : List (BitVec 32)) (i : Nat) (v : BitVec 32) : List (BitVec 32) := pn.modify i (· ||| v)

def shlStep (a : BaseUint BITS) (k shift : Nat) (pn : List (BitVec 32)) (i : Nat) : List (BitVec 32) :=
  let pn := if i + k + 1 < WIDTH BITS ∧ shift ≠ 0 then orAt pn (i + k + 1) (a.pn.getD i 0 >>> (32 - shift))
    else pn
  if i + k < WIDTH BITS then orAt pn (i + k) (a.pn.getD i 0 <<< shift) else pn

def shrStep (a : BaseUint BITS) (k shift : Nat) (pn : List (BitVec 32)) (i : Nat) : List (BitVec 32) :=
  let pn := if k + 1 ≤ i ∧ shift ≠ 0 then orAt pn (i - k - 1) (a.pn.getD i 0 <<< (32 - shift)) else pn
  if k ≤ i then orAt pn (i - k) (a.pn.getD i 0 >>> shift) else pn

@[simp] theorem shlStep_length (a : BaseUint BITS) (k shift : Nat) (pn : List (BitVec 32)) (i : Nat) :
    (shlStep a k shift pn i).length = pn.length := by
  simp only [shlStep, orAt]
  split <;> split <;> simp

@[simp] theorem shrStep_length (a : BaseUint BITS) (k shift : Nat) (pn : List (BitVec 32)) (i : Nat) :
    (shrStep a k shift pn i).length = pn.length := by
  simp only [shrStep, orAt]
  split <;> split <;> simp

def shiftLoop (step : List (BitVec 32) → Nat → List (BitVec 32)) (BITS : Nat) : List (BitVec 32) :=
  (List.range (WIDTH BITS)).foldl step (zero BITS).pn

theorem foldl_length (step : List (BitVec 32) → Nat → List (BitVec 32))
    (hstep : ∀ pn i, (step pn i).length = pn.length) (is : List Nat) (pn : List (BitVec 32)) :
    (is.foldl step pn).length = pn.length := by
  induction is generalizing pn with
  | nil => rfl
  | cons i is ih => rw [List.foldl_cons, ih, hstep]

def shlAssign (a : BaseUint BITS) (shift : BitVec 32) : BaseUint BITS where
  pn := shiftLoop (shlStep a (shift.toNat / 32) (shift.toNat % 32)) BITS
  size := by
    rw [shiftLoop, foldl_length _ (fun pn i => by simp)]
    exact (zero BITS).size

def shrAssign (a : BaseUint BITS) (shift : BitVec 32) : BaseUint BITS where
  pn := shiftLoop (shrStep a (shift.toNat / 32) (shift.toNat % 32)) BITS
  size := by
    rw [shiftLoop, foldl_length _ (fun pn i => by simp)]
    exact (zero BITS).size

/-! Sums. -/

def addLoop (carry : BitVec 64) : List (BitVec 32) → List (BitVec 32) → List (BitVec 32)
  | x :: xs, y :: ys =>
    let n := carry + x.setWidth 64 + y.setWidth 64
    (n &&& 0xffffffff).setWidth 32 :: addLoop (n >>> 32) xs ys
  | _, _ => []

@[simp] theorem addLoop_length (carry : BitVec 64) (xs ys : List (BitVec 32)) :
    (addLoop carry xs ys).length = min xs.length ys.length := by
  induction xs generalizing carry ys with
  | nil => simp [addLoop]
  | cons x xs ih =>
    cases ys with
    | nil => simp [addLoop]
    | cons y ys => simp [addLoop, ih]

def addAssign (a b : BaseUint BITS) : BaseUint BITS := ⟨addLoop 0 a.pn b.pn, by simp [a.size, b.size]⟩

def subAssign (a b : BaseUint BITS) : BaseUint BITS := a.addAssign b.neg

def addAssign64 (a : BaseUint BITS) (b64 : BitVec 64) : BaseUint BITS := a.addAssign (assign64 BITS b64)

def subAssign64 (a : BaseUint BITS) (b64 : BitVec 64) : BaseUint BITS := a.addAssign (assign64 BITS b64).neg

/-! Comparisons. -/

def compareLoop (yes no : BitVec 32 → BitVec 32 → Bool) (same : Bool) :
    List (BitVec 32) → List (BitVec 32) → Bool
  | x :: xs, y :: ys => if yes x y then true else if no x y then false else compareLoop yes no same xs ys
  | _, _ => same

def less (a b : BaseUint BITS) : Bool :=
  compareLoop (fun x y => x < y) (fun x y => x > y) false a.pn.reverse b.pn.reverse

def lessEq (a b : BaseUint BITS) : Bool :=
  compareLoop (fun x y => x < y) (fun x y => x > y) true a.pn.reverse b.pn.reverse

def greater (a b : BaseUint BITS) : Bool :=
  compareLoop (fun x y => x > y) (fun x y => x < y) false a.pn.reverse b.pn.reverse

def greaterEq (a b : BaseUint BITS) : Bool :=
  compareLoop (fun x y => x > y) (fun x y => x < y) true a.pn.reverse b.pn.reverse

def equal (a b : BaseUint BITS) : Bool := (a.pn.zip b.pn).all fun w => w.1 == w.2

def equal64 (a : BaseUint BITS) (b : BitVec 64) : Bool :=
  if a.pn.getD 0 0 ≠ low b then false
  else if a.pn.getD 1 0 ≠ high b then false
  else (a.pn.drop 2).all (· == 0)

def notEqual (a b : BaseUint BITS) : Bool := !a.equal b

def notEqual64 (a : BaseUint BITS) (b : BitVec 64) : Bool := !a.equal64 b

/-! Text. -/

def wordBytes (x : BitVec 32) : List (BitVec 8) :=
  [x.extractLsb' 0 8, x.extractLsb' 8 8, x.extractLsb' 16 8, x.extractLsb' 24 8]

def bytes (a : BaseUint BITS) : List (BitVec 8) := a.pn.flatMap wordBytes

def words : List (BitVec 8) → List (BitVec 32)
  | b0 :: b1 :: b2 :: b3 :: rest => (b3 ++ b2 ++ b1 ++ b0) :: words rest
  | _ => []

def hexByte (b : BitVec 8) : List UInt8 :=
  [letter (ascii "0123456789abcdef") (b >>> 4).toNat, letter (ascii "0123456789abcdef") (b &&& 15).toNat]

def getHex (a : BaseUint BITS) : List UInt8 := a.bytes.reverse.flatMap hexByte

def phexdigitTable : List (BitVec 8) := [
  0,0,0,0,0,0,0,0,0,0,0,0,0,0,0,0, 0,0,0,0,0,0,0,0,0,0,0,0,0,0,0,0,
  0,0,0,0,0,0,0,0,0,0,0,0,0,0,0,0, 0,1,2,3,4,5,6,7,8,9,0,0,0,0,0,0,
  0,0xa,0xb,0xc,0xd,0xe,0xf,0,0,0,0,0,0,0,0,0, 0,0,0,0,0,0,0,0,0,0,0,0,0,0,0,0,
  0,0xa,0xb,0xc,0xd,0xe,0xf,0,0,0,0,0,0,0,0,0 ]

def phexdigit (c : UInt8) : BitVec 8 := phexdigitTable.getD c.toNat 0

def toLowerC (c : UInt8) : UInt8 := if 0x41 ≤ c ∧ c ≤ 0x5a then c + 32 else c

def skip0x (psz : List UInt8) : List UInt8 :=
  if psz.getD 0 0 = 0x30 ∧ toLowerC (psz.getD 1 0) = 0x78 then psz.drop 2 else psz

/-- The memory from `p1` to `pend`, cleared before, once the digits before `psz` are written, the last
one first. Of an odd number of digits the last one is alone in its byte. -/
def writeDigits : Nat → List UInt8 → List (BitVec 8)
  | 0, _ => []
  | room + 1, [] => 0 :: writeDigits room []
  | room + 1, [c] => phexdigit c :: writeDigits room []
  | room + 1, c :: d :: psz => (phexdigit c ||| phexdigit d <<< 4) :: writeDigits room psz

@[simp] theorem writeDigits_length (room : Nat) (psz : List UInt8) :
    (writeDigits room psz).length = room := by
  fun_induction writeDigits room psz <;> simp_all

theorem words_length (mem : List (BitVec 8)) : (words mem).length = mem.length / 4 := by
  fun_induction words mem with
  | case1 b0 b1 b2 b3 rest ih =>
    simp [ih]
    omega
  | case2 mem h =>
    have hshort : mem.length < 4 := by
      by_contra hlong
      obtain ⟨b0, b1, b2, b3, rest, rfl⟩ : ∃ b0 b1 b2 b3 rest, mem = b0 :: b1 :: b2 :: b3 :: rest := by
        match mem, hlong with
        | b0 :: b1 :: b2 :: b3 :: rest, _ => exact ⟨b0, b1, b2, b3, rest, rfl⟩
        | [], h | [_], h | [_, _], h | [_, _, _], h => simp at h
      exact h b0 b1 b2 b3 rest rfl
    simp
    omega

def setHex (BITS : Nat) (str : List UInt8) : BaseUint BITS :=
  let psz := skip0x ((cStr str).dropWhile isSpace)
  let digits := psz.takeWhile fun c => phexdigit c ≠ 0 || c == 0x30
  ⟨words (writeDigits (WIDTH BITS * 4) digits.reverse), by simp [words_length]⟩

end BaseUint

end Triangles
